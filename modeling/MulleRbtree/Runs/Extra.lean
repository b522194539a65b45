import MulleRbtree.Runs.Asserts
import MulleRbtree.Runs.Order

/-!
# Records in extra mode

The size of the value areas, and what `_mulle__rbtree_init_node` copies to them.

* `areaSize_init`: the value area has `node_extra` bytes, rounded up to whole pointers and at least
  one pointer; `areaSize_word`: so it is in `size_t`, for nodes that fit into the address space;
* `ReadsWithin`, `CopiesRecord`: a record of `n` bytes is copied, and nothing behind it is read;
* `copiesRecord_of_run`: so it is when `node_extra = n` is a number of whole pointers;
* `Origin`, `KeepsRecords`: every attached node holds the record it was added for;
* `keepsRecords_of_run`: under `node_extra = size - sizeof( void *)` so it is when records are
  pointers.
-/

namespace MulleRbtree

open BinaryTree Cells Program

variable {σ : Type} [MulleStorage σ]

/-! ### The size of the value areas -/

/-- `_mulle__rbtree_get_extra_size`: from `&node->payload` to the end of the slot. -/
def areaSize (s : Base σ) : ℕ := MulleStorage.getElementSize s.nodes - offsetofPayload

theorem areaSize_init (config : Config) :
    areaSize (Base.initWithConfig config : Base σ) =
      alignUp (max config.nodeExtra sizeofPointer) sizeofPointer := by
  have hsize : areaSize (Base.initWithConfig config : Base σ) =
      alignUp (Base.nodeSize config.nodeExtra) alignofRbnode - offsetofPayload := by
    rw [areaSize]
    exact congrArg (· - offsetofPayload) (MulleStorage.elementSize_init _ _ _)
  have hoffset : offsetofPayload = 32 := rfl
  have hnode : sizeofRbnode = 40 := rfl
  rw [hsize]
  simp only [Base.nodeSize, hoffset, hnode, alignUp, alignofRbnode, sizeofPointer]
  split_ifs <;> omega

theorem alignUp_pointer_eq_iff {n : ℕ} (hn : 1 ≤ n) :
    alignUp (max n sizeofPointer) sizeofPointer ≤ n ↔ sizeofPointer ∣ n := by
  simp only [alignUp, sizeofPointer]
  omega

theorem le_alignUp_pointer (n : ℕ) : n ≤ alignUp (max n sizeofPointer) sizeofPointer := by
  simp only [alignUp, sizeofPointer]
  omega

/-- `nodeSize` as the code computes it, in `size_t`. -/
def nodeSizeWord (nodeExtra : BitVec 64) : BitVec 64 :=
  let extra := BitVec.ofNat 64 offsetofPayload + nodeExtra
  if extra < BitVec.ofNat 64 sizeofRbnode then BitVec.ofNat 64 sizeofRbnode else extra

/-- `alignUp` for a node, in `size_t`. -/
def alignUpWord (size : BitVec 64) : BitVec 64 :=
  (size + BitVec.ofNat 64 alignofRbnode - 1#64) / BitVec.ofNat 64 alignofRbnode *
    BitVec.ofNat 64 alignofRbnode

theorem toNat_nodeSizeWord {nodeExtra : BitVec 64} (h : nodeExtra.toNat + sizeofRbnode < 2 ^ 64) :
    (nodeSizeWord nodeExtra).toNat = Base.nodeSize nodeExtra.toNat := by
  have hoffset : offsetofPayload = 32 := rfl
  have hnode : sizeofRbnode = 40 := rfl
  have hsum : (32#64 + nodeExtra).toNat = 32 + nodeExtra.toNat := by
    rw [BitVec.toNat_add, BitVec.toNat_ofNat]
    omega
  simp only [nodeSizeWord, Base.nodeSize, hoffset, hnode, BitVec.lt_def, hsum, BitVec.toNat_ofNat]
  split_ifs
  · rfl
  · exact hsum

theorem toNat_alignUpWord {size : BitVec 64} (h : size.toNat + alignofRbnode ≤ 2 ^ 64) :
    (alignUpWord size).toNat = alignUp size.toNat alignofRbnode := by
  have halign : alignofRbnode = 8 := rfl
  have height : (8#64).toNat = 8 := rfl
  rw [halign] at h
  have hsum : (size + 8#64 - 1#64).toNat = size.toNat + 8 - 1 := by
    rw [BitVec.toNat_sub, BitVec.toNat_add, BitVec.toNat_ofNat, BitVec.toNat_ofNat]
    omega
  rw [alignUpWord, halign, BitVec.toNat_mul, BitVec.toNat_udiv, hsum, height, alignUp]
  omega

/-- A node has the size that the pool is asked for, unless it would not fit into the address
space. -/
theorem areaSize_word (config : Config) {nodeExtra : BitVec 64}
    (hextra : config.nodeExtra = nodeExtra.toNat) (h : config.nodeExtra + sizeofRbnode < 2 ^ 64) :
    areaSize (Base.initWithConfig config : Base σ) =
      (alignUpWord (nodeSizeWord nodeExtra) - BitVec.ofNat 64 offsetofPayload).toNat := by
  rw [hextra] at h
  have hoffset : offsetofPayload = 32 := rfl
  have hnode : sizeofRbnode = 40 := rfl
  have halign : alignofRbnode = 8 := rfl
  have hsize := toNat_nodeSizeWord h
  have hfit : (nodeSizeWord nodeExtra).toNat + alignofRbnode ≤ 2 ^ 64 := by
    rw [hsize, Base.nodeSize]
    split_ifs <;> omega
  have hword := toNat_alignUpWord hfit
  rw [areaSize_init, hextra, BitVec.toNat_sub, hword, hsize, BitVec.toNat_ofNat]
  simp only [Base.nodeSize, hoffset, hnode, alignUp, halign, sizeofPointer] at h ⊢
  split_ifs <;> omega
theorem Evolves.extraSize {m m' : Image σ} {c : Call} {r : Answer} (h : Evolves m c r m') :
    m'.env.extraSize = m.env.extraSize := by
  cases h with
  | newNode E F T value => exact congrArg (· - offsetofPayload) (MulleStorage.elementSize_malloc _)
  | freeNode E a F T => exact congrArg (· - offsetofPayload) (MulleStorage.elementSize_free _ _)
  | removed => exact congrArg (· - offsetofPayload) (MulleStorage.elementSize_free _ _)
  | rejected => rfl
  | inserted => rfl
  | before => rfl
  | after => rfl
  | marked => rfl
  | walked => rfl
  | found => rfl
  | reached => rfl
  | next => rfl
  | previous => rfl
  | isDirty => rfl
  | counted => rfl

theorem Performs.extraSize {cb : Callbacks} {m m' : Image σ} {op : Op} {r : Result}
    (h : Performs cb m op r m') : m'.env.extraSize = m.env.extraSize := by
  cases h with
  | added => exact congrArg (· - offsetofPayload) (MulleStorage.elementSize_malloc _)
  | rejected =>
    exact congrArg (· - offsetofPayload)
      ((MulleStorage.elementSize_free _ _).trans (MulleStorage.elementSize_malloc _))
  | removed => exact congrArg (· - offsetofPayload) (MulleStorage.elementSize_free _ _)
  | removedNode => exact congrArg (· - offsetofPayload) (MulleStorage.elementSize_free _ _)
  | missing => rfl
  | found => rfl
  | reached => rfl
  | isEmpty => rfl
  | enumerated => rfl

theorem Evolves.options_eq {m m' : Image σ} {c : Call} {r : Answer} (h : Evolves m c r m') :
    m'.env.options = m.env.options := h.reshapes.2.1

/-- The configuration stays in force. -/
def Configured (config : Config) (s : Base σ) : Prop :=
  ∃ m : Image σ, Represents s m ∧ m.env.options = config.options ∧
    m.env.extraSize = alignUp (max config.nodeExtra sizeofPointer) sizeofPointer

theorem configured_init (config : Config) : Configured config (Base.initWithConfig config : Base σ) :=
  ⟨_, ⟨shows_init config, sound_init config⟩, rfl, areaSize_init config⟩

theorem op_configured {config : Config} {cb : Callbacks} {op : Op} {s : Base σ}
    (h : Configured config s) (hp : op.Pre s) :
    Ensures (op.exec cb) s fun _ s' => Configured config s' := by
  obtain ⟨m, hs, ho, hx⟩ := h
  refine (op_represents hs hp).mono fun r s' ⟨m', he, hs'⟩ => ?_
  exact ⟨m', hs', he.options_eq.trans ho, he.extraSize.trans hx⟩

theorem everything_configured {config : Config} {cb : Callbacks} {s : Base σ}
    {h : List ((Call ⊕ Op) × (Answer ⊕ Result))}
    (hrun : (everything σ cb).Run (Base.initWithConfig config) h s) : Configured config s := by
  refine hrun.keeps (I := Configured config)
    (Interface.sum_ensures ?_ fun op s hs hp => op_configured hs hp) (configured_init config)
  rintro c s ⟨m, hs, ho, hx⟩ hp
  refine (exec_represents hs hp).mono fun r s' ⟨m', he, hs'⟩ => ?_
  exact ⟨m', hs', he.options_eq.trans ho, he.extraSize.trans hx⟩

theorem Configured.options_eq {config : Config} {s : Base σ} (h : Configured config s) :
    s.options = config.options := by
  obtain ⟨m, ⟨⟨z, hr⟩, -⟩, ho, -⟩ := h
  exact (Holds.options_eq hr).trans ho

theorem Configured.areaSize_eq {config : Config} {s : Base σ} (h : Configured config s) :
    areaSize s = alignUp (max config.nodeExtra sizeofPointer) sizeofPointer := by
  obtain ⟨m, ⟨⟨z, hr⟩, -⟩, -, hx⟩ := h
  rw [areaSize, Holds.nodes_eq hr]
  exact hx

/-! ### What is copied -/

theorem length_memcpy (k : ℕ) (src : List UInt8) : (memcpy k src).length = k := by
  simp [memcpy]

/-- As far as the source reaches, it is copied. -/
theorem take_memcpy_of_le {k n : ℕ} {src : List UInt8} (hk : n ≤ k) (hn : n ≤ src.length) :
    (memcpy k src).take n = src.take n := by
  refine List.ext_getElem (by simp [length_memcpy, hk, hn]) fun i h₁ h₂ => ?_
  have hi : i < src.length := by
    rw [List.length_take] at h₂
    omega
  simp [memcpy, hi]

theorem take_memcpy {k n : ℕ} {src : List UInt8} (hk : n ≤ k) (hn : src.length = n) :
    (memcpy k src).take n = src := by
  rw [take_memcpy_of_le hk hn.ge, ← hn, List.take_length]

/-- What lies behind the record is copied with it if the area is larger. -/
theorem memcpy_append_eq_iff {k n : ℕ} :
    (∀ record rest rest' : List UInt8, record.length = n →
      memcpy k (record ++ rest) = memcpy k (record ++ rest')) ↔ k ≤ n := by
  constructor
  · intro h
    by_contra hlt
    have hcopy := h (List.replicate n 0) [0] [1] (by simp)
    have hbyte := congrArg (fun u => u.getD n 0) hcopy
    simp [memcpy, List.getD_eq_getElem?_getD, not_le.1 hlt] at hbyte
  · intro hk record rest rest' hlen
    refine List.map_congr_left fun i hi => ?_
    have hi' : i < record.length := by
      rw [List.mem_range] at hi
      omega
    simp only [List.getD_eq_getElem?_getD, List.getElem?_append_left hi']

namespace Base

variable {s : Base σ} {n : Ref} {c c' : Rbnode}

/-- With another node at `n`. -/
def put (s : Base σ) (n : Ref) (c : Rbnode) : Base σ :=
  { s with mem := Function.update s.mem n (some c) }

section Put

omit [MulleStorage σ]

theorem mem_put : (s.put n c).mem n = some c := by simp [put]

@[simp] theorem options_put : (s.put n c).options = s.options := rfl

@[simp] theorem put_put : (s.put n c).put n c' = s.put n c' := by
  simp [put]

theorem put_self (hn : s.mem n = some c) : s.put n c = s := by
  rw [put, ← hn, Function.update_eq_self]

theorem update_eq (hn : s.mem n = some c) (f : Rbnode → Rbnode) :
    update n f s = .ok ((), s.put n (f c)) := by
  rw [update, hn]
  rfl

theorem recolor_put (hn : s.mem n = some c) (f : Color → Color) : recolor n f s =
    .ok ((), { s with repaints := s.repaints ++ [Repaint.mk n c.color (f c.color)] }.put n
      { c with color := f c.color }) := by
  have hderef : deref n s = .ok (c, s) := by
    rw [deref, hn]
  rw [recolor, bind_eq hderef, bind_eq (update_eq hn _)]
  rfl

theorem setDirty_when (hn : s.mem n = some { c with color := Color.red }) : ∃ ws,
    when (Options.useDirty s.options) (recolor n Color.setDirty) s =
      .ok ((), { s with repaints := ws }.put n { c with color := freshColor s.options }) := by
  unfold freshColor
  cases Options.useDirty s.options with
  | true => exact ⟨_, recolor_put hn _⟩
  | false =>
    refine ⟨s.repaints, ?_⟩
    rw [if_neg nofun, put_self hn]
    rfl

end Put

/-- A new node in extra mode; the value does not matter to the history. -/
theorem initNode_eq (hn : s.mem n = some c) (hx : Options.useExtra s.options = true) :
    ∃ ws, ∀ value : VoidPtr, initNode n value s = .ok ((), { s with repaints := ws }.put n { c with
      parent := .nil, left := .nil, right := .nil, color := freshColor s.options,
      extra := memcpy (areaSize s) value.bytes }) := by
  obtain ⟨ws, hmark⟩ := setDirty_when (s := s.put n { c with
    parent := .nil, left := .nil, right := .nil, color := Color.red })
    (c := { c with parent := .nil, left := .nil, right := .nil }) mem_put
  refine ⟨ws, fun value => ?_⟩
  rw [initNode, bind_eq (update_eq hn _)]
  refine (bind_eq rfl).trans ((bind_eq hmark).trans ((bind_eq rfl).trans ?_))
  simp only [options_put, hx, if_true]
  refine (bind_eq rfl).trans ((update_eq mem_put _).trans ?_)
  rw [put_put]
  exact congrArg (fun s => Except.ok ((), s)) (put_put (s := { s with repaints := ws }))

/-- The slot does not depend on the value. -/
theorem newNode_eq (hx : Options.useExtra s.options = true) : ∃ (s' : Base σ) (i : ℕ) (c : Rbnode),
    s'.options = s.options ∧ ∀ value, newNode value s = .ok (.slot i, s'.put (.slot i) { c with
      extra := memcpy (areaSize s) value.bytes }) := by
  obtain ⟨s₁, i, hmalloc, hmem, ho, hsize⟩ : ∃ (s₁ : Base σ) (i : ℕ),
      storageMalloc s = .ok (.slot i, s₁) ∧ s₁.mem (.slot i) = some default ∧ s₁.options = s.options ∧ areaSize s₁ = areaSize s :=
    ⟨_, _, rfl, Function.update_self _ _ _, rfl,
      congrArg (· - offsetofPayload) (MulleStorage.elementSize_malloc _)⟩
  obtain ⟨ws, hinit⟩ := initNode_eq hmem (ho ▸ hx)
  refine ⟨{ s₁ with repaints := ws }, i, { (default : Rbnode) with
    parent := .nil, left := .nil, right := .nil, color := freshColor s.options }, ho,
    fun value => ?_⟩
  rw [newNode, bind_eq hmalloc, bind_eq (hinit value), ho, hsize]
  rfl

omit [MulleStorage σ] in
theorem valueAt_put {i : ℕ} (hx : Options.useExtra s.options = true) :
    valueAt (s.put (.slot i) c) (.slot i) = ⟨.area i, c.extra⟩ := by
  have hvalue : getNodeValue (.slot i) (s.put (.slot i) c) =
      .ok (⟨.area i, c.extra⟩, s.put (.slot i) c) := by
    have hderef : deref (.slot i) (s.put (.slot i) c) = .ok (c, s.put (.slot i) c) := by
      rw [deref, mem_put]
    rw [getNodeValue, if_neg Ref.slot_ne_nil]
    refine (bind_eq rfl).trans ?_
    rw [options_put, if_pos hx, getExtra, bind_eq hderef]
    rfl
  rw [valueAt, hvalue]

end Base

/-! ### Records of `node_extra` bytes -/

/-- Of a record of `n` bytes and what lies behind it, `m` looks at the record only. -/
def ReadsWithin {α : Type} (m : VoidPtr → Base.M σ α) (n : ℕ) (s : Base σ) : Prop :=
  ∀ (a : Addr) (record rest rest' : List UInt8), record.length = n →
    m ⟨a, record ++ rest⟩ s = m ⟨a, record ++ rest'⟩ s

/-- Records of `n` bytes are copied, and nothing else. -/
structure CopiesRecord (n : ℕ) (s : Base σ) : Prop where
  readsNew : ReadsWithin Base.newNode n s
  readsInit : ∀ m, Unattached s m → ReadsWithin (Base.initNode m) n s
  storesNew : ∀ v : VoidPtr, v.bytes.length = n → ∃ m s', Base.newNode v s = .ok (m, s') ∧
    (valueAt s' m).bytes.take n = v.bytes
  storesInit : ∀ m, Unattached s m → ∀ v : VoidPtr, v.bytes.length = n → ∃ s',
    Base.initNode m v s = .ok ((), s') ∧ (valueAt s' m).bytes.take n = v.bytes

section CopiesRecord

variable {s : Base σ} {n : ℕ}

theorem storesNew_of_le (hx : Options.useExtra s.options = true) (hn : n ≤ areaSize s) (v : VoidPtr)
    (hv : v.bytes.length = n) : ∃ m s', Base.newNode v s = .ok (m, s') ∧
      (valueAt s' m).bytes.take n = v.bytes := by
  obtain ⟨s', i, c, ho, hnew⟩ := Base.newNode_eq hx
  refine ⟨_, _, hnew v, ?_⟩
  rw [Base.valueAt_put (ho ▸ hx)]
  exact take_memcpy hn hv

theorem storesInit_of_le (hx : Options.useExtra s.options = true) (hn : n ≤ areaSize s) {m : Ref}
    (hm : Unattached s m) (v : VoidPtr) (hv : v.bytes.length = n) : ∃ s',
      Base.initNode m v s = .ok ((), s') ∧ (valueAt s' m).bytes.take n = v.bytes := by
  obtain ⟨hne, hsome, -⟩ := hm
  obtain ⟨c, hc⟩ := Option.isSome_iff_exists.1 hsome
  cases m with
  | nil => exact absurd rfl hne
  | slot i =>
    obtain ⟨ws, hinit⟩ := Base.initNode_eq hc hx
    refine ⟨_, hinit v, ?_⟩
    rw [Base.valueAt_put (s := { s with repaints := ws }) hx]
    exact take_memcpy hn hv

/-- The value area is the measure. -/
theorem readsNew_iff (hx : Options.useExtra s.options = true) :
    ReadsWithin Base.newNode n s ↔ areaSize s ≤ n := by
  obtain ⟨s', i, c, ho, hnew⟩ := Base.newNode_eq hx
  rw [← memcpy_append_eq_iff]
  constructor
  · intro h record rest rest' hlen
    have heq := h .null record rest rest' hlen
    rw [hnew, hnew, Except.ok.injEq, Prod.mk.injEq] at heq
    have hvalue := congrArg (fun s => (valueAt s (.slot i)).bytes) heq.2
    simpa only [Base.valueAt_put (ho ▸ hx)] using hvalue
  · intro h a record rest rest' hlen
    rw [hnew, hnew]
    dsimp only
    rw [h record rest rest' hlen]

theorem readsInit_of_le (hx : Options.useExtra s.options = true) (hn : areaSize s ≤ n) {m : Ref}
    (hm : Unattached s m) : ReadsWithin (Base.initNode m) n s := by
  obtain ⟨c, hc⟩ := Option.isSome_iff_exists.1 hm.2.1
  obtain ⟨ws, hinit⟩ := Base.initNode_eq hc hx
  intro a record rest rest' hlen
  rw [hinit, hinit]
  dsimp only
  rw [memcpy_append_eq_iff.2 hn record rest rest' hlen]

theorem copiesRecord_iff (hx : Options.useExtra s.options = true) (hn : n ≤ areaSize s) :
    CopiesRecord n s ↔ areaSize s ≤ n :=
  ⟨fun h => (readsNew_iff hx).1 h.readsNew, fun h => ⟨(readsNew_iff hx).2 h,
    fun _ hm => readsInit_of_le hx h hm, storesNew_of_le hx hn,
    fun _ hm => storesInit_of_le hx hn hm⟩⟩

end CopiesRecord

theorem Configured.copiesRecord_iff {config : Config} {s : Base σ} (h : Configured config s)
    (hx : Options.useExtra config.options = true) (hn : 1 ≤ config.nodeExtra) :
    CopiesRecord config.nodeExtra s ↔ sizeofPointer ∣ config.nodeExtra := by
  rw [← h.options_eq] at hx
  rw [MulleRbtree.copiesRecord_iff hx (h.areaSize_eq ▸ le_alignUp_pointer _), h.areaSize_eq,
    alignUp_pointer_eq_iff hn]

/-- In every tree in extra mode, whatever calls have led to it, a record of `node_extra` bytes is
copied without what lies behind it if and only if it is a number of whole pointers. -/
theorem copiesRecord_of_run (config : Config) (cb : Callbacks)
    (hx : Options.useExtra config.options = true) (hn : 1 ≤ config.nodeExtra) {s : Base σ}
    {h : List ((Call ⊕ Op) × (Answer ⊕ Result))}
    (hrun : (everything σ cb).Run (Base.initWithConfig config) h s) :
    CopiesRecord config.nodeExtra s ↔ sizeofPointer ∣ config.nodeExtra :=
  (everything_configured hrun).copiesRecord_iff hx hn

/-- After three records of eight bytes have been added and one of them removed. -/
theorem copiesRecord_of_run_five : ∃ s : Base SlotPool, InOrder s [.slot 0, .slot 2] ∧
    CopiesRecord 8 s := by
  obtain ⟨s, hrun, ⟨m, hm⟩, hnodes⟩ := exists_run_of_operations (σ := SlotPool) ⟨8, 0x2#32, 0⟩
    firstByteCallbacks (fiveOps (ofByte 1) (ofByte 2) (ofByte 3)) fiveResults nodesOf
    [.slot 0, .slot 2] (by decide +kernel)
  exact ⟨s, hnodes ▸ hm.inOrder,
    (copiesRecord_of_run ⟨8, 0x2#32, 0⟩ _ (by decide) (by decide) hrun.inr).2 (by decide)⟩

/-- A record of four bytes is copied with the four bytes behind it. -/
theorem not_copiesRecord_int :
    ¬ CopiesRecord 4 (Base.initWithConfig ⟨4, 0x2#32, 0⟩ : Base SlotPool) := by
  intro h
  have hdvd := ((configured_init ⟨4, 0x2#32, 0⟩).copiesRecord_iff (by decide) (by decide)).1 h
  exact absurd hdvd (by decide)

/-! ### Where values come from -/

/-- What is stored after an operation was stored before, or has been added. -/
theorem Performs.mem_items {cb : Callbacks} {m m' : Image σ} {op : Op} {r : Result}
    (h : Performs cb m op r m') {a : Item} (ha : a ∈ items m'.tree) : a ∈ items m.tree ∨
      ∃ v, op = .add v ∧ r = .code 0 ∧ a = (m.env.newcomer cb v).item ∧ a.slot ∉ slots m.tree := by
  cases h with
  | @added E F T v g k hplace hslot hk =>
    obtain ⟨h₁, h₂⟩ := items_attach_split (o := E.stamp) (a := E.newcomer cb v) (c := g)
    rw [(plug_seek hplace).1] at h₁
    dsimp only at ha ⊢
    rw [items_wash, h₂] at ha
    rcases List.mem_append.1 ha with ha | ha
    · exact .inl (h₁ ▸ List.mem_append_left _ ha)
    · rcases List.mem_cons.1 ha with rfl | ha
      · exact .inr ⟨v, rfl, rfl, rfl, hslot⟩
      · exact .inl (h₁ ▸ List.mem_append_right _ ha)
  | rejected =>
    dsimp only at ha
    rw [items_wash] at ha
    exact .inl ha
  | @removed E F key c b l r k =>
    obtain ⟨u, v, h₁, h₂⟩ := items_unstore_split E.stamp c b l r
    dsimp only at ha ⊢
    rw [items_wash, h₂, List.mem_append] at ha
    rw [h₁]
    exact .inl (by simp; tauto)
  | @removedNode E F c b l r k =>
    obtain ⟨u, v, h₁, h₂⟩ := items_unstore_split E.stamp c b l r
    dsimp only at ha ⊢
    rw [items_wash, h₂, List.mem_append] at ha
    rw [h₁]
    exact .inl (by simp; tauto)
  | missing => exact .inl ha
  | found => exact .inl ha
  | reached => exact .inl ha
  | isEmpty => exact .inl ha
  | enumerated => exact .inl ha

theorem Repr.attached_iff_item {s : Base σ} {E : Env σ} {z : Sentinel} {K : Multiset Cell}
    {T : ETree} (h : Repr s E z K T) {n : Ref} : Attached s n ↔ ∃ a ∈ items T, n = a.ref := by
  rw [h.attached_iff, slots_eq]
  simp only [List.mem_map, exists_exists_and_eq_and]
  rfl

/-- A node that is attached after an operation was so before, with its value, or it has been added
with its value. -/
theorem Performs.value_eq {cb : Callbacks} {s s' : Base σ} {m m' : Image σ} {op : Op} {r : Result}
    (hs : Represents s m) (hs' : Represents s' m') (h : Performs cb m op r m') {n : Ref}
    (hn : Attached s' n) : Attached s n ∧ valueAt s' n = valueAt s n ∨
      ∃ v, op = .add v ∧ r = .code 0 ∧ ¬ Attached s n ∧ valueAt s' n = storedAt cb s v := by
  obtain ⟨⟨z, hr⟩, -⟩ := hs
  obtain ⟨⟨z', hr'⟩, -⟩ := hs'
  obtain ⟨a, ha, rfl⟩ := hr'.attached_iff_item.1 hn
  rw [hr'.valueAt_item ha, h.options_eq]
  rcases h.mem_items ha with ha | ⟨v, hop, hres, ha, hslot⟩
  · exact .inl ⟨hr.attached_iff_item.2 ⟨a, ha, rfl⟩, (hr.valueAt_item ha).symm⟩
  · refine .inr ⟨v, hop, hres, fun hold => ?_, ?_⟩
    · obtain ⟨i, hi, e⟩ := hr.attached_iff.1 hold
      exact hslot (Ref.slot.inj e ▸ hi)
    · rw [hr.storedAt_eq, ha]
      rfl

/-! ### Records of any size -/

/-- The operations of a tree of records: what is added retains as a record of `size` bytes. -/
def recordOperations (σ : Type) [MulleStorage σ] (cb : Callbacks) (size : ℕ) :
    Interface (Base σ) Fault Op Result :=
  ⟨fun op s => op.Pre s ∧ ∀ v, op = .add v → (cb.retain s.trace v).bytes.length = size, Op.exec cb⟩

/-- Those that go on while the node `n` is attached. -/
def holding (σ : Type) [MulleStorage σ] (cb : Callbacks) (size : ℕ) (n : Ref) :
    Interface (Base σ) Fault Op Result :=
  ⟨fun op s => (recordOperations σ cb size).Pre op s ∧ Attached s n, Op.exec cb⟩

/-- The node `n` was made for a record in the run `h`, it has been attached ever since, and the
record is what the first `size` bytes of its value are. -/
def Origin (cb : Callbacks) (size : ℕ) (s : Base σ) (h : List (Op × Result)) (t : Base σ)
    (n : Ref) : Prop :=
  ∃ h₁ v h₂ s₁ s₂, h = h₁ ++ (.add v, .code 0) :: h₂ ∧ (recordOperations σ cb size).Run s h₁ s₁ ∧
    (Op.add v).exec cb s₁ = .ok (.code 0, s₂) ∧ ¬ Attached s₁ n ∧
    (holding σ cb size n).Run s₂ h₂ t ∧
    (valueAt t n).bytes.take size = (cb.retain s₁.trace v).bytes

/-- The tree keeps the records it is given. -/
structure KeepsRecords (cb : Callbacks) (size : ℕ) (s : Base σ) (h : List (Op × Result))
    (t : Base σ) : Prop where
  area : ∀ n, Attached t n → size ≤ areaSize t
  copies : ∀ v : VoidPtr, v.bytes.length = size → ∃ n t', Base.newNode v t = .ok (n, t') ∧
    (valueAt t' n).bytes.take size = v.bytes
  origin : ∀ n, Attached t n → Origin cb size s h t n
  found : ∀ key, ∃ v t', Rbtree.find cb key t = .ok (v, t') ∧
    (v = null ∨ ∃ n, Attached t n ∧ v = valueAt t n)
  enumerated : ∃ ns, InOrder t ns ∧ Rbtree.enumerateAll t = .ok (ns.map (valueAt t), t)

section KeepsRecords

variable {cb : Callbacks} {config : Config} {size : ℕ} {s t : Base σ} {h : List (Op × Result)}

/-- The record of a new node. -/
theorem take_storedAt (hx : Options.useExtra s.options = true) (hsize : size ≤ areaSize s)
    {v : VoidPtr} (hv : (cb.retain s.trace v).bytes.length = size) :
    (storedAt cb s v).bytes.take size = (cb.retain s.trace v).bytes := by
  rw [storedAt, stored, if_pos hx]
  exact take_memcpy hsize hv

/-- A node is attached from the start, with its value, or it has been added. -/
theorem origin_of_run (hx : Options.useExtra config.options = true)
    (hsize : size ≤ alignUp (max config.nodeExtra sizeofPointer) sizeofPointer)
    (hs : Configured config s) (hrun : (recordOperations σ cb size).Run s h t) {n : Ref}
    (hn : Attached t n) : (Attached s n ∧ (holding σ cb size n).Run s h t ∧
      valueAt t n = valueAt s n) ∨ Origin cb size s h t n := by
  induction hrun with
  | nil s => exact .inl ⟨hn, .nil s, rfl⟩
  | @cons s s' t op r h hp he hrest ih =>
    have hs' : Configured config s' := (op_configured hs hp.1).elim he
    obtain ⟨m, hm, -⟩ := id hs
    obtain ⟨m', hperf, hm'⟩ := (op_represents hm hp.1).elim he
    rcases ih hs' hn with ⟨hn', hhold, hvalue⟩ | ⟨h₁, v, h₂, s₁, s₂, rfl, hrun₁, hadd, hnew, hhold, hv⟩
    · rcases hperf.value_eq hm hm' hn' with ⟨hn₀, hsame⟩ | ⟨v, rfl, rfl, hnew, hstored⟩
      · exact .inl ⟨hn₀, .cons ⟨hp, hn₀⟩ he hhold, hvalue.trans hsame⟩
      · refine .inr ⟨[], v, h, s, s', rfl, .nil s, he, hnew, hhold, ?_⟩
        rw [hvalue, hstored]
        exact take_storedAt (hs.options_eq ▸ hx) (hs.areaSize_eq ▸ hsize) (hp.2 v rfl)
    · exact .inr ⟨(op, r) :: h₁, v, h₂, s₁, s₂, rfl, .cons hp he hrun₁, hadd, hnew, hhold, hv⟩

theorem le_areaSize_of_copies (hx : Options.useExtra s.options = true)
    (hcopies : ∀ v : VoidPtr, v.bytes.length = size → ∃ n s', Base.newNode v s = .ok (n, s') ∧
      (valueAt s' n).bytes.take size = v.bytes) : size ≤ areaSize s := by
  obtain ⟨s', i, c, ho, hnew⟩ := Base.newNode_eq hx
  obtain ⟨n, s'', he, hv⟩ := hcopies ⟨.null, List.replicate size 0⟩ (by simp)
  rw [hnew, Except.ok.injEq, Prod.mk.injEq] at he
  obtain ⟨rfl, rfl⟩ := he
  rw [Base.valueAt_put (ho ▸ hx)] at hv
  have hlen := congrArg List.length hv
  rw [List.length_take, length_memcpy, List.length_replicate] at hlen
  omega

theorem Configured.keepsRecords (hs : Configured config t)
    (hx : Options.useExtra config.options = true) (hsize : size ≤ areaSize t)
    (horigin : ∀ n, Attached t n → Origin cb size s h t n) : KeepsRecords cb size s h t := by
  obtain ⟨m, ⟨⟨z, hr⟩, hsound⟩, ho, -⟩ := id hs
  refine ⟨fun _ _ => hsize, fun v => storesNew_of_le (hs.options_eq ▸ hx) hsize v, horigin,
    fun key => ?_, _, hr.inOrder, ?_⟩
  · obtain ⟨_, t₁, he, rfl, h₁⟩ := Base.findNode_spec hr key cb.comparison
    have hmem : ∀ e ∈ lookup (matching m.env.options cb.comparison key) m.tree,
        e ∈ m.tree.inorder := fun e he => (mem_of_lookup he).1
    refine ⟨_, t₁, (bind_eq he).trans (getNodeValue_labelRef h₁ hmem), ?_⟩
    cases hfind : lookup (matching m.env.options cb.comparison key) m.tree with
    | none => exact .inl rfl
    | some e =>
      have hin := hmem e hfind
      exact .inr ⟨e.ref, Repr.attached_ref hr hin, (Repr.valueAt_eq hr hin).symm⟩
  · rw [Rbtree.enumerateAll_spec hr, hr.map_valueAt, values_eq]

end KeepsRecords

/-- With the documented size for records of `size` bytes, a tree keeps the records it is given if
and only if these are no larger than a pointer. -/
theorem keepsRecords_of_run (config : Config) (cb : Callbacks) {size : ℕ}
    (hx : Options.useExtra config.options = true) (hsize : sizeofPointer ≤ size)
    (hextra : config.nodeExtra = size - sizeofPointer) {h : List (Op × Result)} {t : Base σ}
    (hrun : (recordOperations σ cb size).Run (Base.initWithConfig config) h t) :
    KeepsRecords cb size (Base.initWithConfig config) h t ↔ size = sizeofPointer := by
  have hinit : Configured config (Base.initWithConfig config : Base σ) := configured_init config
  have hstep : ∀ (op : Op) (s : Base σ), Configured config s →
      (recordOperations σ cb size).Pre op s →
      Ensures ((recordOperations σ cb size).exec op) s fun _ s' => Configured config s' :=
    fun _ _ hs hp => op_configured hs hp.1
  have ht : Configured config t := hrun.keeps hstep hinit
  have harea : size ≤ areaSize t ↔ size = sizeofPointer := by
    rw [ht.areaSize_eq, hextra]
    simp only [alignUp, sizeofPointer] at hsize ⊢
    omega
  constructor
  · intro hkeeps
    exact harea.1 (le_areaSize_of_copies (ht.options_eq ▸ hx) hkeeps.copies)
  · intro heq
    refine ht.keepsRecords hx (harea.2 heq) fun n hn => ?_
    rcases origin_of_run hx (ht.areaSize_eq ▸ harea.2 heq) hinit hrun hn with ⟨hold, -⟩ | horigin
    · exact absurd hold (not_attached_of_root rfl)
    · exact horigin

/-- Three records of a pointer's size are added, one of them again, and then it is removed. -/
theorem keepsRecords_of_run_pointer : ∃ t : Base SlotPool, InOrder t [.slot 0, .slot 2] ∧
    KeepsRecords firstByteCallbacks 8 (Base.initWithConfig ⟨0, 0x2#32, 0⟩)
      ((fiveOps (ofByte 1) (ofByte 2) (ofByte 3)).zip fiveResults) t := by
  obtain ⟨t, hrun, ⟨m, hm⟩, hnodes⟩ := exists_run_of_operations (σ := SlotPool) ⟨0, 0x2#32, 0⟩
    firstByteCallbacks (fiveOps (ofByte 1) (ofByte 2) (ofByte 3)) fiveResults nodesOf
    [.slot 0, .slot 2] (by decide +kernel)
  have hrecords := hrun.allowed (recordOperations SlotPool firstByteCallbacks 8) rfl
    (by simp [fiveOps, fiveResults, recordOperations, operations, Op.Pre, firstByteCallbacks, ofByte])
  exact ⟨t, hnodes ▸ hm.inOrder, (keepsRecords_of_run _ _ (by decide) (by decide) rfl hrecords).2 rfl⟩

/-- A record of sixteen bytes. -/
def pairRecord : VoidPtr := ⟨.user 0, [1, 2, 3, 4, 5, 6, 7, 8, 9, 10, 11, 12, 13, 14, 15, 16]⟩

/-- The last eight bytes of a record of sixteen are not kept: they are missing where `find`
points. -/
theorem not_keepsRecords_pair : ∃ t t' : Base SlotPool,
    (recordOperations SlotPool firstByteCallbacks 16).Run (Base.initWithConfig ⟨8, 0x2#32, 0⟩)
      [(.add pairRecord, .code 0)] t ∧
    Rbtree.find firstByteCallbacks pairRecord t =
      .ok (⟨.area 0, [1, 2, 3, 4, 5, 6, 7, 8]⟩, t') ∧
    ¬ KeepsRecords firstByteCallbacks 16 (Base.initWithConfig ⟨8, 0x2#32, 0⟩)
      [(.add pairRecord, .code 0)] t := by
  obtain ⟨t, hrun, ⟨m, hm⟩, ht⟩ := exists_run_of_operations (σ := SlotPool) ⟨8, 0x2#32, 0⟩
    firstByteCallbacks [.add pairRecord] [.code 0]
    (fun t => (nodesOf t, areaSize t,
      (Rbtree.find firstByteCallbacks pairRecord t).toOption.map Prod.fst))
    ([.slot 0], 8, some ⟨.area 0, [1, 2, 3, 4, 5, 6, 7, 8]⟩) (by decide +kernel)
  obtain ⟨hnodes, ht⟩ := Prod.mk.inj ht
  obtain ⟨harea, hfind⟩ := Prod.mk.inj ht
  obtain ⟨⟨v, t'⟩, he, rfl⟩ := exists_of_toOption hfind
  have hattached : Attached t (.slot 0) := hm.mem_nodesOf.1 (by rw [hnodes]; simp)
  refine ⟨t, t', hrun.allowed (recordOperations SlotPool firstByteCallbacks 16) rfl ?_, he,
    fun hkeeps => ?_⟩
  · simp [recordOperations, operations, Op.Pre, firstByteCallbacks, pairRecord]
  · have hle := hkeeps.area _ hattached
    omega

end MulleRbtree
