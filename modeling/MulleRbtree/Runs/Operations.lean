import MulleRbtree.Runs.Calls

/-!
# Runs of operations

The interface of `mulle-rbtree.h`, in the same manner as that of `mulle--rbtree.h`.

* `Op`: its calls, and `Performs`, what each of them makes of an image;
* `exec_performs`: an operation neither faults nor runs forever, and what it does to the memory is
  what `Performs` says;
* `Settled`: what holds between operations, in particular no node is dirty;
* `enumerateAll_spec`, `done_spec`: the loops over all nodes.
-/

namespace MulleRbtree

open BinaryTree Cells Program

variable {σ : Type} [MulleStorage σ]

/-! ### Operations -/

inductive Op
  | add (value : VoidPtr)
  | remove (key : VoidPtr)
  | removeNode (node : Ref)
  | find (key : VoidPtr)
  | findEqualOrGreater (key : VoidPtr)
  | isEmpty
  | enumerate
  deriving DecidableEq

/-- What an operation returns. -/
inductive Result
  | done
  | code (k : ℤ)
  | value (v : VoidPtr)
  | flag (b : Bool)
  | values (u : List VoidPtr)
  deriving DecidableEq

namespace Op

/-- What the caller has to see to. -/
def Pre : Op → Base σ → Prop
  | removeNode n, s => Attached s n
  | _, _ => True

def exec (cb : Callbacks) : Op → Base.M σ Result
  | add value => do return .code (← Rbtree.add cb value)
  | remove key => do return .code (← Rbtree.remove cb key)
  | removeNode n => do
    Rbtree.removeNode n
    return .done
  | find key => do return .value (← Rbtree.find cb key)
  | findEqualOrGreater key => do return .value (← Rbtree.findEqualOrGreater cb key)
  | isEmpty => do return .flag (← Rbtree.isEmpty)
  | enumerate => do return .values (← Rbtree.enumerateAll)

end Op

/-- The interface with the given callbacks. -/
def operations (σ : Type) [MulleStorage σ] (cb : Callbacks) : Interface (Base σ) Fault Op Result :=
  ⟨Op.Pre, Op.exec cb⟩

/-! ### What an operation makes of an image -/

namespace Env

variable (E : Env σ) (cb : Callbacks)

/-- What `retain` answers next. -/
def kept (v : VoidPtr) : VoidPtr := cb.retain E.trace v

/-- The node that `_mulle_rbtree_add` makes next. -/
def newcomer (v : VoidPtr) : Entry := E.fresh (E.kept cb v)

/-- The calls of the comparison by which `_mulle_rbtree_add` looks for a place. -/
def comparisons (T : ETree) (key : VoidPtr) (halt : Bool) : List Event :=
  compareEvents E.options key (visits (matching E.options cb.comparison key) halt T)

/-- The empty place for a new value, if no equal value is in the way. -/
def place (T : ETree) (v : VoidPtr) : Option (Path Entry) :=
  seek (matching E.options cb.comparison ((E.newcomer cb v).value E.options)) (halts E.options) [] T

/-- After `retain`, a new node, and the descent. -/
def offered (T : ETree) (v : VoidPtr) : Env σ :=
  (E.traced [.retain v (E.kept cb v)]).malloced.traced
    (E.comparisons cb T ((E.newcomer cb v).value E.options) (halts E.options))

/-- After `release` and the removal of a node; `T` is the tree without it. -/
def discharged (a : Entry) (k : ℕ) (T : ETree) : Env σ :=
  (((E.traced [.release (a.value E.options)]).advanced.freed a.slot).turnedBy k).traced
    (washEvents E.options T)

end Env

/-- What an operation makes of an image. -/
inductive Performs (cb : Callbacks) : Image σ → Op → Result → Image σ → Prop
  | added {E : Env σ} {F : Multiset Entry} {T : ETree} {v : VoidPtr} {g : Path Entry} {k : ℕ}
      (hplace : E.place cb T v = some g) (ha : (E.newcomer cb v).slot ∉ slots T) (hk : k ≤ 2) :
      Performs cb ⟨E, F, T⟩ (.add v) (.code 0)
        ⟨((E.offered cb T v).advanced.turnedBy k).traced
          (washEvents E.options (attach E.stamp (E.newcomer cb v) g)), F,
          wash (attach E.stamp (E.newcomer cb v) g)⟩
  | rejected {E : Env σ} {F : Multiset Entry} {T : ETree} {v : VoidPtr}
      (hplace : E.place cb T v = none) :
      Performs cb ⟨E, F, T⟩ (.add v) (.code EEXIST)
        ⟨(((E.offered cb T v).traced [.release (E.kept cb v)]).freed E.nextSlot).traced
          (washEvents E.options T), F, wash T⟩
  | removed {E : Env σ} {F : Multiset Entry} {key : VoidPtr} {c : Path Entry} {a : Entry}
      {l r : ETree} {k : ℕ}
      (hfind : lookup (matching E.options cb.comparison key) (plug c (node a l r)) = some a)
      (hk : k ≤ 3) :
      Performs cb ⟨E, F, plug c (node a l r)⟩ (.remove key) (.code 0)
        ⟨(E.traced (E.comparisons cb (plug c (node a l r)) key true)).discharged a k
          (unstore E.stamp c a l r), F, wash (unstore E.stamp c a l r)⟩
  | missing {E : Env σ} {F : Multiset Entry} {T : ETree} {key : VoidPtr}
      (hfind : lookup (matching E.options cb.comparison key) T = none) :
      Performs cb ⟨E, F, T⟩ (.remove key) (.code ENOENT)
        ⟨E.traced (E.comparisons cb T key true), F, T⟩
  | removedNode {E : Env σ} {F : Multiset Entry} {c : Path Entry} {a : Entry} {l r : ETree} {k : ℕ}
      (hk : k ≤ 3) :
      Performs cb ⟨E, F, plug c (node a l r)⟩ (.removeNode (.slot a.slot)) .done
        ⟨E.discharged a k (unstore E.stamp c a l r), F, wash (unstore E.stamp c a l r)⟩
  | found (E : Env σ) (F : Multiset Entry) (T : ETree) (key : VoidPtr) :
      Performs cb ⟨E, F, T⟩ (.find key)
        (.value (valueOf E.options (lookup (matching E.options cb.comparison key) T)))
        ⟨E.traced (E.comparisons cb T key true), F, T⟩
  | reached (E : Env σ) (F : Multiset Entry) (T : ETree) (key : VoidPtr) :
      Performs cb ⟨E, F, T⟩ (.findEqualOrGreater key)
        (.value (valueOf E.options (ceiling (matching E.options cb.comparison key) T none)))
        ⟨E.traced (E.comparisons cb T key true), F, T⟩
  | isEmpty (E : Env σ) (F : Multiset Entry) (T : ETree) :
      Performs cb ⟨E, F, T⟩ .isEmpty (.flag (decide (T = nil))) ⟨E, F, T⟩
  | enumerated (E : Env σ) (F : Multiset Entry) (T : ETree) :
      Performs cb ⟨E, F, T⟩ .enumerate (.values (values E.options T)) ⟨E, F, T⟩

/-! ### Operations do what `Performs` says -/

section Specs

variable {s : Base σ} {E : Env σ} {z : Sentinel} {K : Multiset Cell} {T : ETree} {c : Path Entry}
  {a : Entry} {l r : ETree} {cb : Callbacks} {v : VoidPtr}

omit [MulleStorage σ] in
theorem clean_of_proper (hd : Dirt E.options T) (ho : Options.useDirty E.options = false) :
    Clean T := hd.proper.mono fun _ he => he ho

/-- The dirty walk at the end of an operation. -/
theorem walkDirty_when (h : Repr s E z K T) (hd : Dirt E.options T) :
    Ensures (Base.when (Options.useDirty E.options) Base.walkDirty) s fun _ s' =>
      Repr s' (E.traced (washEvents E.options T)) z K (wash T) := by
  cases ho : Options.useDirty E.options with
  | true => exact Base.walkDirty_spec h hd
  | false =>
    obtain ⟨hw, he⟩ : wash T = T ∧ washEvents E.options T = [] :=
      wash_of_clean (clean_of_proper hd ho)
    rw [hw, he, Env.traced_nil]
    exact .pure h

/-- Marking the node to remove. -/
theorem markNodeAsDirty_when (h : Repr s E z K (plug c (node a l r))) :
    Ensures (Base.when (Options.useDirty E.options) (Base.markNodeAsDirty (.slot a.slot))) s
      fun _ s' => Repr s' E z K
        (plug (Path.mapLabels (Entry.soil E.stamp) c) (node (a.soil E.stamp) l r)) := by
  cases ho : Options.useDirty E.options with
  | true => exact Base.markNodeAsDirty_root h (t := node a l r) (by simp) ho
  | false =>
    have hsoil : Entry.soil E.stamp = id := Entry.soil_eq_id ho
    rw [hsoil, Path.mapLabels_id]
    exact .pure h

theorem removeNode_spec (h : Repr s E z K (plug c (node a l r)))
    (hb : IsRedBlack Entry.isRed (plug c (node a l r)))
    (hd : Dirt E.options (plug c (node a l r))) :
    Ensures (Rbtree.removeNode (.slot a.slot)) s fun _ s' => ∃ k ≤ 3, ∃ z',
      Repr s' (E.discharged a k (unstore E.stamp c a l r)) z' K
        (wash (unstore E.stamp c a l r)) := by
  have hvalue : Base.getNodeValue (.slot a.slot) s = .ok (a.value E.options, s) :=
    Base.getNodeValue_spec (t := node a l r) h
  refine .bind_eq (Base.assert_eq nofun) (.bind_eq hvalue ((Holds.emit h _).bind fun _ s₁ h₁ => ?_))
  have h₁ : Repr s₁ (E.traced [.release (a.value E.options)]) z K (plug c (node a l r)) := h₁
  refine .bind_eq h₁.getOptions ((markNodeAsDirty_when h₁).bind fun _ s₂ h₂ => ?_)
  have hd₂ := kept_soiled (o := E.stamp) tolerant_up hd
  refine (Base.removeNode_spec h₂ (isRedBlack_soiled hb) hd₂).bind fun _ s₃ h₃ => ?_
  obtain ⟨k, hk, z', h₃⟩ := h₃
  have hd' : Dirt E.options (unstore E.stamp c a l r) := kept_unstore (o := E.stamp) tolerant_up hd
  exact .bind_eq h₃.getOptions ((walkDirty_when h₃ hd').mono fun _ s₄ h₄ => ⟨k, hk, z', h₄⟩)

theorem retain_spec (h : Repr s E z K T) (v : VoidPtr) :
    Ensures (Rbtree.retain cb v) s fun w s' => w = E.kept cb v ∧
      Repr s' (E.traced [.retain v (E.kept cb v)]) z K T := by
  have hkept : Base.read (fun s => cb.retain s.trace v) s = .ok (E.kept cb v, s) := by
    have htrace : s.trace = E.trace := congrArg Env.trace (Holds.env h)
    rw [Env.kept, ← htrace]
    rfl
  exact .bind_eq hkept ((Holds.emit h _).bind fun _ _ h' => .pure ⟨rfl, h'⟩)

/-- The descent with the new node, and what it leads to. -/
theorem offer_spec (h : Repr s (E.traced [.retain v (E.kept cb v)]).malloced z
      ({looseCell (E.newcomer cb v)} + K) T) (hb : IsRedBlack Entry.isRed T) :
    Ensures (Base.insertNode (.slot (E.newcomer cb v).slot) cb.comparison) s fun r s' =>
      Base.Inserted (E.offered cb T v) z K (E.newcomer cb v) T (E.place cb T v) r s' :=
  Base.insertNode_spec h hb isRed_freshColor cb.comparison

/-- What `_mulle_rbtree_add` answers, and the tree it leaves. -/
def Added (cb : Callbacks) (E : Env σ) (z : Sentinel) (K : Multiset Cell) (T : ETree) (v : VoidPtr)
    (g : Option (Path Entry)) (r : ℤ) (s : Base σ) : Prop :=
  match g with
  | none => r = EEXIST ∧
      Repr s ((((E.offered cb T v).traced [.release (E.kept cb v)]).freed E.nextSlot).traced
        (washEvents E.options T)) z K (wash T)
  | some g => r = 0 ∧ (E.newcomer cb v).slot ∉ slots T ∧ ∃ k ≤ 2,
      Repr s (((E.offered cb T v).advanced.turnedBy k).traced
        (washEvents E.options (attach E.stamp (E.newcomer cb v) g))) z K
        (wash (attach E.stamp (E.newcomer cb v) g))

/-- The flags are in order once the new node has been attached. -/
theorem dirt_attach {g : Path Entry} (hplace : E.place cb T v = some g)
    (ha : (E.newcomer cb v).slot ∉ slots T) (hd : Dirt E.options T) :
    Dirt E.options (attach E.stamp (E.newcomer cb v) g) := by
  obtain rfl : plug g nil = T := (plug_seek hplace).1
  exact kept_attach (o := E.stamp) tolerant_up hd (proper_of_freshColor rfl) ha

/-- What is left to do after the descent. -/
theorem settle_spec {r : ℤ}
    (hi : Base.Inserted (E.offered cb T v) z K (E.newcomer cb v) T (E.place cb T v) r s)
    (ha : (E.newcomer cb v).slot ∉ slots T) (hd : Dirt E.options T) :
    Ensures (do
      Base.when (r ≠ 0) do
        Rbtree.release (E.kept cb v)
        Base.freeNode (.slot (E.newcomer cb v).slot)
      Base.when (Options.useDirty (← Base.getOptions)) Base.walkDirty) s fun _ s' =>
      Added cb E z K T v (E.place cb T v) r s' := by
  cases hplace : E.place cb T v with
  | none =>
    rw [hplace] at hi
    obtain ⟨rfl, h⟩ := hi
    rw [decide_eq_true (show EEXIST ≠ 0 by decide), Base.when_true]
    refine .congr ((Holds.emit h _).bind fun _ s₁ h₁ => ?_) (by rw [bind_assoc]; rfl)
    have h₁ : Repr s₁ ((E.offered cb T v).traced [.release (E.kept cb v)]) z
        ({looseCell (E.newcomer cb v)} + K) T := h₁
    refine (Base.freeNode_spec h₁).bind fun _ s₂ h₂ => .bind_eq h₂.getOptions ?_
    exact (walkDirty_when h₂ hd).mono fun _ s₃ h₃ => ⟨rfl, h₃⟩
  | some g =>
    rw [hplace] at hi
    obtain ⟨rfl, k, hk, h⟩ := hi
    have hskip : Base.when ((0 : ℤ) ≠ 0) (do
        Rbtree.release (E.kept cb v)
        Base.freeNode (.slot (E.newcomer cb v).slot)) s = .ok ((), s) := rfl
    refine Ensures.bind_eq hskip (.bind_eq h.getOptions ?_)
    exact (walkDirty_when h (dirt_attach hplace ha hd)).mono fun _ s₁ h₁ => ⟨rfl, ha, k, hk, h₁⟩

theorem add_spec (h : Repr s E z K T) (hb : IsRedBlack Entry.isRed T) (hd : Dirt E.options T)
    (v : VoidPtr) :
    Ensures (Rbtree.add cb v) s fun r s' => Added cb E z K T v (E.place cb T v) r s' := by
  refine (retain_spec h v).bind ?_
  rintro _ s₁ ⟨rfl, h₁⟩
  refine (Base.newNode_spec h₁ _).bind ?_
  rintro _ s₂ ⟨rfl, h₂⟩
  have h₂ : Repr s₂ (E.traced [.retain v (E.kept cb v)]).malloced z
      ({looseCell (E.newcomer cb v)} + K) T := h₂
  have ha : (E.newcomer cb v).slot ∉ slots T := Base.loose_notMem h₂
  refine Ensures.bind (offer_spec (E := E) h₂ hb) fun r s₃ h₃ => ?_
  exact .congr ((settle_spec h₃ ha hd).bind fun _ s₄ h₄ => .pure h₄) (by simp only [bind_assoc]; rfl)

theorem Added.performs {F : Multiset Entry} {r : ℤ}
    (h : Added cb E z (F.map looseCell) T v (E.place cb T v) r s) :
    ∃ m', Performs cb ⟨E, F, T⟩ (.add v) (.code r) m' ∧ Shows s m' := by
  cases hplace : E.place cb T v with
  | none =>
    rw [hplace] at h
    obtain ⟨rfl, h⟩ := h
    exact ⟨_, .rejected hplace, z, h⟩
  | some g =>
    rw [hplace] at h
    obtain ⟨rfl, ha, k, hk, h⟩ := h
    exact ⟨_, .added hplace ha hk, z, h⟩

/-- The value of what a search returns. -/
theorem getNodeValue_labelRef {u : Option Entry} (h : Repr s E z K T)
    (hu : ∀ e ∈ u, e ∈ T.inorder) :
    Base.getNodeValue (labelRef u) s = .ok (valueOf E.options u, s) := by
  cases u with
  | none => rfl
  | some e => exact Base.getNodeValue_of_mem_tree h (hu e rfl)

theorem exec_performs {op : Op} {m : Image σ} (hs : Shows s m) (hm : Sound m) (hp : op.Pre s) :
    Ensures (op.exec cb) s fun r s' => ∃ m', Performs cb m op r m' ∧ Shows s' m' := by
  obtain ⟨E, F, T⟩ := m
  obtain ⟨z, h⟩ := hs
  obtain ⟨hb, hd, -⟩ := hm
  dsimp only at h hb hd
  cases op with
  | add value => exact (add_spec h hb hd value).bind fun r s' h' => .pure h'.performs
  | remove key =>
    refine Ensures.bind (P := fun r s' => ∃ m', Performs cb ⟨E, F, T⟩ (.remove key) (.code r) m' ∧
      Shows s' m') ?_ fun r s' h' => .pure h'
    refine (Base.findNode_spec h key cb.comparison).bind ?_
    rintro _ s₁ ⟨rfl, h₁⟩
    cases hfind : lookup (matching E.options cb.comparison key) T with
    | none => exact .pure ⟨_, .missing hfind, z, h₁⟩
    | some a =>
      obtain ⟨c, l, r, rfl⟩ := exists_plug_of_mem (mem_of_lookup hfind).1
      rw [labelRef_some, if_neg nofun]
      refine (removeNode_spec h₁ hb hd).bind fun _ s₂ h₂ => ?_
      obtain ⟨k, hk, z', h₂⟩ := h₂
      exact .pure ⟨_, .removed hfind hk, z', h₂⟩
  | removeNode n =>
    obtain ⟨c, a, l, r, rfl, rfl⟩ := h.exists_of_attached hp
    refine (removeNode_spec h hb hd).bind fun _ s' h' => ?_
    obtain ⟨k, hk, z', h'⟩ := h'
    exact .pure ⟨_, .removedNode hk, z', h'⟩
  | find key =>
    refine Ensures.bind (P := fun v s' => ∃ m', Performs cb ⟨E, F, T⟩ (.find key) (.value v) m' ∧
      Shows s' m') ?_ fun r s' h' => .pure h'
    refine (Base.findNode_spec h key cb.comparison).bind ?_
    rintro _ s₁ ⟨rfl, h₁⟩
    exact .of_eq (getNodeValue_labelRef h₁ fun e he => (mem_of_lookup he).1)
      ⟨_, .found E F T key, z, h₁⟩
  | findEqualOrGreater key =>
    refine Ensures.bind (P := fun v s' => ∃ m', Performs cb ⟨E, F, T⟩ (.findEqualOrGreater key)
      (.value v) m' ∧ Shows s' m') ?_ fun r s' h' => .pure h'
    refine (Base.findNodeEqualOrGreater_spec h key cb.comparison).bind ?_
    rintro _ s₁ ⟨rfl, h₁⟩
    exact .of_eq (getNodeValue_labelRef h₁ fun e he => mem_of_ceiling he)
      ⟨_, .reached E F T key, z, h₁⟩
  | isEmpty =>
    have hempty : Rbtree.isEmpty s = .ok (decide (T = nil), s) := by
      rw [Rbtree.isEmpty, bind_eq h.getRoot]
      simp only [treeRef_eq_nil]
      rfl
    exact .bind_eq hempty (.pure ⟨_, .isEmpty E F T, z, h⟩)
  | enumerate => exact .bind_eq (Rbtree.enumerateAll_spec h) (.pure ⟨_, .enumerated E F T, z, h⟩)

end Specs

/-! ### What holds between operations -/

namespace Performs

variable {cb : Callbacks} {m m' : Image σ} {op : Op} {r : Result}

theorem options_eq (h : Performs cb m op r m') : m'.env.options = m.env.options := by
  cases h <;> rfl

theorem spare_eq (h : Performs cb m op r m') : m'.spare = m.spare := by cases h <;> rfl

theorem sound (h : Performs cb m op r m') (hm : Sound m) : Sound m' := by
  obtain ⟨hb, hd, hF⟩ := hm
  cases h with
  | @added E F T v g k hplace ha hk =>
    have hg : plug g nil = T := (plug_seek hplace).1
    have hd' := dirt_attach hplace ha hd
    exact ⟨wash_isRedBlack (attach_isRedBlack (hg ▸ hb) isRed_freshColor),
      dirt_of_clean (wash_clean hd'.up), hF⟩
  | rejected => exact ⟨wash_isRedBlack hb, dirt_of_clean (wash_clean hd.up), hF⟩
  | @removed E =>
    have hd' := kept_unstore (o := E.stamp) tolerant_up hd
    exact ⟨wash_isRedBlack (unstore_isRedBlack hb), dirt_of_clean (wash_clean hd'.up), hF⟩
  | @removedNode E =>
    have hd' := kept_unstore (o := E.stamp) tolerant_up hd
    exact ⟨wash_isRedBlack (unstore_isRedBlack hb), dirt_of_clean (wash_clean hd'.up), hF⟩
  | missing => exact ⟨hb, hd, hF⟩
  | found => exact ⟨hb, hd, hF⟩
  | reached => exact ⟨hb, hd, hF⟩
  | isEmpty => exact ⟨hb, hd, hF⟩
  | enumerated => exact ⟨hb, hd, hF⟩

/-- No operation leaves a dirty node behind. -/
theorem clean (h : Performs cb m op r m') (hm : Sound m) (hc : Clean m.tree) : Clean m'.tree := by
  obtain ⟨-, hd, -⟩ := hm
  cases h with
  | @added E F T v g k hplace ha hk =>
    exact wash_clean (dirt_attach hplace ha hd).up
  | rejected => exact wash_clean hd.up
  | @removed E => exact wash_clean (kept_unstore (o := E.stamp) tolerant_up hd).up
  | @removedNode E => exact wash_clean (kept_unstore (o := E.stamp) tolerant_up hd).up
  | missing => exact hc
  | found => exact hc
  | reached => exact hc
  | isEmpty => exact hc
  | enumerated => exact hc

end Performs

/-- What holds between operations. -/
structure Settled (m : Image σ) : Prop where
  sound : Sound m
  clean : Clean m.tree
  spare : m.spare = 0

theorem settled_init (config : Config) : Settled (.init config : Image σ) :=
  ⟨sound_init config, everywhere_nil, rfl⟩

theorem Performs.settled {cb : Callbacks} {m m' : Image σ} {op : Op} {r : Result}
    (h : Performs cb m op r m') (hm : Settled m) : Settled m' :=
  ⟨h.sound hm.sound, h.clean hm.sound hm.clean, h.spare_eq.trans hm.spare⟩

/-! ### Runs -/

theorem op_represents {cb : Callbacks} {op : Op} {s : Base σ} {m : Image σ} (h : Represents s m)
    (hp : op.Pre s) :
    Ensures (op.exec cb) s fun r s' => ∃ m', Performs cb m op r m' ∧ Represents s' m' :=
  (exec_performs h.1 h.2 hp).mono fun _ _ ⟨m', he, hs⟩ => ⟨m', he, hs, he.sound h.2⟩

/-- Every state of a run shows an image to which the image of the start has evolved. -/
theorem run_performs {cb : Callbacks} {s t : Base σ} {m : Image σ} {h : List (Op × Result)}
    (hrun : (operations σ cb).Run s h t) (hs : Represents s m) :
    ∃ m', Steps (Performs cb) m h m' ∧ Represents t m' := by
  have hstep : ∀ c s m, Represents s m → (operations σ cb).Pre c s →
      Ensures ((operations σ cb).exec c) s fun r s' =>
        ∃ m', Performs cb m c r m' ∧ Represents s' m' := fun _ _ _ h hp => op_represents h hp
  exact hrun.simulate hstep hs

theorem Performs.steps_settled {cb : Callbacks} {m m' : Image σ} {h : List (Op × Result)}
    (hrun : Steps (Performs cb) m h m') (hm : Settled m) : Settled m' :=
  hrun.keeps (fun _ _ _ _ hm h => h.settled hm) hm

theorem operations_keeps {cb : Callbacks} (op : Op) (s : Base σ) (hs : ∃ m : Image σ, Represents s m)
    (hp : op.Pre s) : Ensures (op.exec cb) s fun _ s' => ∃ m : Image σ, Represents s' m := by
  obtain ⟨m, hs⟩ := hs
  exact (op_represents hs hp).mono fun _ _ ⟨m', _, hs'⟩ => ⟨m', hs'⟩

/-! ### Operations carried out -/

/-- May the operation be made? -/
def Op.check : Op → Base σ → Bool
  | removeNode n, s => n ∈ nodesOf s
  | _, _ => true

theorem Op.pre_of_check {op : Op} {s : Base σ} (hs : ∃ m : Image σ, Represents s m)
    (h : op.check s = true) : op.Pre s := by
  obtain ⟨m, hs⟩ := hs
  cases op with
  | removeNode n => exact hs.mem_nodesOf.1 (of_decide_eq_true h)
  | add v => trivial
  | remove key => trivial
  | find key => trivial
  | findEqualOrGreater key => trivial
  | isEmpty => trivial
  | enumerate => trivial

/-- Operations that are carried out on a new tree are a run. -/
theorem exists_run_of_operations (config : Config) (cb : Callbacks) (ops : List Op)
    (rs : List Result) {β : Type} (f : Base σ → β) (b : β)
    (h : ((operations σ cb).follow Op.check ops (Base.initWithConfig config)).map (Prod.map id f) =
      some (rs, b)) :
    ∃ s, (operations σ cb).Run (Base.initWithConfig config) (ops.zip rs) s ∧
      (∃ m : Image σ, Represents s m) ∧ f s = b :=
  Interface.exists_run_of_follow (fun _ _ => Op.pre_of_check) operations_keeps (represents_init config)
    h

/-- A comparison of the contents, and a value that retains as itself. -/
def lengthCallbacks : Callbacks := ⟨byLength, fun _ v => v, true⟩

/-- A comparison of the first bytes. -/
def firstByteCallbacks : Callbacks :=
  ⟨fun a b => (a.bytes.headD 0).toNat - (b.bytes.headD 0).toNat, fun _ v => v, true⟩

/-- A record of eight bytes. -/
def ofByte (k : UInt8) : VoidPtr := ⟨.user k.toNat, k :: List.replicate 7 0⟩

/-- Three values are added, one of them again, and then it is removed. -/
def fiveOps (u v w : VoidPtr) : List Op := [.add u, .add v, .add w, .add v, .remove v]

def fiveResults : List Result := [.code 0, .code 0, .code 0, .code EEXIST, .code 0]

theorem exists_five : ∃ s : Base SlotPool,
    (operations SlotPool lengthCallbacks).Run (Base.initWithConfig ⟨0, 0x4#32, 0⟩)
      ((fiveOps (ofLength 0) (ofLength 2) (ofLength 4)).zip fiveResults) s ∧
    InOrder s [.slot 0, .slot 2] ∧
    [.slot 0, .slot 2].map (valueAt s) = [ofLength 0, ofLength 4] := by
  obtain ⟨s, hrun, ⟨m, hm⟩, hs⟩ := exists_run_of_operations (σ := SlotPool) ⟨0, 0x4#32, 0⟩
    lengthCallbacks (fiveOps (ofLength 0) (ofLength 2) (ofLength 4)) fiveResults
    (fun s => (nodesOf s, [.slot 0, .slot 2].map (valueAt s)))
    ([.slot 0, .slot 2], [ofLength 0, ofLength 4]) (by decide +kernel)
  obtain ⟨hnodes, hvalues⟩ := Prod.mk.inj hs
  exact ⟨s, hrun, hnodes ▸ hm.inOrder, hvalues⟩

end MulleRbtree
