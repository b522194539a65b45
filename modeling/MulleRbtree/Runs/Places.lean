import MulleRbtree.Library.Preorder
import MulleRbtree.Runs.Valid

/-!
# Where nodes come and go

In every state that calls lead to,

* `removeNode_place`: removing a node takes it out of the order and nothing else;
* `InsertsInPlace`: `_mulle__rbtree_insert_node` puts a node right after the last one that is not
  greater, or finds an equal one, and the positional inserts put it right before or after the given
  node;
* `inserts_agree`: where they aim at one place, the three inserts do one thing.

`SameNode s s' n` says that a node keeps what it holds.
-/

namespace MulleRbtree

open BinaryTree Cells Program

variable {σ : Type}

/-- The node is still there, and so is what it holds. -/
def SameNode (s s' : Base σ) (n : Ref) : Prop :=
  Attached s' n ∧ ∃ c c', s.mem n = some c ∧ s'.mem n = some c' ∧ c'.payload = c.payload ∧
    c'.extra = c.extra

variable [MulleStorage σ] {s s' : Base σ} {E E' : Env σ} {z z' : Sentinel} {K K' : Multiset Cell}
  {T T' : ETree}

theorem Repr.sameNode {e : Entry} (h : Repr s E z K T) (h' : Repr s' E' z' K' T')
    (he : e ∈ T.inorder) (hi : e.item ∈ items T') : SameNode s s' e.ref := by
  rw [items_eq, List.mem_map] at hi
  obtain ⟨e', he', heq⟩ := hi
  have hslot : e'.slot = e.slot := congrArg Item.slot heq
  have href : e'.ref = e.ref := congrArg Ref.slot hslot
  obtain ⟨c, hc, -, hp, hx, -⟩ := h.mem_of_mem he
  obtain ⟨c', hc', -, hp', hx', -⟩ := h'.mem_of_mem he'
  rw [href] at hc'
  exact ⟨href ▸ h'.attached_ref he', c, c', hc, hc', by rw [hp, hp']; exact congrArg Item.payload heq,
    by rw [hx, hx']; exact congrArg Item.extra heq⟩

/-- The order, by items. -/
theorem Repr.inOrder_items (h : Repr s E z K T) :
    InOrder s ((items T).map fun a => .slot a.slot) := by
  have hrefs := h.inOrder
  rwa [items_eq, List.map_map]

/-- Two states with the same cells have the same memory. -/
theorem Repr.mem_eq (h : Repr s E z K T) (h' : Repr s' E' z K T) :
    s'.root = s.root ∧ s'.mem = s.mem :=
  ⟨(Holds.root h').trans (Holds.root h).symm, (Holds.owns h').unique (Holds.owns h)⟩

/-! ### `_mulle__rbtree_remove_node` -/

theorem Repr.removed_place {n : Ref} (h : Repr s E z K T) (hb : IsRedBlack Entry.isRed T)
    (hd : Dirt E.options T) (hn : Attached s n) :
    ∃ u v s', InOrder s (u ++ n :: v) ∧ Base.removeNode n s = .ok ((), s') ∧ InOrder s' (u ++ v) ∧
      ¬ Attached s' n ∧ ∀ m, Attached s m → m ≠ n → SameNode s s' m := by
  obtain ⟨c, a, l, r, rfl, rfl⟩ := h.exists_of_attached hn
  obtain ⟨_, s', he, k, -, z', h'⟩ := Base.removeNode_spec h hb hd
  obtain ⟨u, v, hitems, hitems'⟩ := items_removeAt_split E.stamp.next c a l r
  have hgone : ∀ b ∈ u ++ v, b.slot ≠ a.slot := by
    have hn := h.nodup_slots
    rw [slots_eq, hitems, List.map_append, List.map_cons, List.nodup_middle, List.nodup_cons,
      ← List.map_append] at hn
    exact fun b hb e => hn.1 (List.mem_map.2 ⟨b, hb, e⟩)
  refine ⟨u.map fun b => .slot b.slot, v.map fun b => .slot b.slot, s', ?_, he, ?_, fun hat => ?_,
    fun m hm hne => ?_⟩
  · simpa [hitems, Entry.item] using h.inOrder_items
  · simpa [hitems'] using h'.inOrder_items
  · obtain ⟨i, hi, e⟩ := h'.attached_iff.1 hat
    rw [slots_eq, hitems', List.mem_map] at hi
    obtain ⟨b, hb, rfl⟩ := hi
    exact hgone b hb (Ref.slot.inj e).symm
  · obtain ⟨e, he, rfl⟩ := h.exists_mem_of_attached hm
    refine h.sameNode h' he ?_
    have hin : e.item ∈ items (plug c (node a l r)) := by
      rw [items_eq]
      exact List.mem_map_of_mem he
    rw [hitems']
    rw [hitems] at hin
    have hne' : e.item ≠ a.item := fun e' => hne (congrArg (fun b : Item => Ref.slot b.slot) e')
    simp only [List.mem_append, List.mem_cons] at hin ⊢
    tauto

/-- Removing a node takes exactly that node out of the order, whatever its position. -/
theorem removeNode_place (config : Config) {h : List (Call × Answer)} {n : Ref}
    (hrun : (calls σ).Run (Base.initWithConfig config) h s) (hn : Attached s n) :
    ∃ u v s', InOrder s (u ++ n :: v) ∧ Base.removeNode n s = .ok ((), s') ∧ InOrder s' (u ++ v) ∧
      ¬ Attached s' n ∧ ∀ m, Attached s m → m ≠ n → SameNode s s' m := by
  obtain ⟨m, -, ⟨z, hr⟩, hm⟩ := run_evolves hrun ⟨shows_init config, sound_init config⟩
  exact hr.removed_place hm.redBlack hm.dirt hn

/-- The node between two others. -/
theorem removeNode_place_inner : ∃ s s' : Base SlotPool, InOrder s [.slot 0, .slot 1, .slot 2] ∧
    Base.removeNode (.slot 1) s = .ok ((), s') ∧ InOrder s' [.slot 0, .slot 2] ∧
    ¬ Attached s' (.slot 1) ∧ ∀ m, Attached s m → m ≠ .slot 1 → SameNode s s' m := by
  obtain ⟨s, hrun, hin, hn, -⟩ := exists_run
  obtain ⟨u, v, s', hns, he, hns', hplace⟩ := removeNode_place _ hrun hn
  have hsplit : [.slot 0] ++ .slot 1 :: [.slot 2] = u ++ .slot 1 :: v := hin.unique hns
  obtain ⟨rfl, -, rfl⟩ := (List.append_cons_inj_of_notMem (by simp) (by simp)).1 hsplit
  exact ⟨s, s', hin, he, hns', hplace⟩

/-! ### The inserts -/

theorem Repr.attach_place {a : Entry} {g : Path Entry} {o : Stamp}
    (h : Repr s E z K (plug g nil)) (h' : Repr s' E' z' K' (attach o a g)) :
    ∃ u v, u = (before g).map Entry.ref ∧ v = (after g).map Entry.ref ∧ InOrder s (u ++ v) ∧
      InOrder s' (u ++ a.ref :: v) ∧ ∀ m, Attached s m → SameNode s s' m := by
  obtain ⟨hitems, hitems'⟩ := items_attach_split (o := o) (a := a) (c := g)
  refine ⟨_, _, rfl, rfl, ?_, ?_, fun m hm => ?_⟩
  · have hin := h.inOrder_items
    rw [hitems, List.map_append, List.map_map, List.map_map] at hin
    exact hin
  · have hin := h'.inOrder_items
    rw [hitems', List.map_append, List.map_cons, List.map_map, List.map_map] at hin
    exact hin
  · obtain ⟨e, he, rfl⟩ := h.exists_mem_of_attached hm
    refine h.sameNode h' he ?_
    have hin : e.item ∈ items (plug g nil) := by
      rw [items_eq]
      exact List.mem_map_of_mem he
    rw [hitems']
    rw [hitems] at hin
    simp only [List.mem_append, List.mem_cons] at hin ⊢
    tauto

/-- The values of the nodes of the tree. -/
theorem Repr.map_valueAt (h : Repr s E z K T) :
    (T.inorder.map Entry.ref).map (valueAt s) = T.inorder.map (Entry.value E.options) := by
  rw [List.map_map]
  exact List.map_congr_left fun e he => h.valueAt_eq he

/-- In a sorted tree a search finds its way. -/
theorem cut_of_ascending {options : BitVec 32} {comp : VoidPtr → VoidPtr → ℤ} {D : Set VoidPtr}
    {w : VoidPtr} (hp : PreorderOn comp D) (hw : w ∈ D)
    (hD : ∀ e ∈ T.inorder, e.value options ∈ D)
    (hasc : Ascending comp (T.inorder.map (Entry.value options))) :
    Cut (matching options comp w) T.inorder := by
  have hcut := hasc.cut hp (by simpa using hD) hw
  exact cut_map.1 hcut

/-- What `_mulle__rbtree_insert_node` does with a new node `a` in a tree with the nodes `ns`. -/
def InsertsSorted (s : Base σ) (comp : VoidPtr → VoidPtr → ℤ) (a : Ref) (ns : List Ref) : Prop :=
  ∃ r s', Base.insertNode a comp s = .ok (r, s') ∧
    ((Options.allowDuplicates s.options = false ∧
        ∃ n ∈ ns, comp (valueAt s a) (valueAt s n) = 0) ∧
      r = EEXIST ∧ s'.root = s.root ∧ s'.mem = s.mem ∨
    ¬ (Options.allowDuplicates s.options = false ∧
        ∃ n ∈ ns, comp (valueAt s a) (valueAt s n) = 0) ∧
      r = 0 ∧ ∃ u v, ns = u ++ v ∧ InOrder s' (u ++ a :: v) ∧
        (∀ n ∈ u, comp (valueAt s n) (valueAt s a) ≤ 0) ∧
        (∀ n ∈ v, 0 < comp (valueAt s n) (valueAt s a)) ∧ ∀ m, Attached s m → SameNode s s' m)

theorem valueAt_loose {a : Entry} (h : Repr s E z ({looseCell a} + K) T) :
    valueAt s a.ref = a.value E.options := by
  rw [valueAt, Entry.ref, Base.getNodeValue_loose h]

theorem Repr.insertNode_place {a : Entry} {comp : VoidPtr → VoidPtr → ℤ} {D : Set VoidPtr}
    (h : Repr s E z ({looseCell a} + K) T) (hb : IsRedBlack Entry.isRed T) (ha : a.isRed = true)
    (hp : PreorderOn comp D) (hw : valueAt s a.ref ∈ D)
    (hD : ∀ n ∈ T.inorder.map Entry.ref, valueAt s n ∈ D)
    (hasc : Ascending comp ((T.inorder.map Entry.ref).map (valueAt s))) :
    InsertsSorted s comp a.ref (T.inorder.map Entry.ref) := by
  have hwa := valueAt_loose h
  have hD' : ∀ e ∈ T.inorder, e.value E.options ∈ D := fun e he => by
    rw [← h.valueAt_eq he]
    exact hD _ (List.mem_map_of_mem he)
  have hcut := cut_of_ascending hp (hwa ▸ hw) hD' (h.map_valueAt ▸ hasc)
  have hsome : (Options.allowDuplicates s.options = false ∧
      ∃ n ∈ T.inorder.map Entry.ref, comp (valueAt s a.ref) (valueAt s n) = 0) ↔
      halts E.options = true ∧ ∃ e ∈ T.inorder, matching E.options comp (a.value E.options) e = 0 := by
    rw [Holds.options_eq h, halts, Bool.not_eq_true', hwa]
    refine and_congr_right fun _ => ?_
    simp only [List.mem_map, exists_exists_and_eq_and]
    refine exists_congr fun e => and_congr_right fun he => ?_
    rw [h.valueAt_eq he]
    rfl
  obtain ⟨r, s', he, hi⟩ := Base.insertNode_spec h hb ha comp
  refine ⟨r, s', he, ?_⟩
  rw [hsome]
  cases hseek : seek (matching E.options comp (a.value E.options)) (halts E.options) [] T with
  | none =>
    rw [hseek] at hi
    exact .inl ⟨seek_eq_none hseek, hi.1, h.mem_eq hi.2⟩
  | some g =>
    rw [hseek] at hi
    obtain ⟨rfl, k, -, h'⟩ := hi
    obtain ⟨hT, hbefore, hafter, hno⟩ := seek_spec hcut hseek
    have hg : T = plug g nil := (plug_seek hseek).1.symm
    obtain ⟨u, v, rfl, rfl, hin, hin', hsame⟩ := Repr.attach_place (h.cast hg) h'
    have hno' : ¬ (halts E.options = true ∧
        ∃ e ∈ T.inorder, matching E.options comp (a.value E.options) e = 0) := by
      rintro ⟨hh, e, he, h₀⟩
      exact hno hh e he h₀
    refine .inr ⟨hno', rfl, _, _, ?_, hin', fun n hn => ?_, fun n hn => ?_, hsame⟩
    · rw [hT, List.map_append]
    · obtain ⟨e, he, rfl⟩ := List.mem_map.1 hn
      have hm : e ∈ T.inorder := hT ▸ List.mem_append_left _ he
      rw [h.valueAt_eq hm, hwa]
      exact (hp.le_iff (hD' e hm) (hwa ▸ hw)).2 (hbefore e he)
    · obtain ⟨e, he, rfl⟩ := List.mem_map.1 hn
      have hm : e ∈ T.inorder := hT ▸ List.mem_append_right _ he
      rw [h.valueAt_eq hm, hwa]
      exact (hp.lt_iff _ (hwa ▸ hw) _ (hD' e hm)).1 (hafter e he)

theorem Repr.insertNodeBeforeNode_place {a : Entry} {n : Ref}
    (h : Repr s E z ({looseCell a} + K) T) (hb : IsRedBlack Entry.isRed T) (ha : a.isRed = true)
    (hn : Attached s n) : ∃ u v s', T.inorder.map Entry.ref = u ++ n :: v ∧
      Base.insertNodeBeforeNode a.ref n s = .ok ((), s') ∧ InOrder s' (u ++ a.ref :: n :: v) ∧
      ∀ m, Attached s m → SameNode s s' m := by
  obtain ⟨c, e, l, r, rfl, rfl⟩ := h.exists_of_attached hn
  obtain ⟨_, s', he, k, -, h'⟩ := Base.insertNodeBeforeNode_spec h hb ha
  obtain ⟨u, v, rfl, rfl, -, hin, hsame⟩ :=
    Repr.attach_place (h.cast (Base.plug_beside .left c e l r).symm) h'
  rw [Base.after_beside_left] at hin
  refine ⟨_, _, s', ?_, he, hin, hsame⟩
  rw [Base.before_beside_left, inorder_plug]
  simp [Entry.ref]

theorem Repr.insertNodeAfterNode_place {a : Entry} {n : Ref}
    (h : Repr s E z ({looseCell a} + K) T) (hb : IsRedBlack Entry.isRed T) (ha : a.isRed = true)
    (hn : Attached s n) : ∃ u v s', T.inorder.map Entry.ref = u ++ n :: v ∧
      Base.insertNodeAfterNode a.ref n s = .ok ((), s') ∧ InOrder s' (u ++ n :: a.ref :: v) ∧
      ∀ m, Attached s m → SameNode s s' m := by
  obtain ⟨c, e, l, r, rfl, rfl⟩ := h.exists_of_attached hn
  obtain ⟨_, s', he, k, -, h'⟩ := Base.insertNodeAfterNode_spec h hb ha
  obtain ⟨u, v, rfl, rfl, hin₀, hin, hsame⟩ :=
    Repr.attach_place (h.cast (Base.plug_beside .right c e r l).symm) h'
  have hsplit : (before (Base.beside .right c e r l)).map Entry.ref =
      (before c ++ l.inorder).map Entry.ref ++ [.slot e.slot] := by
    rw [Base.before_beside_right]
    simp [Entry.ref]
  have hrefs := hin₀.unique h.inOrder
  rw [hsplit, List.append_assoc] at hin hrefs
  exact ⟨_, _, s', hrefs.symm, he, hin, hsame⟩

/-- The three inserts put the new node `a` where they promise, in a state with the nodes `ns`. -/
structure InsertsInPlace (s : Base σ) (a : Ref) (ns : List Ref) : Prop where
  inOrder : InOrder s ns
  sorted : ∀ comp D, PreorderOn comp D → valueAt s a ∈ D → (∀ n ∈ ns, valueAt s n ∈ D) →
    Ascending comp (ns.map (valueAt s)) → InsertsSorted s comp a ns
  before : ∀ n, Attached s n → ∃ u v s', ns = u ++ n :: v ∧
    Base.insertNodeBeforeNode a n s = .ok ((), s') ∧ InOrder s' (u ++ a :: n :: v) ∧
    ∀ m, Attached s m → SameNode s s' m
  after : ∀ n, Attached s n → ∃ u v s', ns = u ++ n :: v ∧
    Base.insertNodeAfterNode a n s = .ok ((), s') ∧ InOrder s' (u ++ n :: a :: v) ∧
    ∀ m, Attached s m → SameNode s s' m

theorem Represents.insertsInPlace {m : Image σ} {a : Ref} (h : Represents s m)
    (ha : Unattached s a) : ∃ ns, InsertsInPlace s a ns := by
  obtain ⟨E, F, T⟩ := m
  obtain ⟨⟨z, hr⟩, hm⟩ := h
  obtain ⟨b, F, rfl, rfl, hred, hr⟩ := hr.exists_fresh hm.fresh ha
  exact ⟨_, hr.inOrder, fun comp D hp hw hD hasc =>
    hr.insertNode_place hm.redBlack hred hp hw hD hasc,
    fun n hn => hr.insertNodeBeforeNode_place hm.redBlack hred hn,
    fun n hn => hr.insertNodeAfterNode_place hm.redBlack hred hn⟩

/-! ### The inserts agree -/

/-- There is one empty place between two neighbours. -/
theorem plug_eq_of_before {g g' : Path Entry} (h : plug g nil = plug g' nil)
    (hb : before g = before g') : g = g' := place_unique h (by rw [hb])

theorem Repr.insertAfter_agree {a e : Entry} {g : Path Entry} {U V : List Entry}
    (h : Repr s E z ({looseCell a} + K) (plug g nil)) (hb : IsRedBlack Entry.isRed (plug g nil))
    (ha : a.isRed = true) (hU : before g = U ++ [e]) (hV : after g = V) :
    ∃ s₁ k, Base.insertNodeAfterNode a.ref e.ref s = .ok ((), s₁) ∧
      Repr s₁ (E.advanced.turnedBy k) z K (attach E.stamp a g) := by
  have hT : (plug g nil).inorder = U ++ e :: V := by
    rw [inorder_plug, hU, hV]
    simp
  obtain ⟨c, l, r, hplug, rfl, -⟩ := exists_plug_of_inorder hT
  obtain ⟨_, s₁, he, k, -, h'⟩ := Base.insertNodeAfterNode_spec (h.cast hplug) (hplug ▸ hb) ha
  have hg : Base.beside .right c e r l = g := by
    refine plug_eq_of_before ((Base.plug_beside .right c e r l).trans hplug.symm) ?_
    rw [Base.before_beside_right, hU, List.append_assoc]
  exact ⟨s₁, k, he, hg ▸ h'⟩

theorem Repr.insertBefore_agree {a e : Entry} {g : Path Entry} {U V : List Entry}
    (h : Repr s E z ({looseCell a} + K) (plug g nil)) (hb : IsRedBlack Entry.isRed (plug g nil))
    (ha : a.isRed = true) (hU : before g = U) (hV : after g = e :: V) :
    ∃ s₁ k, Base.insertNodeBeforeNode a.ref e.ref s = .ok ((), s₁) ∧
      Repr s₁ (E.advanced.turnedBy k) z K (attach E.stamp a g) := by
  have hT : (plug g nil).inorder = U ++ e :: V := by
    rw [inorder_plug, hU, hV]
    simp
  obtain ⟨c, l, r, hplug, rfl, -⟩ := exists_plug_of_inorder hT
  obtain ⟨_, s₁, he, k, -, h'⟩ := Base.insertNodeBeforeNode_spec (h.cast hplug) (hplug ▸ hb) ha
  have hg : Base.beside .left c e l r = g := by
    refine plug_eq_of_before ((Base.plug_beside .left c e l r).trans hplug.symm) ?_
    rw [Base.before_beside_left, hU]
  exact ⟨s₁, k, he, hg ▸ h'⟩

theorem Repr.insert_agree {a : Entry} {u v : List Ref} {comp : VoidPtr → VoidPtr → ℤ}
    {D : Set VoidPtr} (h : Repr s E z ({looseCell a} + K) T) (hb : IsRedBlack Entry.isRed T)
    (ha : a.isRed = true) (hin : InOrder s (u ++ v)) (hp : PreorderOn comp D)
    (hw : valueAt s a.ref ∈ D) (hD : ∀ n ∈ u ++ v, valueAt s n ∈ D)
    (hasc : Ascending comp ((u ++ v).map (valueAt s)))
    (hu : ∀ n ∈ u, comp (valueAt s n) (valueAt s a.ref) ≤ 0)
    (hv : ∀ n ∈ v, 0 < comp (valueAt s n) (valueAt s a.ref))
    (hnew : Options.allowDuplicates s.options = false →
      ∀ n ∈ u ++ v, comp (valueAt s a.ref) (valueAt s n) ≠ 0) :
    ∃ s₀, Base.insertNode a.ref comp s = .ok (0, s₀) ∧
      (∀ p ∈ u.getLast?, ∃ s₁, Base.insertNodeAfterNode a.ref p s = .ok ((), s₁) ∧
        s₁.root = s₀.root ∧ s₁.mem = s₀.mem) ∧
      ∀ q ∈ v.head?, ∃ s₂, Base.insertNodeBeforeNode a.ref q s = .ok ((), s₂) ∧
        s₂.root = s₀.root ∧ s₂.mem = s₀.mem := by
  have hrefs : u ++ v = T.inorder.map Entry.ref := h.inOrder_iff.1 hin
  obtain ⟨U, V, hUV, rfl, rfl⟩ := List.map_eq_append_iff.1 hrefs.symm
  have hwa := valueAt_loose h
  have hval : ∀ e ∈ U ++ V, valueAt s e.ref = e.value E.options ∧ e.value E.options ∈ D := by
    intro e he
    have hvalue := h.valueAt_eq (hUV.symm ▸ he)
    refine ⟨hvalue, hvalue ▸ hD e.ref ?_⟩
    rw [← List.map_append]
    exact List.mem_map_of_mem he
  rw [hrefs, h.map_valueAt] at hasc
  rw [hwa] at hw hu hv hnew
  have hcut := cut_of_ascending hp hw (fun e he => (hval e (hUV ▸ he)).2) hasc
  obtain ⟨r, s₀, he, hi⟩ := Base.insertNode_spec h hb ha comp
  cases hseek : seek (matching E.options comp (a.value E.options)) (halts E.options) [] T with
  | none =>
    obtain ⟨hh, e, hm, h₀⟩ := seek_eq_none hseek
    rw [hUV] at hm
    refine absurd ?_ (hnew (by simpa [halts, Holds.options_eq h] using hh) e.ref ?_)
    · rw [(hval e hm).1]
      exact h₀
    · rw [← List.map_append]
      exact List.mem_map_of_mem hm
  | some g =>
    rw [hseek] at hi
    obtain ⟨rfl, k, -, h₀⟩ := hi
    obtain ⟨hT, hbefore, hafter, -⟩ := seek_spec hcut hseek
    have hg : T = plug g nil := (plug_seek hseek).1.symm
    have hU : before g = U := by
      refine split_unique (P := fun e : Entry => 0 ≤ matching E.options comp (a.value E.options) e)
        (hT.symm.trans hUV) hbefore (fun e he => not_le.2 (hafter e he)) (fun e he => ?_)
        fun e he => ?_
      · have hm := hval e (List.mem_append_left _ he)
        have hle := hu e.ref (List.mem_map_of_mem he)
        rw [hm.1] at hle
        exact (hp.le_iff hm.2 hw).1 hle
      · have hm := hval e (List.mem_append_right _ he)
        have hlt := hv e.ref (List.mem_map_of_mem he)
        rw [hm.1] at hlt
        exact not_le.2 ((hp.lt_iff _ hw _ hm.2).2 hlt)
    have hV : after g = V := by
      rw [hUV, hU] at hT
      exact (List.append_cancel_left hT).symm
    refine ⟨s₀, he, fun p hpu => ?_, fun q hq => ?_⟩
    · rw [List.getLast?_map] at hpu
      obtain ⟨e, hlast, rfl⟩ := Option.map_eq_some_iff.1 hpu
      obtain ⟨U', rfl⟩ := List.getLast?_eq_some_iff.1 hlast
      obtain ⟨s₁, k', he₁, h₁⟩ := (h.cast hg).insertAfter_agree (hg ▸ hb) ha hU hV
      exact ⟨s₁, he₁, h₀.mem_eq h₁⟩
    · rw [List.head?_map] at hq
      obtain ⟨e, hhead, rfl⟩ := Option.map_eq_some_iff.1 hq
      obtain ⟨V', rfl⟩ := List.head?_eq_some_iff.1 hhead
      obtain ⟨s₂, k', he₂, h₂⟩ := (h.cast hg).insertBefore_agree (hg ▸ hb) ha hU hV
      exact ⟨s₂, he₂, h₀.mem_eq h₂⟩

/-- The three inserts of `a` lead to one memory, where the comparison puts it between the nodes `u`
and the nodes `v`. -/
theorem inserts_agree (config : Config) {h : List (Call × Answer)} {a : Ref} {u v : List Ref}
    {comp : VoidPtr → VoidPtr → ℤ} {D : Set VoidPtr}
    (hrun : (calls σ).Run (Base.initWithConfig config) h s) (ha : Unattached s a)
    (hin : InOrder s (u ++ v)) (hp : PreorderOn comp D) (hw : valueAt s a ∈ D)
    (hD : ∀ n ∈ u ++ v, valueAt s n ∈ D) (hasc : Ascending comp ((u ++ v).map (valueAt s)))
    (hu : ∀ n ∈ u, comp (valueAt s n) (valueAt s a) ≤ 0)
    (hv : ∀ n ∈ v, 0 < comp (valueAt s n) (valueAt s a))
    (hnew : Options.allowDuplicates s.options = false →
      ∀ n ∈ u ++ v, comp (valueAt s a) (valueAt s n) ≠ 0) :
    ∃ s₀, Base.insertNode a comp s = .ok (0, s₀) ∧
      (∀ p ∈ u.getLast?, ∃ s₁, Base.insertNodeAfterNode a p s = .ok ((), s₁) ∧
        s₁.root = s₀.root ∧ s₁.mem = s₀.mem) ∧
      ∀ q ∈ v.head?, ∃ s₂, Base.insertNodeBeforeNode a q s = .ok ((), s₂) ∧
        s₂.root = s₀.root ∧ s₂.mem = s₀.mem := by
  obtain ⟨⟨E, F, T⟩, -, ⟨z, hr⟩, hm⟩ := run_evolves hrun ⟨shows_init config, sound_init config⟩
  obtain ⟨b, F, rfl, rfl, hred, hr⟩ := hr.exists_fresh hm.fresh ha
  exact hr.insert_agree hm.redBlack hred hin hp hw hD hasc hu hv hnew

theorem preorderOn_byLength : PreorderOn byLength Set.univ := by
  refine ⟨fun a _ b _ => ?_, fun a _ b _ c _ => ?_⟩ <;> simp only [byLength] <;> omega

/-- A node between the second and the third one. -/
theorem inserts_agree_third : ∃ s : Base SlotPool, InOrder s [.slot 0, .slot 1, .slot 2] ∧
    ∃ s₀ s₁ s₂, Base.insertNode (.slot 3) byLength s = .ok (0, s₀) ∧
      Base.insertNodeAfterNode (.slot 3) (.slot 1) s = .ok ((), s₁) ∧
      Base.insertNodeBeforeNode (.slot 3) (.slot 2) s = .ok ((), s₂) ∧
      (s₁.root = s₀.root ∧ s₁.mem = s₀.mem) ∧ s₂.root = s₀.root ∧ s₂.mem = s₀.mem := by
  obtain ⟨s, hrun, hin, -, ha, -, hvalues⟩ := exists_run
  obtain ⟨h₀, h₁, h₂, h₃⟩ : valueAt s (.slot 0) = ofLength 0 ∧ valueAt s (.slot 1) = ofLength 2 ∧
      valueAt s (.slot 2) = ofLength 4 ∧ valueAt s (.slot 3) = ofLength 3 := by
    simpa using hvalues
  obtain ⟨s₀, he, hafter, hbefore⟩ := inserts_agree (u := [.slot 0, .slot 1]) (v := [.slot 2])
    (D := Set.univ) _ hrun ha hin preorderOn_byLength trivial (fun _ _ => trivial)
    (by simp [Ascending, h₀, h₁, h₂, byLength, ofLength]) (by simp [h₀, h₁, h₃, byLength, ofLength])
    (by simp [h₂, h₃, byLength, ofLength]) (by simp [h₀, h₁, h₂, h₃, byLength, ofLength])
  obtain ⟨s₁, he₁, hs₁⟩ := hafter (.slot 1) rfl
  obtain ⟨s₂, he₂, hs₂⟩ := hbefore (.slot 2) rfl
  exact ⟨s, hin, s₀, s₁, s₂, he, he₁, he₂, hs₁, hs₂⟩

end MulleRbtree
