import MulleRbtree.Layout.Parts

/-!
# Loops over a tree, and the dirty marks

* `Repr.numNodes_le`: a tree has no more nodes than the pool, so a loop that follows a path ends
  before its bound;
* `markNodeAsDirty_spec`: all nodes of a path are soiled;
* `assertDirtyFlagPropagation_spec`: the assertion holds where the ancestors of a dirty node are
  dirty.
-/

namespace MulleRbtree

open BinaryTree Cells Program

variable {σ : Type} [MulleStorage σ] {α β : Type}

/-! ### Bounds -/

theorem length_add_numNodes_le {γ : Type} (c : Path γ) (t : BinaryTree γ) :
    c.length + t.numNodes ≤ (plug c t).numNodes := by
  induction c generalizing t with
  | nil => simp
  | cons f c ih =>
    have h := ih (f.fill t)
    have hfill : (f.fill t).numNodes = t.numNodes + f.sibling.numNodes + 1 := by
      unfold Frame.fill
      cases f.side <;> simp [join, add_comm t.numNodes]
    rw [plug_cons, List.length_cons]
    omega

namespace Holds

variable {s : Base σ} {E : Env σ} {root : Ref} {H : Multiset Cell} {Q : β → Base σ → Prop}
  {a : α}

/-- A loop, with its bound in terms of the environment. -/
theorem loop (h : Holds s E root H) {step : α → Base.M σ (α ⊕ β)}
    (hi : Ensures (iterate .endless step (MulleStorage.getCount E.nodes + 2) a) s Q) :
    Ensures (Base.loop step a) s Q := by
  refine .bind_eq (s := s) ?_ hi
  rw [← h.nodes_eq]; rfl

end Holds

namespace Base

/-- One round of a `while` loop. -/
def whileStep (cond : α → M σ Bool) (body : α → M σ α) (a : α) : M σ (α ⊕ α) := do
  if ← cond a then return .inl (← body a) else return .inr a

variable {cond : α → M σ Bool} {body : α → M σ α} {s s' : Base σ} {E : Env σ} {root : Ref}
  {H : Multiset Cell} {Q : α → Base σ → Prop} {a : α} {n : ℕ}

theorem whileLoop_spec (h : Holds s E root H)
    (hi : Ensures (iterate .endless (whileStep cond body) (MulleStorage.getCount E.nodes + 2) a)
      s Q) : Ensures (whileLoop cond body a) s Q := h.loop hi

omit [MulleStorage σ] in
/-- The condition holds: the body runs, then the loop again. -/
theorem whileStep_true {P : α → Base σ → Prop} (hc : cond a s = .ok (true, s'))
    (hb : Ensures (body a) s' P)
    (hrest : ∀ b t, P b t → Ensures (iterate .endless (whileStep cond body) n b) t Q) :
    Ensures (iterate .endless (whileStep cond body) (n + 1) a) s Q := by
  refine .iterate_succ (.bind_eq hc (hb.bind fun b t hP => .pure (hrest b t hP)))

omit [MulleStorage σ] in
/-- The condition fails: the loop is over. -/
theorem whileStep_false (hc : cond a s = .ok (false, s')) (hQ : Q a s') :
    Ensures (iterate .endless (whileStep cond body) (n + 1) a) s Q :=
  .iterate_succ (.bind_eq hc (.pure hQ))

end Base

namespace Repr

variable {s : Base σ} {E : Env σ} {z : Sentinel} {K : Multiset Cell} {T t : ETree} {c : Path Entry}

/-- No slot occurs twice in a tree. -/
theorem nodup_slots (h : Repr s E z K T) : (slots T).Nodup := by
  have hle : (below .nil T).map Prod.fst ≤
      (({z.cell} + (K + below .nil T) : Multiset Cell)).map Prod.fst :=
    Multiset.map_le_map (le_trans (Multiset.le_add_left _ _) (Multiset.le_add_left _ _))
  have hn := Multiset.nodup_of_le hle h.owns.1
  rw [map_fst_below, Multiset.coe_nodup] at hn
  exact hn.of_map

theorem mem_live (h : Repr s E z K T) {i : ℕ} (hi : i ∈ slots T) :
    i ∈ MulleStorage.live E.nodes := by
  rw [h.live, Multiset.map_add, Multiset.map_add, map_fst_below]
  simp [hi]

theorem numNodes_le (h : Repr s E z K T) : T.numNodes ≤ MulleStorage.getCount E.nodes := by
  have hcard : (slots T).toFinset.card ≤ (MulleStorage.live E.nodes).card :=
    Finset.card_le_card fun i hi => h.mem_live (by simpa using hi)
  rw [List.toFinset_card_of_nodup h.nodup_slots] at hcard
  simpa [slots, length_inorder, MulleStorage.getCount] using hcard

theorem length_lt (h : Repr s E z K (plug c t)) :
    c.length < MulleStorage.getCount E.nodes + 2 := by
  have h₁ := h.numNodes_le
  have h₂ := length_add_numNodes_le c t
  omega

end Repr

/-! ### The place of the root -/

/-- The topmost node of a piece of a path is one of the nodes around the place. -/
theorem topRef_mem_above (f : Frame Entry) (g c : Path Entry) (ref : Ref) :
    ∃ node, (topRef (f :: g) ref, node) ∈ above (f :: g ++ c) ref := by
  induction g generalizing f ref with
  | nil => exact ⟨_, mem_front⟩
  | cons f' g ih =>
    obtain ⟨node, hn⟩ := ih f' (.slot f.label.slot)
    refine ⟨node, ?_⟩
    rw [List.cons_append, above_cons]
    exact Multiset.mem_add.2 (.inr (Multiset.mem_add.2 (.inr hn)))

namespace Repr

variable {s : Base σ} {E : Env σ} {z : Sentinel} {K : Multiset Cell} {T t : ETree} {c : Path Entry}

/-- A place is not the root of a subtree it lies deeper in. -/
theorem treeRef_eq_top {g : Path Entry} (h : Repr s E z K (plug c (plug g t))) :
    treeRef t = treeRef (plug g t) ↔ g = [] := by
  refine ⟨fun e => ?_, fun e => by rw [e, plug_nil]⟩
  cases g with
  | nil => rfl
  | cons f g =>
    cases t with
    | nil => exact absurd (treeRef_eq_nil.1 e.symm) (plug_ne_nil (.inl (List.cons_ne_nil f g)))
    | node a x y =>
      obtain ⟨node, hn⟩ := topRef_mem_above f g c (.slot a.slot)
      have hmem : (topRef (f :: g) (Ref.slot a.slot), node) ∈ ({z.cell} + (K +
          below (.slot a.slot) x + (below (.slot a.slot) y + above (f :: g ++ c) (.slot a.slot))) :
          Multiset Cell) := by
        simp only [Multiset.mem_add, hn, or_true]
      rw [← plug_append] at h
      rw [treeRef_plug] at e
      exact absurd e ((Repr.parts_join (d := .left) h).front.owns.ne hmem)

/-- A place with ancestors is not the root. -/
theorem treeRef_eq_root (h : Repr s E z K (plug c t)) :
    treeRef t = treeRef (plug c t) ↔ c = [] := treeRef_eq_top (c := []) h

theorem isDirty (h : Repr s E z K (plug c t)) :
    Base.isDirty (treeRef t) s = .ok (rootHas Entry.isDirty t, s) := by
  cases t with
  | nil =>
    obtain ⟨H, hH, hn⟩ := h.mem_nil
    rw [treeRef_nil, hH.isDirty hn]
    simp [Base.nilNode]
  | node e l r =>
    obtain ⟨H, hH, hn⟩ := mem_join (d := .left) h
    exact hH.isDirty hn

end Repr

/-! ### `_mulle__rbtree_mark_node_as_dirty` -/

theorem isDirty_of_mem_soiled {o : Stamp} (ho : Options.useDirty o.options = true)
    {c : Path Entry} {f : Frame Entry} (hf : f ∈ Path.mapLabels (Entry.soil o) c) :
    f.label.isDirty = true := by
  obtain ⟨g, -, rfl⟩ := List.mem_map.1 hf
  exact Entry.isDirty_soil _ ho

namespace Base

variable {s : Base σ} {E : Env σ} {z : Sentinel} {K H : Multiset Cell} {T t : ETree}
  {c : Path Entry} {root : Ref} {n : ℕ}

omit [MulleStorage σ] in
theorem setDirty_eq_soil (hd : Options.useDirty E.options = true) :
    Entry.recolor Color.setDirty = Entry.soil E.stamp := by
  funext e
  simp [Entry.soil, Entry.recolor, Stamp.soilColor, Env.stamp, hd]

/-- The loop of `_mulle__rbtree_mark_node_as_dirty`. -/
def markLoop (n : ℕ) (node : Ref) : M σ Ref :=
  iterate .endless (whileStep (fun node => return node ≠ .nil)
    (fun node => do
      setDirty node
      getParent node)) n node

theorem markNodeAsDirty_of_loop {Q : Unit → Base σ → Prop} {node : Ref} (h : Holds s E root H)
    (hd : Options.useDirty E.options = true)
    (hi : Ensures (markLoop (MulleStorage.getCount E.nodes + 2) node) s fun _ s' => Q () s') :
    Ensures (markNodeAsDirty node) s Q :=
  .bind_eq h.getOptions (.bind_eq (assert_eq hd) (Ensures.bind (P := fun _ s' => Q () s')
    (whileLoop_spec h hi) fun _ _ h' => .pure h'))

theorem markLoop_spec (h : Repr s E z K (plug c t)) (hd : Options.useDirty E.options = true)
    (hlt : c.length < n) : Ensures (markLoop n (parentRef c)) s fun _ s' =>
      Repr s' E z K (plug (Path.mapLabels (Entry.soil E.stamp) c) t) := by
  unfold markLoop
  -- induction on the path: the nearest ancestor is soiled, then the others are
  induction c generalizing t s n with
  | nil =>
    obtain ⟨n, rfl⟩ : ∃ m, n = m + 1 := ⟨n - 1, by simp at hlt; omega⟩
    exact whileStep_false rfl h
  | cons f c ih =>
    obtain ⟨n, rfl⟩ : ∃ m, n = m + 1 := ⟨n - 1, by omega⟩
    have hcolor := h.recolor (c := c) (f.fill_ne_nil t) Color.setDirty
    rw [setDirty_eq_soil hd, treeRef_fill, Frame.mapRoot_fill] at hcolor
    refine whileStep_true (P := fun p s' => p = parentRef c ∧
      Repr s' E z K (plug (f.mapLabel (Entry.soil E.stamp) :: c) t)) rfl
      (hcolor.bind fun _ s₁ h₁ => ?_) ?_
    · have hparent := h₁.getParent (c := c) (by simp)
      rw [treeRef_fill] at hparent
      exact .of_eq hparent ⟨rfl, h₁⟩
    · rintro _ s₁ ⟨rfl, h₁⟩
      exact ih h₁ (by simpa using hlt)

/-- From the nearest ancestor of a place to the root. -/
theorem markNodeAsDirty_spec (h : Repr s E z K (plug c t))
    (hd : Options.useDirty E.options = true) :
    Ensures (markNodeAsDirty (parentRef c)) s fun _ s' =>
      Repr s' E z K (plug (Path.mapLabels (Entry.soil E.stamp) c) t) :=
  markNodeAsDirty_of_loop h hd (markLoop_spec h hd h.length_lt)

/-- From the root of a subtree to the root of the tree. -/
theorem markNodeAsDirty_root (h : Repr s E z K (plug c t)) (ht : t ≠ nil)
    (hd : Options.useDirty E.options = true) :
    Ensures (markNodeAsDirty (treeRef t)) s fun _ s' => Repr s' E z K
      (plug (Path.mapLabels (Entry.soil E.stamp) c) (t.mapRoot (Entry.soil E.stamp))) := by
  obtain ⟨e, x, y, rfl⟩ := exists_join .left ht
  rw [treeRef_join]
  exact markNodeAsDirty_spec (c := ⟨.left, e, y⟩ :: c) (t := x) h hd

/-- From a loose node whose parent is in the tree. -/
theorem markNodeAsDirty_loose {i : ℕ} {node : Rbnode}
    (h : Repr s E z ({(.slot i, node)} + K) (plug c t)) (hp : node.parent = parentRef c)
    (hd : Options.useDirty E.options = true) :
    Ensures (markNodeAsDirty (.slot i)) s fun _ s' => ∃ node', Repr s' E z
      ({(.slot i, node')} + K) (plug (Path.mapLabels (Entry.soil E.stamp) c) t) := by
  have hlt : c.length < MulleStorage.getCount E.nodes + 1 := by
    have h₁ := h.numNodes_le
    have h₂ := length_add_numNodes_le c t
    omega
  refine markNodeAsDirty_of_loop h hd (whileStep_true (P := fun p s' => p = parentRef c ∧
    Repr s' E z ({(.slot i, { node with color := node.color.setDirty })} + K) (plug c t)) rfl
    ((h.loose.recolor Color.setDirty).bind fun _ s₁ h₁ => ?_) ?_)
  · exact .of_eq (h₁.getParent mem_front) ⟨hp, Repr.of_loose h₁⟩
  · rintro _ s₁ ⟨rfl, h₁⟩
    exact (markLoop_spec h₁ hd hlt).mono fun _ s₂ h₂ => ⟨_, h₂⟩

/-! ### `assert_dirty_flag_propagation` -/

/-- Where all ancestors are dirty, the walk to the root asserts nothing false. -/
theorem assertDirtyAncestors_spec (h : Repr s E z K (plug c t)) (ht : t ≠ nil)
    (hc : ∀ f ∈ c, f.label.isDirty = true) :
    assertDirtyAncestors (treeRef t) s = .ok ((), s) := by
  refine Ensures.eq (Holds.loop h ?_)
  have hlt := h.length_lt
  revert hlt
  generalize MulleStorage.getCount E.nodes + 2 = n
  intro hlt
  induction c generalizing t n with
  | nil =>
    obtain ⟨n, rfl⟩ : ∃ m, n = m + 1 := ⟨n - 1, by simp at hlt; omega⟩
    have hroot : treeRef t = treeRef (plug [] t) := rfl
    refine .iterate_succ (.bind_eq (assert_eq (by simpa [treeRef_eq_nil] using ht))
      (.bind_eq h.getRoot ?_))
    rw [if_pos hroot]
    exact .pure ⟨rfl, rfl⟩
  | cons f c ih =>
    obtain ⟨n, rfl⟩ : ∃ m, n = m + 1 := ⟨n - 1, by omega⟩
    have hroot : treeRef t ≠ treeRef (plug (f :: c) t) := by
      rw [Ne, h.treeRef_eq_root]
      exact List.cons_ne_nil f c
    have hdirty : rootHas Entry.isDirty (f.fill t) = true := by
      rw [Frame.fill, rootHas_join]
      exact hc f (by simp)
    have hparent := Repr.isDirty (c := c) h
    rw [hdirty, treeRef_fill] at hparent
    refine .iterate_succ (.bind_eq (assert_eq (by simpa [treeRef_eq_nil] using ht))
      (.bind_eq h.getRoot ?_))
    rw [if_neg hroot]
    have hrest := ih (t := f.fill t) h (by simp) (fun g hg => hc g (by simp [hg])) n
      (by simpa using hlt)
    rw [treeRef_fill] at hrest
    exact .bind_eq (h.getParent fun e => absurd e ht) (.bind_eq hparent
      (.bind_eq (assert_eq rfl) (.pure hrest)))

/-- The ancestors of a node that is dirty are dirty. -/
theorem assertDirtyFlagPropagation_spec (h : Repr s E z K (plug c t))
    (hc : rootHas Entry.isDirty t = true → ∀ f ∈ c, f.label.isDirty = true) :
    assertDirtyFlagPropagation (treeRef t) s = .ok ((), s) := by
  rw [assertDirtyFlagPropagation, bind_eq h.isDirty]
  cases ht : rootHas Entry.isDirty t with
  | false => rfl
  | true => exact assertDirtyAncestors_spec h (ne_nil_of_rootHas ht) (hc ht)

end Base
end MulleRbtree
