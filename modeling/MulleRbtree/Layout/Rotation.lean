import MulleRbtree.Layout.Marks

/-!
# The rotations

`rotateNode d` is the left rotation for `d = .left` and the right rotation for `d = .right`.  In
terms of trees,

    `join d p a (join d t b e)`  becomes  `join d t (join d p a b) e`

at any place; `p`, `t`, the root of `b` and the parent above are touched, and `p`, `t` and all
nodes above are soiled.  Nothing else changes (`rotateNode_spec`).
-/

namespace MulleRbtree

open BinaryTree Cells Program

namespace Base

variable {σ : Type} [MulleStorage σ]

/-! ### The rotations as one -/

/-- `mulle_rb_node_set_left`, `mulle_rb_node_set_right` -/
def nodeSetChild (d : Side) (p o : Ref) : M σ Unit := do
  when (o ≠ .nil) (putParent o p)
  putChild d p o

/-- `_mulle__rbtree_left_rotate_node`, `_mulle__rbtree_right_rotate_node` -/
def rotateNode (d : Side) (p : Ref) : M σ Unit := do
  write fun s => { s with rotations := s.rotations + 1 }
  setNodeMarked p
  let t ← getChild d.other p
  setNodeMarked t
  assert (p ≠ .nil)
  assert (t ≠ .nil)
  nodeSetChild d.other p (← getChild d t)
  setNodeMarked (← getChild d t)
  nodeReparent p t
  putChild d t p
  putParent p t
  setNodeMarked (← getParent p)
  when (Options.useDirty (← getOptions)) do
    markNodeAsDirty p
    assertDirtyFlagPropagation p
    assertDirtyFlagPropagation t

theorem leftRotateNode_eq (p : Ref) : (leftRotateNode p : M σ Unit) = rotateNode .left p := rfl
theorem rightRotateNode_eq (p : Ref) : (rightRotateNode p : M σ Unit) = rotateNode .right p := rfl

variable {s : Base σ} {E : Env σ} {z : Sentinel} {K R : Multiset Cell} {q ref : Ref} {b : ETree}
  {c : Path Entry} {d : Side} {p t : Entry} {par near far near' far' : Ref}
  {i j : ℕ}

/-! ### The pieces -/

theorem nodeSetChild_spec (h : Parts s E z ({(.slot i, p.cell par near far d)} + R) q b c ref) :
    Ensures (nodeSetChild d.other (.slot i) (treeRef b)) s fun _ s' =>
      Parts s' E z ({(.slot i, (p.relink E.stamp).cell par near (treeRef b) d)} + R)
        (.slot i) (b.mapRoot (Entry.relink E.stamp)) c ref := by
  unfold nodeSetChild
  cases b with
  | nil => exact .bind_eq rfl (h.putFar _)
  | node e l r =>
    exact (h.reparent (by simp) (.slot i)).bind fun _ _ h₁ => h₁.putFar _

theorem nodeReparent_spec (h : Parts s E z ({(.slot j, t.cell par near far d)} +
      ({(.slot i, p.cell (parentRef c) near' far' d)} + R)) q b c (.slot i)) :
    Ensures (nodeReparent (.slot i) (.slot j)) s fun _ s' =>
      Parts s' E z ({(.slot j, (t.touch E.stamp).cell (parentRef c) near far d)} +
        ({(.slot i, p.cell (parentRef c) near' far' d)} + R)) q b
        (Path.mapHead (Entry.touch E.stamp) c) (.slot j) := by
  have hi : ∀ X : Multiset Cell, (Ref.slot i, p.cell (parentRef c) near' far' d) ∈
      X + ({(.slot i, p.cell (parentRef c) near' far' d)} + R) := fun X =>
    Multiset.mem_add.2 (.inr mem_front)
  have hparent : ∀ {s' : Base σ} {X : Multiset Cell} {u : ETree} {g : Path Entry} {v : Ref},
      Parts s' E z (X + ({(.slot i, p.cell (parentRef c) near' far' d)} + R)) q u g v →
      getParent (.slot i) s' = .ok (parentRef c, s') := fun h' => by
    rw [h'.getParent (hi _), Entry.cell_parent]
  refine .bind_eq (hparent h) ((h.putParent _).bind fun _ s₁ h₁ => h₁.mark.bind fun _ s₂ h₂ =>
    .bind_eq (hparent h₂) ?_)
  rw [← mapHead_mark_relink]
  cases c with
  | nil =>
    rw [if_pos (by rfl)]
    exact h₂.linkRoot _
  | cons f c =>
    rw [if_neg (by simp)]
    have hlink := h₂.relinkHead (hi _) nofun .right (.slot j)
    refine .bind_eq (hparent h₂) (.bind_eq (h₂.headChild .right) ?_)
    split_ifs at hlink ⊢
    all_goals
      exact .bind (.bind_eq (hparent h₂) hlink) fun _ s₃ h₃ => .bind_eq (hparent h₃) h₃.markHead

/-- A rotation rearranges two nodes and leaves everything else in place. -/
theorem rotateNode_spec {a e : ETree}
    (h : Repr s E z K (plug c (join d p a (join d t b e)))) :
    Ensures (rotateNode d (.slot p.slot)) s fun _ s' =>
      Repr s' E.turned z K (plug (turnPath E.stamp c) (turn E.stamp d p a t b e)) := by
  have h₀ : Parts s E z ({(.slot p.slot, p.cell (parentRef c) (treeRef a) (.slot t.slot) d)} +
      ({(.slot t.slot, t.cell (.slot p.slot) (treeRef b) (treeRef e) d)} +
        (K + (below (.slot p.slot) a + below (.slot t.slot) e)))) (.slot t.slot) b c
      (.slot p.slot) := by
    have h' := h.parts
    rw [treeRef_join] at h'
    exact Holds.cast h' (by rw [below_join, below_join, treeRef_join]; abel)
  refine h₀.rotated.bind fun _ s₁ h₁ => h₁.mark.bind fun _ s₂ h₂ =>
    .bind_eq (h₂.getChild d.other mem_front) ?_
  rw [Entry.cell_child_other]
  refine h₂.swap.mark.bind fun _ s₃ h₃ => .bind_eq (assert_eq nofun) (.bind_eq (assert_eq nofun)
    (.bind_eq (h₃.getChild d mem_front) ?_))
  rw [Entry.cell_child]
  refine (nodeSetChild_spec h₃.swap).bind fun _ s₄ h₄ => .bind_eq (h₄.swap.getChild d mem_front) ?_
  have hmark := h₄.markTree
  rw [treeRef_relinkRoot, mapRoot_mark_relink] at hmark
  rw [Entry.cell_child]
  refine hmark.bind fun _ s₅ h₅ => (nodeReparent_spec h₅.swap).bind fun _ s₆ h₆ =>
    (h₆.putNear _).bind fun _ s₇ h₇ => (h₇.swap.putParent _).bind fun _ s₈ h₈ =>
    .bind_eq (h₈.getParent mem_front) ?_
  rw [Entry.cell_parent]
  refine h₈.swap.mark.bind fun _ s₉ h₉ => ?_
  -- the two nodes are linked again
  have h₁₀ : Repr s₉ E.turned z K (plug (Path.mapHead (Entry.touch E.stamp) c)
      (join d (t.touch E.stamp) (join d (p.touch E.stamp) a (b.mapRoot (Entry.touch E.stamp))) e)) := by
    rw [repr_plug, treeRef_join]
    refine Holds.cast h₉ ?_
    simp only [below_join, treeRef_join, treeRef_touchRoot, Entry.touch_slot,
      parentRef_mapHead (Entry.touch_slot _), Env.stamp_turned, Entry.relink_mark,
      Entry.relink_touch, Entry.touch_mark, Entry.mark_touch]
    abel
  refine .bind_eq h₁₀.getOptions ?_
  change Ensures (when (Options.useDirty E.options) _) _ _
  cases hd : Options.useDirty E.options with
  | false =>
    have hsoil : Entry.soil E.stamp = id := Entry.soil_eq_id hd
    refine .pure ?_
    rw [turn, turnPath, hsoil, Path.mapLabels_id]
    exact h₁₀
  | true =>
    -- the two nodes are seen as ancestors of `a`
    have hmarked := markNodeAsDirty_spec (c := ⟨d, p.touch E.stamp, b.mapRoot (Entry.touch E.stamp)⟩
      :: ⟨d, t.touch E.stamp, e⟩ :: Path.mapHead (Entry.touch E.stamp) c) h₁₀ hd
    refine hmarked.bind fun _ s' h' => ?_
    have hsoiled : ∀ f ∈ Path.mapLabels (Entry.soil E.stamp) (⟨d, t.touch E.stamp, e⟩ ::
        Path.mapHead (Entry.touch E.stamp) c), f.label.isDirty = true :=
      fun f => isDirty_of_mem_soiled hd
    have hp := assertDirtyFlagPropagation_spec (c := Path.mapLabels (Entry.soil E.stamp)
      (⟨d, t.touch E.stamp, e⟩ :: Path.mapHead (Entry.touch E.stamp) c)) h' fun _ => hsoiled
    have ht := assertDirtyFlagPropagation_spec (c := Path.mapLabels (Entry.soil E.stamp)
      (Path.mapHead (Entry.touch E.stamp) c)) h' fun _ f hf => hsoiled f (List.mem_cons_of_mem _ hf)
    rw [treeRef_fill] at hp ht
    exact .bind_eq hp (.of_eq ht h')

end Base
end MulleRbtree
