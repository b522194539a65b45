import MulleRbtree.Layout.Marks

/-!
# Navigation

* `findOutermost d` is `_mulle__rbtree_find_leftmost_node` or its mirror image;
* `stepNode d` is `_mulle__rbtree_next_node` for `d = .right` and `_mulle__rbtree_previous_node`
  for `d = .left`: down into the subtree on that side, or up to the nearest ancestor there;
* `nextNode_spec`, `previousNode_spec`: both follow the order of the tree.
-/

namespace MulleRbtree

open BinaryTree Cells Program

/-- The pointer to a node, if there is one. -/
def labelRef : Option Entry → Ref
  | none => .nil
  | some e => .slot e.slot

@[simp] theorem labelRef_none : labelRef none = .nil := rfl
@[simp] theorem labelRef_some (e : Entry) : labelRef (some e) = .slot e.slot := rfl

namespace Base

variable {σ : Type} [MulleStorage σ] {s : Base σ} {E : Env σ} {z : Sentinel} {K : Multiset Cell}
  {c : Path Entry} {d : Side} {e : Entry} {t x y l r : ETree} {n : ℕ}

/-! ### Down -/

/-- `_mulle__rbtree_find_leftmost_node`, `_mulle__rbtree_find_rightmost_node` -/
def findOutermost (d : Side) (root : Ref) : M σ Ref :=
  whileLoop (fun p => do return (← getChild d p) ≠ .nil) (getChild d) root

theorem findLeftmostNode_eq (root : Ref) :
    (findLeftmostNode root : M σ Ref) = findOutermost .left root := rfl
theorem findRightmostNode_eq (root : Ref) :
    (findRightmostNode root : M σ Ref) = findOutermost .right root := rfl

/-- One round: is there a child on that side? -/
theorem hasChild_spec (h : Repr s E z K (plug c (join d e x y))) :
    (do return (← getChild d (.slot e.slot)) ≠ .nil : M σ Bool) s = .ok (decide (x ≠ nil), s) := by
  rw [bind_eq h.getChild]
  have hx : (treeRef x ≠ .nil) = (x ≠ nil) := by rw [Ne, treeRef_eq_nil]
  simp only [hx]
  rfl

theorem findOutermost_spec (h : Repr s E z K (plug c t)) :
    findOutermost d (treeRef t) s = .ok (labelRef (outermost d t), s) := by
  refine Ensures.eq (whileLoop_spec h ?_)
  have hlt : t.numNodes < MulleStorage.getCount E.nodes + 2 := by
    have h₁ := h.numNodes_le
    have h₂ := length_add_numNodes_le c t
    omega
  revert hlt
  generalize MulleStorage.getCount E.nodes + 2 = n
  intro hlt
  -- induction on the bound: each round descends into a smaller subtree
  induction n generalizing c t with
  | zero => omega
  | succ n ih =>
    by_cases ht : t = nil
    · subst ht
      obtain ⟨H, hH, hn⟩ := h.mem_nil
      have hchild : (do return (← getChild d .nil) ≠ .nil : M σ Bool) s = .ok (false, s) := by
        rw [bind_eq (hH.getChild d hn)]
        cases d <;> rfl
      exact whileStep_false hchild (by simp)
    · obtain ⟨e, x, y, rfl⟩ := exists_join d ht
      have hsize : (join d e x y).numNodes = x.numNodes + y.numNodes + 1 := by
        cases d <;> simp [join, add_comm x.numNodes]
      have hchild := hasChild_spec h
      rw [outermost_join, treeRef_join]
      by_cases hx : x = nil
      · subst hx
        exact whileStep_false hchild ⟨rfl, rfl⟩
      · rw [decide_eq_true hx] at hchild
        obtain ⟨a, u, v, rfl⟩ := exists_join d hx
        have hrest := ih (c := ⟨d, e, y⟩ :: c) (t := join d a u v) h (by omega)
        refine whileStep_true (P := fun p s' => p = treeRef (join d a u v) ∧ s' = s) hchild
          (.of_eq h.getChild ⟨rfl, rfl⟩) ?_
        rintro _ _ ⟨rfl, rfl⟩
        refine hrest.mono fun p s' hp => ?_
        rw [outermost_join] at hp ⊢
        cases hu : outermost d u <;> simpa [hu] using hp

/-! ### Up -/

/-- Bubble up until we come from a child on the other side. -/
def climbNode (d : Side) (node : Ref) : M σ Ref :=
  loop (fun node => do
    let parent ← getParent node
    if ← andAlso (return parent ≠ .nil) (do return node = (← getChild d parent)) then
      return .inl parent
    else return .inr parent) node

/-- `_mulle__rbtree_next_node`, `_mulle__rbtree_previous_node` -/
def stepNode (d : Side) (node : Ref) : M σ Ref := do
  if (← getChild d node) ≠ .nil then do
    findOutermost d.other (← getChild d node)
  else climbNode d node

theorem nextNode_eq (node : Ref) : (nextNode node : M σ Ref) = stepNode .right node := rfl
theorem previousNode_eq (node : Ref) : (previousNode node : M σ Ref) = stepNode .left node := rfl

/-- Is the place a child on side `d`? -/
theorem comesFrom_spec (h : Repr s E z K (plug c t)) (ht : t ≠ nil) :
    andAlso (return parentRef c ≠ .nil) (do return treeRef t = (← getChild d (parentRef c))) s =
      .ok (match c with | [] => false | f :: _ => decide (f.side = d), s) := by
  cases c with
  | nil => exact andAlso_false rfl
  | cons f c =>
    have hparent : (return parentRef (f :: c) ≠ .nil : M σ Bool) s = .ok (true, s) := rfl
    rw [andAlso_true hparent, parentRef_cons, bind_eq (h.headChild d)]
    by_cases hd : d = f.side
    · simp [hd]
      rfl
    · have hne : f.side ≠ d := fun e => hd e.symm
      rw [if_neg hd]
      simp only [h.ref_ne_sibling ht, hne, decide_false]
      rfl

theorem climbNode_spec (h : Repr s E z K (plug c t)) (ht : t ≠ nil) :
    climbNode d (treeRef t) s = .ok (labelRef (climb d c), s) := by
  refine Ensures.eq (Holds.loop h ?_)
  have hlt := h.length_lt
  revert hlt
  generalize MulleStorage.getCount E.nodes + 2 = n
  intro hlt
  induction c generalizing t n with
  | nil =>
    obtain ⟨n, rfl⟩ : ∃ m, n = m + 1 := ⟨n - 1, by simp at hlt; omega⟩
    exact .iterate_succ (.bind_eq (h.getParent fun e => absurd e ht)
      (.bind_eq (comesFrom_spec h ht) (.pure ⟨rfl, rfl⟩)))
  | cons f c ih =>
    obtain ⟨n, rfl⟩ : ∃ m, n = m + 1 := ⟨n - 1, by omega⟩
    refine .iterate_succ (.bind_eq (h.getParent fun e => absurd e ht)
      (.bind_eq (comesFrom_spec h ht) ?_))
    dsimp only
    by_cases hd : f.side = d
    · have hrest := ih (t := f.fill t) h (by simp) n (by simpa using hlt)
      rw [treeRef_fill] at hrest
      rw [climb, if_pos hd, if_pos (by simpa using hd)]
      exact .pure hrest
    · rw [climb, if_neg hd, if_neg (by simpa using hd)]
      exact .pure ⟨rfl, rfl⟩

/-! ### Next and previous -/

theorem stepNode_spec (h : Repr s E z K (plug c (join d e x y))) :
    stepNode d (.slot e.slot) s =
      .ok (labelRef ((outermost d.other x).or (climb d c)), s) := by
  have hchild := h.getChild
  rw [stepNode, bind_eq hchild]
  by_cases hx : x = nil
  · subst hx
    have hclimb := climbNode_spec (d := d) h (by simp)
    rw [treeRef_join] at hclimb
    rw [if_neg (by simp), hclimb, outermost_nil, Option.none_or]
  · have hne : treeRef x ≠ .nil := fun e => hx (treeRef_eq_nil.1 e)
    obtain ⟨g, a, r, hpop⟩ := exists_pop d.other [] hx
    have hdown := findOutermost_spec (d := d.other) (c := ⟨d, e, y⟩ :: c) (t := x) h
    rw [if_pos hne, bind_eq hchild, hdown, outermost_pop hpop, Option.some_or]

/-- The next node is the next one in order. -/
theorem nextNode_spec (h : Repr s E z K (plug c (node e l r))) :
    nextNode (.slot e.slot) s = .ok (labelRef (r.inorder ++ after c).head?, s) := by
  have hstep := stepNode_spec (d := .right) (x := r) (y := l) h
  rw [nextNode_eq, hstep, Side.other_right, outermost_left, climb_right, List.head?_append]

/-- The previous node is the previous one in order. -/
theorem previousNode_spec (h : Repr s E z K (plug c (node e l r))) :
    previousNode (.slot e.slot) s = .ok (labelRef (before c ++ l.inorder).getLast?, s) := by
  have hstep := stepNode_spec (d := .left) (x := l) (y := r) h
  rw [previousNode_eq, hstep, Side.other_left, outermost_right, climb_left, List.getLast?_append]

end Base
end MulleRbtree
