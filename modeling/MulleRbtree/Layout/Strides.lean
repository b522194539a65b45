import MulleRbtree.Layout.Navigation
import MulleRbtree.Library.Rounds
import MulleRbtree.Library.Strides

/-!
# How far it is to the next node

`_mulle__rbtree_next_node` and its mirror image, with one more thing in the answer: the number of
links (`_parent`, `_left`, `_right`) that lead from the node to the next one.

* `fst_stepNodeCounting`: apart from that they are what they were;
* `travel d k`: `k` steps in a row; `journey d k`: from the first node;
* `travel_spec`, `travel_end`, `journey_spec`: how many links that takes.
-/

namespace MulleRbtree

open BinaryTree Cells Program

namespace Base

variable {σ α β : Type} [MulleStorage σ] {s : Base σ} {E : Env σ} {z : Sentinel}
  {K : Multiset Cell} {c : Path Entry} {d : Side} {e : Entry} {t T x y : ETree} {n : ℕ}

/-! ### Counting the rounds of a loop -/

/-- `loop`, with the number of rounds after which it has gone on. -/
def countLoop (step : α → M σ (α ⊕ β)) (a : α) : M σ (β × ℕ) := do
  countRounds .endless step ((← read fun s => MulleStorage.getCount s.nodes) + 2) a

theorem fst_countLoop (step : α → M σ (α ⊕ β)) (a : α) :
    Prod.fst <$> countLoop step a = loop step a := by
  rw [countLoop, loop, map_bind]
  congr 1
  funext k
  exact fst_countRounds (k + 2) a

theorem countLoop_spec (h : Repr s E z K T) {step : α → M σ (α ⊕ β)} {a : α}
    {Q : β × ℕ → Base σ → Prop}
    (hi : Ensures (countRounds .endless step (MulleStorage.getCount E.nodes + 2) a) s Q) :
    Ensures (countLoop step a) s Q := by
  refine .bind_eq (s := s) ?_ hi
  rw [← Holds.nodes_eq h]
  rfl

/-! ### Counting the links -/

/-- `findOutermost`, with the number of links that lead down. -/
def findOutermostCounting (d : Side) (root : Ref) : M σ (Ref × ℕ) :=
  countLoop (whileStep (fun p => do return (← getChild d p) ≠ .nil) (getChild d)) root

/-- `climbNode`, with the number of links that lead up, less the last one. -/
def climbNodeCounting (d : Side) (node : Ref) : M σ (Ref × ℕ) :=
  countLoop (fun node => do
    let parent ← getParent node
    if ← andAlso (return parent ≠ .nil) (do return node = (← getChild d parent)) then
      return .inl parent
    else return .inr parent) node

/-- `stepNode`, with the number of links that lead to the next node. -/
def stepNodeCounting (d : Side) (node : Ref) : M σ (Ref × ℕ) := do
  if (← getChild d node) ≠ .nil then do
    Prod.map id (· + 1) <$> findOutermostCounting d.other (← getChild d node)
  else Prod.map id (· + 1) <$> climbNodeCounting d node

theorem fst_findOutermostCounting (d : Side) (root : Ref) :
    Prod.fst <$> (findOutermostCounting d root : M σ (Ref × ℕ)) = findOutermost d root :=
  fst_countLoop _ root

theorem fst_climbNodeCounting (d : Side) (node : Ref) :
    Prod.fst <$> (climbNodeCounting d node : M σ (Ref × ℕ)) = climbNode d node :=
  fst_countLoop _ node

/-- Counting does not interfere. -/
theorem fst_stepNodeCounting (d : Side) (node : Ref) :
    Prod.fst <$> (stepNodeCounting d node : M σ (Ref × ℕ)) = stepNode d node := by
  rw [stepNodeCounting, stepNode, map_bind]
  congr 1
  funext p
  by_cases hp : p ≠ .nil
  · rw [if_pos hp, if_pos hp, map_bind]
    congr 1
    funext q
    rw [fst_map_count, fst_findOutermostCounting]
  · rw [if_neg hp, if_neg hp, fst_map_count, fst_climbNodeCounting]

theorem fst_stepNodeCounting_right (node : Ref) :
    Prod.fst <$> (stepNodeCounting .right node : M σ (Ref × ℕ)) = nextNode node :=
  fst_stepNodeCounting .right node

theorem fst_stepNodeCounting_left (node : Ref) :
    Prod.fst <$> (stepNodeCounting .left node : M σ (Ref × ℕ)) = previousNode node :=
  fst_stepNodeCounting .left node

/-! ### One step -/

theorem findOutermostCounting_spec (h : Repr s E z K (plug c t)) :
    findOutermostCounting d (treeRef t) s = .ok ((labelRef (outermost d t), spine d t), s) := by
  refine Ensures.eq (countLoop_spec h ?_)
  have hlt : t.numNodes < MulleStorage.getCount E.nodes + 2 := by
    have h₁ := h.numNodes_le
    have h₂ := length_add_numNodes_le c t
    omega
  revert hlt
  generalize MulleStorage.getCount E.nodes + 2 = n
  intro hlt
  -- induction on the bound: each round descends into a smaller subtree
  induction n generalizing c t with
  | zero => omega
  | succ n ih =>
    refine .countRounds_succ ?_
    by_cases ht : t = nil
    · subst ht
      obtain ⟨H, hH, hn⟩ := h.mem_nil
      have hchild : (do return (← getChild d .nil) ≠ .nil : M σ Bool) s = .ok (false, s) := by
        rw [bind_eq (hH.getChild d hn)]
        cases d <;> rfl
      exact .bind_eq hchild (.pure ⟨by simp, rfl⟩)
    · obtain ⟨e, x, y, rfl⟩ := exists_join d ht
      have hsize : (join d e x y).numNodes = x.numNodes + y.numNodes + 1 := by
        cases d <;> simp [join, add_comm x.numNodes]
      have hchild := hasChild_spec h
      rw [outermost_join, treeRef_join]
      refine .bind_eq hchild ?_
      by_cases hx : x = nil
      · subst hx
        rw [spine_join_nil]
        exact .pure ⟨rfl, rfl⟩
      · rw [decide_eq_true hx]
        have hrest := ih (c := ⟨d, e, y⟩ :: c) (t := x) h (by omega)
        obtain ⟨a, u, v, rfl⟩ := exists_join d hx
        rw [spine_join d e y hx]
        refine .bind_eq h.getChild (.pure (hrest.mono ?_))
        rintro p s' ⟨hp, rfl⟩
        rw [outermost_join] at hp ⊢
        cases hu : outermost d u <;> simp [hu] at hp <;> simp [hp]

theorem climbNodeCounting_spec (h : Repr s E z K (plug c t)) (ht : t ≠ nil) :
    climbNodeCounting d (treeRef t) s = .ok ((labelRef (climb d c), rise d c), s) := by
  refine Ensures.eq (countLoop_spec h ?_)
  have hlt := h.length_lt
  revert hlt
  generalize MulleStorage.getCount E.nodes + 2 = n
  intro hlt
  induction c generalizing t n with
  | nil =>
    obtain ⟨n, rfl⟩ : ∃ m, n = m + 1 := ⟨n - 1, by simp at hlt; omega⟩
    exact .countRounds_succ (.bind_eq (h.getParent fun e => absurd e ht)
      (.bind_eq (comesFrom_spec h ht) (.pure ⟨rfl, rfl⟩)))
  | cons f c ih =>
    obtain ⟨n, rfl⟩ : ∃ m, n = m + 1 := ⟨n - 1, by omega⟩
    refine .countRounds_succ (.bind_eq (h.getParent fun e => absurd e ht)
      (.bind_eq (comesFrom_spec h ht) ?_))
    dsimp only
    rw [climb, rise]
    by_cases hd : f.side = d
    · have hrest := ih (t := f.fill t) h (by simp) n (by simpa using hlt)
      rw [treeRef_fill] at hrest
      rw [if_pos hd, if_pos hd, if_pos (by simpa using hd)]
      refine .pure (hrest.mono ?_)
      rintro p s' ⟨rfl, rfl⟩
      exact ⟨rfl, rfl⟩
    · rw [if_neg hd, if_neg hd, if_neg (by simpa using hd)]
      exact .pure ⟨rfl, rfl⟩

/-- Where a step leads, and over how many links. -/
theorem stepNodeCounting_spec (h : Repr s E z K (plug c (join d e x y))) :
    stepNodeCounting d (.slot e.slot) s =
      .ok ((labelRef (orderTo d x ++ ahead d c).head?, stride d c x), s) := by
  have hchild := h.getChild
  rw [stepNodeCounting, bind_eq hchild, head?_orderTo_ahead]
  by_cases hx : x = nil
  · subst hx
    have hclimb := climbNodeCounting_spec (d := d) h (by simp)
    rw [treeRef_join] at hclimb
    rw [if_neg (by simp), map_count_eq _ hclimb, outermost_nil, Option.none_or]
    rfl
  · have hne : treeRef x ≠ .nil := fun e => hx (treeRef_eq_nil.1 e)
    obtain ⟨g, a, r, hpop⟩ := exists_pop d.other [] hx
    have hdown := findOutermostCounting_spec (d := d.other) (c := ⟨d, e, y⟩ :: c) (t := x) h
    rw [if_pos hne, bind_eq hchild, map_count_eq _ hdown, outermost_pop hpop, Option.some_or,
      stride_of_ne hx]

/-! ### Many steps -/

/-- `k` steps in a row, with the number of links they take together. -/
def travel (d : Side) : ℕ → Ref → M σ (Ref × ℕ)
  | 0, n => return (n, 0)
  | k + 1, n => do
    let (n, links) ← stepNodeCounting d n
    Prod.map id (links + ·) <$> travel d k n

/-- The search for the first node, and `k` steps from there. -/
def journey (d : Side) (k : ℕ) : M σ (Ref × ℕ) := do
  let (n, links) ← findOutermostCounting d.other (← getRoot)
  Prod.map id (links + ·) <$> travel d k n

theorem travel_succ {k links : ℕ} {n m : Ref} (he : stepNodeCounting d n s = .ok ((m, links), s)) :
    travel d (k + 1) n s = (Prod.map id (links + ·) <$> travel d k m : M σ (Ref × ℕ)) s := by
  rw [travel, bind_eq he]

/-- `k` steps within the tree take `2 * k` links, up to the change in the number of bends. -/
theorem travel_spec (h : Repr s E z K (plug c (join d e x y))) {k : ℕ}
    (hk : k ≤ (orderTo d x ++ ahead d c).length) : ∃ c' b x' y',
      plug c (join d e x y) = plug c' (join d b x' y') ∧
      (e :: (orderTo d x ++ ahead d c))[k]? = some b ∧
      ∃ links, travel d k (.slot e.slot) s = .ok ((.slot b.slot, links), s) ∧
        links + bends d c' + bends d.other c = bends d c + bends d.other c' + 2 * k := by
  induction k generalizing c e x y with
  | zero => exact ⟨c, e, x, y, rfl, rfl, 0, rfl, by omega⟩
  | succ k ih =>
    have hstep := stepNodeCounting_spec h
    rcases exists_stride d c e x y with ⟨hnil, -⟩ | ⟨c', b, x', y', hahead, hplug, hstride⟩
    · rw [hnil] at hk
      exact absurd hk (by simp)
    · rw [hahead] at hstep hk ⊢
      rw [hplug] at h
      obtain ⟨c'', b', x'', y'', hplug', hb', links, he, hlinks⟩ := ih h (by simpa using hk)
      refine ⟨c'', b', x'', y'', hplug.trans hplug', by simpa using hb', _,
        (travel_succ hstep).trans (map_count_eq _ he), ?_⟩
      omega

/-- The same to the end, and out of the tree. -/
theorem travel_end (h : Repr s E z K (plug c (join d e x y))) {v : List Entry}
    (hv : orderTo d x ++ ahead d c = v) :
    ∃ links, travel d (v.length + 1) (.slot e.slot) s = .ok ((.nil, links), s) ∧
      links + bends d.other c = bends d c + 2 * v.length + 1 := by
  induction v generalizing c e x y with
  | nil =>
    have hstep := stepNodeCounting_spec h
    rw [hv] at hstep
    rcases exists_stride d c e x y with ⟨-, hstride⟩ | ⟨c', b, x', y', hahead, -, -⟩
    · have hstay : travel d 0 .nil s = .ok ((.nil, 0), s) := rfl
      exact ⟨stride d c x + 0, (travel_succ hstep).trans (map_count_eq _ hstay),
        by simpa using hstride⟩
    · rw [hv] at hahead
      cases hahead
  | cons a v ih =>
    have hstep := stepNodeCounting_spec h
    rw [hv] at hstep
    rcases exists_stride d c e x y with ⟨hnil, -⟩ | ⟨c', b, x', y', hahead, hplug, hstride⟩
    · rw [hv] at hnil
      cases hnil
    · rw [hv] at hahead
      obtain ⟨rfl, hv'⟩ := List.cons.inj hahead
      rw [hplug] at h
      obtain ⟨links, he, hlinks⟩ := ih h hv'.symm
      refine ⟨_, (travel_succ hstep).trans (map_count_eq _ he), ?_⟩
      rw [List.length_cons]
      omega

/-- A traversal of the whole tree goes along each link down and up once, and out at the root. -/
theorem journey_spec (h : Repr s E z K T) (hT : T ≠ nil) :
    ∃ links, journey d T.numNodes s = .ok ((.nil, links), s) ∧ links + 1 = 2 * T.numNodes := by
  have hfirst := findOutermostCounting_spec (d := d.other) (c := []) h
  obtain ⟨c, a, x, rfl, horder, houter, hbends, hbends'⟩ := exists_first d hT
  obtain ⟨links, he, hlinks⟩ := travel_end h rfl
  have hlength : (plug c (join d a x nil)).numNodes = (orderTo d x ++ ahead d c).length + 1 := by
    rw [← length_orderTo d, horder, List.length_cons]
  rw [houter] at hfirst
  refine ⟨spine d.other (plug c (join d a x nil)) + links, ?_, ?_⟩
  · rw [journey, bind_eq h.getRoot, bind_eq hfirst, hlength]
    exact map_count_eq _ he
  · omega

end Base
end MulleRbtree
