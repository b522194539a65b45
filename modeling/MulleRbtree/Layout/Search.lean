import MulleRbtree.Layout.Nodes
import MulleRbtree.Layout.Navigation

/-!
# Searches

A search compares a key with the values of the nodes it meets.  In terms of trees it is `seek`,
`lookup` or `ceiling` with `matching options comp key`, and its calls of the comparison are
`compareEvents`.  None of this asks anything of the comparison.
-/

namespace MulleRbtree

open BinaryTree Cells Program

/-- The outcome of the comparison of a key with a node. -/
def matching (options : BitVec 32) (comp : VoidPtr → VoidPtr → ℤ) (key : VoidPtr) (e : Entry) : ℤ :=
  comp key (e.value options)

/-- The calls of the comparison for the given nodes. -/
def compareEvents (options : BitVec 32) (key : VoidPtr) (u : List Entry) : List Event :=
  u.map fun e => .compare key (e.value options)

@[simp] theorem compareEvents_nil (options : BitVec 32) (key : VoidPtr) :
    compareEvents options key [] = [] := rfl

/-- Does a search stop at a match? -/
def halts (options : BitVec 32) : Bool := !Options.allowDuplicates options

variable {σ : Type} [MulleStorage σ]

namespace Base

variable {s : Base σ} {E : Env σ} {z : Sentinel} {K : Multiset Cell} {T t l r : ETree}
  {c : Path Entry} {e : Entry} {n : ℕ} {key : VoidPtr} {comp : VoidPtr → VoidPtr → ℤ}

/-- A comparison with the node in focus. -/
theorem compare_spec (h : Repr s E z K T) (b : VoidPtr) :
    Ensures (compare comp key b) s fun k s' => k = comp key b ∧
      Repr s' (E.traced [.compare key b]) z K T :=
  (Holds.emit h _).bind fun _ _ h' => .pure ⟨rfl, h'⟩

omit [MulleStorage σ] in
theorem traced_compare (E : Env σ) (key : VoidPtr) (e : Entry) (u : List Entry) :
    (E.traced [.compare key (e.value E.options)]).traced (compareEvents E.options key u) =
      E.traced (compareEvents E.options key (e :: u)) := by
  rw [Env.traced_traced]
  rfl

theorem height_join {d : Side} {x y : ETree} : x.height < (join d e x y).height := by
  cases d <;> simp [join]

theorem height_le_plug (c : Path Entry) (t : ETree) : t.height ≤ (plug c t).height := by
  induction c generalizing t with
  | nil => exact le_rfl
  | cons f c ih =>
    rw [plug_cons]
    exact (height_join (d := f.side)).le.trans (ih _)

/-- The bound of a loop that goes down from a node. -/
theorem height_bound (h : Repr s E z K (plug c t)) :
    t.height < MulleStorage.getCount E.nodes + 2 := by
  have h₁ := h.numNodes_le
  have h₂ := height_le_numNodes (plug c t)
  have h₃ := height_le_plug c t
  omega

/-! ### The descent of an insertion -/

/-- What the descent answers when it ends at the place `g`, or at a match. -/
def Descended (g : Option (Path Entry)) (r : Option (Ref × ℤ)) : Prop :=
  match g with
  | none => r = none
  | some g => ∃ k, r = some (parentRef g, k) ∧ Directs k g

omit [MulleStorage σ] in
theorem child_toward (k : ℤ) (n : Ref) :
    (if k < 0 then getLeft n else getRight n : M σ Ref) = getChild (toward k) n := by
  unfold toward
  split_ifs <;> rfl

theorem descend_spec (h : Repr s E z K (plug c t)) (ht : t ≠ nil) :
    Ensures (descend key comp (treeRef t)) s fun r s' =>
      Descended (seek (matching E.options comp key) (halts E.options) c t) r ∧
      Repr s' (E.traced (compareEvents E.options key
        (visits (matching E.options comp key) (halts E.options) t))) z K (plug c t) := by
  refine Holds.loop h ?_
  have hlt := height_bound h
  revert hlt
  generalize MulleStorage.getCount E.nodes + 2 = n
  intro hlt
  induction n generalizing c t s E with
  | zero => omega
  | succ n ih =>
    obtain ⟨e, l, r, rfl⟩ : ∃ e l r, t = node e l r := by
      obtain ⟨e, l, r, rfl⟩ := exists_join .left ht
      exact ⟨e, l, r, rfl⟩
    obtain ⟨x, y, hxy⟩ := exists_toward (matching E.options comp key e) e l r
    rw [hxy] at h hlt ⊢
    have hvalue : getNodeValue (.slot e.slot) s = .ok (e.value E.options, s) := by
      have hv := getNodeValue_spec h
      rwa [treeRef_join, label?_join] at hv
    rw [treeRef_join]
    refine .iterate_succ (.bind_eq hvalue ((compare_spec h _).bind ?_))
    rintro _ s₁ ⟨rfl, h₁⟩
    refine .bind_eq h₁.getOptions ?_
    have hhalt : (comp key (e.value E.options) = 0 ∧ Options.allowDuplicates E.options = false) ↔
        (matching E.options comp key e = 0 ∧ halts E.options = true) := by
      simp [matching, halts]
    change Ensures (if comp key (e.value E.options) = 0 ∧
      Options.allowDuplicates E.options = false then _ else _) _ _
    rw [if_congr hhalt rfl rfl]
    by_cases hm : matching E.options comp key e = 0 ∧ halts E.options = true
    · -- a match is in the way
      rw [if_pos hm, visits_match _ hm]
      have hseek : seek (matching E.options comp key) (halts E.options) c
          (join (toward (matching E.options comp key e)) e x y) = none := by
        rw [← hxy, seek, if_pos hm]
      exact .pure ⟨by rw [hseek]; rfl, h₁⟩
    · rw [if_neg hm, visits_join hm, seek_join hm, child_toward]
      refine .bind_eq h₁.getChild ?_
      by_cases hx : x = nil
      · subst hx
        rw [if_neg (by simp)]
        exact .pure ⟨⟨_, rfl, rfl⟩, h₁⟩
      · rw [if_pos (treeRef_ne_nil hx), ← traced_compare]
        have hrest := ih (c := ⟨toward (matching E.options comp key e), e, y⟩ :: c) h₁ hx
          (by have := height_join (e := e) (d := toward (matching E.options comp key e)) (x := x)
                (y := y); omega)
        exact .pure hrest

/-! ### The exact search -/

/-- `_mulle_rbnode_get_payload` or `_mulle_rbnode_get_extra`, as the mode of the tree asks. -/
def getKey (options : BitVec 32) (n : Ref) : M σ VoidPtr :=
  if Options.useExtra options then getExtra n else getPayload n

theorem getKey_spec (h : Repr s E z K (plug c t)) (ht : t ≠ nil) :
    getKey E.options (treeRef t) s = .ok (valueOf E.options t.label?, s) := by
  have hv := getNodeValue_spec h
  rwa [getNodeValue, if_neg (treeRef_ne_nil ht), bind_eq h.getOptions] at hv

/-- One round of the loops of `_mulle__rbtree_find_node_with_payload` and
`_mulle__rbtree_find_node_with_extra`. -/
def findStep (get : Ref → M σ VoidPtr) (a_key : VoidPtr) (a_comp : VoidPtr → VoidPtr → ℤ)
    (p : Ref) : M σ (Ref ⊕ Ref) := do
  if p = .nil then return .inr p
  else do
    let b_key ← get p
    let r ← compare a_comp a_key b_key
    if r = 0 then return .inr p
    else if r < 0 then return .inl (← getLeft p)
    else return .inl (← getRight p)

theorem findLoop_spec (h : Repr s E z K (plug c t)) (hlt : t.height < n) (key : VoidPtr)
    (comp : VoidPtr → VoidPtr → ℤ) :
    Ensures (iterate .endless (findStep (getKey E.options) key comp) n (treeRef t)) s fun p s' =>
      p = labelRef (lookup (matching E.options comp key) t) ∧
      Repr s' (E.traced (compareEvents E.options key
        (visits (matching E.options comp key) true t))) z K (plug c t) := by
  induction n generalizing c t s E with
  | zero => omega
  | succ n ih =>
    cases t with
    | nil => exact .iterate_succ (.pure ⟨rfl, by simpa [visits] using h⟩)
    | node e l r =>
      obtain ⟨x, y, hxy⟩ := exists_toward (matching E.options comp key e) e l r
      rw [hxy] at h hlt ⊢
      have hvalue := getKey_spec h (join_ne_nil _ _ _ _)
      rw [treeRef_join, label?_join] at hvalue
      rw [treeRef_join]
      refine .iterate_succ ?_
      unfold findStep
      rw [if_neg (by simp)]
      refine .bind_eq hvalue ((compare_spec h _).bind ?_)
      rintro _ s₁ ⟨rfl, h₁⟩
      have hk : comp key (valueOf E.options (some e)) = matching E.options comp key e := rfl
      rw [hk]
      by_cases hm : matching E.options comp key e = 0
      · rw [if_pos hm, visits_match _ ⟨hm, rfl⟩, ← hxy, lookup, if_pos hm]
        rw [← hxy] at h₁
        exact .pure ⟨rfl, h₁⟩
      · have hchild : (if matching E.options comp key e < 0 then do
              return .inl (← getLeft (.slot e.slot))
            else do return .inl (← getRight (.slot e.slot)) : M σ (Ref ⊕ Ref)) =
            (do return .inl (← getChild (toward (matching E.options comp key e))
              (.slot e.slot))) := by
          unfold toward
          split_ifs <;> rfl
        rw [if_neg hm, hchild, visits_join (fun h => hm h.1), lookup_join hm, ← traced_compare]
        have hsize := height_join (e := e) (d := toward (matching E.options comp key e)) (x := x)
          (y := y)
        exact .bind_eq h₁.getChild (.pure (ih (c := ⟨_, e, y⟩ :: c) h₁ (by omega)))

/-- `_mulle__rbtree_find_node`: the first match, if there is one. -/
theorem findNode_spec (h : Repr s E z K T) (key : VoidPtr) (comp : VoidPtr → VoidPtr → ℤ) :
    Ensures (findNode key comp) s fun p s' =>
      p = labelRef (lookup (matching E.options comp key) T) ∧
      Repr s' (E.traced (compareEvents E.options key
        (visits (matching E.options comp key) true T))) z K T := by
  have hloop := Holds.loop h (findLoop_spec (c := []) h (height_bound (c := []) h) key comp)
  refine .bind_eq h.getOptions ?_
  unfold getKey at hloop
  cases hx : Options.useExtra E.options with
  | true =>
    rw [hx] at hloop
    exact .bind_eq h.getOptions (.bind_eq (assert_eq hx) (.bind_eq h.getRoot hloop))
  | false =>
    rw [hx] at hloop
    exact .bind_eq h.getOptions (.bind_eq (assert_eq hx) (.bind_eq h.getRoot hloop))

/-! ### The search of an equal or greater node -/

/-- `if( p->_right == nil) climb`, as a loop over a node and its parent. -/
def climbLoop (n p : Ref) : M σ (Ref × Ref) :=
  whileLoop
    (fun ((n, p) : Ref × Ref) => andAlso (return p ≠ .nil) (do return n = (← getRight p)))
    (fun (_, p) => do return (p, ← getParent p)) (n, p)

theorem climbLoop_spec (h : Repr s E z K (plug c t)) (ht : t ≠ nil) :
    Ensures (climbLoop (treeRef t) (parentRef c)) s fun q s' =>
      q.2 = labelRef (climb .right c) ∧ s' = s := by
  refine whileLoop_spec h ?_
  have hlt := h.length_lt
  revert hlt
  generalize MulleStorage.getCount E.nodes + 2 = n
  intro hlt
  induction c generalizing t n with
  | nil =>
    obtain ⟨n, rfl⟩ : ∃ m, n = m + 1 := ⟨n - 1, by simp at hlt; omega⟩
    exact whileStep_false (comesFrom_spec (d := .right) h ht) ⟨rfl, rfl⟩
  | cons f c ih =>
    obtain ⟨n, rfl⟩ : ∃ m, n = m + 1 := ⟨n - 1, by omega⟩
    have hcond := comesFrom_spec (d := .right) h ht
    dsimp only at hcond
    by_cases hd : f.side = .right
    · have hrest := ih (t := f.fill t) h (by simp) n (by simpa using hlt)
      have hparent := Repr.getParent (c := c) (t := f.fill t) h (by simp)
      rw [treeRef_fill] at hrest hparent
      rw [decide_eq_true hd] at hcond
      rw [climb, if_pos hd]
      refine whileStep_true (P := fun q s' => q = (.slot f.label.slot, parentRef c) ∧ s' = s) hcond
        (.bind_eq hparent (.pure ⟨rfl, rfl⟩)) ?_
      rintro _ _ ⟨rfl, rfl⟩
      exact hrest
    · rw [decide_eq_false hd] at hcond
      rw [climb, if_neg hd]
      exact whileStep_false hcond ⟨rfl, rfl⟩

/-- One round of the loops of `_mulle__rbtree_find_node_with_equal_or_greater_payload` and
`_mulle__rbtree_find_node_with_equal_or_greater_extra`. -/
def ceilingStep (get : Ref → M σ VoidPtr) (a_key : VoidPtr) (a_comp : VoidPtr → VoidPtr → ℤ)
    (p : Ref) : M σ (Ref ⊕ Ref) := do
  if p = .nil then return .inr p
  else do
    let b_key ← get p
    let r ← compare a_comp a_key b_key
    if r = 0 then return .inr p
    else if r < 0 then do
      if (← getLeft p) = .nil then return .inr p
      else return .inl (← getLeft p)
    else do
      if (← getRight p) = .nil then do
        let (_, p) ← climbLoop p (← getParent p)
        return .inr p
      else return .inl (← getRight p)

theorem ceilingLoop_spec (h : Repr s E z K (plug c t)) (ht : t ≠ nil) (hlt : t.height ≤ n) :
    Ensures (iterate .endless (ceilingStep (getKey E.options) key comp) n (treeRef t)) s
      fun p s' =>
      p = labelRef (ceiling (matching E.options comp key) t (climb .right c)) ∧
      Repr s' (E.traced (compareEvents E.options key
        (visits (matching E.options comp key) true t))) z K (plug c t) := by
  induction n generalizing c t s E with
  | zero =>
    cases t with
    | nil => exact absurd rfl ht
    | node e l r => simp at hlt
  | succ n ih =>
    cases t with
    | nil => exact absurd rfl ht
    | node e l r =>
      rw [height, Nat.add_le_add_iff_right, max_le_iff] at hlt
      have hvalue : getKey E.options (.slot e.slot) s = .ok (e.value E.options, s) :=
        getKey_spec h (by simp)
      refine .iterate_succ ?_
      unfold ceilingStep
      rw [treeRef_node, if_neg (by simp)]
      refine .bind_eq hvalue ((compare_spec h _).bind ?_)
      rintro _ s₁ ⟨rfl, h₁⟩
      have hk : comp key (e.value E.options) = matching E.options comp key e := rfl
      have hleft : getLeft (.slot e.slot) s₁ = .ok (treeRef l, s₁) :=
        Repr.getChild (d := .left) h₁
      have hright : getRight (.slot e.slot) s₁ = .ok (treeRef r, s₁) :=
        Repr.getChild_other (d := .left) h₁
      rw [hk, ceiling, visits]
      by_cases hm : matching E.options comp key e = 0
      · rw [if_pos hm, if_pos hm, if_pos ⟨hm, rfl⟩]
        exact .pure ⟨rfl, h₁⟩
      have hvisit : ¬ (matching E.options comp key e = 0 ∧ true = true) := fun h => hm h.1
      rw [if_neg hm, if_neg hm, if_neg hvisit]
      by_cases hl : matching E.options comp key e < 0
      · rw [if_pos hl, if_pos hl, if_pos hl]
        refine .bind_eq hleft ?_
        by_cases hx : l = nil
        · subst hx
          rw [if_pos (by simp)]
          exact .pure ⟨rfl, h₁⟩
        · rw [if_neg (treeRef_ne_nil hx), ← traced_compare]
          exact .bind_eq hleft (.pure (ih (c := ⟨.left, e, r⟩ :: c) h₁ hx hlt.1))
      · rw [if_neg hl, if_neg hl, if_neg hl]
        refine .bind_eq hright ?_
        by_cases hx : r = nil
        · -- nothing greater below: climb
          subst hx
          have hparent : getParent (.slot e.slot) s₁ = .ok (parentRef c, s₁) :=
            Repr.getParent (t := node e l nil) h₁ (by simp)
          rw [if_pos (by simp)]
          refine .bind_eq hparent ((climbLoop_spec (t := node e l nil) h₁ (by simp)).bind ?_)
          rintro ⟨_, p⟩ _ ⟨rfl, rfl⟩
          exact .pure ⟨rfl, h₁⟩
        · rw [if_neg (treeRef_ne_nil hx), ← traced_compare]
          exact .bind_eq hright (.pure (ih (c := ⟨.right, e, l⟩ :: c) h₁ hx hlt.2))

/-- `_mulle__rbtree_find_node_equal_or_greater` -/
theorem findNodeEqualOrGreater_spec (h : Repr s E z K T) (key : VoidPtr)
    (comp : VoidPtr → VoidPtr → ℤ) :
    Ensures (findNodeEqualOrGreater key comp) s fun p s' =>
      p = labelRef (ceiling (matching E.options comp key) T none) ∧
      Repr s' (E.traced (compareEvents E.options key
        (visits (matching E.options comp key) true T))) z K T := by
  have hloop : Ensures (loop (ceilingStep (getKey E.options) key comp) (treeRef T)) s fun p s' =>
      p = labelRef (ceiling (matching E.options comp key) T none) ∧
      Repr s' (E.traced (compareEvents E.options key
        (visits (matching E.options comp key) true T))) z K T := by
    refine Holds.loop h ?_
    by_cases hT : T = nil
    · subst hT
      exact .iterate_succ (.pure ⟨rfl, by simpa [visits] using h⟩)
    · exact ceilingLoop_spec (c := []) h hT (height_bound (c := []) h).le
  refine .bind_eq h.getOptions ?_
  unfold getKey at hloop
  cases hx : Options.useExtra E.options with
  | true =>
    rw [hx] at hloop
    exact .bind_eq h.getRoot hloop
  | false =>
    rw [hx] at hloop
    exact .bind_eq h.getRoot hloop

end Base
end MulleRbtree
