import MulleRbtree.Layout.Nodes
import MulleRbtree.Source.Walk

/-!
# The recursive walks

* `walkDirty_spec`: `_mulle__rbtree_walk_dirty` washes the tree, and its assertion holds;
* `getCount_spec`: `_mulle__rbtree_get_count` counts the nodes of the tree.
-/

namespace MulleRbtree

open BinaryTree Cells Program

namespace Base

variable {σ : Type} [MulleStorage σ] {s : Base σ} {E : Env σ} {z : Sentinel} {K : Multiset Cell}
  {T t l r : ETree} {c : Path Entry} {e : Entry} {fuel : ℕ}

theorem depthBound_eq (h : Repr s E z K T) :
    depthBound s = .ok (MulleStorage.getCount E.nodes + 2, s) := by
  rw [← Holds.nodes_eq h]
  rfl

/-- The recursions do not run out of depth. -/
theorem height_lt (h : Repr s E z K T) : T.height < MulleStorage.getCount E.nodes + 2 := by
  have h₁ := h.numNodes_le
  have h₂ := height_le_numNodes T
  omega

theorem valueOf_wash (options : BitVec 32) (t : ETree) :
    valueOf options (wash t).label? = valueOf options t.label? := by
  have h := label?_wash t (k := Entry.value options) fun e => e.value_clean
  cases h₁ : (wash t).label? <;> cases h₂ : t.label? <;> simp_all [valueOf]

/-! ### `_mulle__rbtree_walk_dirty` -/

theorem walkDirtyFrom_spec (h : Repr s E z K (plug c t)) (ht : t.height < fuel) :
    Ensures (walkDirtyFrom fuel (treeRef t)) s fun _ s' =>
      Repr s' (E.traced (washEvents E.options t)) z K (plug c (wash t)) := by
  induction t generalizing c s E fuel with
  | nil =>
    obtain ⟨fuel, rfl⟩ : ∃ m, fuel = m + 1 := ⟨fuel - 1, by omega⟩
    refine .bind_eq h.isDirty (.pure ?_)
    rwa [washEvents, Env.traced_nil]
  | node e l r ihl ihr =>
    obtain ⟨fuel, rfl⟩ : ∃ m, fuel = m + 1 := ⟨fuel - 1, by omega⟩
    rw [height, Nat.add_lt_add_iff_right, max_lt_iff] at ht
    refine .bind_eq h.isDirty ?_
    rw [rootHas_node, wash, washEvents]
    cases he : e.isDirty with
    | false =>
      refine .pure ?_
      rwa [if_neg (by simp), Env.traced_nil]
    | true =>
      rw [if_neg (by simp), if_pos rfl, if_pos rfl]
      -- a child is visited unless it is the sentinel
      have hchild : ∀ {s : Base σ} {E : Env σ} {u : ETree} {g : Path Entry},
          Repr s E z K (plug g u) → (u ≠ nil → Ensures (walkDirtyFrom fuel (treeRef u)) s fun _ s' =>
            Repr s' (E.traced (washEvents E.options u)) z K (plug g (wash u))) →
          Ensures (when (treeRef u ≠ .nil) (walkDirtyFrom fuel (treeRef u))) s fun _ s' =>
            Repr s' (E.traced (washEvents E.options u)) z K (plug g (wash u)) := by
        intro s E u g hu ih
        by_cases hne : u = nil
        · subst hne
          refine .pure ?_
          rwa [washEvents, Env.traced_nil]
        · rw [decide_eq_true (treeRef_ne_nil hne), when_true]
          exact ih hne
      have hl₀ : getLeft (.slot e.slot) s = .ok (treeRef l, s) := Repr.getChild (d := .left) h
      refine .bind_eq (assert_eq Ref.slot_ne_nil) (.bind_eq hl₀ ((hchild (g := ⟨.left, e, r⟩ :: c) h
        fun _ => ihl h ht.1).bind fun _ s₁ h₁ => ?_))
      have hr₁ : getRight (.slot e.slot) s₁ = .ok (treeRef r, s₁) :=
        Repr.getChild (d := .right) (c := c) (x := r) (y := wash l) h₁
      refine .bind_eq hr₁ ((hchild (g := ⟨.right, e, wash l⟩ :: c) h₁
        fun _ => ihr h₁ ht.2).bind fun _ s₂ h₂ => ?_)
      have h₂' : Repr s₂ ((E.traced (washEvents E.options l)).traced (washEvents E.options r)) z K
          (plug c (node e (wash l) (wash r))) := h₂
      have hl₂ : getLeft (.slot e.slot) s₂ = .ok (treeRef (wash l), s₂) :=
        Repr.getChild (d := .left) h₂'
      have hr₂ : getRight (.slot e.slot) s₂ = .ok (treeRef (wash r), s₂) :=
        Repr.getChild_other (d := .left) h₂'
      have hlv := getNodeValue_spec (c := ⟨.left, e, wash r⟩ :: c) (t := wash l) h₂
      have hrv := getNodeValue_spec (c := ⟨.right, e, wash l⟩ :: c) (t := wash r) h₂
      rw [valueOf_wash] at hlv hrv
      have hev : getNodeValue (.slot e.slot) s₂ = .ok (e.value E.options, s₂) :=
        getNodeValue_spec h₂'
      refine .bind_eq hev (.bind_eq hl₂ (.bind_eq hlv (.bind_eq hr₂
        (.bind_eq hrv ((Holds.emit h₂' _).bind fun _ s₃ h₃ => ?_)))))
      refine (Repr.recolor (t := node e (wash l) (wash r)) h₃ (by simp) Color.clearDirty).mono
        fun _ s₄ h₄ => ?_
      rw [Env.traced_traced, Env.traced_traced] at h₄
      rw [List.append_assoc]
      exact h₄

theorem assertCleanFrom_spec (h : Repr s E z K (plug c t)) (ht : t.height < fuel)
    (hclean : Clean t) : assertCleanFrom fuel (treeRef t) s = .ok ((), s) := by
  induction t generalizing c fuel with
  | nil =>
    obtain ⟨fuel, rfl⟩ : ∃ m, fuel = m + 1 := ⟨fuel - 1, by omega⟩
    rfl
  | node e l r ihl ihr =>
    obtain ⟨fuel, rfl⟩ : ∃ m, fuel = m + 1 := ⟨fuel - 1, by omega⟩
    rw [height, Nat.add_lt_add_iff_right, max_lt_iff] at ht
    obtain ⟨he, hl, hr⟩ := everywhere_node.1 hclean
    have hleft : getLeft (.slot e.slot) s = .ok (treeRef l, s) := Repr.getChild (d := .left) h
    have hright : getRight (.slot e.slot) s = .ok (treeRef r, s) :=
      Repr.getChild_other (d := .left) h
    have hdirty := h.isDirty
    rw [rootHas_node, he, treeRef_node] at hdirty
    rw [assertCleanFrom, treeRef_node, if_neg (by simp), bind_eq hleft,
      bind_eq (ihl (c := ⟨.left, e, r⟩ :: c) h ht.1 hl), bind_eq hright,
      bind_eq (ihr (c := ⟨.right, e, l⟩ :: c) h ht.2 hr), bind_eq hdirty, assert_eq rfl]

/-- The callback is called for the dirty nodes, and no node is dirty afterwards. -/
theorem walkDirty_spec (h : Repr s E z K T) (hd : Dirt E.options T) :
    Ensures walkDirty s fun _ s' =>
      Repr s' (E.traced (washEvents E.options T)) z K (wash T) := by
  refine .bind_eq (depthBound_eq h) (.bind_eq h.getRoot
    ((walkDirtyFrom_spec (c := []) h (height_lt h)).bind fun _ s₁ h₁ => ?_))
  have h₁' : Repr s₁ (E.traced (washEvents E.options T)) z K (wash T) := h₁
  exact .bind_eq (depthBound_eq h₁') (.bind_eq h₁'.getRoot (.of_eq (assertCleanFrom_spec (c := [])
    h₁ (height_lt h₁') (wash_clean hd.up)) h₁'))

/-! ### `_mulle__rbtree_get_count` -/

theorem walkCount_spec (h : Repr s E z K (plug c t)) (ht : t.height < fuel) :
    walkCount fuel (treeRef t) s = .ok (t.numNodes, s) := by
  induction t generalizing c fuel with
  | nil =>
    obtain ⟨fuel, rfl⟩ : ∃ m, fuel = m + 1 := ⟨fuel - 1, by omega⟩
    rfl
  | node e l r ihl ihr =>
    obtain ⟨fuel, rfl⟩ : ∃ m, fuel = m + 1 := ⟨fuel - 1, by omega⟩
    rw [height, Nat.add_lt_add_iff_right, max_lt_iff] at ht
    have hleft : getLeft (.slot e.slot) s = .ok (treeRef l, s) := Repr.getChild (d := .left) h
    have hright : getRight (.slot e.slot) s = .ok (treeRef r, s) :=
      Repr.getChild_other (d := .left) h
    rw [walkCount, treeRef_node, if_neg (by simp), bind_eq hleft,
      bind_eq (ihl (c := ⟨.left, e, r⟩ :: c) h ht.1), bind_eq hright,
      bind_eq (ihr (c := ⟨.right, e, l⟩ :: c) h ht.2)]
    rfl

theorem getCount_spec (h : Repr s E z K T) : getCount s = .ok (T.numNodes, s) := by
  rw [getCount, bind_eq (depthBound_eq h), bind_eq h.getRoot]
  exact walkCount_spec (c := []) h (height_lt h)

end Base
end MulleRbtree
