import MulleRbtree.Layout.Attach
import MulleRbtree.Tree.Value

/-!
# New nodes and the values of nodes

* `newNode_spec`: `_mulle__rbtree_new_node` adds a loose node in a slot that was not in use;
* `freeNode_spec`: `_mulle__rbtree_free_node` takes a loose node out of memory;
* `getNodeValue_spec`: the value of a node in the tree, or of the sentinel.
-/

namespace MulleRbtree

open BinaryTree Cells Program

variable {σ : Type} [MulleStorage σ]

/-- The size of the value areas. -/
def Env.extraSize (E : Env σ) : ℕ := MulleStorage.getElementSize E.nodes - offsetofPayload

/-- The slot the pool hands out next. -/
def Env.nextSlot (E : Env σ) : ℕ := (MulleStorage.malloc E.nodes).1

/-- The node that `_mulle__rbtree_new_node` makes next. -/
def Env.fresh (E : Env σ) (value : VoidPtr) : Entry :=
  .fresh E.options E.extraSize E.nextSlot value

namespace Holds

open Base

variable {s : Base σ} {E : Env σ} {root : Ref} {H : Multiset Cell}

/-- The pool hands out a slot that holds no node. -/
theorem storageMalloc (h : Holds s E root H) :
    Ensures Base.storageMalloc s fun n s' => n = .slot E.nextSlot ∧
      Holds s' E.malloced root ({(.slot E.nextSlot, default)} + H) := by
  obtain rfl : s.env = E := h.env
  have hnew : s.mem (.slot s.env.nextSlot) = none := by
    by_contra hne
    have hmem := h.owns.isSome_iff.1 (Option.isSome_iff_ne_none.2 hne)
    exact MulleStorage.malloc_notMem s.nodes ((h.live _).2 hmem)
  refine .of_eq rfl ⟨rfl, rfl, h.root, h.owns.alloc hnew default, fun j => ?_⟩
  have hj : j ∈ MulleStorage.live s.nodes ↔ _ := h.live j
  change j ∈ MulleStorage.live (MulleStorage.malloc s.nodes).2 ↔ _
  rw [MulleStorage.live_malloc, Finset.mem_insert, hj, Multiset.map_add, Multiset.map_singleton,
    Multiset.mem_add, Multiset.mem_singleton, Ref.slot.injEq]
  rfl

end Holds

namespace Base

variable {s : Base σ} {E : Env σ} {z : Sentinel} {K : Multiset Cell} {T t : ETree} {c : Path Entry}
  {a e : Entry} {i : ℕ}

/-! ### `_mulle__rbtree_new_node`, `_mulle__rbtree_free_node` -/

/-- The colour of a new node. -/
theorem initColor_spec {root : Ref} {R : Multiset Cell} {m : Rbnode}
    (h : Holds s E root ({(.slot i, { m with color := Color.red })} + R)) :
    Ensures (when (Options.useDirty E.options) (recolor (.slot i) Color.setDirty)) s fun _ s' =>
      Holds s' E root ({(.slot i, { m with color := freshColor E.options })} + R) := by
  unfold freshColor
  cases Options.useDirty E.options with
  | true => exact h.recolor _
  | false => exact .pure h

theorem newNode_spec (h : Repr s E z K T) (value : VoidPtr) :
    Ensures (newNode value) s fun n s' => n = .slot E.nextSlot ∧
      Repr s' E.malloced z ({looseCell (E.fresh value)} + K) T := by
  refine (Holds.storageMalloc h).bind ?_
  rintro _ s₁ ⟨rfl, h₁⟩
  refine Ensures.bind (P := fun _ s' => Repr s' E.malloced z ({looseCell (E.fresh value)} + K) T)
    ?_ fun _ s' h' => .pure ⟨rfl, h'⟩
  refine (h₁.update _).bind fun _ s₂ h₂ => .bind_eq h₂.getOptions ((initColor_spec
    (m := { (default : Rbnode) with parent := .nil, left := .nil, right := .nil }) h₂).bind
    fun _ s₃ h₃ => .bind_eq h₃.getOptions ?_)
  have hsize : getExtraSize s₃ = .ok (E.extraSize, s₃) := by
    have hnodes : s₃.nodes = (MulleStorage.malloc E.nodes).2 := h₃.nodes_eq
    rw [Env.extraSize, ← MulleStorage.elementSize_malloc E.nodes, ← hnodes]
    rfl
  change Ensures (if Options.useExtra E.options = true then _ else _) _ _
  have hcell : ∀ node : Rbnode, (Ref.slot E.nextSlot, node) = looseCell (E.fresh value) →
      {(Ref.slot E.nextSlot, node)} + ({z.cell} + (K + below .nil T)) =
        {z.cell} + ({looseCell (E.fresh value)} + K + below .nil T) := fun node e => by
    rw [e]
    abel
  cases hx : Options.useExtra E.options with
  | true =>
    refine .bind_eq hsize ((h₃.update _).mono fun _ s₄ h₄ => Holds.cast h₄ (hcell _ ?_))
    simp [looseCell, Env.fresh, Entry.fresh, hx]
    rfl
  | false =>
    refine (h₃.update _).mono fun _ s₄ h₄ => Holds.cast h₄ (hcell _ ?_)
    simp [looseCell, Env.fresh, Entry.fresh, hx]
    rfl

/-- A loose node is freed. -/
theorem freeNode_spec (h : Repr s E z ({looseCell a} + K) T) :
    Ensures (freeNode (.slot a.slot)) s fun _ s' => Repr s' (E.freed a.slot) z K T :=
  h.loose.freeNode

/-- A loose node is not in the tree. -/
theorem loose_notMem {i : ℕ} {v : Rbnode} (h : Repr s E z ({(.slot i, v)} + K) T) :
    i ∉ slots T := by
  intro hi
  have hmem : Ref.slot i ∈ (below .nil T).map Prod.fst := by
    rw [map_fst_below]
    simp [hi]
  obtain ⟨q, hq, e⟩ := Multiset.mem_map.1 hmem
  have hne := h.loose.owns.ne (b := q.1) (d := q.2) (by simp [hq])
  exact hne e.symm

/-! ### Values -/

theorem getNodeValue_of_mem {root : Ref} {H : Multiset Cell} {par near far : Ref} {d : Side}
    (h : Holds s E root H) (hn : (.slot e.slot, e.cell par near far d) ∈ H) :
    getNodeValue (.slot e.slot) s = .ok (e.value E.options, s) := by
  rw [getNodeValue, if_neg nofun, bind_eq h.getOptions]
  unfold Entry.value Item.value
  split_ifs
  · rw [getExtra, bind_eq (h.deref hn), Entry.cell_extra]
    rfl
  · rw [getPayload, bind_eq (h.deref hn), Entry.cell_payload]
    rfl

/-- The value of a node in the tree, or of the sentinel. -/
theorem getNodeValue_spec (h : Repr s E z K (plug c t)) :
    getNodeValue (treeRef t) s = .ok (valueOf E.options t.label?, s) := by
  cases t with
  | nil => rfl
  | node e l r =>
    obtain ⟨H, hH, hn⟩ := Repr.mem_join (d := .left) h
    exact getNodeValue_of_mem hH hn

/-- The value of a loose node. -/
theorem getNodeValue_loose (h : Repr s E z ({looseCell a} + K) T) :
    getNodeValue (.slot a.slot) s = .ok (a.value E.options, s) := by
  unfold looseCell at h
  exact getNodeValue_of_mem h.loose mem_front

end Base
end MulleRbtree
