import MulleRbtree.Layout.Attached
import MulleRbtree.Tree.Payload

/-!
# Setters

* `setPayload_spec`: `_mulle_rbnode_set_payload` on any node of the pool, in the tree or outside;
* `enableMarking_spec`: `_mulle__rbtree_enable_marking`;
* `getGrandparent_spec`: `_mulle_rbnode_get_grandparent`, on any node but the root.
-/

namespace MulleRbtree

open BinaryTree Cells Program

variable {σ : Type}

/-- With markers. -/
def Env.marking (E : Env σ) : Env σ := { E with options := E.options ||| 0x8#32 }

variable [MulleStorage σ]

/-! ### Payloads -/

/-- One cell gets another payload. -/
def setCellPayload (n : Ref) (p : VoidPtr) (c : Cell) : Cell :=
  if c.1 = n then (c.1, { c.2 with payload := p }) else c

theorem Holds.setPayload {s : Base σ} {E : Env σ} {root n : Ref} {H : Multiset Cell}
    (h : Holds s E root H) (hn : n ∈ H.map Prod.fst) (p : VoidPtr) :
    Ensures (Base.setPayload n p) s fun _ s' => Holds s' E root (H.map (setCellPayload n p)) := by
  obtain ⟨⟨n, node⟩, hmem, rfl⟩ := Multiset.mem_map.1 hn
  obtain ⟨R, rfl⟩ := Multiset.exists_cons_of_mem hmem
  rw [← Multiset.singleton_add] at h ⊢
  -- no other cell has this address
  have hrest : R.map (setCellPayload n p) = R := by
    have hid : R.map (setCellPayload n p) = R.map id := by
      refine Multiset.map_congr rfl fun c hc => if_neg ?_
      rintro rfl
      exact h.owns.notMem (Multiset.mem_map_of_mem Prod.fst hc)
    rw [hid, Multiset.map_id]
  refine (h.update fun node => { node with payload := p }).mono fun _ s' h' => ?_
  rw [Multiset.map_add, Multiset.map_singleton, hrest, setCellPayload, if_pos rfl]
  exact h'

theorem Holds.enableMarking {s : Base σ} {E : Env σ} {root : Ref} {H : Multiset Cell}
    (h : Holds s E root H) :
    Ensures Base.enableMarking s fun _ s' => Holds s' E.marking root H := by
  refine .of_eq rfl ⟨?_, h.root, h.owns, h.live⟩
  rw [← h.env]
  rfl

section Cells

variable {i : ℕ} {p : VoidPtr}

omit [MulleStorage σ]

theorem setCellPayload_cell (e : Entry) (par near far : Ref) (d : Side) :
    setCellPayload (.slot i) p (.slot e.slot, e.cell par near far d) =
      (.slot e.slot, (e.setPayload i p).cell par near far d) := by
  unfold setCellPayload Entry.setPayload
  by_cases he : e.slot = i
  · rw [if_pos he, if_pos (by rw [he])]
    cases d <;> rfl
  · rw [if_neg he, if_neg fun e' => he (Ref.slot.inj e')]

theorem treeRef_setPayload (t : ETree) : treeRef (t.map (Entry.setPayload i p)) = treeRef t := by
  cases t with
  | nil => rfl
  | node e l r => exact congrArg Ref.slot (Entry.setPayload_slot i p e)

theorem map_below (par : Ref) (t : ETree) :
    (below par t).map (setCellPayload (.slot i) p) = below par (t.map (Entry.setPayload i p)) := by
  induction t generalizing par with
  | nil => rfl
  | node e l r ihl ihr =>
    show ({_} + (below _ l + below _ r)).map _ = {_} + (below _ _ + below _ _)
    rw [Multiset.map_add, Multiset.map_add, Multiset.map_singleton, setCellPayload_cell, ihl, ihr,
      treeRef_setPayload, treeRef_setPayload, Entry.setPayload_slot]

theorem map_looseCell (F : Multiset Entry) :
    (F.map looseCell).map (setCellPayload (.slot i) p) =
      (F.map (Entry.setPayload i p)).map looseCell := by
  rw [Multiset.map_map, Multiset.map_map]
  refine Multiset.map_congr rfl fun a _ => ?_
  show setCellPayload _ _ (looseCell a) = looseCell (a.setPayload i p)
  rw [looseCell, setCellPayload_cell, looseCell, Entry.setPayload_slot]

end Cells

namespace Base

variable {s : Base σ} {E : Env σ} {z : Sentinel} {K : Multiset Cell} {F : Multiset Entry}
  {T t : ETree} {i : ℕ}

theorem setPayload_spec (h : Repr s E z (F.map looseCell) T) (hi : (s.mem (.slot i)).isSome)
    (p : VoidPtr) : Ensures (setPayload (.slot i) p) s fun _ s' =>
      Repr s' E z ((F.map (Entry.setPayload i p)).map looseCell) (T.map (Entry.setPayload i p)) := by
  refine (Holds.setPayload h ((Holds.owns h).isSome_iff.1 hi) p).mono fun _ s' h' => ?_
  rw [Multiset.map_add, Multiset.map_add, Multiset.map_singleton, map_below, map_looseCell] at h'
  rw [Repr, treeRef_setPayload]
  exact h'

theorem enableMarking_spec (h : Repr s E z K T) :
    Ensures enableMarking s fun _ s' => Repr s' E.marking z K T := Holds.enableMarking h

/-- The parent of the parent. -/
theorem getGrandparent_spec {f : Frame Entry} {c : Path Entry} (h : Repr s E z K (plug (f :: c) t))
    (ht : t ≠ nil) : getGrandparent (treeRef t) s = .ok (parentRef c, s) := by
  have hparent := h.getParent fun e => absurd e ht
  have hup : Repr s E z K (plug c (f.fill t)) := h
  have hgrand := hup.getParent fun e => absurd e (f.fill_ne_nil t)
  rw [treeRef_fill] at hgrand
  rw [getGrandparent, bind_eq hparent]
  exact hgrand

end Base
end MulleRbtree
