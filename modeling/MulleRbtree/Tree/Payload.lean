import MulleRbtree.Tree.Value
import MulleRbtree.Source.Api

/-!
# Trees with a payload replaced

`Entry.setPayload i p` gives the node in slot `i` the payload `p` and leaves the other nodes alone,
so that `T.map (Entry.setPayload i p)` is what `_mulle_rbnode_set_payload` makes of a tree.  It
keeps the colours, the dirty flags and the order; in payload mode it changes one value.
-/

namespace MulleRbtree

open BinaryTree

/-- The node in slot `i` gets the payload `p`. -/
def Entry.setPayload (i : ℕ) (p : VoidPtr) (e : Entry) : Entry :=
  if e.slot = i then { e with payload := p } else e

def Item.setPayload (i : ℕ) (p : VoidPtr) (a : Item) : Item :=
  if a.slot = i then { a with payload := p } else a

namespace Entry

variable (i : ℕ) (p : VoidPtr) (e : Entry)

@[simp] theorem setPayload_slot : (e.setPayload i p).slot = e.slot := by
  unfold setPayload; split_ifs <;> rfl
@[simp] theorem setPayload_color : (e.setPayload i p).color = e.color := by
  unfold setPayload; split_ifs <;> rfl
@[simp] theorem isRed_setPayload : (e.setPayload i p).isRed = e.isRed :=
  congrArg Color.isRed (setPayload_color i p e)
@[simp] theorem isDirty_setPayload : (e.setPayload i p).isDirty = e.isDirty :=
  congrArg Color.isDirty (setPayload_color i p e)
@[simp] theorem item_setPayload : (e.setPayload i p).item = e.item.setPayload i p := by
  unfold setPayload Item.setPayload
  split_ifs with h₁ h₂ h₂
  · rfl
  · exact absurd h₁ h₂
  · exact absurd h₂ h₁
  · rfl

end Entry

namespace Item

variable {i : ℕ} {p : VoidPtr} {a : Item} {options : BitVec 32}

@[simp] theorem setPayload_slot : (a.setPayload i p).slot = a.slot := by
  unfold setPayload; split_ifs <;> rfl

theorem setPayload_of_ne (h : a.slot ≠ i) : a.setPayload i p = a := if_neg h

theorem value_setPayload (ho : Options.useExtra options = false) (h : a.slot = i) :
    (a.setPayload i p).value options = p := by
  rw [setPayload, if_pos h, value, if_neg (by simp [ho])]

end Item

variable {options : BitVec 32} {i : ℕ} {p : VoidPtr} {T : ETree}

@[simp] theorem slots_setPayload : slots (T.map (Entry.setPayload i p)) = slots T := by
  rw [slots, inorder_map, List.map_map, slots]
  exact List.map_congr_left fun e _ => Entry.setPayload_slot i p e

theorem items_setPayload :
    items (T.map (Entry.setPayload i p)) = (items T).map (Item.setPayload i p) := by
  rw [items_eq, inorder_map, List.map_map, items_eq, List.map_map]
  exact List.map_congr_left fun e _ => Entry.item_setPayload i p e

theorem isRedBlack_setPayload (h : IsRedBlack Entry.isRed T) :
    IsRedBlack Entry.isRed (T.map (Entry.setPayload i p)) :=
  (isRedBlack_map fun e _ => Entry.isRed_setPayload i p e).2 h

/-- An ancestor of a dirty node stays one. -/
theorem dirt_setPayload (h : Dirt options T) : Dirt options (T.map (Entry.setPayload i p)) := by
  constructor
  · intro ho
    rw [locally_map]
    refine (h.locally ho).mono_on fun a _ u v _ _ hup => ?_
    have hclean : ∀ w : Option Entry, (∀ b ∈ w, b.isDirty = false) →
        ∀ b ∈ w.map (Entry.setPayload i p), b.isDirty = false := by
      intro w hw b hb
      obtain ⟨e, he, rfl⟩ := Option.mem_map.1 hb
      rw [Entry.isDirty_setPayload]
      exact hw e he
    rcases hup with ha | ⟨hu, hv⟩
    · exact .inl (by rw [Entry.isDirty_setPayload, ha])
    · exact .inr ⟨hclean u hu, hclean v hv⟩
  · rw [everywhere_map]
    refine h.proper.mono fun e he ho => ?_
    rw [Entry.isDirty_setPayload]
    exact he ho

end MulleRbtree
