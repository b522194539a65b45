import Mathlib.Tactic

/-!
# `mulle--rbtree.h`: the colour word of a node

`int _color` carries three things at once: the colour in bit 0, the marker in bit 6 and the dirty
flag in bit 7.  The accessors of the header read and rewrite the word by masks.

* the enumeration `black`, `red`, `marker`, `dirty`;
* the accessors `isRed`, `isDirty`, `isMarked`, … and the setters, mask by mask;
* what every setter does to every bit that is read (`isRed_setDirty`, …): a change of one of the
  three leaves the other two alone.
-/

namespace MulleRbtree

/-- The `int` that holds colour, marker and dirty flag. -/
abbrev Color := BitVec 32

namespace Color

def black : Color := 0#32
def red : Color := 1#32
def marker : Color := 0x40#32
def dirty : Color := 0x80#32

/-- `_mulle_rbnode_is_dirty` -/
def isDirty (c : Color) : Bool := c &&& dirty != 0#32

/-- `_mulle_rbnode_set_dirty` -/
def setDirty (c : Color) : Color := c ||| dirty

/-- `_mulle_rbnode_clear_dirty` -/
def clearDirty (c : Color) : Color := c &&& ~~~dirty

/-- `_mulle_rbnode_is_marked` -/
def isMarked (c : Color) : Bool := c &&& marker != 0#32

/-- `_mulle_rbnode_set_marker` -/
def setMarker (c : Color) : Color := c ||| marker

/-- `_mulle_rbnode_clear_marker` -/
def clearMarker (c : Color) : Color := c &&& ~~~marker

/-- `_mulle_rbnode_get_color` -/
def getColor (c : Color) : Color := c &&& 1#32

/-- `_mulle_rbnode_is_black` -/
def isBlack (c : Color) : Bool := c &&& 1#32 == black

/-- `_mulle_rbnode_is_red` -/
def isRed (c : Color) : Bool := c &&& 1#32 == red

/-- `_mulle_rbnode_set_color` -/
def setColor (c color : Color) : Color := (c &&& ~~~1#32) ||| color

/-- `_mulle_rbnode_set_red` -/
def setRed (c : Color) : Color := (c &&& ~~~1#32) ||| red

/-- `_mulle_rbnode_set_black` -/
def setBlack (c : Color) : Color := (c &&& ~~~1#32) ||| black

/-! ### The three bits -/

/-- A mask of one bit tests that bit. -/
theorem and_twoPow_ne_zero (c : Color) {i : ℕ} (hi : i < 32) :
    (c &&& BitVec.twoPow 32 i != 0#32) = c.getLsbD i := by
  have hne : BitVec.twoPow 32 i ≠ 0#32 := by
    intro h
    have h' := congrArg (fun b => b.getLsbD i) h
    simp [hi] at h'
  rw [BitVec.and_twoPow]
  split_ifs with h <;> simp [h, hne]

theorem isDirty_eq (c : Color) : c.isDirty = c.getLsbD 7 :=
  and_twoPow_ne_zero c (i := 7) (by omega)

theorem isMarked_eq (c : Color) : c.isMarked = c.getLsbD 6 :=
  and_twoPow_ne_zero c (i := 6) (by omega)

theorem isRed_eq (c : Color) : c.isRed = c.getLsbD 0 := by
  have h := and_twoPow_ne_zero c (i := 0) (by omega)
  have h1 : c &&& BitVec.twoPow 32 0 = if c.getLsbD 0 then 1#32 else 0#32 :=
    BitVec.and_twoPow c 0
  change (c &&& BitVec.twoPow 32 0 == 1#32) = _
  rw [h1]
  cases c.getLsbD 0 <;> rfl

@[simp] theorem isBlack_eq (c : Color) : c.isBlack = !c.isRed := by
  have h1 : c &&& BitVec.twoPow 32 0 = if c.getLsbD 0 then 1#32 else 0#32 :=
    BitVec.and_twoPow c 0
  rw [isRed_eq]
  change (c &&& BitVec.twoPow 32 0 == 0#32) = _
  rw [h1]
  cases c.getLsbD 0 <;> rfl

/-- The colour bit alone. -/
theorem getColor_eq_ite (c : Color) : c.getColor = if c.isRed then red else black := by
  have h1 : c &&& BitVec.twoPow 32 0 = if c.getLsbD 0 then 1#32 else 0#32 :=
    BitVec.and_twoPow c 0
  change c &&& BitVec.twoPow 32 0 = _
  rw [h1, isRed_eq]
  rfl

/-- The colour bit alone is one of the two colours. -/
theorem getColor_eq (c : Color) : c.getColor = red ∨ c.getColor = black := by
  rw [getColor_eq_ite]
  cases c.isRed
  · exact .inr rfl
  · exact .inl rfl

/-! ### What the setters change -/

@[simp] theorem isRed_setDirty (c : Color) : c.setDirty.isRed = c.isRed := by
  simp [isRed_eq, setDirty, dirty]

@[simp] theorem isRed_clearDirty (c : Color) : c.clearDirty.isRed = c.isRed := by
  simp [isRed_eq, clearDirty, dirty]

@[simp] theorem isRed_setMarker (c : Color) : c.setMarker.isRed = c.isRed := by
  simp [isRed_eq, setMarker, marker]

@[simp] theorem isRed_clearMarker (c : Color) : c.clearMarker.isRed = c.isRed := by
  simp [isRed_eq, clearMarker, marker]

@[simp] theorem isRed_setRed (c : Color) : c.setRed.isRed = true := by
  simp [isRed_eq, setRed, red]

@[simp] theorem isRed_setBlack (c : Color) : c.setBlack.isRed = false := by
  simp [isRed_eq, setBlack, black]

@[simp] theorem isRed_setColor_getColor (c d : Color) :
    (c.setColor d.getColor).isRed = d.isRed := by
  simp [isRed_eq, setColor, getColor]

@[simp] theorem isDirty_setDirty (c : Color) : c.setDirty.isDirty = true := by
  simp [isDirty_eq, setDirty, dirty]

@[simp] theorem isDirty_clearDirty (c : Color) : c.clearDirty.isDirty = false := by
  simp [isDirty_eq, clearDirty, dirty]

@[simp] theorem isDirty_setMarker (c : Color) : c.setMarker.isDirty = c.isDirty := by
  simp [isDirty_eq, setMarker, marker]

@[simp] theorem isDirty_clearMarker (c : Color) : c.clearMarker.isDirty = c.isDirty := by
  simp [isDirty_eq, clearMarker, marker]

@[simp] theorem isDirty_setRed (c : Color) : c.setRed.isDirty = c.isDirty := by
  simp [isDirty_eq, setRed, red]

@[simp] theorem isDirty_setBlack (c : Color) : c.setBlack.isDirty = c.isDirty := by
  simp [isDirty_eq, setBlack, black]

@[simp] theorem isDirty_setColor_getColor (c d : Color) :
    (c.setColor d.getColor).isDirty = c.isDirty := by
  simp [isDirty_eq, setColor, getColor]

@[simp] theorem isMarked_setDirty (c : Color) : c.setDirty.isMarked = c.isMarked := by
  simp [isMarked_eq, setDirty, dirty]

@[simp] theorem isMarked_clearDirty (c : Color) : c.clearDirty.isMarked = c.isMarked := by
  simp [isMarked_eq, clearDirty, dirty]

@[simp] theorem isMarked_setMarker (c : Color) : c.setMarker.isMarked = true := by
  simp [isMarked_eq, setMarker, marker]

@[simp] theorem isMarked_clearMarker (c : Color) : c.clearMarker.isMarked = false := by
  simp [isMarked_eq, clearMarker, marker]

@[simp] theorem isMarked_setRed (c : Color) : c.setRed.isMarked = c.isMarked := by
  simp [isMarked_eq, setRed, red]

@[simp] theorem isMarked_setBlack (c : Color) : c.setBlack.isMarked = c.isMarked := by
  simp [isMarked_eq, setBlack, black]

@[simp] theorem isMarked_setColor_getColor (c d : Color) :
    (c.setColor d.getColor).isMarked = c.isMarked := by
  simp [isMarked_eq, setColor, getColor]

/-- A clear flag stays clear. -/
theorem clearDirty_eq_self {c : Color} (h : c.isDirty = false) : c.clearDirty = c := by
  rw [isDirty_eq] at h
  refine BitVec.eq_of_getLsbD_eq fun i hi => ?_
  have hbit : dirty.getLsbD i = decide (i = 7) := by
    change (BitVec.twoPow 32 7).getLsbD i = _
    rw [BitVec.getLsbD_twoPow]
    simp [eq_comm]
  rw [clearDirty, BitVec.getLsbD_and, BitVec.getLsbD_not, hbit]
  by_cases hi7 : i = 7
  · subst hi7
    rw [h, Bool.false_and]
  · simp [hi, hi7]

@[simp] theorem isRed_red : red.isRed = true := rfl
@[simp] theorem isDirty_red : red.isDirty = false := rfl
@[simp] theorem isRed_black : black.isRed = false := rfl
@[simp] theorem isDirty_black : black.isDirty = false := rfl
@[simp] theorem isMarked_red : red.isMarked = false := rfl
@[simp] theorem isMarked_black : black.isMarked = false := rfl

end Color
end MulleRbtree
