import MulleRbtree.Library.RedBlack
import MulleRbtree.Library.Local
import MulleRbtree.Source.Base

/-!
# Trees of entries

The links of a tree are determined by its shape.  An `Entry` is what a node holds besides: its
slot, its colour word, its value.  A `BinaryTree Entry` therefore describes all nodes of a tree.

* `Stamp`: what the marks on a node depend on;
* `Entry.mark`, `Entry.relink`, `Entry.touch`, `Entry.soil`: how a node is stamped when its links
  are written and when it is marked as dirty;
* `turn`, `turnPath`: a rotation, at its place and above it.
-/

namespace MulleRbtree

open BinaryTree

/-- A node without its links. -/
structure Entry where
  slot : ℕ
  color : Color
  payload : VoidPtr
  extra : List UInt8
  relinked : ℕ
  deriving DecidableEq, Repr

abbrev ETree := BinaryTree Entry

namespace Entry

def isRed (e : Entry) : Bool := e.color.isRed
def isDirty (e : Entry) : Bool := e.color.isDirty

/-- Change the colour word. -/
def recolor (f : Color → Color) (e : Entry) : Entry := { e with color := f e.color }

@[simp] theorem recolor_slot (f : Color → Color) (e : Entry) : (e.recolor f).slot = e.slot := rfl
@[simp] theorem recolor_color (f : Color → Color) (e : Entry) :
    (e.recolor f).color = f e.color := rfl
@[simp] theorem isRed_recolor (f : Color → Color) (e : Entry) :
    (e.recolor f).isRed = (f e.color).isRed := rfl
@[simp] theorem isDirty_recolor (f : Color → Color) (e : Entry) :
    (e.recolor f).isDirty = (f e.color).isDirty := rfl
@[simp] theorem recolor_payload (f : Color → Color) (e : Entry) :
    (e.recolor f).payload = e.payload := rfl
@[simp] theorem recolor_extra (f : Color → Color) (e : Entry) :
    (e.recolor f).extra = e.extra := rfl
@[simp] theorem recolor_relinked (f : Color → Color) (e : Entry) :
    (e.recolor f).relinked = e.relinked := rfl

end Entry

/-! ### How link writes stamp a node -/

/-- What the marks on a node depend on. -/
structure Stamp where
  options : BitVec 32
  epoch : ℕ

namespace Stamp

/-- In the next epoch. -/
def next (o : Stamp) : Stamp := { o with epoch := o.epoch + 1 }

/-- The colour word after `_mulle__rbtree_set_node_marked`. -/
def markColor (o : Stamp) (c : Color) : Color :=
  if Options.useMarker o.options then c.setMarker else c

/-- The colour word of a node on the way of `_mulle__rbtree_mark_node_as_dirty`, in a tree that
uses dirty flags. -/
def soilColor (o : Stamp) (c : Color) : Color :=
  if Options.useDirty o.options then c.setDirty else c

end Stamp

namespace Entry

/-- Marked as restructured. -/
def mark (o : Stamp) (e : Entry) : Entry := e.recolor o.markColor

/-- With a link rewritten. -/
def relink (o : Stamp) (e : Entry) : Entry := { e with relinked := o.epoch }

/-- With a link rewritten and marked. -/
def touch (o : Stamp) (e : Entry) : Entry := (e.relink o).mark o

/-- Dirty, if the tree uses dirty flags. -/
def soil (o : Stamp) (e : Entry) : Entry := e.recolor o.soilColor

end Entry

namespace Color

@[simp] theorem setMarker_setMarker (c : Color) : c.setMarker.setMarker = c.setMarker := by
  simp [setMarker, BitVec.or_assoc]

@[simp] theorem setDirty_setDirty (c : Color) : c.setDirty.setDirty = c.setDirty := by
  simp [setDirty, BitVec.or_assoc]

@[simp] theorem setBlack_setBlack (c : Color) : c.setBlack.setBlack = c.setBlack := by
  simp [setBlack, black, BitVec.and_assoc]

@[simp] theorem setBlack_black : black.setBlack = black := rfl

end Color

@[simp] theorem Stamp.markColor_markColor (o : Stamp) (c : Color) :
    o.markColor (o.markColor c) = o.markColor c := by
  unfold Stamp.markColor; split_ifs <;> simp

@[simp] theorem Stamp.soilColor_soilColor (o : Stamp) (c : Color) :
    o.soilColor (o.soilColor c) = o.soilColor c := by
  unfold Stamp.soilColor; split_ifs <;> simp

@[simp] theorem Stamp.isRed_markColor (o : Stamp) (c : Color) :
    (o.markColor c).isRed = c.isRed := by unfold Stamp.markColor; split_ifs <;> simp

@[simp] theorem Stamp.isRed_soilColor (o : Stamp) (c : Color) :
    (o.soilColor c).isRed = c.isRed := by unfold Stamp.soilColor; split_ifs <;> simp

@[simp] theorem Stamp.isDirty_markColor (o : Stamp) (c : Color) :
    (o.markColor c).isDirty = c.isDirty := by unfold Stamp.markColor; split_ifs <;> simp

@[simp] theorem Stamp.getColor_markColor (o : Stamp) (c : Color) :
    (o.markColor c).getColor = c.getColor := by
  rw [Color.getColor_eq_ite, isRed_markColor, ← Color.getColor_eq_ite]

namespace Entry

variable (o : Stamp) (e : Entry)

@[simp] theorem mark_slot : (e.mark o).slot = e.slot := rfl
@[simp] theorem relink_slot : (e.relink o).slot = e.slot := rfl
@[simp] theorem touch_slot : (e.touch o).slot = e.slot := rfl
@[simp] theorem soil_slot : (e.soil o).slot = e.slot := rfl
@[simp] theorem mark_mark : (e.mark o).mark o = e.mark o := by simp [mark, recolor]
@[simp] theorem relink_relink : (e.relink o).relink o = e.relink o := rfl
theorem relink_mark : (e.mark o).relink o = e.touch o := rfl
theorem mark_relink : (e.relink o).mark o = e.touch o := rfl
@[simp] theorem relink_touch : (e.touch o).relink o = e.touch o := rfl
@[simp] theorem mark_touch : (e.touch o).mark o = e.touch o := by
  simp [touch, mark, relink, recolor]
@[simp] theorem touch_mark : (e.mark o).touch o = e.touch o := by
  simp [touch, mark, relink, recolor]
@[simp] theorem touch_touch : (e.touch o).touch o = e.touch o := by
  simp [touch, mark, relink, recolor]
@[simp] theorem soil_soil : (e.soil o).soil o = e.soil o := by simp [soil, recolor]
@[simp] theorem isRed_mark : (e.mark o).isRed = e.isRed := by simp [mark, isRed]
@[simp] theorem isRed_relink : (e.relink o).isRed = e.isRed := rfl
@[simp] theorem isRed_touch : (e.touch o).isRed = e.isRed := by simp [touch]
@[simp] theorem isRed_soil : (e.soil o).isRed = e.isRed := by simp [soil, isRed]
@[simp] theorem isDirty_mark : (e.mark o).isDirty = e.isDirty := by simp [mark, isDirty]
@[simp] theorem isDirty_relink : (e.relink o).isDirty = e.isDirty := rfl
@[simp] theorem isDirty_touch : (e.touch o).isDirty = e.isDirty := by simp [touch]

variable {o}

theorem isDirty_soil (ho : Options.useDirty o.options = true) : (e.soil o).isDirty = true := by
  simp [soil, isDirty, Stamp.soilColor, ho]

/-- Without dirty flags nothing is soiled. -/
theorem soil_eq_id (ho : Options.useDirty o.options = false) : Entry.soil o = id := by
  funext e
  simp [soil, recolor, Stamp.soilColor, ho]

end Entry

@[simp] theorem Entry.color_isRed (e : Entry) : e.color.isRed = e.isRed := rfl
@[simp] theorem Entry.color_isDirty (e : Entry) : e.color.isDirty = e.isDirty := rfl

/-! ### What an entry stores -/

/-- The part of a node that its users see. -/
structure Item where
  slot : ℕ
  payload : VoidPtr
  extra : List UInt8
  deriving DecidableEq, Repr

namespace Entry

def item (e : Entry) : Item := ⟨e.slot, e.payload, e.extra⟩

@[simp] theorem item_recolor (f : Color → Color) (e : Entry) : (e.recolor f).item = e.item := rfl
variable (o : Stamp) (e : Entry)

@[simp] theorem item_mark : (e.mark o).item = e.item := rfl
@[simp] theorem item_relink : (e.relink o).item = e.item := rfl
@[simp] theorem item_touch : (e.touch o).item = e.item := rfl
@[simp] theorem item_soil : (e.soil o).item = e.item := rfl

end Entry

/-- What a tree stores, in order. -/
def items (T : ETree) : List Item := (T.map Entry.item).inorder

theorem items_eq (T : ETree) : items T = T.inorder.map Entry.item := inorder_map _ T

@[simp] theorem items_nil : items nil = [] := rfl
@[simp] theorem items_node (e : Entry) (l r : ETree) :
    items (node e l r) = items l ++ e.item :: items r := rfl

theorem items_plug (c : Path Entry) (t : ETree) : items (plug c t) =
    (before c).map Entry.item ++ (items t ++ (after c).map Entry.item) := by
  simp only [items_eq, inorder_plug, List.map_append]

/-- The slots of a tree, in order. -/
def slots (T : ETree) : List ℕ := T.inorder.map Entry.slot

@[simp] theorem slots_nil : slots nil = [] := rfl
@[simp] theorem slots_node (e : Entry) (l r : ETree) :
    slots (node e l r) = slots l ++ e.slot :: slots r := by simp [slots]

theorem slots_eq (T : ETree) : slots T = (items T).map Item.slot := by
  rw [slots, items_eq, List.map_map]
  rfl

theorem mem_slots_join {d : Side} {e : Entry} {x y : ETree} {i : ℕ} :
    i ∈ slots (join d e x y) ↔ i = e.slot ∨ i ∈ slots x ∨ i ∈ slots y := by
  cases d <;> simp [join] <;> tauto

theorem items_plug_congr {c c' : Path Entry} {t t' : ETree}
    (hc : List.map (Frame.map Entry.item) c' = List.map (Frame.map Entry.item) c)
    (ht : items t' = items t) : items (plug c' t') = items (plug c t) := by
  unfold items at *
  rw [map_plug, map_plug, hc, inorder_plug, inorder_plug, ht]

theorem items_join_congr {d : Side} {e e' : Entry} {x x' y y' : ETree} (he : e'.item = e.item)
    (hx : items x' = items x) (hy : items y' = items y) :
    items (join d e' x' y') = items (join d e x y) := by
  unfold items at *
  cases d <;> simp [join, map, he, hx, hy]

@[simp] theorem items_mapRoot {g : Entry → Entry} (hg : ∀ e, (g e).item = e.item) (t : ETree) :
    items (t.mapRoot g) = items t := by
  unfold items
  rw [map_mapRoot hg]

/-- Paint the root. -/
def blacken (t : ETree) : ETree := t.mapRoot (Entry.recolor Color.setBlack)

@[simp] theorem items_blacken (t : ETree) : items (blacken t) = items t :=
  items_mapRoot (Entry.item_recolor Color.setBlack) t

@[simp] theorem blacken_blacken (t : ETree) : blacken (blacken t) = blacken t := by
  cases t <;> simp [blacken, Entry.recolor]

variable {x : ETree} {n : ℕ}

theorem rootHas_isRed_blacken (t : ETree) : rootHas Entry.isRed (blacken t) = false := by
  cases t <;> simp [blacken]

/-- Painting a red root black adds a black node to every path. -/
theorem balanced_blacken_of_red (h : Balanced Entry.isRed x n)
    (hr : rootHas Entry.isRed x = true) : Balanced Entry.isRed (blacken x) (n + 1) := by
  obtain ⟨e, a, b, rfl⟩ := exists_join .left (ne_nil_of_rootHas hr)
  rw [rootHas_join] at hr
  obtain ⟨-, -, ha, hb⟩ := (balanced_red hr).1 h
  rw [blacken, mapRoot_join]
  exact (balanced_black (by simp)).2 ⟨n, rfl, ha, hb⟩

/-- Only the shape and the colours matter. -/
theorem isRedBlack_congr {T T' : ETree} (h : IsRedBlack Entry.isRed T)
    (e : T'.map Entry.isRed = T.map Entry.isRed) : IsRedBlack Entry.isRed T' := by
  have hid : ∀ u : ETree, IsRedBlack id (u.map Entry.isRed) ↔ IsRedBlack Entry.isRed u :=
    fun u => isRedBlack_map fun _ _ => rfl
  rw [← hid] at h ⊢
  rwa [e]

theorem balanced_congr {t t' : ETree} (h : Balanced Entry.isRed t n)
    (e : t'.map Entry.isRed = t.map Entry.isRed) : Balanced Entry.isRed t' n := by
  have hid : ∀ u : ETree, Balanced id (u.map Entry.isRed) n ↔ Balanced Entry.isRed u n :=
    fun u => balanced_map fun _ _ => rfl
  rw [← hid] at h ⊢
  rwa [e]

theorem hole_congr {c c' : Path Entry} (h : Hole Entry.isRed c n)
    (e : List.map (Frame.map Entry.isRed) c' = List.map (Frame.map Entry.isRed) c) :
    Hole Entry.isRed c' n := by
  have hid : ∀ a, id (Entry.isRed a) = a.isRed := fun _ => rfl
  rw [← hole_map hid, ← e, hole_map hid] at h
  exact h

theorem isRedBlack_blacken {T : ETree} (h : IsRedBlack Entry.isRed T) :
    IsRedBlack Entry.isRed (blacken T) := by
  obtain ⟨-, n, hn⟩ := h
  exact hn.blacken fun e => by simp

theorem mapLabels_soil_soil (o : Stamp) (c : Path Entry) :
    Path.mapLabels (Entry.soil o) (Path.mapLabels (Entry.soil o) c) =
      Path.mapLabels (Entry.soil o) c := by
  rw [Path.mapLabels_mapLabels]
  congr 1
  funext e
  simp

/-! ### Rotation of trees -/

/-- The tree after a rotation. -/
def turn (o : Stamp) (d : Side) (p : Entry) (a : ETree) (t : Entry) (b e : ETree) : ETree :=
  join d ((t.touch o).soil o) (join d ((p.touch o).soil o) a (b.mapRoot (Entry.touch o))) e

/-- The path above a rotation. -/
def turnPath (o : Stamp) (c : Path Entry) : Path Entry :=
  Path.mapLabels (Entry.soil o) (Path.mapHead (Entry.touch o) c)

theorem items_turn (o : Stamp) (d : Side) (p : Entry) (a : ETree) (t : Entry) (b e : ETree) :
    items (turn o d p a t b e) = items (join d p a (join d t b e)) := by
  have h := inorder_rotate d p.item t.item (a.map Entry.item) (b.map Entry.item)
    (e.map Entry.item)
  rw [join_other] at h
  simpa [items, turn, map_mapRoot (Entry.item_touch o)] using h

theorem map_item_turnPath (o : Stamp) (c : Path Entry) :
    List.map (Frame.map Entry.item) (turnPath o c) = List.map (Frame.map Entry.item) c := by
  rw [turnPath, map_mapLabels (Entry.item_soil o), map_mapHead (Entry.item_touch o)]

theorem takesRed_turnPath (o : Stamp) (c : Path Entry) :
    takesRed Entry.isRed (turnPath o c) = takesRed Entry.isRed c := by
  rw [turnPath, takesRed_mapLabels (Entry.isRed_soil o), takesRed_mapHead (Entry.isRed_touch o)]

theorem hole_turnPath {o : Stamp} {c : Path Entry} {n : ℕ} :
    Hole Entry.isRed (turnPath o c) n ↔ Hole Entry.isRed c n := by
  rw [turnPath, hole_mapLabels (Entry.isRed_soil o), hole_mapHead (Entry.isRed_touch o)]

end MulleRbtree
