import MulleRbtree.Tree.Attach
import MulleRbtree.Tree.Remove

/-!
# Values, new nodes and dirty walks

* `Item.value`: what `_mulle__rbtree_get_node_value` returns for a node, in either mode;
* `Entry.fresh`: a node as `_mulle__rbtree_new_node` makes it;
* `wash`, `washEvents`: what `_mulle__rbtree_walk_dirty` leaves behind, and its calls of the
  callback, children before parents;
* `wash_clean`: where every ancestor of a dirty node is dirty, no dirty node escapes the walk;
* `unstore`: a node is marked dirty and removed.
-/

namespace MulleRbtree

open BinaryTree

variable {options : BitVec 32} {o : Stamp} {c : Path Entry} {t T l r : ETree} {e : Entry} {i : ℕ}

/-! ### Values -/

/-- The value of a node: in extra mode the address of its value area. -/
def Item.value (options : BitVec 32) (a : Item) : VoidPtr :=
  if Options.useExtra options then ⟨.area a.slot, a.extra⟩ else a.payload

def Entry.value (options : BitVec 32) (e : Entry) : VoidPtr := e.item.value options

/-- The value of a node or of the sentinel. -/
def valueOf (options : BitVec 32) : Option Entry → VoidPtr
  | none => null
  | some e => e.value options

/-- The values of a tree, in order. -/
def values (options : BitVec 32) (T : ETree) : List VoidPtr := (items T).map (Item.value options)

theorem values_eq (options : BitVec 32) (T : ETree) :
    values options T = T.inorder.map (Entry.value options) := by
  rw [values, items_eq, List.map_map]
  rfl

/-! ### New nodes -/

/-- The colour word of a new node. -/
def freshColor (options : BitVec 32) : Color :=
  if Options.useDirty options then Color.red.setDirty else Color.red

/-- A new node in slot `i` of a pool whose value areas have `size` bytes. -/
def Entry.fresh (options : BitVec 32) (size i : ℕ) (value : VoidPtr) : Entry where
  slot := i
  color := freshColor options
  payload := if Options.useExtra options then null else value
  extra := if Options.useExtra options then memcpy size value.bytes else []
  relinked := 0

/-- The value of a new node, as it is stored. -/
def stored (options : BitVec 32) (size i : ℕ) (value : VoidPtr) : VoidPtr :=
  if Options.useExtra options then ⟨.area i, memcpy size value.bytes⟩ else value

theorem value_fresh (size : ℕ) (value : VoidPtr) :
    (Entry.fresh options size i value).value options = stored options size i value := by
  unfold Entry.value Item.value Entry.fresh stored Entry.item
  split_ifs <;> rfl

@[simp] theorem fresh_slot (size : ℕ) (value : VoidPtr) :
    (Entry.fresh options size i value).slot = i := rfl

@[simp] theorem isMarked_freshColor : (freshColor options).isMarked = false := by
  unfold freshColor
  split_ifs <;> simp

theorem isRed_freshColor : (freshColor options).isRed = true := by
  unfold freshColor
  split_ifs <;> simp

theorem proper_of_freshColor (h : e.color = freshColor options) : e.Proper options := by
  intro ho
  rw [Entry.isDirty, h, freshColor, if_neg (by simp [ho])]
  rfl

/-! ### The dirty walk -/

namespace Entry

/-- After the callback. -/
def clean (e : Entry) : Entry := e.recolor Color.clearDirty

@[simp] theorem clean_slot : e.clean.slot = e.slot := rfl
@[simp] theorem item_clean : e.clean.item = e.item := rfl
@[simp] theorem value_clean : e.clean.value options = e.value options := rfl
@[simp] theorem isDirty_clean : e.clean.isDirty = false := by simp [clean]
@[simp] theorem isRed_clean : e.clean.isRed = e.isRed := by simp [clean]

end Entry

/-- `__mulle__rbtree_walk_dirty` goes down from dirty nodes only. -/
def wash : ETree → ETree
  | nil => nil
  | node e l r => if e.isDirty then node e.clean (wash l) (wash r) else node e l r

/-- The calls of the callback. -/
def washEvents (options : BitVec 32) : ETree → List Event
  | nil => []
  | node e l r =>
    if e.isDirty then
      washEvents options l ++ washEvents options r ++
        [.dirty (e.value options) (valueOf options l.label?) (valueOf options r.label?)]
    else []

/-- Nothing but dirty flags changes. -/
theorem map_wash {β : Type} {k : Entry → β} (hk : ∀ e, k e.clean = k e) (T : ETree) :
    (wash T).map k = T.map k := by
  induction T with
  | nil => rfl
  | node e l r ihl ihr =>
    unfold wash
    split_ifs
    · rw [map, map, hk, ihl, ihr]
    · rfl

theorem label?_wash (T : ETree) {β : Type} {k : Entry → β} (hk : ∀ e, k e.clean = k e) :
    (wash T).label?.map k = T.label?.map k := by
  rw [← label?_map, map_wash hk, label?_map]

theorem items_wash (T : ETree) : items (wash T) = items T := by
  rw [items, map_wash (fun e => e.item_clean), items]

@[simp] theorem values_wash (T : ETree) : values options (wash T) = values options T := by
  rw [values, items_wash, values]

theorem wash_isRedBlack (h : IsRedBlack Entry.isRed T) : IsRedBlack Entry.isRed (wash T) :=
  isRedBlack_congr h (map_wash (fun e => e.isRed_clean) T)

/-- No node is dirty. -/
abbrev Clean (T : ETree) : Prop := Everywhere (fun e => e.isDirty = false) T

/-- Below a clean node no node is dirty. -/
theorem clean_of_root (h : Locally Up T) (hT : rootHas Entry.isDirty T = false) : Clean T := by
  induction T with
  | nil => exact everywhere_nil
  | node e l r ihl ihr =>
    obtain ⟨hup, hl, hr⟩ := h
    have hroot : ∀ u : ETree, (∀ b ∈ u.label?, b.isDirty = false) →
        rootHas Entry.isDirty u = false := by
      intro u hu
      cases u with
      | nil => rfl
      | node b x y => exact hu b rfl
    obtain hdirty | ⟨hul, hur⟩ := hup
    · rw [rootHas_node, hdirty] at hT
      cases hT
    · exact everywhere_node.2 ⟨hT, ihl hl (hroot l hul), ihr hr (hroot r hur)⟩

/-- The walk reaches every dirty node. -/
theorem wash_clean (h : Locally Up T) : Clean (wash T) := by
  induction T with
  | nil => exact everywhere_nil
  | node e l r ihl ihr =>
    unfold wash
    split_ifs with he
    · exact everywhere_node.2 ⟨e.isDirty_clean, ihl h.2.1, ihr h.2.2⟩
    · exact clean_of_root h (by simpa using he)

theorem Entry.clean_eq_self (h : e.isDirty = false) : e.clean = e := by
  have hcolor : e.color.clearDirty = e.color := Color.clearDirty_eq_self h
  rw [Entry.clean, Entry.recolor, hcolor]

/-- The walk cleans every node. -/
theorem wash_eq_map (h : Locally Up T) : wash T = T.map Entry.clean := by
  induction T with
  | nil => rfl
  | node e l r ihl ihr =>
    unfold wash
    split_ifs with he
    · rw [ihl h.2.1, ihr h.2.2, map]
    · have hclean : Clean (node e l r) := clean_of_root h (by simpa using he)
      have hid : ∀ u : ETree, Clean u → u.map Entry.clean = u := by
        intro u hu
        induction u with
        | nil => rfl
        | node b x y ihx ihy =>
          obtain ⟨hb, hx, hy⟩ := everywhere_node.1 hu
          rw [map, Entry.clean_eq_self hb, ihx hx, ihy hy]
      exact (hid _ hclean).symm

/-- Without dirty nodes there is nothing to do. -/
theorem wash_of_clean (h : Clean T) : wash T = T ∧ washEvents options T = [] := by
  cases T with
  | nil => exact ⟨rfl, rfl⟩
  | node e l r =>
    have he := (everywhere_node.1 h).1
    rw [wash, washEvents, he]
    exact ⟨rfl, rfl⟩

/-- A tree without dirty nodes keeps whatever dirty nodes are exempt from. -/
theorem dirt_of_clean (h : Clean T) : Dirt options T :=
  ⟨fun _ => locally_up_of_clean h, h.mono fun _ he _ => he⟩

/-- Marking the way to a node keeps what is kept. -/
theorem Kept.soilTo {R : Entry → Option Entry → Option Entry → Prop} (hR : Tolerant R)
    (h : Kept R o.options t) : Kept R o.options (soilTo o i t) := by
  induction t with
  | nil => exact kept_nil
  | node e l r ihl ihr =>
    obtain ⟨he, hl, hr⟩ := Kept.of_join (d := .left) h
    unfold MulleRbtree.soilTo
    split_ifs
    · exact kept_join_soil (d := .left) hR he (ihl hl) (ihr hr)
    · exact h

/-! ### Marked and removed -/

/-- The tree after a node is marked dirty and removed. -/
def unstore (o : Stamp) (c : Path Entry) (a : Entry) (l r : ETree) : ETree :=
  removeAt o.next (Path.mapLabels (Entry.soil o) c) (a.soil o) l r

section Unstore

variable {a : Entry}

theorem isRedBlack_soiled (h : IsRedBlack Entry.isRed (plug c (node a l r))) :
    IsRedBlack Entry.isRed (plug (Path.mapLabels (Entry.soil o) c) (node (a.soil o) l r)) := by
  refine isRedBlack_congr h ?_
  rw [map_plug, map_plug, map_mapLabels (Entry.isRed_soil o), map, map, Entry.isRed_soil]

theorem kept_soiled {R : Entry → Option Entry → Option Entry → Prop} (hR : Tolerant R)
    (h : Kept R o.options (plug c (node a l r))) :
    Kept R o.options (plug (Path.mapLabels (Entry.soil o) c) (node (a.soil o) l r)) := by
  obtain ⟨hx, hc⟩ := h.of_plug
  obtain ⟨ha, hl, hr⟩ := Kept.of_join (d := .left) hx
  exact kept_plug_soil hR hc (kept_join_soil (d := .left) hR ha hl hr)

theorem unstore_isRedBlack (h : IsRedBlack Entry.isRed (plug c (node a l r))) :
    IsRedBlack Entry.isRed (unstore o c a l r) := removeAt_isRedBlack (isRedBlack_soiled h)

theorem kept_unstore {R : Entry → Option Entry → Option Entry → Prop} (hR : Tolerant R)
    (h : Kept R o.options (plug c (node a l r))) : Kept R o.options (unstore o c a l r) :=
  kept_removeAt (o := o.next) hR (kept_soiled hR h)

theorem items_unstore : items (unstore o c a l r) =
    (before c).map Entry.item ++ (items l ++ items r ++ (after c).map Entry.item) := by
  rw [unstore, items_removeAt]
  simp only [← before_map, ← after_map, map_mapLabels (Entry.item_soil o)]

/-- The same, cut at the place. -/
theorem items_unstore_split (o : Stamp) (c : Path Entry) (a : Entry) (l r : ETree) :
    ∃ u v, items (plug c (node a l r)) = u ++ a.item :: v ∧ items (unstore o c a l r) = u ++ v := by
  refine ⟨(before c).map Entry.item ++ items l, items r ++ (after c).map Entry.item, ?_, ?_⟩
  · rw [items_plug, items_node]
    simp
  · rw [items_unstore]
    simp

end Unstore

end MulleRbtree
