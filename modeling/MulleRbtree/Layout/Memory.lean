import MulleRbtree.Library.Cells
import MulleRbtree.Tree.Entry

/-!
# The cells a tree is laid out in

* `below par t` is the multiset of the cells of `t` when the parent of its root is `par`;
* `above c ref` are the cells of the nodes around the place `c` whose subtree begins at `ref`;
* `below_plug` puts the two together.
-/

namespace MulleRbtree

open BinaryTree

/-! ### Sides of a node -/

def Rbnode.child (d : Side) (node : Rbnode) : Ref :=
  match d with
  | .left => node.left
  | .right => node.right

def Rbnode.setChild (d : Side) (v : Ref) (epoch : ℕ) (node : Rbnode) : Rbnode :=
  match d with
  | .left => { node with left := v, relinked := epoch }
  | .right => { node with right := v, relinked := epoch }

namespace Entry

/-- The node with the given links. -/
def cell (par near far : Ref) (d : Side) (e : Entry) : Rbnode :=
  match d with
  | .left => ⟨par, near, far, e.color, e.payload, e.extra, e.relinked⟩
  | .right => ⟨par, far, near, e.color, e.payload, e.extra, e.relinked⟩

variable {par near far v : Ref} {d : Side} {e : Entry}

@[simp] theorem cell_parent : (e.cell par near far d).parent = par := by cases d <;> rfl
@[simp] theorem cell_color : (e.cell par near far d).color = e.color := by cases d <;> rfl
@[simp] theorem cell_payload : (e.cell par near far d).payload = e.payload := by cases d <;> rfl
@[simp] theorem cell_extra : (e.cell par near far d).extra = e.extra := by cases d <;> rfl
@[simp] theorem cell_relinked : (e.cell par near far d).relinked = e.relinked := by
  cases d <;> rfl
@[simp] theorem cell_child : (e.cell par near far d).child d = near := by cases d <;> rfl
@[simp] theorem cell_child_other : (e.cell par near far d).child d.other = far := by
  cases d <;> rfl

theorem cell_setChild {epoch : ℕ} : (e.cell par near far d).setChild d v epoch =
    { e with relinked := epoch }.cell par v far d := by cases d <;> rfl

theorem cell_setChild_other {epoch : ℕ} : (e.cell par near far d).setChild d.other v epoch =
    { e with relinked := epoch }.cell par near v d := by cases d <;> rfl

theorem cell_setParent {epoch : ℕ} :
    { e.cell par near far d with parent := v, relinked := epoch } =
      { e with relinked := epoch }.cell v near far d := by cases d <;> rfl

theorem cell_recolor {f : Color → Color} :
    { e.cell par near far d with color := f e.color } = (e.recolor f).cell par near far d := by
  cases d <;> rfl

end Entry

/-! ### The cells of a tree -/

/-- A cell of the memory. -/
abbrev Cell := Ref × Rbnode

/-- The pointer to the root of a tree. -/
def treeRef : ETree → Ref
  | nil => .nil
  | node e _ _ => .slot e.slot

@[simp] theorem treeRef_nil : treeRef nil = .nil := rfl
@[simp] theorem treeRef_node (e : Entry) (l r : ETree) : treeRef (node e l r) = .slot e.slot := rfl
@[simp] theorem treeRef_join (d : Side) (e : Entry) (x y : ETree) :
    treeRef (join d e x y) = .slot e.slot := by cases d <;> rfl
@[simp] theorem treeRef_fill (f : Frame Entry) (t : ETree) :
    treeRef (f.fill t) = .slot f.label.slot := treeRef_join f.side f.label t f.sibling
theorem treeRef_eq_nil {t : ETree} : treeRef t = .nil ↔ t = nil := by cases t <;> simp

theorem treeRef_mapRoot {f : Entry → Entry} (hf : ∀ e, (f e).slot = e.slot) (t : ETree) :
    treeRef (t.mapRoot f) = treeRef t := by cases t <;> simp [hf]

/-- The cells of a subtree whose root has the parent `par`. -/
def below (par : Ref) : ETree → Multiset Cell
  | nil => 0
  | node e l r => {(.slot e.slot, e.cell par (treeRef l) (treeRef r) .left)} +
      (below (.slot e.slot) l + below (.slot e.slot) r)

@[simp] theorem below_nil (par : Ref) : below par nil = 0 := rfl

theorem below_join (par : Ref) (d : Side) (e : Entry) (x y : ETree) :
    below par (join d e x y) = {(.slot e.slot, e.cell par (treeRef x) (treeRef y) d)} +
      (below (.slot e.slot) x + below (.slot e.slot) y) := by
  cases d with
  | left => rfl
  | right =>
    change {_} + (below _ y + below _ x) = _
    rw [add_comm (below _ y)]
    rfl

/-- The pointer to the nearest ancestor. -/
def parentRef : Path Entry → Ref
  | [] => .nil
  | f :: _ => .slot f.label.slot

@[simp] theorem parentRef_nil : parentRef [] = .nil := rfl
@[simp] theorem parentRef_cons (f : Frame Entry) (c : Path Entry) :
    parentRef (f :: c) = .slot f.label.slot := rfl

/-- The pointer to the root when the place at the end of the path begins at `ref`. -/
def topRef : Path Entry → Ref → Ref
  | [], ref => ref
  | f :: c, _ => topRef c (.slot f.label.slot)

@[simp] theorem topRef_nil (ref : Ref) : topRef [] ref = ref := rfl
@[simp] theorem topRef_cons (f : Frame Entry) (c : Path Entry) (ref : Ref) :
    topRef (f :: c) ref = topRef c (.slot f.label.slot) := rfl

/-- The cells around a place whose subtree begins at `ref`. -/
def above : Path Entry → Ref → Multiset Cell
  | [], _ => 0
  | f :: c, ref =>
      {(.slot f.label.slot, f.label.cell (parentRef c) ref (treeRef f.sibling) f.side)} +
        (below (.slot f.label.slot) f.sibling + above c (.slot f.label.slot))

@[simp] theorem above_nil (ref : Ref) : above [] ref = 0 := rfl
theorem above_cons (f : Frame Entry) (c : Path Entry) (ref : Ref) :
    above (f :: c) ref =
      {(.slot f.label.slot, f.label.cell (parentRef c) ref (treeRef f.sibling) f.side)} +
        (below (.slot f.label.slot) f.sibling + above c (.slot f.label.slot)) := rfl

theorem treeRef_plug (c : Path Entry) (t : ETree) : treeRef (plug c t) = topRef c (treeRef t) := by
  induction c generalizing t with
  | nil => rfl
  | cons f c ih => rw [plug_cons, ih, Frame.fill, treeRef_join, topRef_cons]

/-- The cells of a tree are those around a place and those of the subtree there. -/
theorem below_plug (c : Path Entry) (t : ETree) :
    below .nil (plug c t) = above c (treeRef t) + below (parentRef c) t := by
  induction c generalizing t with
  | nil => simp
  | cons f c ih =>
    rw [plug_cons, ih, Frame.fill, treeRef_join, below_join, above_cons, parentRef_cons]
    abel

theorem map_fst_below (par : Ref) (t : ETree) :
    (below par t).map Prod.fst = ((slots t).map Ref.slot : Multiset Ref) := by
  induction t generalizing par with
  | nil => rfl
  | node e l r ihl ihr =>
    change ({_} + (below _ l + below _ r)).map Prod.fst = _
    rw [Multiset.map_add, Multiset.map_add, ihl, ihr, Multiset.map_singleton, slots_node]
    simp only [List.map_append, List.map_cons, ← Multiset.coe_add, ← Multiset.cons_coe,
      ← Multiset.singleton_add]
    abel

theorem exists_mem_below (par : Ref) {t : ETree} {i : ℕ} (hi : i ∈ slots t) :
    ∃ c, (Ref.slot i, c) ∈ below par t := by
  have hi' : Ref.slot i ∈ (below par t).map Prod.fst := by
    rw [map_fst_below]
    exact Multiset.mem_coe.2 (List.mem_map_of_mem hi)
  obtain ⟨⟨_, c⟩, hc, rfl⟩ := Multiset.mem_map.1 hi'
  exact ⟨c, hc⟩

end MulleRbtree
