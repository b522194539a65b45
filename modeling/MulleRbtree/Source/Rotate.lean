import MulleRbtree.Source.Base

/-!
# `mulle--rbtree.c`: links, flags and rotations

The setters that keep the colour word consistent, the helpers that write links, the dirty marks
that are propagated to the root with the assertions about them, and the two rotations.
-/

namespace MulleRbtree
namespace Base

variable {σ : Type}

/-! ### Flags of a node -/

def isDirty (n : Ref) : M σ Bool := do return (← deref n).color.isDirty
def isRed (n : Ref) : M σ Bool := do return (← deref n).color.isRed
def isBlack (n : Ref) : M σ Bool := do return (← deref n).color.isBlack
def getColor (n : Ref) : M σ Color := do return (← deref n).color.getColor

def setDirty (n : Ref) : M σ Unit := recolor n Color.setDirty
def clearDirty (n : Ref) : M σ Unit := recolor n Color.clearDirty
def clearMarker (n : Ref) : M σ Unit := recolor n Color.clearMarker
def setRed (n : Ref) : M σ Unit := recolor n Color.setRed
def setBlack (n : Ref) : M σ Unit := recolor n Color.setBlack

/-- `_mulle_rbnode_set_color` -/
def setColor (n : Ref) (color : Color) : M σ Unit := do
  assert (color = Color.red ∨ color = Color.black)
  recolor n fun c => c.setColor color

/-- `_mulle__rbtree_set_node_color` -/
def setNodeColor (n : Ref) (color : Color) : M σ Unit := do
  assert (color = Color.red ∨ color = Color.black)
  assert (n ≠ .nil)
  setColor n color

/-- `_mulle__rbtree_set_node_red`: the sentinel cannot be set to red. -/
def setNodeRed (n : Ref) : M σ Unit := do
  assert (n ≠ .nil)
  setColor n Color.red

/-- `_mulle__rbtree_set_node_black` -/
def setNodeBlack (n : Ref) : M σ Unit := setColor n Color.black

/-- `_mulle__rbtree_set_node_marked` -/
def setNodeMarked (n : Ref) : M σ Unit := do
  when (Options.useMarker (← getOptions)) (when (n ≠ .nil) (recolor n Color.setMarker))

/-! ### Links -/

/-- `mulle_rb_node_set_left` -/
def nodeSetLeft (p o : Ref) : M σ Unit := do
  when (o ≠ .nil) (putParent o p)
  putLeft p o

/-- `mulle_rb_node_set_right` -/
def nodeSetRight (p o : Ref) : M σ Unit := do
  when (o ≠ .nil) (putParent o p)
  putRight p o

/-- `mulle_rb_node_reparent`: move `t` above `p`. -/
def nodeReparent (p t : Ref) : M σ Unit := do
  putParent t (← getParent p)
  setNodeMarked t
  if (← getParent p) = .nil then
    setRoot t
  else do
    (if p = (← getRight (← getParent p)) then do putRight (← getParent p) t
      else do putLeft (← getParent p) t : M σ Unit)
    setNodeMarked (← getParent p)

/-! ### Dirty marks -/

variable [MulleStorage σ]

/-- `_assert_dirty_flag_propagation`: every proper ancestor is dirty. -/
def assertDirtyAncestors (node : Ref) : M σ Unit :=
  loop (fun node => do
    assert (node ≠ .nil)
    if node = (← getRoot) then return .inr ()
    else do
      let parent ← getParent node
      assert ((← isDirty parent) = true)
      return .inl parent) node

/-- `assert_dirty_flag_propagation` -/
def assertDirtyFlagPropagation (node : Ref) : M σ Unit := do
  when (← isDirty node) (assertDirtyAncestors node)

/-- `_mulle__rbtree_mark_node_as_dirty`: brute force to the top. -/
def markNodeAsDirty (node : Ref) : M σ Unit := do
  assert (Options.useDirty (← getOptions) = true)
  let _ ← whileLoop (fun node => return node ≠ .nil)
    (fun node => do
      setDirty node
      getParent node) node

/-! ### Rotations -/

/-- `_mulle__rbtree_left_rotate_node` -/
def leftRotateNode (p : Ref) : M σ Unit := do
  write fun s => { s with rotations := s.rotations + 1 }
  setNodeMarked p
  let t ← getRight p
  setNodeMarked t
  assert (p ≠ .nil)
  assert (t ≠ .nil)
  -- `t`'s left subtree moves into `p`'s right subtree
  nodeSetRight p (← getLeft t)
  setNodeMarked (← getLeft t)
  nodeReparent p t
  putLeft t p
  putParent p t
  setNodeMarked (← getParent p)
  when (Options.useDirty (← getOptions)) do
    markNodeAsDirty p
    assertDirtyFlagPropagation p
    assertDirtyFlagPropagation t

/-- `_mulle__rbtree_right_rotate_node` -/
def rightRotateNode (p : Ref) : M σ Unit := do
  write fun s => { s with rotations := s.rotations + 1 }
  setNodeMarked p
  let t ← getLeft p
  setNodeMarked t
  assert (p ≠ .nil)
  assert (t ≠ .nil)
  -- `t`'s right subtree moves into `p`'s left subtree
  nodeSetLeft p (← getRight t)
  setNodeMarked (← getRight t)
  nodeReparent p t
  putRight t p
  putParent p t
  setNodeMarked (← getParent p)
  when (Options.useDirty (← getOptions)) do
    markNodeAsDirty p
    assertDirtyFlagPropagation p
    assertDirtyFlagPropagation t

end Base
end MulleRbtree
