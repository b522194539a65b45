import MulleRbtree.Source.Insert

/-!
# `mulle--rbtree.c`: `_mulle__rbtree_remove_node`

The function is cut at its comments: `y` is the node that is unlinked from its place and `x` what
replaces it there; when `y` is not the node to remove, it takes that node's place.
-/

namespace MulleRbtree
namespace Base

variable {σ : Type} [MulleStorage σ]

/-- "Connect `x` directly to `y`'s parent, effectively cutting `y` out of the tree." -/
def cutOut (y x : Ref) : M σ Unit := do
  putParent x (← getParent y)
  setNodeMarked (← getParent x)
  (if (← getParent y) = .nil then
      setRoot x
    else do
      (if y = (← getLeft (← getParent y)) then do putLeft (← getParent y) x
        else do putRight (← getParent y) x : M σ Unit) : M σ Unit)
  setNodeMarked (← getParent y)

/-- "swap `y` into the original node's position in the tree" -/
def takePlace (a_node y x orig_left orig_right : Ref) : M σ Unit := do
  putParent y (← getParent a_node)
  putLeft y orig_left
  (if y ≠ orig_right then
      putRight y orig_right
    else do
      -- `y` keeps its own right subtree
      putParent x y
      setNodeMarked (← getParent x) : M σ Unit)
  setNodeColor y (← getColor a_node)
  (if (← getParent y) ≠ .nil then do
      (if (← getLeft (← getParent y)) = a_node then do putLeft (← getParent y) y
        else do putRight (← getParent y) y : M σ Unit)
      setNodeMarked (← getParent y)
    else
      setRoot y : M σ Unit)
  -- harmless even if they're empty nodes
  putParent (← getRight y) y
  putParent (← getLeft y) y
  setNodeMarked (← getRight y)
  setNodeMarked (← getLeft y)

/-- "If the tree uses dirty flags for tracking changes, mark the affected parts as needing
update." -/
def markRemoved (a_node y x y_original_parent : Ref) : M σ Unit := do
  (if (← getParent a_node) ≠ .nil then do
      markNodeAsDirty (← getParent a_node)
    else return () : M σ Unit)
  when (y ≠ a_node ∧ y ≠ .nil) (markNodeAsDirty y)
  when (y ≠ a_node ∧ x = .nil ∧ y_original_parent ≠ .nil) (markNodeAsDirty y_original_parent)
  when (x ≠ .nil) (markNodeAsDirty x)

/-- `_mulle__rbtree_remove_node` up to the point where `a_node` is out of the tree: what took its
place at the bottom, whether a black node went missing there, and the former children. -/
def unlinkNode (a_node : Ref) : M σ (Ref × Bool × Ref × Ref) := do
  assert (a_node ≠ .nil)
  setNodeMarked a_node
  let orig_left ← getLeft a_node
  let orig_right ← getRight a_node
  setNodeMarked orig_left
  setNodeMarked orig_right
  let (y, y_original_parent) ←
    (if ← (do if (← getLeft a_node) = .nil then return true
              else return (← getRight a_node) = .nil : M σ Bool) then
      return (a_node, .nil)
    else do
      let y ← nextNode a_node
      setNodeMarked y
      return (y, ← getParent y) : M σ (Ref × Ref))
  let x ← (if (← getLeft y) ≠ .nil then do getLeft y else do getRight y : M σ Ref)
  setNodeMarked x
  cutOut y x
  let fixup ← isBlack y
  when (y ≠ a_node) (takePlace a_node y x orig_left orig_right)
  when (Options.useDirty (← getOptions)) (markRemoved a_node y x y_original_parent)
  return (x, fixup, orig_left, orig_right)

/-- `_mulle__rbtree_remove_node` -/
def removeNode (a_node : Ref) : M σ Unit := do
  write fun s => { s with epoch := s.epoch + 1 }
  let (x, fixup, orig_left, orig_right) ← unlinkNode a_node
  freeNode a_node
  when fixup (blackBlackFixup x)
  assertDirtyFlagPropagation x
  assertDirtyFlagPropagation orig_left
  assertDirtyFlagPropagation orig_right

end Base
end MulleRbtree
