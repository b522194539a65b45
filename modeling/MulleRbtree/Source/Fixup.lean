import MulleRbtree.Source.Rotate

/-!
# `mulle--rbtree.c`: the two fixups

Each is a loop whose body has two mirrored halves, one for a current node that is a left child (of
its parent, or of its grandparent for insertion) and one for a right child.
-/

namespace MulleRbtree
namespace Base

variable {σ : Type} [MulleStorage σ]

/-! ### `_mulle__rbtree_black_black_fixup` -/

/-- The half for a left child; the answer is the next `x`, and the sibling `w` for the
assertions. -/
def blackBlackLeft (x : Ref) : M σ (Ref × Ref) := do
  let w ← getRight (← getParent x)
  let w ← (if ← isRed w then do
      -- sibling red -> recolor + rotate parent left
      setBlack w
      setRed (← getParent x)
      leftRotateNode (← getParent x)
      getRight (← getParent x)
    else return w : M σ Ref)
  if ← andAlso (do isBlack (← getLeft w)) (do isBlack (← getRight w)) then do
    -- sibling and both children black -> recolor sibling, move up
    setRed w
    return (← getParent x, w)
  else do
    let w ← (if ← (do isBlack (← getRight w) : M σ Bool) then do
        -- sibling.right black, sibling.left red -> rotate sibling right
        setBlack (← getLeft w)
        setRed w
        rightRotateNode w
        getRight (← getParent x)
      else return w : M σ Ref)
    -- sibling.right is red -> copy parent color to sibling, fix and finish
    let parentColor ← getColor (← getParent x)
    setColor w parentColor
    setBlack (← getParent x)
    setBlack (← getRight w)
    leftRotateNode (← getParent x)
    return (← getRoot, w)

/-- The mirrored half, for a right child. -/
def blackBlackRight (x : Ref) : M σ (Ref × Ref) := do
  let w ← getLeft (← getParent x)
  let w ← (if ← isRed w then do
      -- sibling red -> recolor + rotate parent right
      setBlack w
      setRed (← getParent x)
      rightRotateNode (← getParent x)
      getLeft (← getParent x)
    else return w : M σ Ref)
  if ← andAlso (do isBlack (← getRight w)) (do isBlack (← getLeft w)) then do
    -- sibling and both children black -> recolor sibling, move up
    setRed w
    return (← getParent x, w)
  else do
    let w ← (if ← (do isBlack (← getLeft w) : M σ Bool) then do
        -- sibling.left black -> rotate sibling left
        setBlack (← getRight w)
        setRed w
        leftRotateNode w
        getLeft (← getParent x)
      else return w : M σ Ref)
    -- sibling.left is red -> copy parent color to sibling, fix and finish
    let parentColor ← getColor (← getParent x)
    setColor w parentColor
    setBlack (← getParent x)
    setBlack (← getLeft w)
    rightRotateNode (← getParent x)
    return (← getRoot, w)

/-- `_mulle__rbtree_black_black_fixup` -/
def blackBlackFixup (x : Ref) : M σ Unit := do
  let x ← whileLoop
    (fun x => andAlso (return x ≠ (← getRoot)) (isBlack x))
    (fun x => do
      let (x, w) ← (if x = (← getLeft (← getParent x)) then blackBlackLeft x
        else blackBlackRight x : M σ (Ref × Ref))
      assertDirtyFlagPropagation x
      assertDirtyFlagPropagation w
      return x) x
  setBlack x
  setNodeBlack (← getRoot)

/-- The same compiled with `NDEBUG`: `assert_dirty_flag_propagation` is empty. -/
def blackBlackFixupNdebug (x : Ref) : M σ Unit := do
  let x ← whileLoop
    (fun x => andAlso (return x ≠ (← getRoot)) (isBlack x))
    (fun x => do
      let (x, _) ← (if x = (← getLeft (← getParent x)) then blackBlackLeft x
        else blackBlackRight x : M σ (Ref × Ref))
      return x) x
  setBlack x
  setNodeBlack (← getRoot)

/-! ### `_mulle__rbtree_red_red_fixup` -/

/-- The half for a parent that is a left child; the answer is the next `x`. -/
def redRedLeft (x : Ref) : M σ Ref := do
  let y ← getRight (← getParent (← getParent x))
  if ← isRed y then do
    -- case 1: uncle is red, recolor
    setNodeBlack (← getParent x)
    setNodeRed (← getParent (← getParent x))
    setNodeBlack y
    getParent (← getParent x)
  else do
    -- case 2: uncle is black, node is right child, rotate left
    let x ← (if x = (← getRight (← getParent x)) then do
        let x ← getParent x
        leftRotateNode x
        return x
      else return x : M σ Ref)
    -- case 3: uncle is black, node is left child, rotate right
    setNodeBlack (← getParent x)
    setNodeRed (← getParent (← getParent x))
    let x ← getParent (← getParent x)
    rightRotateNode x
    return x

/-- The mirrored half, for a parent that is a right child. -/
def redRedRight (x : Ref) : M σ Ref := do
  let y ← getLeft (← getParent (← getParent x))
  if ← isRed y then do
    -- case 1: uncle is red, recolor
    setNodeBlack (← getParent x)
    setNodeRed (← getParent (← getParent x))
    setNodeBlack y
    getParent (← getParent x)
  else do
    -- case 2: uncle is black, node is left child, rotate right
    let x ← (if x = (← getLeft (← getParent x)) then do
        let x ← getParent x
        rightRotateNode x
        return x
      else return x : M σ Ref)
    -- case 3: uncle is black, node is right child, rotate left
    setNodeBlack (← getParent x)
    setNodeRed (← getParent (← getParent x))
    let x ← getParent (← getParent x)
    leftRotateNode x
    return x

/-- `_mulle__rbtree_red_red_fixup` -/
def redRedFixup (x : Ref) : M σ Unit := do
  let _ ← whileLoop
    (fun x => andAlso (return x ≠ (← getRoot)) (do isRed (← getParent x)))
    (fun x => do
      if (← getParent x) = (← getLeft (← getParent (← getParent x))) then redRedLeft x
      else redRedRight x) x
  setNodeBlack (← getRoot)

end Base
end MulleRbtree
