import MulleRbtree.Source.Remove
import MulleRbtree.Source.Walk

/-!
# `mulle-rbtree.h`, `mulle-rbtree.c`: the tree of values

`struct mulle_rbtree` is a low-level tree with a comparison and callbacks that are set once, by
`_mulle_rbtree_init_with_config`, and never again: they are a record of their own here.

* `Callbacks`: comparison, `retain`, and whether the library sees in `release` more than its no-op.
  `retain` may answer differently from call to call, so it is given the trace of earlier callbacks;
  the dirty callback and `release` return nothing, their calls are events of the trace;
* `Rbtree.add`, `Rbtree.remove`, `Rbtree.removeNode`, `Rbtree.find`,
  `Rbtree.findEqualOrGreater`, `Rbtree.isEmpty`, `Rbtree.walk`, `Rbtree.done` and the enumerators.
-/

namespace MulleRbtree

/-- The members `comparison` and `callback` of `struct mulle_rbtree`. -/
structure Callbacks where
  comparison : VoidPtr → VoidPtr → ℤ
  retain : List Event → VoidPtr → VoidPtr
  /-- what `_mulle_container_valuecallback_releases` answers -/
  releases : Bool

namespace Rbtree

open Base

variable {σ : Type} [MulleStorage σ] (cb : Callbacks)

/-- `(*a_tree->callback.retain)( …, value, allocator)` -/
def retain (value : VoidPtr) : M σ VoidPtr := do
  let kept ← read fun s => cb.retain s.trace value
  emit (.retain value kept)
  return kept

/-- `(*a_tree->callback.release)( …, value, allocator)` -/
def release (value : VoidPtr) : M σ Unit := emit (.release value)

/-- `_mulle_rbtree_add` -/
def add (value : VoidPtr) : M σ ℤ := do
  let value ← retain cb value
  let node ← newNode value
  let rval ← insertNode node cb.comparison
  when (rval ≠ 0) do
    release value
    freeNode node
  when (Options.useDirty (← getOptions)) walkDirty
  return rval

/-- `_mulle_rbtree_remove_node` -/
def removeNode (node : Ref) : M σ Unit := do
  assert (node ≠ .nil)
  let value ← getNodeValue node
  release value
  when (Options.useDirty (← getOptions)) (markNodeAsDirty node)
  Base.removeNode node
  when (Options.useDirty (← getOptions)) walkDirty

/-- `_mulle_rbtree_remove` -/
def remove (a_key : VoidPtr) : M σ ℤ := do
  let node ← findNode a_key cb.comparison
  if node = .nil then return ENOENT
  else do
    removeNode node
    return 0

/-- `mulle_rbtree_find` -/
def find (a_key : VoidPtr) : M σ VoidPtr := do
  getNodeValue (← findNode a_key cb.comparison)

/-- `mulle_rbtree_find_equal_or_greater` -/
def findEqualOrGreater (a_key : VoidPtr) : M σ VoidPtr := do
  getNodeValue (← findNodeEqualOrGreater a_key cb.comparison)

/-- `_mulle_rbtree_is_empty` -/
def isEmpty : M σ Bool := do return (← getRoot) = .nil

/-- `mulle_rbtree_walk` -/
def walk {υ : Type} (callback : VoidPtr → υ → ℤ × υ) (userinfo : υ) : M σ (List Ref × υ) := do
  walkNodes getNodeValue nextNode callback (← findLeftmostNode (← getRoot)) userinfo

/-! ### Enumeration -/

/-- `mulle_rbtree_enumerate`: the node of the enumerator. -/
def enumerate : M σ Ref := do findLeftmostNode (← getRoot)

/-- `_mulle_rbtreeenumerator_next`: the item, if there is one, and the next node. -/
def enumeratorNext (rover : Ref) : M σ (Option VoidPtr × Ref) := do
  if rover = .nil then return (none, rover)
  else do
    let item ← getNodeValue rover
    let next ← nextNode rover
    return (some item, next)

/-- `mulle_rbtree_for`, collecting the items. -/
def enumerateAll : M σ (List VoidPtr) := do
  loop (fun ((items, rover) : List VoidPtr × Ref) => do
    match ← enumeratorNext rover with
    | (none, _) => return .inr items
    | (some item, rover) => return .inl (items ++ [item], rover)) ([], ← enumerate)

/-- `mulle_rbtree_reverseenumerate` -/
def reverseenumerate : M σ Ref := do findRightmostNode (← getRoot)

/-- `_mulle_rbtreereverseenumerator_next` -/
def reverseenumeratorNext (rover : Ref) : M σ (Option VoidPtr × Ref) := do
  if rover = .nil then return (none, rover)
  else do
    let item ← getNodeValue rover
    let next ← previousNode rover
    return (some item, next)

/-! ### End of life -/

/-- `_mulle_rbtree_done`, and the `_mulle__rbtree_done` in it: the pool goes with all its slots. -/
def done : M σ Unit := do
  when cb.releases do
    let node ← findLeftmostNode (← getRoot)
    let _ ← whileLoop (fun node => return node ≠ .nil)
      (fun node => do
        release (← getNodeValue node)
        nextNode node) node
  write fun s => { s with mem := fun n => if n = .nil then s.mem n else none }

end Rbtree
end MulleRbtree
