import MulleRbtree.Source.Search

/-!
# `mulle--rbtree.h`, `mulle--rbtree.c`: walks

* the walks from node to node, with a callback that ends them when it answers 0;
* the recursive walks: the dirty walk with its callbacks, the check that it leaves no dirty node
  behind, and the count.  They carry a bound on their depth.
-/

namespace MulleRbtree
namespace Base

variable {σ : Type} [MulleStorage σ]

/-! ### From node to node -/

/-- The loop of a walk; `argument` is what the callback is called with at a node, besides its
`userinfo`.  The answer tells at which nodes it has been called, and what became of `userinfo`. -/
def walkNodes {α υ : Type} (argument : Ref → M σ α) (next : Ref → M σ Ref)
    (callback : α → υ → ℤ × υ) (a_node : Ref) (userinfo : υ) : M σ (List Ref × υ) :=
  loop (fun ((visited, userinfo, a_node) : List Ref × υ × Ref) => do
    if a_node = .nil then return .inr (visited, userinfo)
    else do
      let value ← argument a_node
      let (rval, userinfo) := callback value userinfo
      if rval = 0 then return .inr (visited ++ [a_node], userinfo)
      else return .inl (visited ++ [a_node], userinfo, ← next a_node)) ([], userinfo, a_node)

/-- `_mulle__rbtree_walk` -/
def walk {υ : Type} (callback : Ref → υ → ℤ × υ) (userinfo : υ) : M σ (List Ref × υ) := do
  walkNodes pure nextNode callback (← findLeftmostNode (← getRoot)) userinfo

/-- `_mulle__rbtree_walk_reverse` -/
def walkReverse {υ : Type} (callback : Ref → υ → ℤ × υ) (userinfo : υ) : M σ (List Ref × υ) := do
  walkNodes pure previousNode callback (← findRightmostNode (← getRoot)) userinfo

/-! ### Recursive walks -/

/-- The bound on the depth of a recursion over the tree. -/
def depthBound : M σ ℕ := read fun s => MulleStorage.getCount s.nodes + 2

/-- `__mulle__rbtree_walk_dirty` -/
def walkDirtyFrom : ℕ → Ref → M σ Unit
  | 0, _ => throw .endless
  | fuel + 1, a_node => do
    if (← isDirty a_node) = false then return ()
    else do
      assert (a_node ≠ .nil)
      let left ← getLeft a_node
      when (left ≠ .nil) (walkDirtyFrom fuel left)
      let right ← getRight a_node
      when (right ≠ .nil) (walkDirtyFrom fuel right)
      let value ← getNodeValue a_node
      let left_value ← getNodeValue (← getLeft a_node)
      let right_value ← getNodeValue (← getRight a_node)
      emit (.dirty value left_value right_value)
      clearDirty a_node

/-- `__mulle__rbtree_assert_clean` -/
def assertCleanFrom : ℕ → Ref → M σ Unit
  | 0, _ => throw .endless
  | fuel + 1, a_node => do
    if a_node = .nil then return ()
    else do
      assertCleanFrom fuel (← getLeft a_node)
      assertCleanFrom fuel (← getRight a_node)
      assert ((← isDirty a_node) = false)

/-- `_mulle__rbtree_walk_dirty` -/
def walkDirty : M σ Unit := do
  walkDirtyFrom (← depthBound) (← getRoot)
  assertCleanFrom (← depthBound) (← getRoot)

/-- `_mulle__rbtree_is_dirty` -/
def treeIsDirty : M σ Bool := do isDirty (← getRoot)

/-- `__mulle__rbtree_walk_count` -/
def walkCount : ℕ → Ref → M σ ℕ
  | 0, _ => throw .endless
  | fuel + 1, a_node => do
    if a_node = .nil then return 0
    else do
      let l ← walkCount fuel (← getLeft a_node)
      let r ← walkCount fuel (← getRight a_node)
      return l + r + 1

/-- `_mulle__rbtree_get_count` -/
def getCount : M σ ℕ := do
  walkCount (← depthBound) (← getRoot)

end Base
end MulleRbtree
