import MulleRbtree.Source.Rotate

/-!
# `mulle--rbtree.h`: values, navigation and searches

Payload mode and extra mode have a search loop each, for the exact search and for the search of an
equal or greater node.
-/

namespace MulleRbtree
namespace Base

variable {σ : Type}

/-! ### Values -/

/-- `_mulle_rbnode_get_payload` -/
def getPayload (n : Ref) : M σ VoidPtr := do return (← deref n).payload

/-- `_mulle_rbnode_get_extra`: `&a_node->payload`, here with the bytes from there to the end of the
slot. -/
def getExtra (n : Ref) : M σ VoidPtr := do
  let node ← deref n
  return ⟨(Addr.node n 0).advance offsetofPayload, node.extra⟩

/-- `_mulle__rbtree_get_node_value` -/
def getNodeValue (n : Ref) : M σ VoidPtr := do
  if n = .nil then return null
  else if Options.useExtra (← getOptions) then getExtra n
  else getPayload n

/-- A call of the caller's comparison. -/
def compare (a_comp : VoidPtr → VoidPtr → ℤ) (a b : VoidPtr) : M σ ℤ := do
  emit (.compare a b)
  return a_comp a b

/-! ### Navigation -/

variable [MulleStorage σ]

/-- `_mulle__rbtree_find_leftmost_node` -/
def findLeftmostNode (root : Ref) : M σ Ref :=
  whileLoop (fun p => do return (← getLeft p) ≠ .nil) getLeft root

/-- `_mulle__rbtree_find_rightmost_node` -/
def findRightmostNode (root : Ref) : M σ Ref :=
  whileLoop (fun p => do return (← getRight p) ≠ .nil) getRight root

/-- `_mulle__rbtree_next_node` -/
def nextNode (node : Ref) : M σ Ref := do
  if (← getRight node) ≠ .nil then do
    findLeftmostNode (← getRight node)
  else
    -- bubble up until we come from a left child
    loop (fun node => do
      let parent ← getParent node
      if ← andAlso (return parent ≠ .nil) (do return node = (← getRight parent)) then
        return .inl parent
      else return .inr parent) node

/-- `_mulle__rbtree_previous_node` -/
def previousNode (node : Ref) : M σ Ref := do
  if (← getLeft node) ≠ .nil then do
    findRightmostNode (← getLeft node)
  else
    loop (fun node => do
      let parent ← getParent node
      if ← andAlso (return parent ≠ .nil) (do return node = (← getLeft parent)) then
        return .inl parent
      else return .inr parent) node

/-! ### Exact search -/

/-- `_mulle__rbtree_find_node_with_payload` -/
def findNodeWithPayload (a_key : VoidPtr) (a_comp : VoidPtr → VoidPtr → ℤ) : M σ Ref := do
  assert (Options.useExtra (← getOptions) = false)
  loop (fun p => do
    if p = .nil then return .inr p
    else do
      let b_key ← getPayload p
      let r ← compare a_comp a_key b_key
      if r = 0 then return .inr p
      else if r < 0 then return .inl (← getLeft p)
      else return .inl (← getRight p)) (← getRoot)

/-- `_mulle__rbtree_find_node_with_extra` -/
def findNodeWithExtra (a_key : VoidPtr) (a_comp : VoidPtr → VoidPtr → ℤ) : M σ Ref := do
  assert (Options.useExtra (← getOptions) = true)
  loop (fun p => do
    if p = .nil then return .inr p
    else do
      let b_key ← getExtra p
      let r ← compare a_comp a_key b_key
      if r = 0 then return .inr p
      else if r < 0 then return .inl (← getLeft p)
      else return .inl (← getRight p)) (← getRoot)

/-- `_mulle__rbtree_find_node` -/
def findNode (a_key : VoidPtr) (a_comp : VoidPtr → VoidPtr → ℤ) : M σ Ref := do
  if Options.useExtra (← getOptions) then findNodeWithExtra a_key a_comp
  else findNodeWithPayload a_key a_comp

/-! ### Search for an equal or greater node -/

/-- `_mulle__rbtree_find_node_with_equal_or_greater_payload` -/
def findNodeWithEqualOrGreaterPayload (a_key : VoidPtr) (a_comp : VoidPtr → VoidPtr → ℤ) :
    M σ Ref := do
  loop (fun p => do
    if p = .nil then return .inr p
    else do
      let b_key ← getPayload p
      let r ← compare a_comp a_key b_key
      if r = 0 then return .inr p
      else if r < 0 then do
        if (← getLeft p) = .nil then return .inr p
        else return .inl (← getLeft p)
      else do
        if (← getRight p) = .nil then do
          let (_, p) ← whileLoop
            (fun ((n, p) : Ref × Ref) =>
              andAlso (return p ≠ .nil) (do return n = (← getRight p)))
            (fun (_, p) => do return (p, ← getParent p)) (p, ← getParent p)
          return .inr p
        else return .inl (← getRight p)) (← getRoot)

/-- `_mulle__rbtree_find_node_with_equal_or_greater_extra` -/
def findNodeWithEqualOrGreaterExtra (a_key : VoidPtr) (a_comp : VoidPtr → VoidPtr → ℤ) :
    M σ Ref := do
  loop (fun p => do
    if p = .nil then return .inr p
    else do
      let b_key ← getExtra p
      let r ← compare a_comp a_key b_key
      if r = 0 then return .inr p
      else if r < 0 then do
        if (← getLeft p) = .nil then return .inr p
        else return .inl (← getLeft p)
      else do
        if (← getRight p) = .nil then do
          let (_, p) ← whileLoop
            (fun ((n, p) : Ref × Ref) =>
              andAlso (return p ≠ .nil) (do return n = (← getRight p)))
            (fun (_, p) => do return (p, ← getParent p)) (p, ← getParent p)
          return .inr p
        else return .inl (← getRight p)) (← getRoot)

/-- `_mulle__rbtree_find_node_equal_or_greater` -/
def findNodeEqualOrGreater (a_key : VoidPtr) (a_comp : VoidPtr → VoidPtr → ℤ) : M σ Ref := do
  if Options.useExtra (← getOptions) then findNodeWithEqualOrGreaterExtra a_key a_comp
  else findNodeWithEqualOrGreaterPayload a_key a_comp

end Base
end MulleRbtree
