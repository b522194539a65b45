import MulleRbtree.Source.Fixup
import MulleRbtree.Source.Search

/-!
# `mulle--rbtree.c`: set-up, new nodes and the three inserts

`_mulle__rbtree_init_with_config`, `_mulle__rbtree_new_node`, `_mulle__rbtree_attach_node` and the
three functions that look for an empty slot in the tree and attach a node there.
-/

namespace MulleRbtree

/-- `EEXIST` -/
def EEXIST : ℤ := 17

/-- `ENOENT` -/
def ENOENT : ℤ := 2

/-- `struct mulle__rbtree_config` -/
structure Config where
  nodeExtra : ℕ
  options : BitVec 32
  capacity : ℕ
  deriving DecidableEq, Repr

namespace Base

variable {σ : Type} [MulleStorage σ]

/-! ### Set-up -/

/-- `MULLE__RBTREE_DEFAULT_CAPACITY` -/
def defaultCapacity : ℕ := 32

def ushrtMax : ℕ := 65535

/-- The size of a node that `_mulle__rbtree_init_with_config` asks the pool for.  In `size_t` it is
the same as long as `nodeExtra + 40 < 2 ^ 64`. -/
def nodeSize (nodeExtra : ℕ) : ℕ :=
  let extra := offsetofPayload + nodeExtra
  if extra < sizeofRbnode then sizeofRbnode else extra

/-- The sentinel as `_mulle__rbtree_init_with_config` leaves it, but for its parent. -/
def nilNode (parent : Ref) (relinked : ℕ) : Rbnode :=
  ⟨parent, .nil, .nil, Color.black, null, [], relinked⟩

/-- `_mulle__rbtree_init_with_config` -/
def initWithConfig (config : Config) : Base σ :=
  let capacity := if config.capacity = 0 then defaultCapacity else config.capacity
  let capacity := if capacity > ushrtMax then ushrtMax else capacity
  { root := .nil
    nodes := MulleStorage.init (nodeSize config.nodeExtra) alignofRbnode capacity
    options := config.options
    mem := fun n => if n = .nil then some (nilNode .nil 0) else none
    trace := []
    repaints := []
    rotations := 0
    epoch := 0 }

/-- `_mulle__rbtree_get_extra_size` -/
def getExtraSize : M σ ℕ :=
  read fun s => MulleStorage.getElementSize s.nodes - offsetofPayload

/-- `_mulle__rbtree_init_node` -/
def initNode (a_node : Ref) (value : VoidPtr) : M σ Unit := do
  update a_node fun node =>
    { node with parent := .nil, left := .nil, right := .nil, color := Color.red }
  when (Options.useDirty (← getOptions)) (recolor a_node Color.setDirty)
  if Options.useExtra (← getOptions) then do
    let extraSize ← getExtraSize
    update a_node fun node => { node with extra := memcpy extraSize value.bytes }
  else
    update a_node fun node => { node with payload := value }

/-- `_mulle_storage_malloc`: the contents of the slot are not initialised. -/
def storageMalloc : M σ Ref := do
  let i ← read fun s => (MulleStorage.malloc s.nodes).1
  write fun s =>
    { s with
      nodes := (MulleStorage.malloc s.nodes).2
      mem := Function.update s.mem (.slot i) (some default) }
  return .slot i

/-- `_mulle__rbtree_new_node` -/
def newNode (value : VoidPtr) : M σ Ref := do
  let node ← storageMalloc
  initNode node value
  return node

/-- `_mulle__rbtree_free_node`: to free what is not allocated is an error, and an access to a
freed node is one. -/
def freeNode (n : Ref) : M σ Unit := do
  let _ ← deref n
  match n with
  | .nil => throw (.dangling .nil)
  | .slot i =>
    write fun s =>
      { s with
        nodes := MulleStorage.free s.nodes i
        mem := Function.update s.mem (.slot i) none }

/-! ### Attaching -/

/-- `_mulle__rbtree_attach_node`, up to the point where the new leaf hangs in the tree; the answer
says whether its parent is red. -/
def hangNode (a_node parent : Ref) (direction : ℤ) : M σ Bool := do
  assert (a_node ≠ .nil)
  -- must be a singular unattached node
  assert ((← getParent a_node) = .nil)
  assert ((← getLeft a_node) = .nil)
  assert ((← getRight a_node) = .nil)
  assert ((← isRed a_node) = true)
  putParent a_node parent
  if parent = .nil then do
    setRoot a_node
    setNodeBlack (← getRoot)
    return false
  else do
    assert ((← getRoot) ≠ .nil)
    (if direction < 0 then do
        assert ((← getLeft parent) = .nil)
        putLeft parent a_node
      else do
        assert ((← getRight parent) = .nil)
        putRight parent a_node : M σ Unit)
    isRed parent

/-- `_mulle__rbtree_attach_node`.  The epoch sets the link writes of the rebalancing apart from the
two that hang the leaf in. -/
def attachNode (a_node parent : Ref) (direction : ℤ) : M σ Unit := do
  let redRed ← hangNode a_node parent direction
  write fun s => { s with epoch := s.epoch + 1 }
  when redRed (redRedFixup a_node)
  assert ((← getRoot) ≠ .nil)
  when (Options.useDirty (← getOptions)) (markNodeAsDirty a_node)

/-! ### Inserting -/

/-- The descent of `_mulle__rbtree_insert_node` from `y`: the parent to be and the last comparison,
or nothing if an equal node is in the way. -/
def descend (a_value : VoidPtr) (a_comp : VoidPtr → VoidPtr → ℤ) (y : Ref) :
    M σ (Option (Ref × ℤ)) :=
  loop (fun y => do
    let x := y
    let y_value ← getNodeValue y
    let c ← compare a_comp a_value y_value
    let options ← getOptions
    if c = 0 ∧ Options.allowDuplicates options = false then
      return .inr none
    else do
      let y ← (if c < 0 then getLeft y else getRight y : M σ Ref)
      if y ≠ .nil then return .inl y else return .inr (some (x, c))) y

/-- `_mulle__rbtree_insert_node` -/
def insertNode (a_node : Ref) (a_comp : VoidPtr → VoidPtr → ℤ) : M σ ℤ := do
  assert (a_node ≠ .nil)
  let y ← getRoot
  if y ≠ .nil then do
    let a_value ← getNodeValue a_node
    match ← descend a_value a_comp y with
    | none => return EEXIST
    | some (x, c) => do
      attachNode a_node x c
      return 0
  else do
    attachNode a_node .nil 0
    return 0

/-- `_mulle__rbtree_insert_node_before_node` -/
def insertNodeBeforeNode (a_node successor : Ref) : M σ Unit := do
  assert (a_node ≠ .nil)
  assert (a_node ≠ successor)
  assert (successor ≠ .nil)
  let y ← getLeft successor
  if y = .nil then
    attachNode a_node successor (-1)
  else do
    let x ← loop (fun y => do
      let x := y
      let y ← getRight y
      if y ≠ .nil then return .inl y else return .inr x) y
    attachNode a_node x 1

/-- `_mulle__rbtree_insert_node_after_node` -/
def insertNodeAfterNode (a_node predecessor : Ref) : M σ Unit := do
  assert (a_node ≠ .nil)
  assert (a_node ≠ predecessor)
  assert (predecessor ≠ .nil)
  let y ← getRight predecessor
  if y = .nil then
    attachNode a_node predecessor 1
  else do
    let x ← loop (fun y => do
      let x := y
      let y ← getLeft y
      if y ≠ .nil then return .inl y else return .inr x) y
    attachNode a_node x (-1)

end Base
end MulleRbtree
