import MulleRbtree.Source.Rbtree

/-!
# The rest of the two headers

* small accessors of `mulle--rbtree.h`, among them the way from a value back to its node;
* the other initialisers: each fills in a configuration and hands it on;
* the functions of `mulle-rbtree.h` without a leading underscore, which also take `NULL` for a tree.
-/

namespace MulleRbtree

open Program

/-- `EINVAL` -/
def EINVAL : ℤ := 22

namespace Base

variable {σ : Type}

/-! ### Accessors -/

/-- `_mulle__rbtree_enable_marking` -/
def enableMarking : M σ Unit := write fun s => { s with options := s.options ||| 0x8#32 }

/-- `_mulle_rbnode_set_payload`: nothing is retained. -/
def setPayload (n : Ref) (payload : VoidPtr) : M σ Unit :=
  update n fun node => { node with payload := payload }

/-- `_mulle_rbnode_get_grandparent` -/
def getGrandparent (n : Ref) : M σ Ref := do getParent (← getParent n)

/-- `_mulle__rbtree_is_root_node` -/
def isRootNode (n : Ref) : M σ Bool := do return (← getRoot) = n

/-- `_mulle_rb_get_node_from_extra`: past the payload pointer, and back by the size of a node.  That
is a node if it is the beginning of one. -/
def getNodeOfAddr (extra : Addr) : M σ Ref :=
  match (extra.advance sizeofPointer).advance (-sizeofRbnode) with
  | .node n 0 => return n
  | _ => throw (.dangling .nil)

/-- The way back from a value area. -/
theorem getNodeOfAddr_area (i : ℕ) : (getNodeOfAddr (.area i) : M σ Ref) = pure (.slot i) := rfl

/-- `_mulle__rbtree_get_node_from_extra` -/
def getNodeFromExtra (extra : VoidPtr) : M σ Ref := do
  assert (Options.useExtra (← getOptions) = true)
  getNodeOfAddr extra.addr

/-! ### Initialisers -/

variable [MulleStorage σ]

/-- `_mulle__rbtree_init_with_options` -/
def initWithOptions (nodeExtra : ℕ) (options : BitVec 32) : Base σ :=
  initWithConfig ⟨nodeExtra, options, 0⟩

/-- `_mulle__rbtree_init` -/
def init : Base σ := initWithOptions 0 0#32

end Base

/-- The members of `struct mulle_container_valuecallback` that a tree uses. -/
structure ValueCallback where
  retain : List Event → VoidPtr → VoidPtr
  releases : Bool

/-- `struct mulle_rbtree_config`; the dirty callback is left out, as its calls are events whatever
it is, `nop_dirty` included. -/
structure RbtreeConfig where
  base : Config
  comparison : Option (VoidPtr → VoidPtr → ℤ)
  callback : Option ValueCallback

namespace Rbtree

variable {σ : Type} [MulleStorage σ]

/-- `_mulle_rbtree_init_with_config`; `nonowned` is `mulle_container_valuecallback_nonowned_cstring`
of another library. -/
def initWithConfig (nonowned : ValueCallback) (config : RbtreeConfig) :
    Except Fault (Callbacks × Base σ) :=
  match config.comparison with
  | none => .error .assertion
  | some comparison =>
    let callback := config.callback.getD nonowned
    .ok (⟨comparison, callback.retain, callback.releases⟩,
      Base.initWithConfig ⟨config.base.nodeExtra, config.base.options, config.base.capacity⟩)

/-- `_mulle_rbtree_init` -/
def init (nonowned : ValueCallback) (a_comp : Option (VoidPtr → VoidPtr → ℤ))
    (callback : Option ValueCallback) : Except Fault (Callbacks × Base σ) :=
  initWithConfig nonowned ⟨⟨0, 0#32, 0⟩, a_comp, callback⟩

/-! ### `NULL` for a tree -/

/-- A function that works on a tree or on `NULL`. -/
abbrev NullableM (σ α : Type) := StateT (Option (Base σ)) (Except Fault) α

/-- A function that also takes `NULL` for a tree, where it returns `rval`. -/
def orNull {α : Type} (rval : α) (m : Base.M σ α) : NullableM σ α
  | none => .ok (rval, none)
  | some s => do
    let (a, s) ← m s
    return (a, some s)

namespace Nullable

variable (cb : Callbacks)

/-- `mulle_rbtree_add` -/
def add (value : VoidPtr) : NullableM σ ℤ := orNull EINVAL (Rbtree.add cb value)

/-- `mulle_rbtree_remove` -/
def remove (value : VoidPtr) : NullableM σ ℤ := orNull EINVAL (Rbtree.remove cb value)

/-- `mulle_rbtree_remove_node` -/
def removeNode (node : Ref) : NullableM σ Unit := orNull () (Rbtree.removeNode node)

/-- `mulle_rbtree_find` -/
def find (a_key : VoidPtr) : NullableM σ VoidPtr := orNull null (Rbtree.find cb a_key)

/-- `mulle_rbtree_find_equal_or_greater` -/
def findEqualOrGreater (a_key : VoidPtr) : NullableM σ VoidPtr :=
  orNull null (Rbtree.findEqualOrGreater cb a_key)

/-- `mulle_rbtree_is_empty` -/
def isEmpty : NullableM σ Bool := orNull true Rbtree.isEmpty

/-- `mulle_rbtree_walk` -/
def walk {υ : Type} (callback : VoidPtr → υ → ℤ × υ) (userinfo : υ) : NullableM σ (List Ref × υ) :=
  orNull ([], userinfo) (Rbtree.walk callback userinfo)

/-- `mulle_rbtree_done` -/
def done : NullableM σ Unit := orNull () (Rbtree.done cb)

/-- `mulle_rbtree_enumerate`; the enumerator of `NULL` has no node. -/
def enumerate : NullableM σ (Option Ref) := orNull none (some <$> Rbtree.enumerate)

/-- `_mulle_rbtreeenumerator_next` -/
def enumeratorNext : Option Ref → NullableM σ (Option VoidPtr × Option Ref)
  | none => pure (none, none)
  | some rover => orNull (none, some rover) do
    let (item, rover) ← Rbtree.enumeratorNext rover
    return (item, some rover)

/-- `mulle_rbtree_for`, collecting the items. -/
def enumerateAll : NullableM σ (List VoidPtr) := do
  let rover ← enumerate
  let count ← orNull 0 (Base.read fun s => MulleStorage.getCount s.nodes)
  iterate .endless (fun ((items, rover) : List VoidPtr × Option Ref) => do
    match ← enumeratorNext rover with
    | (none, _) => return .inr items
    | (some item, rover) => return .inl (items ++ [item], rover)) (count + 2) ([], rover)

/-- `mulle_rbtree_reverseenumerate` -/
def reverseenumerate : NullableM σ (Option Ref) := orNull none (some <$> Rbtree.reverseenumerate)

/-- `_mulle_rbtreereverseenumerator_next` -/
def reverseenumeratorNext : Option Ref → NullableM σ (Option VoidPtr × Option Ref)
  | none => pure (none, none)
  | some rover => orNull (none, some rover) do
    let (item, rover) ← Rbtree.reverseenumeratorNext rover
    return (item, some rover)

end Nullable
end Rbtree
end MulleRbtree
