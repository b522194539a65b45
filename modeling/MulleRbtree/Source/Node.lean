import MulleRbtree.Source.Color
import MulleRbtree.Source.Storage

/-!
# `mulle--rbtree.h`: nodes and the values they hold

* `Ref`: a pointer to a node, that is to the sentinel `_nil` of the tree or to a slot of its pool;
* `Addr`: an address, as far as the library computes with addresses: within a node;
* `VoidPtr`: a `void *` value, with the bytes that can be read through it at the time.  A caller's
  comparison sees both, so it may compare addresses or contents;
* `Rbnode`: `struct mulle_rbnode`.  In payload mode the node keeps the pointer; in extra mode the
  record is copied to the bytes that begin at `&node->payload`;
* `Event`: what a tree does to the outside world, call by call.
-/

namespace MulleRbtree

/-- A pointer to a node. -/
inductive Ref
  | nil
  | slot (i : ℕ)
  deriving DecidableEq, Repr, Inhabited

theorem Ref.slot_ne_nil {i : ℕ} : Ref.slot i ≠ .nil := nofun

/-! ### Sizes on a 64-bit system -/

def sizeofPointer : ℕ := 8
def sizeofInt : ℕ := 4

/-- `offsetof( struct mulle_rbnode, payload)`: three pointers, the `int`, and the padding before
the next pointer. -/
def offsetofPayload : ℕ := alignUp (3 * sizeofPointer + sizeofInt) sizeofPointer

/-- `sizeof( struct mulle_rbnode)` -/
def sizeofRbnode : ℕ := offsetofPayload + sizeofPointer

/-- `alignof( struct mulle_rbnode)` -/
def alignofRbnode : ℕ := sizeofPointer

/-! ### Pointers -/

/-- Where a value pointer points: nowhere, to an object of the caller, or into the memory of a node,
`offset` bytes behind its beginning. -/
inductive Addr
  | null
  | user (a : ℕ)
  | node (n : Ref) (offset : ℤ)
  deriving DecidableEq, Repr, Inhabited

namespace Addr

/-- The address `k` bytes further on, in the same node. -/
def advance (k : ℤ) : Addr → Addr
  | node n offset => node n (offset + k)
  | a => a

/-- `&node->payload` of the node in a slot: where its value area begins. -/
def area (i : ℕ) : Addr := (node (.slot i) 0).advance offsetofPayload

theorem area_ne_null {i : ℕ} : area i ≠ .null := nofun

theorem area_injective : Function.Injective area := by
  intro i j h
  simpa [area, advance] using h

end Addr

/-- A `void *` to a value, with the bytes it points to. -/
structure VoidPtr where
  addr : Addr
  bytes : List UInt8
  deriving DecidableEq, Repr, Inhabited

/-- `NULL` -/
def null : VoidPtr := ⟨.null, []⟩

/-- `memcpy` of `n` bytes; what lies behind the bytes of the source is unspecified, here zero. -/
def memcpy (n : ℕ) (src : List UInt8) : List UInt8 := (List.range n).map fun i => src.getD i 0

/-- `struct mulle_rbnode`.  `payload` is used in payload mode and `extra`, the bytes from
`&node->payload` to the end of the slot, in extra mode.  `relinked` is not in the struct: it
records the epoch of the last write to `parent`, `left` or `right`. -/
structure Rbnode where
  parent : Ref
  left : Ref
  right : Ref
  color : Color
  payload : VoidPtr
  extra : List UInt8
  relinked : ℕ
  deriving DecidableEq, Repr, Inhabited

/-- The callbacks a tree calls, with their arguments. -/
inductive Event
  /-- `(*a_comp)( a, b)` -/
  | compare (a b : VoidPtr)
  /-- `(*callback)( node, left, right)` of a dirty walk -/
  | dirty (node left right : VoidPtr)
  /-- `retain` was given one pointer and returned another -/
  | retain (given kept : VoidPtr)
  /-- `release` -/
  | release (value : VoidPtr)
  deriving DecidableEq, Repr

end MulleRbtree
