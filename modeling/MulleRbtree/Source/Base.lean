import MulleRbtree.Library.Program
import MulleRbtree.Source.Node

/-!
# `struct mulle__rbtree`

The low-level tree with the memory its nodes live in, and the accesses the functions of
`mulle--rbtree.h` and `mulle--rbtree.c` are made of.

* `Base σ`: `_root`, `_nodes`, `_options` and the memory; the sentinel `_nil` is the cell at
  `Ref.nil`.  Four history variables are added that no branch reads: the `trace` of callback
  calls, the `repaints`, that is the writes to the colour words of initialised nodes, the number of
  `rotations`, and the `epoch`, which a call advances where link writes are to be told apart from
  earlier ones;
* `M σ α`: a function of the library that works on a tree.  It faults where an `assert` of a debug
  build fails, where a node is accessed that is not (or no longer) allocated, and where a loop goes
  round more often than a tree of that many nodes allows;
* the accessors of nodes, flags and options.
-/

namespace MulleRbtree

open Program

/-- How a call can go wrong. -/
inductive Fault
  /-- a failing `assert` -/
  | assertion
  /-- an access to memory that is not allocated -/
  | dangling (n : Ref)
  /-- a loop that does not end -/
  | endless
  deriving DecidableEq, Repr

/-- A write to the colour word of a node, with what was there before. -/
structure Repaint where
  node : Ref
  before : Color
  after : Color
  deriving DecidableEq, Repr

/-- `struct mulle__rbtree` and the memory of its nodes. -/
structure Base (σ : Type) where
  root : Ref
  nodes : σ
  options : BitVec 32
  mem : Ref → Option Rbnode
  trace : List Event
  repaints : List Repaint
  rotations : ℕ
  epoch : ℕ

/-! ### Options -/

namespace Options

def allowDuplicates (o : BitVec 32) : Bool := o &&& 0x1#32 != 0#32
def useExtra (o : BitVec 32) : Bool := o &&& 0x2#32 != 0#32
def useDirty (o : BitVec 32) : Bool := o &&& 0x4#32 != 0#32
def useMarker (o : BitVec 32) : Bool := o &&& 0x8#32 != 0#32

end Options

namespace Base

variable {σ α β : Type}

/-- A function that works on a tree. -/
abbrev M (σ α : Type) := StateT (Base σ) (Except Fault) α

/-! ### Accesses -/

/-- Read a node. -/
def deref (n : Ref) : M σ Rbnode := fun s =>
  match s.mem n with
  | some node => .ok (node, s)
  | none => .error (.dangling n)

/-- Change a node. -/
def update (n : Ref) (f : Rbnode → Rbnode) : M σ Unit := fun s =>
  match s.mem n with
  | some node => .ok ((), { s with mem := Function.update s.mem n (some (f node)) })
  | none => .error (.dangling n)

/-- Read something off the tree. -/
def read (f : Base σ → α) : M σ α := fun s => .ok (f s, s)

/-- Change the tree other than in its nodes. -/
def write (f : Base σ → Base σ) : M σ Unit := fun s => .ok ((), f s)

/-- `assert` -/
def assert (p : Prop) [Decidable p] : M σ Unit := if p then pure () else throw .assertion

/-- `if( b) m;` -/
def when (b : Bool) (m : M σ Unit) : M σ Unit := if b then m else pure ()

/-- `b1 && b2` -/
def andAlso (b₁ b₂ : M σ Bool) : M σ Bool := do
  if ← b₁ then b₂ else return false

def emit (e : Event) : M σ Unit := write fun s => { s with trace := s.trace ++ [e] }

def getRoot : M σ Ref := read Base.root
def setRoot (n : Ref) : M σ Unit := write fun s => { s with root := n }
def getOptions : M σ (BitVec 32) := read Base.options

def getParent (n : Ref) : M σ Ref := do return (← deref n).parent
def getLeft (n : Ref) : M σ Ref := do return (← deref n).left
def getRight (n : Ref) : M σ Ref := do return (← deref n).right

/-- `n->_parent = v;` -/
def putParent (n v : Ref) : M σ Unit := do
  let epoch ← read Base.epoch
  update n fun node => { node with parent := v, relinked := epoch }

/-- `n->_left = v;` -/
def putLeft (n v : Ref) : M σ Unit := do
  let epoch ← read Base.epoch
  update n fun node => { node with left := v, relinked := epoch }

/-- `n->_right = v;` -/
def putRight (n v : Ref) : M σ Unit := do
  let epoch ← read Base.epoch
  update n fun node => { node with right := v, relinked := epoch }

/-- Rewrite the colour word of a node, `n->_color = f( n->_color);`. -/
def recolor (n : Ref) (f : Color → Color) : M σ Unit := do
  let color := (← deref n).color
  update n fun node => { node with color := f color }
  write fun s => { s with repaints := s.repaints ++ [⟨n, color, f color⟩] }

/-! ### Loops -/

variable [MulleStorage σ]

/-- A loop; with `n` nodes in the pool it counts as endless when the body has run `n + 2` times and
wants to go on. -/
def loop (step : α → M σ (α ⊕ β)) (a : α) : M σ β := do
  iterate .endless step ((← read fun s => MulleStorage.getCount s.nodes) + 2) a

/-- `while( cond) body` -/
def whileLoop (cond : α → M σ Bool) (body : α → M σ α) (a : α) : M σ α :=
  loop (fun a => do if ← cond a then return .inl (← body a) else return .inr a) a

end Base
end MulleRbtree
