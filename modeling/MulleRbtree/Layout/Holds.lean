import MulleRbtree.Layout.Memory
import MulleRbtree.Source.Remove

/-!
# What a tree owns

* `Env`: the state of a tree without its root and its memory;
* `Holds s E root H`: the state `s` with its environment, its root and all the cells of its memory;
  the slots of the pool that are in use are those of the cells;
* the access rules: what reading, writing, marking and `setRoot` do to a state that `Holds`;
* the side-generic accesses `getChild d` and `putChild d`.
-/

namespace MulleRbtree

open BinaryTree Cells Program

variable {σ : Type}

/-- The state of a tree without root and memory. -/
structure Env (σ : Type) where
  nodes : σ
  options : BitVec 32
  trace : List Event
  rotations : ℕ
  epoch : ℕ

def Base.env (s : Base σ) : Env σ := ⟨s.nodes, s.options, s.trace, s.rotations, s.epoch⟩

namespace Env

/-- One rotation later. -/
def turned (E : Env σ) : Env σ := { E with rotations := E.rotations + 1 }

/-- `k` rotations later. -/
def turnedBy (E : Env σ) (k : ℕ) : Env σ := { E with rotations := E.rotations + k }

@[simp] theorem turnedBy_zero (E : Env σ) : E.turnedBy 0 = E := rfl
@[simp] theorem turnedBy_turnedBy (E : Env σ) (j k : ℕ) :
    (E.turnedBy j).turnedBy k = E.turnedBy (j + k) := by
  simp [turnedBy, add_assoc]

/-- After some callbacks. -/
def traced (E : Env σ) (events : List Event) : Env σ := { E with trace := E.trace ++ events }

/-- In the next epoch. -/
def advanced (E : Env σ) : Env σ := { E with epoch := E.epoch + 1 }

variable [MulleStorage σ]

/-- With a slot given back to the pool. -/
def freed (E : Env σ) (i : ℕ) : Env σ := { E with nodes := MulleStorage.free E.nodes i }

/-- With a slot taken from the pool. -/
def malloced (E : Env σ) : Env σ := { E with nodes := (MulleStorage.malloc E.nodes).2 }

omit [MulleStorage σ]

@[simp] theorem traced_nil (E : Env σ) : E.traced [] = E := by simp [traced]

@[simp] theorem traced_traced (E : Env σ) (u v : List Event) :
    (E.traced u).traced v = E.traced (u ++ v) := by simp [traced]

end Env

/-- What the marks on a node depend on. -/
def Env.stamp (E : Env σ) : Stamp := ⟨E.options, E.epoch⟩

@[simp] theorem Env.stamp_turned (E : Env σ) : E.turned.stamp = E.stamp := rfl
@[simp] theorem Env.stamp_turnedBy (E : Env σ) (k : ℕ) : (E.turnedBy k).stamp = E.stamp := rfl
@[simp] theorem Env.stamp_advanced (E : Env σ) : E.advanced.stamp = E.stamp.next := rfl
@[simp] theorem Env.stamp_traced (E : Env σ) (u : List Event) : (E.traced u).stamp = E.stamp := rfl

@[simp] theorem Env.stamp_freed [MulleStorage σ] (E : Env σ) (i : ℕ) :
    (E.freed i).stamp = E.stamp := rfl
@[simp] theorem Env.stamp_malloced [MulleStorage σ] (E : Env σ) : E.malloced.stamp = E.stamp := rfl

/-! ### Side-generic accesses -/

namespace Base

def getChild (d : Side) (n : Ref) : M σ Ref := do return (← deref n).child d

def putChild (d : Side) (n v : Ref) : M σ Unit := do
  let epoch ← read Base.epoch
  update n (Rbnode.setChild d v epoch)

@[simp] theorem when_true (m : M σ Unit) : when true m = m := rfl
@[simp] theorem when_false (m : M σ Unit) : when false m = pure () := rfl

theorem andAlso_true {b₁ b₂ : M σ Bool} {s s' : Base σ} (h : b₁ s = .ok (true, s')) :
    andAlso b₁ b₂ s = b₂ s' := by
  rw [andAlso, bind_eq h]; rfl

theorem andAlso_false {b₁ b₂ : M σ Bool} {s s' : Base σ} (h : b₁ s = .ok (false, s')) :
    andAlso b₁ b₂ s = .ok (false, s') := by
  rw [andAlso, bind_eq h]; rfl

/-- Two conditions that only read. -/
theorem andAlso_eq {b₁ b₂ : M σ Bool} {s : Base σ} {a b : Bool} (h₁ : b₁ s = .ok (a, s))
    (h₂ : b₂ s = .ok (b, s)) : andAlso b₁ b₂ s = .ok (a && b, s) := by
  cases a with
  | true => rw [andAlso_true h₁, h₂, Bool.true_and]
  | false => exact andAlso_false h₁

theorem assert_eq {p : Prop} [Decidable p] {s : Base σ} (h : p) :
    (assert p : M σ Unit) s = .ok ((), s) := by
  rw [assert, if_pos h]; rfl

theorem getLeft_eq (n : Ref) : (getLeft n : M σ Ref) = getChild .left n := rfl
theorem getRight_eq (n : Ref) : (getRight n : M σ Ref) = getChild .right n := rfl
theorem putLeft_eq (n v : Ref) : (putLeft n v : M σ Unit) = putChild .left n v := rfl
theorem putRight_eq (n v : Ref) : (putRight n v : M σ Unit) = putChild .right n v := rfl

end Base

/-! ### States and their cells -/

variable [MulleStorage σ]

/-- The state `s` has the environment `E`, the root `root`, and the cells `H` are its memory. -/
structure Holds (s : Base σ) (E : Env σ) (root : Ref) (H : Multiset Cell) : Prop where
  env : s.env = E
  root : s.root = root
  owns : Owns s.mem H
  live : ∀ i, i ∈ MulleStorage.live E.nodes ↔ Ref.slot i ∈ H.map Prod.fst

namespace Holds

open Base

variable {s : Base σ} {E : Env σ} {root n v : Ref} {H R : Multiset Cell} {node : Rbnode}

theorem cast {H' : Multiset Cell} (h : Holds s E root H) (e : H = H') : Holds s E root H' := e ▸ h

theorem options_eq (h : Holds s E root H) : s.options = E.options := congrArg Env.options h.env
theorem nodes_eq (h : Holds s E root H) : s.nodes = E.nodes := congrArg Env.nodes h.env
theorem trace_eq (h : Holds s E root H) : s.trace = E.trace := congrArg Env.trace h.env
theorem epoch_eq (h : Holds s E root H) : s.epoch = E.epoch := congrArg Env.epoch h.env

/-! #### Reading -/

theorem deref (h : Holds s E root H) (hn : (n, node) ∈ H) : Base.deref n s = .ok (node, s) := by
  unfold Base.deref
  rw [h.owns.read hn]

theorem getParent (h : Holds s E root H) (hn : (n, node) ∈ H) :
    Base.getParent n s = .ok (node.parent, s) := by
  rw [Base.getParent, bind_eq (h.deref hn)]; rfl

theorem getChild (h : Holds s E root H) (d : Side) (hn : (n, node) ∈ H) :
    Base.getChild d n s = .ok (node.child d, s) := by
  rw [Base.getChild, bind_eq (h.deref hn)]; rfl

theorem isRed (h : Holds s E root H) (hn : (n, node) ∈ H) :
    Base.isRed n s = .ok (node.color.isRed, s) := by
  rw [Base.isRed, bind_eq (h.deref hn)]; rfl

theorem isBlack (h : Holds s E root H) (hn : (n, node) ∈ H) :
    Base.isBlack n s = .ok (!node.color.isRed, s) := by
  rw [Base.isBlack, bind_eq (h.deref hn), ← Color.isBlack_eq]; rfl

theorem isDirty (h : Holds s E root H) (hn : (n, node) ∈ H) :
    Base.isDirty n s = .ok (node.color.isDirty, s) := by
  rw [Base.isDirty, bind_eq (h.deref hn)]; rfl

theorem getColor (h : Holds s E root H) (hn : (n, node) ∈ H) :
    Base.getColor n s = .ok (node.color.getColor, s) := by
  rw [Base.getColor, bind_eq (h.deref hn)]; rfl

theorem getRoot (h : Holds s E root H) : Base.getRoot s = .ok (root, s) := by
  rw [← h.root]; rfl

theorem getOptions (h : Holds s E root H) : Base.getOptions s = .ok (E.options, s) := by
  rw [← h.options_eq]; rfl

theorem readEpoch (h : Holds s E root H) : Base.read Base.epoch s = .ok (E.epoch, s) := by
  rw [← h.epoch_eq]; rfl

/-! #### Writing -/

theorem update (h : Holds s E root ({(n, node)} + R)) (f : Rbnode → Rbnode) :
    Ensures (Base.update n f) s fun _ s' => Holds s' E root ({(n, f node)} + R) := by
  refine ⟨(), { s with mem := Function.update s.mem n (some (f node)) }, ?_,
    ⟨h.env, h.root, h.owns.write (f node), fun i => by rw [h.live i]; simp⟩⟩
  have hread : s.mem n = some node := h.owns.read (by simp)
  unfold Base.update
  rw [hread]

theorem recolor (h : Holds s E root ({(n, node)} + R)) (f : Color → Color) :
    Ensures (Base.recolor n f) s fun _ s' =>
      Holds s' E root ({(n, { node with color := f node.color })} + R) := by
  refine .bind_eq (h.deref mem_front) ((h.update _).bind fun _ s' h' => ?_)
  exact .of_eq rfl ⟨h'.env, h'.root, h'.owns, h'.live⟩

theorem putParent (h : Holds s E root ({(n, node)} + R)) (v : Ref) :
    Ensures (Base.putParent n v) s fun _ s' =>
      Holds s' E root ({(n, { node with parent := v, relinked := E.epoch })} + R) := by
  refine .bind_eq h.readEpoch (h.update _)

theorem putChild (h : Holds s E root ({(n, node)} + R)) (d : Side) (v : Ref) :
    Ensures (Base.putChild d n v) s fun _ s' =>
      Holds s' E root ({(n, node.setChild d v E.epoch)} + R) := by
  refine .bind_eq h.readEpoch (h.update _)

theorem setRoot (h : Holds s E root H) (v : Ref) :
    Ensures (Base.setRoot v) s fun _ s' => Holds s' E v H :=
  .of_eq rfl ⟨h.env, rfl, h.owns, h.live⟩

theorem setNodeMarked (h : Holds s E root ({(n, node)} + R)) (hn : n ≠ .nil) :
    Ensures (Base.setNodeMarked n) s fun _ s' =>
      Holds s' E root ({(n, { node with color := E.stamp.markColor node.color })} + R) := by
  refine .bind_eq h.getOptions ?_
  have hE : Options.useMarker E.stamp.options = Options.useMarker E.options := rfl
  unfold Stamp.markColor
  rw [hE]
  cases Options.useMarker E.options with
  | true => simpa [Base.when, hn] using h.recolor Color.setMarker
  | false => exact .pure h

theorem setNodeMarked_nil (h : Holds s E root H) :
    Ensures (Base.setNodeMarked .nil) s fun _ s' => Holds s' E root H := by
  refine .bind_eq h.getOptions ?_
  cases Options.useMarker E.options <;> exact .pure h

theorem rotated (h : Holds s E root H) :
    Ensures (Base.write fun s => { s with rotations := s.rotations + 1 }) s fun _ s' =>
      Holds s' E.turned root H := by
  refine .of_eq rfl ⟨?_, h.root, h.owns, h.live⟩
  rw [← h.env]; rfl

theorem emit (h : Holds s E root H) (e : Event) :
    Ensures (Base.emit e) s fun _ s' => Holds s' (E.traced [e]) root H := by
  refine .of_eq rfl ⟨?_, h.root, h.owns, h.live⟩
  rw [← h.env]; rfl

theorem advance (h : Holds s E root H) :
    Ensures (Base.write fun s => { s with epoch := s.epoch + 1 }) s fun _ s' =>
      Holds s' E.advanced root H := by
  refine .of_eq rfl ⟨?_, h.root, h.owns, h.live⟩
  rw [← h.env]; rfl

/-- A node is given back. -/
theorem freeNode {i : ℕ} (h : Holds s E root ({(.slot i, node)} + R)) :
    Ensures (Base.freeNode (.slot i)) s fun _ s' => Holds s' (E.freed i) root R := by
  refine .bind_eq (h.deref mem_front) (.of_eq rfl ⟨?_, h.root, h.owns.free, fun j => ?_⟩)
  · rw [← h.env]; rfl
  · have hi : i ∈ MulleStorage.live E.nodes := by
      rw [h.live]
      simp
    have hj := h.live j
    have hnot := h.owns.notMem
    rw [Multiset.map_add, Multiset.map_singleton, Multiset.mem_add, Multiset.mem_singleton,
      Ref.slot.injEq] at hj
    change j ∈ MulleStorage.live (MulleStorage.free E.nodes i) ↔ _
    rw [MulleStorage.live_free _ _ hi, Finset.mem_erase, hj]
    refine ⟨fun hj => hj.2.resolve_left hj.1, fun hj => ⟨fun e => hnot (e ▸ hj), .inr hj⟩⟩

end Holds
end MulleRbtree
