import MulleRbtree.Runs.Operations

/-!
# No assertion fails

A call of the model faults where an assertion of a debug build fails, where it touches memory that
is not allocated and where a loop does not end.  In a tree that is used as the headers ask, with
low-level calls and operations mixed in any order, no call faults, nor does the end of the tree.
-/

namespace MulleRbtree

open BinaryTree Cells Program

variable {σ : Type} [MulleStorage σ]

/-- All calls of both headers, on one tree. -/
def everything (σ : Type) [MulleStorage σ] (cb : Callbacks) :
    Interface (Base σ) Fault (Call ⊕ Op) (Answer ⊕ Result) := (calls σ).sum (operations σ cb)

/-- The invariant of all calls. -/
theorem everything_keeps {cb : Callbacks} (c : Call ⊕ Op) (s : Base σ)
    (hs : ∃ m : Image σ, Represents s m) (hp : (everything σ cb).Pre c s) :
    Ensures ((everything σ cb).exec c) s fun _ s' => ∃ m : Image σ, Represents s' m :=
  Interface.sum_ensures calls_keeps operations_keeps c s hs hp

/-- May the call be made? -/
def check (c : Call ⊕ Op) (s : Base σ) : Bool := c.elim (Call.check · s) (Op.check · s)

theorem pre_of_check {cb : Callbacks} {c : Call ⊕ Op} {s : Base σ}
    (hs : ∃ m : Image σ, Represents s m) (h : check c s = true) : (everything σ cb).Pre c s := by
  cases c with
  | inl c => exact Call.pre_of_check hs h
  | inr op => exact Op.pre_of_check hs h

/-- Calls of both headers that are carried out on a new tree are a run. -/
theorem exists_run_of_everything (config : Config) (cb : Callbacks) (cs : List (Call ⊕ Op))
    (as : List (Answer ⊕ Result)) {β : Type} (f : Base σ → β) (b : β)
    (h : ((everything σ cb).follow check cs (Base.initWithConfig config)).map (Prod.map id f) =
      some (as, b)) :
    ∃ s, (everything σ cb).Run (Base.initWithConfig config) (cs.zip as) s ∧
      (∃ m : Image σ, Represents s m) ∧ f s = b :=
  Interface.exists_run_of_follow (fun _ _ => pre_of_check) everything_keeps (represents_init config) h

/-- In a state that shows an image no allowed call faults, nor does the end. -/
theorem everything_returns (cb : Callbacks) {s : Base σ} (hs : ∃ m : Image σ, Represents s m) :
    (∀ c, (everything σ cb).Pre c s → ∃ r s', (everything σ cb).exec c s = .ok (r, s')) ∧
      ∃ s', Rbtree.done cb s = .ok ((), s') := by
  constructor
  · intro c hp
    obtain ⟨r, s', he, -⟩ := everything_keeps c s hs hp
    exact ⟨r, s', he⟩
  · obtain ⟨m, ⟨z, h⟩, -⟩ := hs
    obtain ⟨_, s', he, -⟩ := Rbtree.done_spec cb h
    exact ⟨s', he⟩

/-- No call faults in a tree that any calls have led to. -/
theorem no_fault (config : Config) (cb : Callbacks) {s : Base σ}
    {h : List ((Call ⊕ Op) × (Answer ⊕ Result))}
    (hrun : (everything σ cb).Run (Base.initWithConfig config) h s) :
    (∀ c, (everything σ cb).Pre c s → ∃ r s', (everything σ cb).exec c s = .ok (r, s')) ∧
      ∃ s', Rbtree.done cb s = .ok ((), s') :=
  everything_returns cb (hrun.keeps everything_keeps (represents_init config))

theorem no_fault_three : ∃ s : Base SlotPool, InOrder s [.slot 0, .slot 1, .slot 2] ∧
    (∀ c, (everything SlotPool lengthCallbacks).Pre c s →
      ∃ r s', (everything SlotPool lengthCallbacks).exec c s = .ok (r, s')) ∧
    ∃ s', Rbtree.done lengthCallbacks s = .ok ((), s') := by
  obtain ⟨s, hrun, hin, -⟩ := exists_run
  exact ⟨s, hin, no_fault _ lengthCallbacks hrun.inl⟩

end MulleRbtree
