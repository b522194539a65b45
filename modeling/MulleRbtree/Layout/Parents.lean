import MulleRbtree.Source.Remove

/-!
# The fixup of a removal, with its reads of parents in the open

In `…With parentOf` every read of a parent goes through `parentOf`; with `getParent` these are the
functions of the source.

* `blackBlackFixupWith`, and the functions it calls that read a parent;
* `leftRotateNodeWith_eq`, `assertDirtyFlagPropagationWith_eq`, …: the callees ask for the parent of
  the sentinel on no account, so it does not matter what `parentOf` answers there.
-/

namespace MulleRbtree
namespace Base

open Program

variable {σ : Type}

/-! ### Reads change nothing -/

section Reads

variable {n : Ref}

theorem guarantees_assert {p : Prop} [Decidable p] : Guarantees Eq (assert p : M σ Unit) :=
  .ite (fun _ => .pure ()) fun _ => .throw _

theorem guarantees_read {α : Type} {f : Base σ → α} : Guarantees Eq (read f) := by
  rintro s a _ ⟨⟩
  rfl

theorem guarantees_deref : Guarantees Eq (deref n : M σ Rbnode) := by
  intro s a s' h
  unfold deref at h
  split at h
  · cases h
    rfl
  · cases h

theorem guarantees_isDirty : Guarantees Eq (isDirty n : M σ Bool) :=
  guarantees_deref.bind fun _ => .pure _

end Reads

variable [MulleStorage σ]

/-- The assertion about dirty flags only looks. -/
theorem guarantees_assertDirtyFlagPropagation {n : Ref} :
    Guarantees Eq (assertDirtyFlagPropagation n : M σ Unit) := by
  refine guarantees_isDirty.bind fun b => .ite (fun _ => ?_) fun _ => .pure ()
  refine guarantees_read.bind fun k => .iterate (fun n => ?_) _ n
  refine guarantees_assert.bind fun _ => guarantees_read.bind fun r =>
    .ite (fun _ => .pure _) fun _ => ?_
  exact (guarantees_deref.bind fun _ => .pure _).bind fun p => guarantees_isDirty.bind fun d =>
    guarantees_assert.bind fun _ => .pure _

variable (parentOf : Ref → M σ Ref)

/-! ### The functions -/

def nodeReparentWith (p t : Ref) : M σ Unit := do
  putParent t (← parentOf p)
  setNodeMarked t
  if (← parentOf p) = .nil then
    setRoot t
  else do
    (if p = (← getRight (← parentOf p)) then do putRight (← parentOf p) t
      else do putLeft (← parentOf p) t : M σ Unit)
    setNodeMarked (← parentOf p)

def assertDirtyAncestorsWith (node : Ref) : M σ Unit :=
  loop (fun node => do
    assert (node ≠ .nil)
    if node = (← getRoot) then return .inr ()
    else do
      let parent ← parentOf node
      assert ((← isDirty parent) = true)
      return .inl parent) node

def assertDirtyFlagPropagationWith (node : Ref) : M σ Unit := do
  when (← isDirty node) (assertDirtyAncestorsWith parentOf node)

def markNodeAsDirtyWith (node : Ref) : M σ Unit := do
  assert (Options.useDirty (← getOptions) = true)
  let _ ← whileLoop (fun node => return node ≠ .nil)
    (fun node => do
      setDirty node
      parentOf node) node

def leftRotateNodeWith (p : Ref) : M σ Unit := do
  write fun s => { s with rotations := s.rotations + 1 }
  setNodeMarked p
  let t ← getRight p
  setNodeMarked t
  assert (p ≠ .nil)
  assert (t ≠ .nil)
  nodeSetRight p (← getLeft t)
  setNodeMarked (← getLeft t)
  nodeReparentWith parentOf p t
  putLeft t p
  putParent p t
  setNodeMarked (← parentOf p)
  when (Options.useDirty (← getOptions)) do
    markNodeAsDirtyWith parentOf p
    assertDirtyFlagPropagationWith parentOf p
    assertDirtyFlagPropagationWith parentOf t

def rightRotateNodeWith (p : Ref) : M σ Unit := do
  write fun s => { s with rotations := s.rotations + 1 }
  setNodeMarked p
  let t ← getLeft p
  setNodeMarked t
  assert (p ≠ .nil)
  assert (t ≠ .nil)
  nodeSetLeft p (← getRight t)
  setNodeMarked (← getRight t)
  nodeReparentWith parentOf p t
  putRight t p
  putParent p t
  setNodeMarked (← parentOf p)
  when (Options.useDirty (← getOptions)) do
    markNodeAsDirtyWith parentOf p
    assertDirtyFlagPropagationWith parentOf p
    assertDirtyFlagPropagationWith parentOf t

def blackBlackLeftWith (x : Ref) : M σ (Ref × Ref) := do
  let w ← getRight (← parentOf x)
  let w ← (if ← isRed w then do
      setBlack w
      setRed (← parentOf x)
      leftRotateNodeWith parentOf (← parentOf x)
      getRight (← parentOf x)
    else return w : M σ Ref)
  if ← andAlso (do isBlack (← getLeft w)) (do isBlack (← getRight w)) then do
    setRed w
    return (← parentOf x, w)
  else do
    let w ← (if ← (do isBlack (← getRight w) : M σ Bool) then do
        setBlack (← getLeft w)
        setRed w
        rightRotateNodeWith parentOf w
        getRight (← parentOf x)
      else return w : M σ Ref)
    let parentColor ← getColor (← parentOf x)
    setColor w parentColor
    setBlack (← parentOf x)
    setBlack (← getRight w)
    leftRotateNodeWith parentOf (← parentOf x)
    return (← getRoot, w)

def blackBlackRightWith (x : Ref) : M σ (Ref × Ref) := do
  let w ← getLeft (← parentOf x)
  let w ← (if ← isRed w then do
      setBlack w
      setRed (← parentOf x)
      rightRotateNodeWith parentOf (← parentOf x)
      getLeft (← parentOf x)
    else return w : M σ Ref)
  if ← andAlso (do isBlack (← getRight w)) (do isBlack (← getLeft w)) then do
    setRed w
    return (← parentOf x, w)
  else do
    let w ← (if ← (do isBlack (← getLeft w) : M σ Bool) then do
        setBlack (← getRight w)
        setRed w
        leftRotateNodeWith parentOf w
        getLeft (← parentOf x)
      else return w : M σ Ref)
    let parentColor ← getColor (← parentOf x)
    setColor w parentColor
    setBlack (← parentOf x)
    setBlack (← getLeft w)
    rightRotateNodeWith parentOf (← parentOf x)
    return (← getRoot, w)

def blackBlackFixupWith (x : Ref) : M σ Unit := do
  let x ← whileLoop
    (fun x => andAlso (return x ≠ (← getRoot)) (isBlack x))
    (fun x => do
      let (x, w) ← (if x = (← getLeft (← parentOf x)) then blackBlackLeftWith parentOf x
        else blackBlackRightWith parentOf x : M σ (Ref × Ref))
      assertDirtyFlagPropagationWith parentOf x
      assertDirtyFlagPropagationWith parentOf w
      return x) x
  setBlack x
  setNodeBlack (← getRoot)

/-- The function of the source. -/
theorem blackBlackFixupWith_getParent :
    (blackBlackFixupWith getParent : Ref → M σ Unit) = blackBlackFixup := rfl

/-! ### Callees -/

omit [MulleStorage σ] in
/-- What comes after a failing assertion does not matter. -/
theorem assert_bind_congr {α : Type} {q : Prop} [Decidable q] {m m' : M σ α} (h : q → m = m') :
    (assert q >>= fun _ => m) = (assert q >>= fun _ => m') := by
  by_cases hq : q
  · rw [h hq]
  · rw [assert, if_neg hq]
    rfl

section Callees

variable {parentOf} (h : ∀ n, n ≠ .nil → parentOf n = getParent n) {n p t : Ref}
include h

omit [MulleStorage σ] in
theorem nodeReparentWith_eq (hp : p ≠ .nil) :
    nodeReparentWith parentOf p t = nodeReparent p t := by
  unfold nodeReparentWith nodeReparent
  rw [h p hp]

theorem assertDirtyAncestorsWith_eq :
    assertDirtyAncestorsWith parentOf n = assertDirtyAncestors n := by
  unfold assertDirtyAncestorsWith assertDirtyAncestors
  congr 1
  funext m
  refine assert_bind_congr fun hm => ?_
  rw [h m hm]

theorem assertDirtyFlagPropagationWith_eq :
    assertDirtyFlagPropagationWith parentOf n = assertDirtyFlagPropagation n := by
  unfold assertDirtyFlagPropagationWith assertDirtyFlagPropagation
  rw [assertDirtyAncestorsWith_eq h]

theorem markNodeAsDirtyWith_eq : markNodeAsDirtyWith parentOf n = markNodeAsDirty n := by
  unfold markNodeAsDirtyWith markNodeAsDirty whileLoop
  refine bind_congr fun o => bind_congr fun _ => ?_
  congr 2
  funext m
  by_cases hm : m = .nil
  · subst hm
    rfl
  · dsimp only
    rw [h m hm]

theorem leftRotateNodeWith_eq : leftRotateNodeWith parentOf p = leftRotateNode p := by
  refine bind_congr fun _ => bind_congr fun _ => bind_congr fun t => bind_congr fun _ =>
    assert_bind_congr fun hp => ?_
  simp only [nodeReparentWith_eq h hp, h p hp, markNodeAsDirtyWith_eq h,
    assertDirtyFlagPropagationWith_eq h]

theorem rightRotateNodeWith_eq : rightRotateNodeWith parentOf p = rightRotateNode p := by
  refine bind_congr fun _ => bind_congr fun _ => bind_congr fun t => bind_congr fun _ =>
    assert_bind_congr fun hp => ?_
  simp only [nodeReparentWith_eq h hp, h p hp, markNodeAsDirtyWith_eq h,
    assertDirtyFlagPropagationWith_eq h]

end Callees

/-! ### Reads that are checked -/

section Checked

variable {parentOf} (hoff : ∀ n, n ≠ .nil → parentOf n = getParent n)
  (hread : ∀ n, Restricts (parentOf n) (getParent n)) (x : Ref)
include hoff hread

theorem blackBlackLeftWith_restricts :
    Restricts (blackBlackLeftWith parentOf x) (blackBlackLeft x) := by
  unfold blackBlackLeftWith blackBlackLeft
  simp only [leftRotateNodeWith_eq hoff, rightRotateNodeWith_eq hoff]
  repeat' first
    | exact .refl _
    | exact hread x
    | refine .bind ?_ fun _ => ?_
    | refine .ite ?_ ?_

theorem blackBlackRightWith_restricts :
    Restricts (blackBlackRightWith parentOf x) (blackBlackRight x) := by
  unfold blackBlackRightWith blackBlackRight
  simp only [leftRotateNodeWith_eq hoff, rightRotateNodeWith_eq hoff]
  repeat' first
    | exact .refl _
    | exact hread x
    | refine .bind ?_ fun _ => ?_
    | refine .ite ?_ ?_

/-- If every read of a parent is what it is in the source or faults, so is the fixup. -/
theorem blackBlackFixupWith_restricts :
    Restricts (blackBlackFixupWith parentOf x) (blackBlackFixup x) := by
  unfold blackBlackFixupWith blackBlackFixup whileLoop loop
  simp only [assertDirtyFlagPropagationWith_eq hoff]
  refine .bind (.bind (.refl _) fun k => Restricts.iterate (fun x => ?_) _ x) fun _ => .refl _
  refine .bind (.refl _) fun b => .ite (.bind ?_ fun _ => .refl _) (.refl _)
  refine .bind (hread x) fun p => .bind (.refl _) fun l => .bind (.ite ?_ ?_) fun _ => .refl _
  · exact blackBlackLeftWith_restricts hoff hread x
  · exact blackBlackRightWith_restricts hoff hread x

end Checked

end Base
end MulleRbtree
