import MulleRbtree.Layout.Parents
import MulleRbtree.Layout.Rotation
import MulleRbtree.Tree.BlackBlack

/-!
# `_mulle__rbtree_black_black_fixup` does what `fixBlackBlack` does

The two halves of the loop body are one function of a side (`blackBlackSide`).  The current node
may be the sentinel in the first iteration: its parent was set by the removal and no rotation
writes it.  The sibling is never the sentinel, for its black height is positive.

* `Tells`: what is asked of a function by which the fixup reads the parent of the current node;
* `blackBlackFixupWith_spec`: with any such function the fixup does the same.
-/

namespace MulleRbtree

open BinaryTree Cells Program

namespace Base

variable {σ : Type} [MulleStorage σ]

/-! ### The halves as one -/

/-- Case 4, for a current node on side `d`. -/
def blackBlackTurnNode (d : Side) (x w : Ref) : M σ (Ref × Ref) := do
  let parentColor ← getColor (← getParent x)
  setColor w parentColor
  setBlack (← getParent x)
  setBlack (← getChild d.other w)
  rotateNode d (← getParent x)
  return (← getRoot, w)

/-- Cases 2, 3 and 4. -/
def repairNode (d : Side) (x w : Ref) : M σ (Ref × Ref) := do
  if ← andAlso (do isBlack (← getChild d w)) (do isBlack (← getChild d.other w)) then do
    setRed w
    return (← getParent x, w)
  else do
    let w ← (if ← (do isBlack (← getChild d.other w) : M σ Bool) then do
        setBlack (← getChild d w)
        setRed w
        rotateNode d.other w
        getChild d.other (← getParent x)
      else return w : M σ Ref)
    blackBlackTurnNode d x w

/-- The body of the loop, for a current node on side `d`. -/
def blackBlackSide (d : Side) (x : Ref) : M σ (Ref × Ref) := do
  let w ← getChild d.other (← getParent x)
  let w ← (if ← isRed w then do
      setBlack w
      setRed (← getParent x)
      rotateNode d (← getParent x)
      getChild d.other (← getParent x)
    else return w : M σ Ref)
  repairNode d x w

theorem blackBlackLeft_eq (x : Ref) :
    (blackBlackLeft x : M σ (Ref × Ref)) = blackBlackSide .left x := rfl
theorem blackBlackRight_eq (x : Ref) :
    (blackBlackRight x : M σ (Ref × Ref)) = blackBlackSide .right x := rfl

/-- The condition of the loop. -/
def blackBlackCond (x : Ref) : M σ Bool :=
  andAlso (return x ≠ (← getRoot)) (isBlack x)

/-- The half for the side of the current node. -/
def blackBlackHalf (x : Ref) : M σ (Ref × Ref) := do
  if x = (← getLeft (← getParent x)) then blackBlackLeft x else blackBlackRight x

/-- The body of the loop. -/
def blackBlackBody (x : Ref) : M σ Ref := do
  let (x, w) ← blackBlackHalf x
  assertDirtyFlagPropagation x
  assertDirtyFlagPropagation w
  return x

/-! ### The same, with the reads of parents in the open -/

section With

variable (parentOf : Ref → M σ Ref)

def blackBlackTurnNodeWith (d : Side) (x w : Ref) : M σ (Ref × Ref) := do
  let parentColor ← getColor (← parentOf x)
  setColor w parentColor
  setBlack (← parentOf x)
  setBlack (← getChild d.other w)
  rotateNode d (← parentOf x)
  return (← getRoot, w)

def repairNodeWith (d : Side) (x w : Ref) : M σ (Ref × Ref) := do
  if ← andAlso (do isBlack (← getChild d w)) (do isBlack (← getChild d.other w)) then do
    setRed w
    return (← parentOf x, w)
  else do
    let w ← (if ← (do isBlack (← getChild d.other w) : M σ Bool) then do
        setBlack (← getChild d w)
        setRed w
        rotateNode d.other w
        getChild d.other (← parentOf x)
      else return w : M σ Ref)
    blackBlackTurnNodeWith parentOf d x w

def blackBlackSideWith (d : Side) (x : Ref) : M σ (Ref × Ref) := do
  let w ← getChild d.other (← parentOf x)
  let w ← (if ← isRed w then do
      setBlack w
      setRed (← parentOf x)
      rotateNode d (← parentOf x)
      getChild d.other (← parentOf x)
    else return w : M σ Ref)
  repairNodeWith parentOf d x w

def blackBlackHalfWith (x : Ref) : M σ (Ref × Ref) := do
  if x = (← getLeft (← parentOf x)) then blackBlackSideWith parentOf .left x
  else blackBlackSideWith parentOf .right x

def blackBlackBodyWith (x : Ref) : M σ Ref := do
  let (x, w) ← blackBlackHalfWith parentOf x
  assertDirtyFlagPropagation x
  assertDirtyFlagPropagation w
  return x

theorem blackBlackBodyWith_getParent :
    (blackBlackBodyWith getParent : Ref → M σ Ref) = blackBlackBody := rfl

/-- The body with other checks at its end. -/
def blackBlackBodyChecked (check : Ref → M σ Unit) (x : Ref) : M σ Ref := do
  let (x, w) ← blackBlackHalfWith parentOf x
  check x
  check w
  return x

theorem blackBlackBodyChecked_assert :
    blackBlackBodyChecked parentOf assertDirtyFlagPropagation = blackBlackBodyWith parentOf := rfl

/-- With `NDEBUG` nothing is checked. -/
theorem blackBlackFixupNdebug_eq (x : Ref) : (blackBlackFixupNdebug x : M σ Unit) = (do
    let x ← whileLoop blackBlackCond (blackBlackBodyChecked getParent fun _ => return ()) x
    setBlack x
    setNodeBlack (← getRoot)) := by
  have hbody : (blackBlackBodyChecked getParent fun _ => return () : Ref → M σ Ref) = fun x => do
      let (x, _) ← (if x = (← getLeft (← getParent x)) then blackBlackLeft x
        else blackBlackRight x : M σ (Ref × Ref))
      return x := by
    funext x
    simp only [blackBlackBodyChecked, blackBlackHalfWith, bind_assoc, pure_bind]
    rfl
  rw [hbody]
  rfl

variable {parentOf}

theorem blackBlackLeftWith_eq (h : ∀ n, n ≠ .nil → parentOf n = getParent n) (x : Ref) :
    blackBlackLeftWith parentOf x = blackBlackSideWith parentOf .left x := by
  simp only [blackBlackLeftWith, leftRotateNodeWith_eq h, rightRotateNodeWith_eq h]
  rfl

theorem blackBlackRightWith_eq (h : ∀ n, n ≠ .nil → parentOf n = getParent n) (x : Ref) :
    blackBlackRightWith parentOf x = blackBlackSideWith parentOf .right x := by
  simp only [blackBlackRightWith, leftRotateNodeWith_eq h, rightRotateNodeWith_eq h]
  rfl

theorem blackBlackFixupWith_eq (h : ∀ n, n ≠ .nil → parentOf n = getParent n) (x : Ref) :
    blackBlackFixupWith parentOf x = (do
      let x ← whileLoop blackBlackCond (blackBlackBodyWith parentOf) x
      setBlack x
      setNodeBlack (← getRoot)) := by
  have hbody : blackBlackBodyWith parentOf = fun x => do
      let (x, w) ← (if x = (← getLeft (← parentOf x)) then blackBlackLeftWith parentOf x
        else blackBlackRightWith parentOf x : M σ (Ref × Ref))
      assertDirtyFlagPropagationWith parentOf x
      assertDirtyFlagPropagationWith parentOf w
      return x := by
    funext x
    simp only [blackBlackBodyWith, blackBlackHalfWith, blackBlackLeftWith_eq h,
      blackBlackRightWith_eq h, assertDirtyFlagPropagationWith_eq h, bind_assoc]
  rw [hbody]
  rfl

end With

variable {s : Base σ} {E : Env σ} {z : Sentinel} {K : Multiset Cell} {c : Path Entry}
  {f : Frame Entry} {x near far T : ETree} {p w : Entry} {d : Side} {n : ℕ} {r : Ref}
  {parentOf : Ref → M σ Ref}

/-- Through `parentOf` the parent of `x` is found, in the epoch `epoch` and with the sentinel `z`,
wherever `x` is on side `d` of the node in slot `i`. -/
def Tells (parentOf : Ref → M σ Ref) (z : Sentinel) (epoch i : ℕ) (d : Side) (x : ETree) : Prop :=
  ∀ ⦃s : Base σ⦄ ⦃E : Env σ⦄ ⦃K : Multiset Cell⦄ ⦃f : Frame Entry⦄ ⦃c : Path Entry⦄,
    Repr s E z K (plug (f :: c) x) → f.label.slot = i → f.side = d → E.epoch = epoch →
      parentOf (treeRef x) s = .ok (.slot i, s)

/-- The sentinel tells its parent if it was told before. -/
theorem tells_getParent {epoch i : ℕ} (hz : x = nil → z.parent = .slot i) :
    Tells (getParent : Ref → M σ Ref) z epoch i d x := by
  intro s E K f c h hi hd hE
  rw [h.getParent (by rw [parentRef_cons, hi]; exact hz), parentRef_cons, hi]

/-- A node tells its parent anyway. -/
theorem tells_of_ne {epoch i : ℕ} (h : ∀ n, n ≠ .nil → parentOf n = getParent n) (hx : x ≠ nil) :
    Tells parentOf z epoch i d x := by
  intro s E K f c hr hi hd hE
  rw [h _ (mt treeRef_eq_nil.1 hx)]
  exact tells_getParent (fun e => absurd e hx) hr hi hd hE

/-! ### Nodes of a tree -/

/-- The node is in the tree, or is the sentinel. -/
def Occurs (r : Ref) (T : ETree) : Prop := ∃ c t, T = plug c t ∧ treeRef t = r

theorem occurs_plug (c : Path Entry) (t : ETree) : Occurs (treeRef t) (plug c t) :=
  ⟨c, t, rfl, rfl⟩

theorem occurs_iff : Occurs r T ↔ r = .nil ∨ ∃ i ∈ slots T, r = .slot i := by
  constructor
  · rintro ⟨c, t, rfl, rfl⟩
    cases t with
    | nil => exact .inl rfl
    | node e l r =>
      exact .inr ⟨e.slot, List.mem_map.2 ⟨e, mem_inorder_plug.2 (by simp), rfl⟩, rfl⟩
  · rintro (rfl | ⟨i, hi, rfl⟩)
    · by_cases hT : T = nil
      · exact ⟨[], nil, hT, rfl⟩
      · obtain ⟨g, a, u, hpop⟩ := exists_pop .left [] hT
        exact ⟨⟨.left, a, u⟩ :: g, nil, (plug_pop hpop).symm, rfl⟩
    · obtain ⟨e, he, rfl⟩ := List.mem_map.1 hi
      obtain ⟨c, l, u, rfl⟩ := exists_plug_of_mem he
      exact ⟨c, node e l u, rfl, rfl⟩

/-- The assertion about dirty flags holds at every node of a tree whose flags are in order. -/
theorem assertDirtyFlagPropagation_of_dirt (h : Repr s E z K T) (hT : Dirt E.options T)
    (hr : Occurs r T) : assertDirtyFlagPropagation r s = .ok ((), s) := by
  obtain ⟨c, t, rfl, rfl⟩ := hr
  exact assertDirtyFlagPropagation_spec h fun ht => hT.ancestors ht

/-! ### Case 4 -/

theorem blackBlackTurnNode_spec (h : Repr s E z K (plug (⟨d, p, join d w near far⟩ :: c) x))
    (ht : Tells parentOf z E.epoch p.slot d x) :
    Ensures (blackBlackTurnNodeWith parentOf d (treeRef x) (.slot w.slot)) s fun r s' =>
      r = (treeRef (blackBlackTurn E.stamp d p x w near far c), .slot w.slot) ∧
        Repr s' E.turned z K (blackBlackTurn E.stamp d p x w near far c) := by
  have hparent : ∀ {s' : Base σ} {q : Entry} {u : ETree},
      Repr s' E z K (plug (⟨d, q, u⟩ :: c) x) → q.slot = p.slot →
      parentOf (treeRef x) s' = .ok (.slot p.slot, s') := fun h' hq => ht h' hq rfl rfl
  have hcolor := Repr.getColor (c := c) (d := d) (e := p) (x := x) (y := join d w near far) h
  -- the sibling takes the colour of the parent
  have hw := (Repr.across h).recolor (join_ne_nil _ _ _ _) fun k => k.setColor p.color.getColor
  rw [treeRef_join, mapRoot_join] at hw
  refine .bind_eq (hparent h rfl) (.bind_eq hcolor (Ensures.bind (.bind_eq
    (assert_eq (Color.getColor_eq _)) hw) fun _ s₁ h₁ => ?_))
  -- the parent becomes black
  have h₁' : Repr s₁ E z K (plug (⟨d, p, join d (w.recolor fun k => k.setColor p.color.getColor)
      near far⟩ :: c) x) := h₁.cast (by simp [plug_cons, Frame.fill, Frame.across])
  have hp := Repr.setBlack (c := c) (t := Frame.fill ⟨d, p, _⟩ x) h₁'
  rw [treeRef_fill, Frame.mapRoot_fill] at hp
  refine .bind_eq (hparent h₁' rfl) (hp.bind fun _ s₂ h₂ => ?_)
  -- the far nephew becomes black
  have h₂' : Repr s₂ E z K (plug (⟨d.other, p.recolor Color.setBlack, x⟩ :: c)
      (join d (w.recolor fun k => k.setColor p.color.getColor) near far)) :=
    h₂.cast (by simp [plug_cons, Frame.fill])
  have hfar := Repr.setBlack (c := ⟨d.other, w.recolor fun k => k.setColor p.color.getColor, near⟩
    :: ⟨d.other, p.recolor Color.setBlack, x⟩ :: c) (t := far)
    (h₂'.cast (by simp [plug_cons, Frame.fill]))
  refine .bind_eq h₂'.getChild_other (hfar.bind fun _ s₃ h₃ => ?_)
  -- the parent goes down
  have h₃' : Repr s₃ E z K (plug c (join d (p.recolor Color.setBlack) x
      (join d (w.recolor fun k => k.setColor p.color.getColor) near (blacken far)))) :=
    h₃.cast (by simp [plug_cons, Frame.fill, blacken])
  refine .bind_eq (hparent (u := join d _ near (blacken far)) h₃' rfl)
    ((rotateNode_spec h₃').bind fun _ s₄ h₄ => .bind_eq h₄.getRoot (.pure ⟨rfl, h₄⟩))

/-! ### Cases 2 and 3 -/

/-- Reading the nephews. -/
theorem isBlack_nephews (h : Repr s E z K (plug (⟨d, p, join d w near far⟩ :: c) x)) :
    (do isBlack (← getChild d (.slot w.slot)) : M σ Bool) s =
        .ok (!rootHas Entry.isRed near, s) ∧
      (do isBlack (← getChild d.other (.slot w.slot)) : M σ Bool) s =
        .ok (!rootHas Entry.isRed far, s) := by
  have hw : Repr s E z K (plug (⟨d.other, p, x⟩ :: c) (join d w near far)) := h.across
  have hnear := Repr.isBlack (c := ⟨d, w, far⟩ :: ⟨d.other, p, x⟩ :: c) (t := near) hw
  have hfar := Repr.isBlack (c := ⟨d.other, w, near⟩ :: ⟨d.other, p, x⟩ :: c) (t := far)
    (hw.cast (by simp [plug_cons, Frame.fill]))
  exact ⟨(bind_eq hw.getChild).trans hnear, (bind_eq hw.getChild_other).trans hfar⟩

/-- Case 2. -/
theorem repairNode_up (h : Repr s E z K (plug (⟨d, p, join d w near far⟩ :: c) x))
    (ht : Tells parentOf z E.epoch p.slot d x)
    (hr : (rootHas Entry.isRed near || rootHas Entry.isRed far) = false) :
    Ensures (repairNodeWith parentOf d (treeRef x) (.slot w.slot)) s fun r s' =>
      r = (.slot p.slot, .slot w.slot) ∧ Repr s' E z K (plug (⟨d, p, join d
        (w.recolor Color.setRed) near far⟩ :: c) x) := by
  obtain ⟨hnear, hfar⟩ := isBlack_nephews h
  rw [Bool.or_eq_false_iff] at hr
  rw [hr.1] at hnear
  rw [hr.2] at hfar
  have hw := (Repr.across h).recolor (join_ne_nil _ _ _ _) Color.setRed
  rw [treeRef_join, mapRoot_join] at hw
  refine .bind_eq (andAlso_eq hnear hfar) (hw.bind fun _ s₁ h₁ => ?_)
  have h₁' : Repr s₁ E z K (plug (⟨d, p, join d (w.recolor Color.setRed) near far⟩ :: c) x) :=
    h₁.cast (by simp [plug_cons, Frame.fill, Frame.across])
  exact .bind_eq (ht h₁' rfl rfl rfl) (.pure ⟨rfl, h₁'⟩)

/-- Case 4, the far nephew being red. -/
theorem repairNode_far (h : Repr s E z K (plug (⟨d, p, join d w near far⟩ :: c) x))
    (ht : Tells parentOf z E.epoch p.slot d x) (hr : rootHas Entry.isRed far = true) :
    Ensures (repairNodeWith parentOf d (treeRef x) (.slot w.slot)) s fun r s' =>
      r = (treeRef (blackBlackTurn E.stamp d p x w near far c), .slot w.slot) ∧
        Repr s' E.turned z K (blackBlackTurn E.stamp d p x w near far c) := by
  obtain ⟨hnear, hfar⟩ := isBlack_nephews h
  rw [hr] at hfar
  refine .bind_eq (andAlso_eq hnear hfar) ?_
  rw [if_neg (by simp)]
  exact .bind_eq hfar (.bind_eq rfl (blackBlackTurnNode_spec h ht))

/-- Case 3, then case 4: only the near nephew is red. -/
theorem repairNode_near {v : Entry} {b e : ETree}
    (h : Repr s E z K (plug (⟨d, p, join d w (join d.other v b e) far⟩ :: c) x))
    (ht : Tells parentOf z E.epoch p.slot d x) (hv : v.isRed = true)
    (hr : rootHas Entry.isRed far = false) :
    Ensures (repairNodeWith parentOf d (treeRef x) (.slot w.slot)) s fun r s' =>
      ∃ T, T = blackBlackTurn E.stamp d ((p.touch E.stamp).soil E.stamp) x
        (((v.recolor Color.setBlack).touch E.stamp).soil E.stamp) e (join d.other
          (((w.recolor Color.setRed).touch E.stamp).soil E.stamp) far
          (b.mapRoot (Entry.touch E.stamp))) (Path.mapLabels (Entry.soil E.stamp) c) ∧
      r = (treeRef T, .slot v.slot) ∧ Repr s' (E.turnedBy 2) z K T := by
  obtain ⟨hnear, hfar⟩ := isBlack_nephews h
  rw [rootHas_join, hv] at hnear
  rw [hr] at hfar
  refine .bind_eq (andAlso_eq hnear hfar) ?_
  rw [Bool.not_true, Bool.false_and, if_neg (by simp)]
  refine .bind_eq hfar ?_
  rw [Bool.not_false, if_pos rfl]
  simp only [bind_assoc]
  have hw : Repr s E z K (plug (⟨d.other, p, x⟩ :: c) (join d w (join d.other v b e) far)) :=
    h.across
  -- the near nephew becomes black, the sibling red
  have hblack := Repr.setBlack (c := ⟨d, w, far⟩ :: ⟨d.other, p, x⟩ :: c)
    (t := join d.other v b e) hw
  refine .bind_eq hw.getChild (hblack.bind fun _ s₁ h₁ => ?_)
  have hred := Repr.recolor (c := ⟨d.other, p, x⟩ :: c)
    (t := join d w (join d.other (v.recolor Color.setBlack) b e) far)
    (h₁.cast (by simp [plug_cons, Frame.fill])) (by simp) Color.setRed
  rw [treeRef_join] at hred
  refine hred.bind fun _ s₂ h₂ => ?_
  -- the sibling goes down
  have h₂' : Repr s₂ E z K (plug (⟨d.other, p, x⟩ :: c) (join d.other (w.recolor Color.setRed) far
      (join d.other (v.recolor Color.setBlack) b e))) := h₂.cast (by simp)
  refine (rotateNode_spec h₂').bind fun _ s₃ h₃ => ?_
  have h₃' : Repr s₃ E.turned z K (plug (⟨d, (p.touch E.stamp).soil E.stamp, join d
      (((v.recolor Color.setBlack).touch E.stamp).soil E.stamp) e (join d.other
        (((w.recolor Color.setRed).touch E.stamp).soil E.stamp) far
        (b.mapRoot (Entry.touch E.stamp)))⟩ :: Path.mapLabels (Entry.soil E.stamp) c) x) :=
    h₃.cast (by simp [plug_cons, Frame.fill, turn, turnPath])
  have hchild := h₃'.headChild d.other
  rw [if_neg d.other_ne, treeRef_join] at hchild
  refine .bind_eq (ht h₃' rfl rfl rfl) (.bind_eq hchild ?_)
  refine (blackBlackTurnNode_spec h₃' ht).mono ?_
  rintro _ s₄ ⟨rfl, h₄⟩
  exact ⟨_, rfl, rfl, h₄⟩

/-- Cases 3 and 4 together. -/
theorem repairNode_settle (h : Repr s E z K (plug (⟨d, p, join d w near far⟩ :: c) x))
    (ht : Tells parentOf z E.epoch p.slot d x)
    (hr : (rootHas Entry.isRed near || rootHas Entry.isRed far) = true) :
    Ensures (repairNodeWith parentOf d (treeRef x) (.slot w.slot)) s fun r s' => ∃ k ≤ 2,
      Repr s' (E.turnedBy k) z K (settle E.stamp d p x w near far c) ∧
        r.1 = treeRef (settle E.stamp d p x w near far c) ∧
        Occurs r.2 (settle E.stamp d p x w near far c) := by
  unfold settle
  cases hfar : rootHas Entry.isRed far with
  | true =>
    refine (repairNode_far h ht hfar).mono ?_
    rintro _ s' ⟨rfl, h'⟩
    rw [if_pos rfl]
    exact ⟨1, by omega, h', rfl, ⟨_, _, rfl, by simp [turn]⟩⟩
  | false =>
    have hnear : rootHas Entry.isRed near = true := by simpa [hfar] using hr
    obtain ⟨v, b, e, rfl⟩ := exists_join d.other (ne_nil_of_rootHas hnear)
    rw [rootHas_join] at hnear
    refine (repairNode_near h ht hnear hfar).mono ?_
    rintro _ s' ⟨T, rfl, rfl, h'⟩
    rw [if_neg (by simp), unjoin_join]
    exact ⟨2, by omega, h', rfl, ⟨_, _, rfl, by simp [turn]⟩⟩

/-! ### One iteration -/

/-- At the nodes of trees that are `Fine` the check passes. -/
def Passes (check : Ref → M σ Unit) (E : Env σ) (z : Sentinel) (K : Multiset Cell)
    (Fine : ETree → Prop) : Prop :=
  ∀ ⦃s : Base σ⦄ ⦃k : ℕ⦄ ⦃T : ETree⦄ ⦃r : Ref⦄, Repr s (E.turnedBy k) z K T → Fine T →
    Occurs r T → check r s = .ok ((), s)

theorem passes_assert :
    Passes (assertDirtyFlagPropagation : Ref → M σ Unit) E z K (Dirt E.options) :=
  fun _ _ _ _ h hT hr => assertDirtyFlagPropagation_of_dirt h hT hr

variable {Fine : ETree → Prop} {check : Ref → M σ Unit}

/-- What an iteration leaves at a black sibling: either the repaired tree, with the root for the
next node, or the parent, one black node short. -/
def Repaired (Fine : ETree → Prop) (E : Env σ) (z : Sentinel) (K : Multiset Cell)
    (f : Frame Entry) (c : Path Entry) (x : ETree) (w : Entry) (near far : ETree) (r : Ref × Ref)
    (s' : Base σ) : Prop :=
  ∃ k ≤ 2, ∃ T, Repr s' (E.turnedBy k) z K T ∧ Fine T ∧ Occurs r.2 T ∧
    if (rootHas Entry.isRed near || rootHas Entry.isRed far) then
      T = settle E.stamp f.side f.label x w near far c ∧ r.1 = treeRef T
    else k = 0 ∧ T = plug c (join f.side f.label x (join f.side (w.recolor Color.setRed) near far)) ∧
      r.1 = .slot f.label.slot

theorem repairNode_spec (hP : Turnable E.stamp Fine) (h : Repr s E z K (plug (f :: c) x))
    (ht : Tells parentOf z E.epoch f.label.slot f.side x) (hs : f.sibling = join f.side w near far)
    (hd : Fine (plug (f :: c) x)) :
    Ensures (repairNodeWith parentOf f.side (treeRef x) (.slot w.slot)) s
      (Repaired Fine E z K f c x w near far) := by
  obtain ⟨d, p, _⟩ := f
  dsimp only at hs ht ⊢
  subst hs
  cases hr : rootHas Entry.isRed near || rootHas Entry.isRed far with
  | true =>
    refine (repairNode_settle h ht hr).mono ?_
    rintro r s' ⟨k, hk, h', h₁, h₂⟩
    refine ⟨k, hk, _, h', hP.settle hd, h₂, ?_⟩
    rw [hr, if_pos rfl]
    exact ⟨rfl, h₁⟩
  | false =>
    refine (repairNode_up h ht hr).mono ?_
    rintro _ s' ⟨rfl, h'⟩
    refine ⟨0, by omega, _, h', hP.congr hd ?_, ?_, ?_⟩
    · simp [map_plug, plug_cons, Frame.fill]
    · have hw := occurs_plug (⟨d.other, p, x⟩ :: c) (join d (w.recolor Color.setRed) near far)
      simpa [plug_cons, Frame.fill] using hw
    · rw [hr, if_neg (by simp)]
      exact ⟨rfl, rfl, rfl⟩

theorem blackBlackCond_spec (h : Repr s E z K (plug c x)) :
    blackBlackCond (treeRef x) s = .ok (decide (c ≠ []) && !rootHas Entry.isRed x, s) := by
  refine andAlso_eq ?_ h.isBlack
  rw [bind_eq h.getRoot]
  simp only [Ne, h.treeRef_eq_root]
  rfl

/-- The half that runs is the one for the side of the current node. -/
theorem blackBlackHalf_spec (h : Repr s E z K (plug (f :: c) x))
    (ht : Tells parentOf z E.epoch f.label.slot f.side x) (hs : f.sibling ≠ nil) :
    blackBlackHalfWith parentOf (treeRef x) s = blackBlackSideWith parentOf f.side (treeRef x) s := by
  have hne : treeRef x ≠ treeRef f.sibling := by
    cases x with
    | nil => exact fun e => hs (treeRef_eq_nil.1 e.symm)
    | node => exact h.ref_ne_sibling (by simp)
  refine (bind_eq (ht h rfl rfl rfl)).trans ((bind_eq (h.headChild .left)).trans ?_)
  cases hside : f.side with
  | left => rw [if_pos (by simp)]
  | right => rw [if_neg (by simpa using hne)]

/-- The sibling is black: cases 2, 3 and 4. -/
theorem blackBlackSide_black (hP : Turnable E.stamp Fine) (h : Repr s E z K (plug (f :: c) x))
    (ht : Tells parentOf z E.epoch f.label.slot f.side x) (hs : f.sibling = join f.side w near far)
    (hw : w.isRed = false) (hd : Fine (plug (f :: c) x)) :
    Ensures (blackBlackSideWith parentOf f.side (treeRef x)) s
      (Repaired Fine E z K f c x w near far) := by
  have hchild := h.headChild f.side.other
  have hred := (Repr.across h).isRed
  rw [if_neg f.side.other_ne, hs, treeRef_join] at hchild
  rw [hs, treeRef_join, rootHas_join, hw] at hred
  exact .bind_eq (ht h rfl rfl rfl) (.bind_eq hchild (.bind_eq hred (.bind_eq rfl
    (repairNode_spec hP h ht hs hd))))

/-- Case 1, then the others below the lowered parent. -/
theorem blackBlackSide_red {v : Entry} {near' far' : ETree} (hP : Turnable E.stamp Fine)
    (h : Repr s E z K (plug (f :: c) x))
    (ht : Tells parentOf z E.epoch f.label.slot f.side x) (hs : f.sibling = join f.side w near far)
    (hw : w.isRed = true) (hn : near.mapRoot (Entry.touch E.stamp) = join f.side v near' far')
    (hd : Fine (plug (f :: c) x)) :
    Ensures (blackBlackSideWith parentOf f.side (treeRef x)) s
      (Repaired Fine E.turned z K (lowered E.stamp f near) (raised E.stamp f w far c) x v near'
        far') := by
  obtain ⟨d, p, _⟩ := f
  dsimp only at hs ht hn ⊢
  subst hs
  have hchild := h.headChild d.other
  have hred := (Repr.across h).isRed
  rw [if_neg d.other_ne, treeRef_join] at hchild
  rw [treeRef_join, rootHas_join, hw] at hred
  refine .bind_eq (ht h rfl rfl rfl) (.bind_eq hchild (.bind_eq hred ?_))
  rw [if_pos rfl]
  simp only [bind_assoc]
  -- the sibling becomes black, the parent red
  have hblack := (Repr.across h).setBlack
  rw [treeRef_join, mapRoot_join] at hblack
  refine hblack.bind fun _ s₁ h₁ => ?_
  have h₁' : Repr s₁ E z K (plug (⟨d, p, join d (w.recolor Color.setBlack) near far⟩ :: c) x) :=
    h₁.cast (by simp [plug_cons, Frame.fill, Frame.across])
  have hp := Repr.recolor (c := c) (t := Frame.fill ⟨d, p, _⟩ x) h₁' (by simp) Color.setRed
  rw [treeRef_fill, Frame.mapRoot_fill] at hp
  refine .bind_eq (ht h₁' rfl rfl rfl) (hp.bind fun _ s₂ h₂ => ?_)
  -- the parent goes down
  have h₂' : Repr s₂ E z K (plug (⟨d, p.recolor Color.setRed, join d (w.recolor Color.setBlack)
      near far⟩ :: c) x) := h₂
  refine .bind_eq (ht h₂' rfl rfl rfl) ((rotateNode_spec h₂').bind fun _ s₃ h₃ => ?_)
  have h₃' : Repr s₃ E.turned z K (plug (lowered E.stamp ⟨d, p, join d w near far⟩ near ::
      raised E.stamp ⟨d, p, join d w near far⟩ w far c) x) := h₃
  have hsib : (lowered E.stamp ⟨d, p, join d w near far⟩ near).sibling = join d v near' far' := hn
  have hchild' := h₃'.headChild d.other
  rw [lowered_side, if_neg d.other_ne, hsib, treeRef_join] at hchild'
  exact .bind_eq (ht h₃' rfl rfl rfl) (.bind_eq hchild' (repairNode_spec (E := E.turned) hP h₃' ht hsib
    (hP.lowered hd rfl)))

/-- Moving on to the next node: the assertions at the end of the body hold. -/
theorem blackBlackBody_spec {j : ℕ} {g : Frame Entry} {c' : Path Entry}
    (hcheck : Passes check E z K Fine) (h : Repr s E z K (plug (f :: c) x))
    (ht : Tells parentOf z E.epoch f.label.slot f.side x) (hs : f.sibling ≠ nil)
    (hside : Ensures (blackBlackSideWith parentOf f.side (treeRef x)) s
      (Repaired Fine (E.turnedBy j) z K g c' x w near far)) :
    Ensures (blackBlackBodyChecked parentOf check (treeRef x)) s fun r s' => ∃ q,
      Repaired Fine (E.turnedBy j) z K g c' x w near far (r, q) s' := by
  refine Ensures.bind (hside.congr (blackBlackHalf_spec h ht hs)) ?_
  rintro ⟨r, q⟩ s' ⟨k, hk, T, h', hd, hq, hT⟩
  have hr : Occurs r T := by
    split_ifs at hT
    · obtain ⟨-, rfl⟩ := hT
      exact occurs_plug [] T
    · obtain ⟨-, rfl, rfl⟩ := hT
      exact ⟨_, _, rfl, by simp⟩
  have h'' := h'
  rw [Env.turnedBy_turnedBy] at h''
  exact .bind_eq (hcheck h'' hd hr) (.bind_eq (hcheck h'' hd hq)
    (.pure ⟨q, k, hk, T, h', hd, hq, hT⟩))

/-! ### The loop -/

/-- The loop stops at a node `r` of the tree; painting it and the root black completes the
fixup. -/
def Finished (E : Env σ) (z : Sentinel) (K : Multiset Cell) (T : ETree) (r : Ref)
    (s' : Base σ) : Prop :=
  ∃ k ≤ 3, ∃ g u, r = treeRef u ∧ Repr s' (E.turnedBy k) z K (plug g u) ∧
    blacken (plug g (blacken u)) = T

/-- At the root the loop is over. -/
theorem blackBlack_at_root {m k : ℕ} (h : Repr s (E.turnedBy k) z K T) (hk : k ≤ 3) :
    Ensures (iterate .endless (whileStep blackBlackCond (blackBlackBodyChecked parentOf check))
      (m + 1) (treeRef T)) s (Finished E z K (blacken T)) :=
  whileStep_false (blackBlackCond_spec (c := []) h) ⟨k, hk, [], T, rfl, h, by simp⟩

/-- At a red node the loop is over. -/
theorem blackBlack_at_red {m k : ℕ} (h : Repr s (E.turnedBy k) z K (plug c x)) (hk : k ≤ 3)
    (hr : rootHas Entry.isRed x = true) :
    Ensures (iterate .endless (whileStep blackBlackCond (blackBlackBodyChecked parentOf check))
      (m + 1) (treeRef x)) s (Finished E z K (blacken (plug c (blacken x)))) :=
  whileStep_false ((blackBlackCond_spec h).trans (by rw [hr]; simp)) ⟨k, hk, c, x, rfl, h, rfl⟩

theorem blackBlackLoop_spec {m : ℕ} (hoff : ∀ n, n ≠ .nil → parentOf n = getParent n)
    (hP : Turnable E.stamp Fine) (hcheck : Passes check E z K Fine)
    (h : Repr s E z K (plug c x))
    (ht : ∀ f c', c = f :: c' → Tells parentOf z E.epoch f.label.slot f.side x)
    (hdef : Deficit c x n) (hd : Fine (plug c x)) (hm : c.length < m) :
    Ensures (iterate .endless (whileStep blackBlackCond (blackBlackBodyChecked parentOf check)) m
      (treeRef x)) s (Finished E z K (fixBlackBlack E.stamp c x)) := by
  induction c generalizing x s n m with
  | nil =>
    obtain ⟨m, rfl⟩ : ∃ k, m = k + 1 := ⟨m - 1, by simp at hm; omega⟩
    exact blackBlack_at_root (k := 0) h (by omega)
  | cons f c ih =>
    obtain ⟨m, rfl⟩ : ∃ k, m = k + 2 := ⟨m - 2, by simp at hm; omega⟩
    rw [fixBlackBlack]
    cases hr : rootHas Entry.isRed x with
    | true =>
      rw [if_pos rfl]
      exact blackBlack_at_red (k := 0) h (by omega) hr
    | false =>
      have ht := ht f c rfl
      obtain ⟨hc, hx⟩ := hdef
      rw [hr, if_neg (by simp)] at hx
      obtain ⟨w, near, far, e⟩ := exists_join f.side hc.sibling.ne_nil
      have hcond : blackBlackCond (treeRef x) s = .ok (true, s) :=
        (blackBlackCond_spec h).trans (by rw [hr]; simp)
      rw [if_neg (by simp), e, unjoin_join]
      dsimp only
      cases hw : w.isRed with
      | true =>
        -- case 1 is followed by the last iteration
        rw [if_pos rfl]
        obtain ⟨hc', -⟩ := hole_lowered (o := E.stamp) hc hw e
        obtain ⟨v, near', far', hn⟩ := exists_join f.side hc'.sibling.ne_nil
        refine whileStep_true hcond (blackBlackBody_spec (j := 1) hcheck h ht (by simp [e])
          (blackBlackSide_red hP h ht e hw hn hd)) ?_
        rintro r s' ⟨q, k, hk, T, h', -, -, hT⟩
        unfold repairAt
        rw [show (lowered E.stamp f near).sibling = _ from hn, lowered_side, unjoin_join]
        dsimp only
        split_ifs at hT ⊢ with hnr
        · obtain ⟨rfl, rfl⟩ := hT
          rw [Env.turnedBy_turnedBy] at h'
          exact blackBlack_at_root h' (by omega)
        · obtain ⟨rfl, rfl, rfl⟩ := hT
          have hred : rootHas Entry.isRed (join f.side (lowered E.stamp f near).label x
              (join f.side (v.recolor Color.setRed) near' far')) = true := by simp [lowered]
          rw [Env.turnedBy_zero] at h'
          have hend : Ensures (iterate .endless (whileStep blackBlackCond
              (blackBlackBodyChecked parentOf check)) (m + 1) _) s' _ :=
            blackBlack_at_red h' (by omega) hred
          rwa [treeRef_join] at hend
      | false =>
        rw [if_neg (by simp)]
        refine whileStep_true hcond (blackBlackBody_spec (j := 0) hcheck h ht (by simp [e])
          (blackBlackSide_black hP h ht e hw hd)) ?_
        rintro r s' ⟨q, k, hk, T, h', hd', -, hT⟩
        unfold repairAt
        rw [e, unjoin_join]
        dsimp only
        split_ifs at hT ⊢ with hnr
        · obtain ⟨rfl, rfl⟩ := hT
          exact blackBlack_at_root h' (by omega)
        · obtain ⟨rfl, rfl, rfl⟩ := hT
          rw [Bool.or_eq_true, not_or, Bool.not_eq_true, Bool.not_eq_true] at hnr
          obtain ⟨l, hl⟩ := deficit_parent hc hx hw e hnr.1 hnr.2
          have hrest := ih h' (fun _ _ _ => tells_of_ne hoff (by simp)) hl hd' (m := m + 1)
            (by simp at hm; omega)
          rwa [treeRef_join] at hrest

/-- What is left to do after the loop. -/
theorem blacken_spec (hloop : Ensures (whileLoop blackBlackCond
      (blackBlackBodyChecked parentOf check) (treeRef x)) s (Finished E z K T)) : Ensures (do
        let x ← whileLoop blackBlackCond (blackBlackBodyChecked parentOf check) (treeRef x)
        setBlack x
        setNodeBlack (← getRoot)) s fun _ s' => ∃ k ≤ 3, Repr s' (E.turnedBy k) z K T := by
  refine hloop.bind ?_
  rintro _ s₁ ⟨k, hk, g, u, rfl, h₁, hT⟩
  refine h₁.setBlack.bind fun _ s₂ h₂ => .bind_eq h₂.getRoot
    ((Repr.setNodeBlack (c := []) h₂).mono fun _ s₃ h₃ => ⟨k, hk, ?_⟩)
  rw [← hT]
  exact h₃

/-- The fixup restores the missing black node, with at most three rotations, if the parent of the
place is read in any way that tells it and the checks pass. -/
theorem blackBlackFixupChecked_spec (hoff : ∀ n, n ≠ .nil → parentOf n = getParent n)
    (hP : Turnable E.stamp Fine) (hcheck : Passes check E z K Fine) (h : Repr s E z K (plug c x))
    (ht : ∀ f c', c = f :: c' → Tells parentOf z E.epoch f.label.slot f.side x)
    (hdef : Deficit c x n) (hd : Fine (plug c x)) : Ensures (do
      let x ← whileLoop blackBlackCond (blackBlackBodyChecked parentOf check) (treeRef x)
      setBlack x
      setNodeBlack (← getRoot)) s fun _ s' => ∃ k ≤ 3,
        Repr s' (E.turnedBy k) z K (fixBlackBlack E.stamp c x) :=
  blacken_spec (whileLoop_spec h (blackBlackLoop_spec hoff hP hcheck h ht hdef hd h.length_lt))

theorem blackBlackFixupWith_spec (hoff : ∀ n, n ≠ .nil → parentOf n = getParent n)
    (h : Repr s E z K (plug c x))
    (ht : ∀ f c', c = f :: c' → Tells parentOf z E.epoch f.label.slot f.side x)
    (hdef : Deficit c x n) (hd : Dirt E.options (plug c x)) :
    Ensures (blackBlackFixupWith parentOf (treeRef x)) s fun _ s' => ∃ k ≤ 3,
      Repr s' (E.turnedBy k) z K (fixBlackBlack E.stamp c x) := by
  rw [blackBlackFixupWith_eq hoff]
  exact blackBlackFixupChecked_spec hoff tolerant_up.turnable passes_assert h ht hdef hd

theorem blackBlackFixup_spec (h : Repr s E z K (plug c x))
    (hz : x = nil → z.parent = parentRef c) (hdef : Deficit c x n)
    (hd : Dirt E.options (plug c x)) :
    Ensures (blackBlackFixup (treeRef x)) s fun _ s' => ∃ k ≤ 3,
      Repr s' (E.turnedBy k) z K (fixBlackBlack E.stamp c x) := by
  rw [← blackBlackFixupWith_getParent]
  refine blackBlackFixupWith_spec (fun _ _ => rfl) h ?_ hdef hd
  rintro f c' rfl
  exact tells_getParent hz

/-- Without the assertions about dirty flags nothing is asked of them. -/
theorem blackBlackFixupNdebug_spec (h : Repr s E z K (plug c x))
    (hz : x = nil → z.parent = parentRef c) (hdef : Deficit c x n) :
    Ensures (blackBlackFixupNdebug (treeRef x)) s fun _ s' => ∃ k ≤ 3,
      Repr s' (E.turnedBy k) z K (fixBlackBlack E.stamp c x) := by
  rw [blackBlackFixupNdebug_eq]
  refine blackBlackFixupChecked_spec (fun _ _ => rfl) turnable_true
    (fun _ _ _ _ _ _ _ => rfl) h ?_ hdef trivial
  rintro f c' rfl
  exact tells_getParent hz

end Base
end MulleRbtree
