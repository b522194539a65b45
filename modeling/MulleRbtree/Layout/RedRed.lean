import MulleRbtree.Layout.Rotation
import MulleRbtree.Tree.RedRed

/-!
# `_mulle__rbtree_red_red_fixup` does what `fixRedRed` does

The two halves of the loop body are one function of a side (`redRedSide`).  Along the loop the
current node is the only one that may be red below a red node; so a red parent is never the root,
and the grandparent the body works on exists.

* `redRedFixupWith grandparentOf`: the fixup, with its reads of grandparents in the open;
* `redRedFixupWith_spec`: what it does if `grandparentOf` finds the grandparents that exist.
-/

namespace MulleRbtree

open BinaryTree Cells Program

namespace Base

variable {σ : Type} [MulleStorage σ]

/-! ### The halves as one -/

/-- Case 3, for a parent on side `d`. -/
def redRedTurnNode (d : Side) (x : Ref) : M σ Ref := do
  setNodeBlack (← getParent x)
  setNodeRed (← getParent (← getParent x))
  let x ← getParent (← getParent x)
  rotateNode d.other x
  return x

/-- The body of the loop, for a parent on side `d`. -/
def redRedSide (d : Side) (x : Ref) : M σ Ref := do
  let y ← getChild d.other (← getParent (← getParent x))
  if ← isRed y then do
    setNodeBlack (← getParent x)
    setNodeRed (← getParent (← getParent x))
    setNodeBlack y
    getParent (← getParent x)
  else do
    let x ← (if x = (← getChild d.other (← getParent x)) then do
        let x ← getParent x
        rotateNode d x
        return x
      else return x : M σ Ref)
    redRedTurnNode d x

theorem redRedLeft_eq (x : Ref) : (redRedLeft x : M σ Ref) = redRedSide .left x := rfl
theorem redRedRight_eq (x : Ref) : (redRedRight x : M σ Ref) = redRedSide .right x := rfl

/-- The condition of the loop. -/
def redRedCond (x : Ref) : M σ Bool :=
  andAlso (return x ≠ (← getRoot)) (do isRed (← getParent x))

/-- The body of the loop. -/
def redRedBody (x : Ref) : M σ Ref := do
  if (← getParent x) = (← getLeft (← getParent (← getParent x))) then redRedLeft x
  else redRedRight x

theorem redRedFixup_eq (x : Ref) : (redRedFixup x : M σ Unit) = (do
    let _ ← whileLoop redRedCond redRedBody x
    setNodeBlack (← getRoot)) := rfl

/-! ### The same, with the reads of grandparents in the open -/

/-- `x->_parent->_parent` -/
def grandparent (x : Ref) : M σ Ref := do getParent (← getParent x)

section With

variable (grandparentOf : Ref → M σ Ref)

def redRedTurnNodeWith (d : Side) (x : Ref) : M σ Ref := do
  setNodeBlack (← getParent x)
  setNodeRed (← grandparentOf x)
  let x ← grandparentOf x
  rotateNode d.other x
  return x

def redRedSideWith (d : Side) (x : Ref) : M σ Ref := do
  let y ← getChild d.other (← grandparentOf x)
  if ← isRed y then do
    setNodeBlack (← getParent x)
    setNodeRed (← grandparentOf x)
    setNodeBlack y
    grandparentOf x
  else do
    let x ← (if x = (← getChild d.other (← getParent x)) then do
        let x ← getParent x
        rotateNode d x
        return x
      else return x : M σ Ref)
    redRedTurnNodeWith grandparentOf d x

def redRedBodyWith (x : Ref) : M σ Ref := do
  if (← getParent x) = (← getLeft (← grandparentOf x)) then redRedSideWith grandparentOf .left x
  else redRedSideWith grandparentOf .right x

def redRedFixupWith (x : Ref) : M σ Unit := do
  let _ ← whileLoop redRedCond (redRedBodyWith grandparentOf) x
  setNodeBlack (← getRoot)

theorem redRedSideWith_grandparent (d : Side) (x : Ref) :
    (redRedSideWith grandparent d x : M σ Ref) = redRedSide d x := by
  simp only [redRedSideWith, redRedTurnNodeWith, redRedSide, redRedTurnNode, grandparent, bind_assoc]

/-- The function of the source. -/
theorem redRedFixupWith_grandparent :
    (redRedFixupWith grandparent : Ref → M σ Unit) = redRedFixup := by
  have hbody : (redRedBodyWith grandparent : Ref → M σ Ref) = redRedBody := by
    funext x
    simp only [redRedBodyWith, redRedSideWith_grandparent, redRedBody, redRedLeft_eq, redRedRight_eq,
      grandparent, bind_assoc]
  funext x
  rw [redRedFixupWith, hbody, redRedFixup_eq]

variable {grandparentOf}

/-- If every read of a grandparent is what it is in the source or faults, so is the fixup. -/
theorem redRedFixupWith_restricts
    (h : ∀ n, Restricts (grandparentOf n) (grandparent n : M σ Ref)) (x : Ref) :
    Restricts (redRedFixupWith grandparentOf x) (redRedFixup x) := by
  rw [← redRedFixupWith_grandparent]
  have hside : ∀ d x, Restricts (redRedSideWith grandparentOf d x)
      (redRedSideWith grandparent d x) := by
    intro d x
    unfold redRedSideWith redRedTurnNodeWith
    repeat' first
      | exact .refl _
      | exact h _
      | refine .bind ?_ fun _ => ?_
      | refine .ite ?_ ?_
  unfold redRedFixupWith whileLoop loop
  refine .bind (.bind (.refl _) fun k => Restricts.iterate (fun x => ?_) _ x) fun _ => .refl _
  refine .bind (.refl _) fun b => .ite (.bind ?_ fun _ => .refl _) (.refl _)
  exact .bind (.refl _) fun p => .bind (h x) fun g => .bind (.refl _) fun l =>
    .ite (hside .left x) (hside .right x)

end With

variable {s : Base σ} {E : Env σ} {z : Sentinel} {K : Multiset Cell} {c : Path Entry}
  {f g : Frame Entry} {x b e : ETree} {t : Entry} {n : ℕ} {grandparentOf : Ref → M σ Ref}

/-- Through `grandparentOf` the grandparent of a node is found if it has one. -/
def Finds (grandparentOf : Ref → M σ Ref) : Prop :=
  ∀ ⦃s : Base σ⦄ ⦃E : Env σ⦄ ⦃z : Sentinel⦄ ⦃K : Multiset Cell⦄ ⦃f g : Frame Entry⦄ ⦃c : Path Entry⦄
    ⦃x : ETree⦄, Repr s E z K (plug (f :: g :: c) x) → x ≠ nil →
      grandparentOf (treeRef x) s = .ok (.slot g.label.slot, s)

/-! ### One iteration -/

theorem redRedCond_spec (h : Repr s E z K (plug c x)) (hx : x ≠ nil) :
    redRedCond (treeRef x) s = .ok (belowRed c, s) := by
  have hroot := h.treeRef_eq_root
  have hfirst : (do return treeRef x ≠ (← getRoot) : M σ Bool) s = .ok (decide (c ≠ []), s) := by
    rw [bind_eq h.getRoot]
    simp only [Ne, hroot]
    rfl
  cases c with
  | nil => exact andAlso_false hfirst
  | cons f c =>
    have hred := Repr.isRed (c := c) (t := f.fill x) h
    rw [treeRef_fill, Frame.fill, rootHas_join] at hred
    rw [redRedCond, andAlso_true hfirst, bind_eq (h.getParent fun e => absurd e hx)]
    exact hred

/-- The half that runs is the one for the side of the parent. -/
theorem redRedBody_spec (hgp : Finds grandparentOf) (h : Repr s E z K (plug (f :: g :: c) x))
    (hx : x ≠ nil) :
    redRedBodyWith grandparentOf (treeRef x) s =
      redRedSideWith grandparentOf g.side (treeRef x) s := by
  have hp : getParent (treeRef x) s = .ok (.slot f.label.slot, s) :=
    h.getParent fun e => absurd e hx
  have hleft := Repr.headChild (c := c) (t := f.fill x) h .left
  have hne := Repr.ref_ne_sibling (c := c) (f := g) (t := f.fill x) h (by simp)
  rw [treeRef_fill] at hne hleft
  refine (bind_eq hp).trans ((bind_eq (hgp h hx)).trans ((bind_eq hleft).trans ?_))
  cases hside : g.side with
  | left => rw [if_pos (by simp)]
  | right => rw [if_neg (by simpa using hne)]

/-- Reading the parent. -/
theorem getParent_head (h : Repr s E z K (plug (f :: c) x)) (hx : x ≠ nil) :
    getParent (treeRef x) s = .ok (.slot f.label.slot, s) := h.getParent fun e => absurd e hx

theorem finds_grandparent : Finds (grandparent : Ref → M σ Ref) := by
  intro s E z K f g c x h hx
  have hg := getParent_head (c := c) (f := g) (x := f.fill x) h (by simp)
  rw [treeRef_fill] at hg
  exact (bind_eq (getParent_head h hx)).trans hg

/-- The parent becomes black and the grandparent red. -/
theorem recolorParents_spec (hgp : Finds grandparentOf)
    (h : Repr s E z K (plug (f :: g :: c) x)) (hx : x ≠ nil) :
    Ensures (do
      setNodeBlack (← getParent (treeRef x))
      setNodeRed (← grandparentOf (treeRef x))) s fun _ s' =>
      Repr s' E z K (plug (f.mapLabel (Entry.recolor Color.setBlack) ::
        g.mapLabel (Entry.recolor Color.setRed) :: c) x) := by
  have hblack := Repr.setNodeBlack (c := g :: c) (t := f.fill x) h
  rw [treeRef_fill, Frame.mapRoot_fill] at hblack
  refine .bind_eq (getParent_head h hx) (hblack.bind fun _ s₁ h₁ => ?_)
  have hg := hgp (f := f.mapLabel (Entry.recolor Color.setBlack)) h₁ hx
  have hred := Repr.setNodeRed (c := c)
    (t := g.fill ((f.mapLabel (Entry.recolor Color.setBlack)).fill x)) h₁ (by simp)
  rw [treeRef_fill, Frame.mapRoot_fill] at hred
  exact .bind_eq hg hred

/-- Case 3. -/
theorem redRedTurnNode_spec {d : Side} (hgp : Finds grandparentOf)
    (h : Repr s E z K (plug (⟨d, t, e⟩ :: g :: c) b))
    (hb : b ≠ nil) (hd : g.side = d) :
    Ensures (redRedTurnNodeWith grandparentOf d (treeRef b)) s fun r s' => r = .slot g.label.slot ∧
      Repr s' E.turned z K (plug (turnPath E.stamp c) (turn E.stamp d.other
        (g.label.recolor Color.setRed) g.sibling (t.recolor Color.setBlack) e b)) := by
  have hcode : redRedTurnNodeWith grandparentOf d (treeRef b) = (do
      (do
        setNodeBlack (← getParent (treeRef b))
        setNodeRed (← grandparentOf (treeRef b)))
      let x ← grandparentOf (treeRef b)
      rotateNode d.other x
      return x) := by simp only [redRedTurnNodeWith, bind_assoc]
  rw [hcode]
  refine (recolorParents_spec hgp h hb).bind fun _ s₁ h₁ => ?_
  have hg := hgp h₁ hb
  -- the grandparent, with the uncle on its near side, goes down
  have htree : (g.mapLabel (Entry.recolor Color.setRed)).fill
      ((Frame.mapLabel (Entry.recolor Color.setBlack) ⟨d, t, e⟩).fill b) =
      join d.other (g.label.recolor Color.setRed) g.sibling
        (join d.other (t.recolor Color.setBlack) e b) := by
    simp [Frame.fill, hd]
  rw [plug_cons, plug_cons, htree] at h₁
  exact .bind_eq hg ((rotateNode_spec h₁).bind fun _ s₂ h₂ => .pure ⟨rfl, h₂⟩)

/-- Case 1: the red node is now the grandparent. -/
theorem redRedSide_recolor (hgp : Finds grandparentOf) (h : Repr s E z K (plug (f :: g :: c) x))
    (hx : x ≠ nil) (hu : rootHas Entry.isRed g.sibling = true) :
    Ensures (redRedSideWith grandparentOf g.side (treeRef x)) s fun r s' =>
      r = treeRef (redRedRecolor f g x) ∧ Repr s' E z K (plug c (redRedRecolor f g x)) := by
  have hy := Repr.getChild_other (c := c) (x := f.fill x) (y := g.sibling) h
  have hred := (Repr.across (t := f.fill x) h).isRed
  rw [hu] at hred
  have hcode : ∀ y : Ref, (do
      setNodeBlack (← getParent (treeRef x))
      setNodeRed (← grandparentOf (treeRef x))
      setNodeBlack y
      grandparentOf (treeRef x) : M σ Ref) = (do
      (do
        setNodeBlack (← getParent (treeRef x))
        setNodeRed (← grandparentOf (treeRef x)))
      setNodeBlack y
      grandparentOf (treeRef x)) := fun y => by simp only [bind_assoc]
  refine .bind_eq (hgp h hx) (.bind_eq hy (.bind_eq hred ?_))
  rw [if_pos rfl, hcode]
  refine (recolorParents_spec hgp h hx).bind fun _ s₁ h₁ => ?_
  have hblack := (Repr.across (c := c) (f := g.mapLabel (Entry.recolor Color.setRed))
    (t := (f.mapLabel (Entry.recolor Color.setBlack)).fill x) h₁).setNodeBlack
  refine hblack.bind fun _ s₂ h₂ => ?_
  have h₂' : Repr s₂ E z K (plug (f.mapLabel (Entry.recolor Color.setBlack) ::
      ⟨g.side, g.label.recolor Color.setRed, blacken g.sibling⟩ :: c) x) := by
    rw [plug_cons, Frame.fill, Frame.across, Frame.mapLabel_side, join_other] at h₂
    exact h₂
  exact .of_eq (hgp h₂' hx) ⟨by simp [redRedRecolor], h₂'⟩

/-- A place from which the loop does not go on. -/
def Settled (r : Ref) (T : ETree) : Prop :=
  ∃ c G, T = plug c G ∧ treeRef G = r ∧ G ≠ nil ∧ belowRed c = false

theorem settled_turn {o : Stamp} {d : Side} {p : Entry} {a : ETree} :
    Settled (.slot p.slot) (plug c (turn o d p a (t.recolor Color.setBlack) b e)) :=
  ⟨⟨d, ((t.recolor Color.setBlack).touch o).soil o, e⟩ :: c,
    join d ((p.touch o).soil o) a (b.mapRoot (Entry.touch o)), rfl, by simp, by simp,
    by simp [belowRed]⟩

/-- Case 3: the tree is repaired, without case 2 before. -/
theorem redRedSide_outer (hgp : Finds grandparentOf) (h : Repr s E z K (plug (f :: g :: c) x))
    (hx : x ≠ nil) (hu : ¬rootHas Entry.isRed g.sibling = true) (hside : f.side = g.side) :
    Ensures (redRedSideWith grandparentOf g.side (treeRef x)) s fun r s' =>
      ∃ T, Repr s' E.turned z K T ∧
      blacken T = redRedTurn E.stamp f.label x f.sibling g c ∧ Settled r T := by
  have hp := getParent_head h hx
  have hy := Repr.getChild_other (c := c) (x := f.fill x) (y := g.sibling) h
  have hred := (Repr.across (t := f.fill x) h).isRed
  rw [Bool.not_eq_true] at hu
  rw [hu] at hred
  have hinner := h.headChild g.side.other
  have hne := h.ref_ne_sibling hx
  rw [if_neg (by rw [hside]; exact g.side.other_ne)] at hinner
  have hcase3 := redRedTurnNode_spec hgp (d := g.side) (t := f.label) (e := f.sibling)
    (by rw [← hside]; exact h) hx rfl
  refine .bind_eq (hgp h hx) (.bind_eq hy (.bind_eq hred ?_))
  rw [if_neg nofun]
  refine .bind_eq hp (.bind_eq hinner ?_)
  rw [if_neg hne]
  refine .bind_eq rfl (hcase3.mono ?_)
  rintro _ s' ⟨rfl, h'⟩
  exact ⟨_, h', rfl, settled_turn⟩

/-- Cases 2 and 3: the tree is repaired. -/
theorem redRedSide_inner {d : Side} {p : Entry} (hgp : Finds grandparentOf)
    (h : Repr s E z K (plug (f :: g :: c) (join d p b e)))
    (hu : ¬rootHas Entry.isRed g.sibling = true) (hd : g.side = d) (hside : f.side ≠ d) :
    Ensures (redRedSideWith grandparentOf d (.slot p.slot)) s fun r s' =>
      ∃ T, Repr s' (E.turnedBy 2) z K T ∧ blacken T = redRedTurn E.stamp ((p.touch E.stamp).soil E.stamp)
        (join d ((f.label.touch E.stamp).soil E.stamp) f.sibling
          (b.mapRoot (Entry.touch E.stamp))) e
        ((g.mapLabel (Entry.touch E.stamp)).mapLabel (Entry.soil E.stamp))
        (Path.mapLabels (Entry.soil E.stamp) c) ∧ Settled r T := by
  have hp := getParent_head h (by simp)
  have hg := hgp h (by simp)
  have hy := Repr.getChild_other (c := c) (x := f.fill (join d p b e)) (y := g.sibling) h
  have hred := (Repr.across (t := f.fill (join d p b e)) h).isRed
  rw [Bool.not_eq_true] at hu
  rw [hu] at hred
  have hinner := h.headChild d.other
  rw [if_pos (Side.eq_other hside).symm] at hinner
  rw [treeRef_join] at hp hg hinner
  rw [hd] at hy
  -- case 2: the parent goes down
  rw [plug_cons, fill_of_side_ne hside] at h
  have hturn := rotateNode_spec h
  refine .bind_eq hg (.bind_eq hy (.bind_eq hred ?_))
  rw [if_neg nofun]
  refine .bind_eq hp (.bind_eq hinner ?_)
  rw [if_pos rfl]
  simp only [bind_assoc, pure_bind]
  refine .bind_eq hp (hturn.bind fun _ s₁ h₁ => ?_)
  -- case 3, with the former parent for the current node
  have hcase3 := redRedTurnNode_spec hgp (d := d) (t := (p.touch E.stamp).soil E.stamp) (e := e)
    (g := (g.mapLabel (Entry.touch E.stamp)).mapLabel (Entry.soil E.stamp))
    (c := Path.mapLabels (Entry.soil E.stamp) c)
    (b := join d ((f.label.touch E.stamp).soil E.stamp) f.sibling
      (b.mapRoot (Entry.touch E.stamp))) h₁ (by simp) hd
  rw [treeRef_join] at hcase3
  refine hcase3.mono ?_
  rintro _ s₂ ⟨rfl, h₂⟩
  refine ⟨_, h₂, ?_, settled_turn⟩
  rw [redRedTurn, Frame.mapLabel_side, Frame.mapLabel_side, hd]
  rfl

/-- The fixup repairs the tree below which `x` hangs, with at most two rotations. -/
theorem redRedFixupWith_spec (hgp : Finds grandparentOf) (h : Repr s E z K (plug c x))
    (hx : x ≠ nil) (hc : Hole Entry.isRed c n) :
    Ensures (redRedFixupWith grandparentOf (treeRef x)) s fun _ s' => ∃ k ≤ 2,
      Repr s' (E.turnedBy k) z K (fixRedRed E.stamp c x) := by
  have hloop : Ensures (whileLoop redRedCond (redRedBodyWith grandparentOf) (treeRef x)) s
      fun _ s' => ∃ k ≤ 2, ∃ T,
        Repr s' (E.turnedBy k) z K T ∧ blacken T = fixRedRed E.stamp c x := by
    refine whileLoop_spec h ?_
    have hlt := h.length_lt
    revert hlt
    generalize MulleStorage.getCount E.nodes + 2 = m
    intro hlt
    -- the path above `x` becomes shorter by two, or the loop is over
    induction c, x using fixRedRed.induct generalizing s m n with
    | case1 f g c x hf hu ih =>
      obtain ⟨m, rfl⟩ : ∃ k, m = k + 1 := ⟨m - 1, by simp at hlt; omega⟩
      obtain ⟨-, -, -, hc'⟩ := hole_red_red hc hf
      refine whileStep_true ((redRedCond_spec h hx).trans (by rw [belowRed, hf]))
        ((redRedSide_recolor hgp h hx hu).congr (redRedBody_spec hgp h hx)) ?_
      rintro _ s₁ ⟨rfl, h₁⟩
      rw [fixRedRed, if_pos hf, if_pos hu]
      exact ih h₁ (by simp [redRedRecolor]) hc' m (by simp at hlt; omega)
    | case2 f g c x hf hu hside =>
      obtain ⟨m, rfl⟩ : ∃ k, m = k + 2 := ⟨m - 2, by simp at hlt; omega⟩
      refine whileStep_true ((redRedCond_spec h hx).trans (by rw [belowRed, hf]))
        ((redRedSide_outer hgp h hx hu hside).congr (redRedBody_spec hgp h hx)) ?_
      rintro _ s₁ ⟨T, h₁, hT, G, u, rfl, rfl, hu', hb⟩
      rw [fixRedRed, if_pos hf, if_neg hu, if_pos hside]
      exact whileStep_false ((redRedCond_spec h₁ hu').trans (by rw [hb])) ⟨1, by omega, _, h₁, hT⟩
    | case3 f g c x hf hu hside t b e hxe =>
      obtain ⟨m, rfl⟩ : ∃ k, m = k + 2 := ⟨m - 2, by simp at hlt; omega⟩
      obtain rfl := unjoin_eq_some hxe
      have hinner := redRedSide_inner hgp h hu rfl hside
      rw [← treeRef_join g.side t b e] at hinner
      refine whileStep_true ((redRedCond_spec h hx).trans (by rw [belowRed, hf]))
        (hinner.congr (redRedBody_spec hgp h hx)) ?_
      rintro _ s₁ ⟨T, h₁, hT, G, u, rfl, rfl, hu', hb⟩
      rw [fixRedRed, if_pos hf, if_neg hu, if_neg hside, hxe]
      exact whileStep_false ((redRedCond_spec h₁ hu').trans (by rw [hb])) ⟨2, by omega, _, h₁, hT⟩
    | case4 f g c x hf hu hside hxe => exact absurd (unjoin_eq_none hxe) hx
    | case5 f g c x hf =>
      obtain ⟨m, rfl⟩ : ∃ k, m = k + 1 := ⟨m - 1, by simp at hlt; omega⟩
      refine whileStep_false ((redRedCond_spec h hx).trans ?_) ⟨0, by omega, _, h, ?_⟩
      · simp [belowRed, hf]
      · rw [fixRedRed, if_neg hf]
    | case6 c x hshort =>
      obtain ⟨m, rfl⟩ : ∃ k, m = k + 1 := ⟨m - 1, by omega⟩
      have hbelow : belowRed c = false := by
        obtain rfl | ⟨f, rfl⟩ := eq_nil_or_singleton hshort
        · rfl
        · exact isRed_of_hole_singleton hc
      refine whileStep_false ((redRedCond_spec h hx).trans (by rw [hbelow]))
        ⟨0, by omega, _, h, ?_⟩
      rw [fixRedRed]
      exact hshort
  refine hloop.bind ?_
  rintro _ s₁ ⟨k, hk, T, h₁, hT⟩
  refine .bind_eq h₁.getRoot ((Repr.setNodeBlack (c := []) h₁).mono fun _ s₂ h₂ => ⟨k, hk, ?_⟩)
  rw [← hT]
  exact h₂

theorem redRedFixup_spec (h : Repr s E z K (plug c x)) (hx : x ≠ nil)
    (hc : Hole Entry.isRed c n) :
    Ensures (redRedFixup (treeRef x)) s fun _ s' => ∃ k ≤ 2,
      Repr s' (E.turnedBy k) z K (fixRedRed E.stamp c x) := by
  rw [← redRedFixupWith_grandparent]
  exact redRedFixupWith_spec finds_grandparent h hx hc

end Base
end MulleRbtree
