import MulleRbtree.Tree.Dirt

/-!
# The black-black fixup on trees

`fixBlackBlack o c x` is what `_mulle__rbtree_black_black_fixup` makes of a tree in which the
subtree `x` at the end of the path `c` lacks one black node.

* `Deficit c x n`: what is wrong with the tree, at every iteration;
* `fixBlackBlack_isRedBlack`, `items_fixBlackBlack`, `dirt_fixBlackBlack`: the result is a
  red-black tree with the same order, and its dirty flags still reach up to the root.
-/

namespace MulleRbtree

open BinaryTree

variable {o : Stamp} {c : Path Entry} {f : Frame Entry} {x near far : ETree} {n : ℕ} {d : Side}
  {p w v : Entry}

/-! ### The repair -/

/-- Case 4: the parent `p` goes down on side `d`, the sibling `w` takes its colour. -/
def blackBlackTurn (o : Stamp) (d : Side) (p : Entry) (x : ETree) (w : Entry) (near far : ETree)
    (c : Path Entry) : ETree :=
  plug (turnPath o c) (turn o d (p.recolor Color.setBlack) x
    (w.recolor fun k => k.setColor p.color.getColor) near (blacken far))

/-- Cases 3 and 4: a nephew is red. -/
def settle (o : Stamp) (d : Side) (p : Entry) (x : ETree) (w : Entry) (near far : ETree)
    (c : Path Entry) : ETree :=
  if rootHas Entry.isRed far then blackBlackTurn o d p x w near far c
  else match near.unjoin d.other with
    | some (v, b, e) =>
      -- case 3: the near nephew takes the place of the sibling first
      blackBlackTurn o d ((p.touch o).soil o) x (((v.recolor Color.setBlack).touch o).soil o) e
        (join d.other (((w.recolor Color.setRed).touch o).soil o) far (b.mapRoot (Entry.touch o)))
        (Path.mapLabels (Entry.soil o) c)
    | none => plug c (join d p x (join d w near far))

/-- Cases 2, 3 and 4, for a black sibling; `up` goes on at the parent. -/
def repairAt (o : Stamp) (f : Frame Entry) (c : Path Entry) (x : ETree) (up : ETree → ETree) :
    ETree :=
  match f.sibling.unjoin f.side with
  | some (w, near, far) =>
    if rootHas Entry.isRed near || rootHas Entry.isRed far then
      blacken (settle o f.side f.label x w near far c)
    else up (join f.side f.label x (join f.side (w.recolor Color.setRed) near far))
  | none => up (f.fill x)

/-- The parent after case 1, with its new child. -/
def lowered (o : Stamp) (f : Frame Entry) (near : ETree) : Frame Entry :=
  ⟨f.side, ((f.label.recolor Color.setRed).touch o).soil o, near.mapRoot (Entry.touch o)⟩

@[simp] theorem lowered_side : (lowered o f near).side = f.side := rfl

/-- The path above the parent after case 1: it begins with the former sibling `w`. -/
def raised (o : Stamp) (f : Frame Entry) (w : Entry) (far : ETree) (c : Path Entry) :
    Path Entry :=
  ⟨f.side, ((w.recolor Color.setBlack).touch o).soil o, far⟩ :: turnPath o c

/-- `_mulle__rbtree_black_black_fixup` -/
def fixBlackBlack (o : Stamp) : Path Entry → ETree → ETree
  | [], x => blacken x
  | f :: c, x =>
    if rootHas Entry.isRed x then blacken (plug (f :: c) (blacken x))
    else match f.sibling.unjoin f.side with
      | some (w, near, far) =>
        if w.isRed then
          -- case 1: the parent is red now, so case 2 is the last
          repairAt o (lowered o f near) (raised o f w far c) x fun y =>
            blacken (plug (raised o f w far c) (blacken y))
        else repairAt o f c x (fixBlackBlack o c)
      | none => blacken (plug (f :: c) x)

/-! ### Balance -/

/-- The tree around `x` lacks one black node there; a red `x` is to be painted black. -/
def Deficit (c : Path Entry) (x : ETree) (n : ℕ) : Prop :=
  Hole Entry.isRed c (n + 1) ∧
    if rootHas Entry.isRed x then Balanced Entry.isRed (blacken x) (n + 1)
    else Balanced Entry.isRed x n

/-- A missing black node below a subtree of any colour. -/
theorem deficit_of_balanced (hc : Hole Entry.isRed c (n + 1)) (hx : Balanced Entry.isRed x n) :
    Deficit c x n := by
  refine ⟨hc, ?_⟩
  split_ifs with hr
  · exact balanced_blacken_of_red hx hr
  · exact hx

theorem deficit_of_countsMore (hc : Hole Entry.isRed c n) (hx : CountsMore Entry.isRed x n) :
    ∃ m, Deficit c x m := by
  cases x with
  | nil =>
    obtain rfl : n = 1 := hx
    exact ⟨0, hc, rfl⟩
  | node e l r =>
    obtain ⟨m, rfl, hl, hr⟩ := hx
    cases he : e.isRed with
    | true =>
      rw [he] at hc
      refine ⟨m, hc, ?_⟩
      rw [rootHas_node, he, if_pos rfl]
      exact (balanced_black (d := .left) (by simp)).2 ⟨m, rfl, hl, hr⟩
    | false =>
      rw [he] at hc
      refine ⟨m + 1, hc, ?_⟩
      rw [rootHas_node, he, if_neg (by simp)]
      exact (balanced_black (d := .left) he).2 ⟨m, rfl, hl, hr⟩

/-- Case 4 repairs the tree. -/
theorem blackBlackTurn_isRedBlack
    (hc : if p.isRed then takesRed Entry.isRed c = true ∧ Hole Entry.isRed c (n + 1)
      else Hole Entry.isRed c (n + 2))
    (hx : Balanced Entry.isRed x n) (hnear : Balanced Entry.isRed near n)
    (hfar : Balanced Entry.isRed far n) (hfr : rootHas Entry.isRed far = true) :
    IsRedBlack Entry.isRed (blackBlackTurn o d p x w near far c) := by
  have hlow : Balanced Entry.isRed (join d (((p.recolor Color.setBlack).touch o).soil o) x
      (near.mapRoot (Entry.touch o))) (n + 1) :=
    (balanced_black (by simp)).2 ⟨n, rfl, hx, (balanced_mapRoot (Entry.isRed_touch o)).2 hnear⟩
  have hfar' := balanced_blacken_of_red hfar hfr
  have hcolor : (((w.recolor fun k => k.setColor p.color.getColor).touch o).soil o).isRed =
      p.isRed := by
    rw [Entry.isRed_soil, Entry.isRed_touch, Entry.isRed_recolor, Color.isRed_setColor_getColor]
    rfl
  unfold blackBlackTurn
  cases hp : p.isRed with
  | true =>
    rw [hp, if_pos rfl] at hc
    rw [hp] at hcolor
    exact isRedBlack_plug (hole_turnPath.2 hc.2) ((balanced_red hcolor).2 ⟨by simp,
      rootHas_isRed_blacken far, hlow, hfar'⟩) fun _ => by rw [takesRed_turnPath, hc.1]
  | false =>
    rw [hp, if_neg (by simp)] at hc
    rw [hp] at hcolor
    exact isRedBlack_plug (hole_turnPath.2 hc) ((balanced_black hcolor).2 ⟨n + 1, rfl, hlow,
      hfar'⟩) fun h => by rw [turn, rootHas_join, hcolor] at h; cases h

/-- What case 4 needs of the path above the parent. -/
theorem hole_parent {m : ℕ} (hc : Hole Entry.isRed (f :: c) (m + 1)) :
    if f.label.isRed then takesRed Entry.isRed c = true ∧ Hole Entry.isRed c (m + 1)
    else Hole Entry.isRed c (m + 2) := by
  cases hf : f.label.isRed with
  | true =>
    obtain ⟨-, -, h, h'⟩ := (hole_red hf).1 hc
    rw [if_pos rfl]
    exact ⟨h, h'⟩
  | false =>
    rw [if_neg (by simp)]
    exact ((hole_black hf).1 hc).2

/-- Cases 3 and 4 repair the tree. -/
theorem settle_isRedBlack
    (hc : if p.isRed then takesRed Entry.isRed c = true ∧ Hole Entry.isRed c (n + 1)
      else Hole Entry.isRed c (n + 2))
    (hx : Balanced Entry.isRed x n) (hnear : Balanced Entry.isRed near n)
    (hfar : Balanced Entry.isRed far n)
    (hr : (rootHas Entry.isRed near || rootHas Entry.isRed far) = true) :
    IsRedBlack Entry.isRed (settle o d p x w near far c) := by
  unfold settle
  split_ifs with hfr
  · exact blackBlackTurn_isRedBlack hc hx hnear hfar hfr
  · have hnr : rootHas Entry.isRed near = true := by simpa [hfr] using hr
    obtain ⟨v, b, e, rfl⟩ := exists_join d.other (ne_nil_of_rootHas hnr)
    rw [rootHas_join] at hnr
    obtain ⟨hbr, -, hb, he⟩ := (balanced_red hnr).1 hnear
    rw [unjoin_join]
    -- the former sibling is the red far nephew now
    have hred : (((w.recolor Color.setRed).touch o).soil o).isRed = true := by simp
    have hw : Balanced Entry.isRed (join d.other (((w.recolor Color.setRed).touch o).soil o) far
        (b.mapRoot (Entry.touch o))) n :=
      (balanced_red hred).2 ⟨by simpa using hfr, by rwa [rootHas_mapRoot (Entry.isRed_touch o)],
        hfar, (balanced_mapRoot (Entry.isRed_touch o)).2 hb⟩
    refine blackBlackTurn_isRedBlack ?_ hx he hw (by rw [rootHas_join, hred])
    rw [Entry.isRed_soil, Entry.isRed_touch, takesRed_mapLabels (Entry.isRed_soil o),
      hole_mapLabels (Entry.isRed_soil o), hole_mapLabels (Entry.isRed_soil o)]
    exact hc

/-- Case 2 moves the missing black node up to the parent. -/
theorem deficit_parent (hc : Hole Entry.isRed (f :: c) (n + 1)) (hx : Balanced Entry.isRed x n)
    (hw : w.isRed = false) (hs : f.sibling = join f.side w near far)
    (hnr : rootHas Entry.isRed near = false) (hfr : rootHas Entry.isRed far = false) :
    ∃ m, Deficit c (join f.side f.label x (join f.side (w.recolor Color.setRed) near far)) m := by
  have hsib : Balanced Entry.isRed (join f.side w near far) (n + 1) := by
    rw [← hs]
    exact hc.sibling
  obtain ⟨m, hm, hnear, hfar⟩ := (balanced_black hw).1 hsib
  obtain rfl : n = m := by omega
  have hsib' : Balanced Entry.isRed (join f.side (w.recolor Color.setRed) near far) n :=
    (balanced_red (by simp)).2 ⟨hnr, hfr, hnear, hfar⟩
  cases hf : f.label.isRed with
  | true =>
    refine ⟨n, ((hole_red hf).1 hc).2.2.2, ?_⟩
    rw [rootHas_join, if_pos hf, blacken, mapRoot_join]
    exact (balanced_black (by simp)).2 ⟨n, rfl, hx, hsib'⟩
  | false =>
    refine ⟨n + 1, ((hole_black hf).1 hc).2, ?_⟩
    rw [rootHas_join, hf, if_neg (by simp)]
    exact (balanced_black hf).2 ⟨n, rfl, hx, hsib'⟩

theorem repairAt_isRedBlack {up : ETree → ETree} (hc : Hole Entry.isRed (f :: c) (n + 1))
    (hs : rootHas Entry.isRed f.sibling = false) (hx : Balanced Entry.isRed x n)
    (hup : ∀ y m, rootHas Entry.isRed y = f.label.isRed → Deficit c y m →
      IsRedBlack Entry.isRed (up y)) :
    IsRedBlack Entry.isRed (repairAt o f c x up) := by
  have hsib := hc.sibling
  obtain ⟨w, near, far, e⟩ := exists_join f.side hsib.ne_nil
  rw [e, rootHas_join] at hs
  unfold repairAt
  rw [e, unjoin_join]
  dsimp only
  split_ifs with hr
  · rw [e] at hsib
    obtain ⟨m, hm, hnear, hfar⟩ := (balanced_black hs).1 hsib
    obtain rfl : n = m := by omega
    exact isRedBlack_blacken (settle_isRedBlack (hole_parent hc) hx hnear hfar hr)
  · rw [Bool.or_eq_true, not_or, Bool.not_eq_true, Bool.not_eq_true] at hr
    obtain ⟨m, hm⟩ := deficit_parent hc hx hs e hr.1 hr.2
    exact hup _ m (rootHas_join _ _ _ _ _) hm

/-- After case 1 the deficit is one level deeper, below a red parent and a black sibling. -/
theorem hole_lowered (hc : Hole Entry.isRed (f :: c) (n + 1)) (hw : w.isRed = true)
    (hs : f.sibling = join f.side w near far) :
    Hole Entry.isRed (lowered o f near :: raised o f w far c) (n + 1) ∧
      rootHas Entry.isRed (near.mapRoot (Entry.touch o)) = false := by
  -- a red sibling has a black parent
  have hf : f.label.isRed = false := by
    cases hf : f.label.isRed with
    | false => rfl
    | true =>
      have h := ((hole_red hf).1 hc).2.1
      rw [hs, rootHas_join, hw] at h
      cases h
  obtain ⟨hsib, hc'⟩ := (hole_black hf).1 hc
  rw [hs] at hsib
  obtain ⟨hnr, hfr, hnear, hfar⟩ := (balanced_red hw).1 hsib
  have hred : (lowered o f near).label.isRed = true := by simp [lowered]
  have hblack : (((w.recolor Color.setBlack).touch o).soil o).isRed = false := by simp
  have hnr' : rootHas Entry.isRed (near.mapRoot (Entry.touch o)) = false := by
    rwa [rootHas_mapRoot (Entry.isRed_touch o)]
  refine ⟨(hole_red hred).2 ⟨(balanced_mapRoot (Entry.isRed_touch o)).2 hnear, hnr', ?_, ?_⟩,
    hnr'⟩
  · simp [raised, takesRed]
  · exact (hole_black hblack).2 ⟨hfar, hole_turnPath.2 hc'⟩

theorem fixBlackBlack_isRedBlack (h : Deficit c x n) :
    IsRedBlack Entry.isRed (fixBlackBlack o c x) := by
  induction c generalizing x n with
  | nil =>
    obtain ⟨-, hx⟩ := h
    rw [fixBlackBlack]
    split_ifs at hx
    · exact ⟨rootHas_isRed_blacken x, _, hx⟩
    · exact hx.blacken fun e => by simp
  | cons f c ih =>
    obtain ⟨hc, hx⟩ := h
    rw [fixBlackBlack]
    cases hr : rootHas Entry.isRed x with
    | true =>
      rw [hr, if_pos rfl] at hx
      rw [if_pos rfl]
      exact isRedBlack_blacken (isRedBlack_plug hc hx fun h => by
        rw [rootHas_isRed_blacken] at h; cases h)
    | false =>
      rw [hr, if_neg (by simp)] at hx
      have hsib := hc.sibling
      obtain ⟨w, near, far, e⟩ := exists_join f.side hsib.ne_nil
      rw [if_neg (by simp), e, unjoin_join]
      dsimp only
      split_ifs with hw
      · obtain ⟨hc', hs'⟩ := hole_lowered (o := o) hc hw e
        refine repairAt_isRedBlack hc' hs' hx fun y m hy hd => ?_
        obtain ⟨hh, hb⟩ := hd
        rw [hy, if_pos (by simp [lowered])] at hb
        exact isRedBlack_blacken (isRedBlack_plug hh hb fun h => by
          rw [rootHas_isRed_blacken] at h; cases h)
      · have hs : rootHas Entry.isRed f.sibling = false := by
          rw [e, rootHas_join]
          simpa using hw
        exact repairAt_isRedBlack hc hs hx fun y m _ hd => ih hd

/-! ### Order -/

theorem items_blackBlackTurn : items (blackBlackTurn o d p x w near far c) =
    items (plug c (join d p x (join d w near far))) := by
  refine items_plug_congr (map_item_turnPath o c) ?_
  rw [items_turn]
  simp [items, blacken, map_mapRoot (Entry.item_recolor _)]

/-- Case 3 is a rotation of the sibling. -/
theorem turn_sibling {a b e : ETree} :
    join d ((v.touch o).soil o) e (join d.other ((w.touch o).soil o) a
      (b.mapRoot (Entry.touch o))) = turn o d.other w a v b e :=
  (join_other d ((v.touch o).soil o) _ e).symm

theorem items_settle : items (settle o d p x w near far c) =
    items (plug c (join d p x (join d w near far))) := by
  unfold settle
  split_ifs
  · exact items_blackBlackTurn
  · cases hn : near.unjoin d.other with
    | none => rfl
    | some q =>
      obtain ⟨v, b, e⟩ := q
      obtain rfl := unjoin_eq_some hn
      dsimp only
      rw [items_blackBlackTurn]
      refine items_plug_congr (map_mapLabels (Entry.item_soil o) c) (items_join_congr rfl rfl ?_)
      rw [turn_sibling, items_turn, join_other]
      exact items_join_congr rfl (items_join_congr rfl rfl rfl) rfl

theorem fill_of_unjoin (hs : f.sibling.unjoin f.side = some (w, near, far)) :
    f.fill x = join f.side f.label x (join f.side w near far) := by
  rw [← unjoin_eq_some hs]
  rfl

theorem items_repairAt {up : ETree → ETree} (hup : ∀ y, items (up y) = items (plug c y)) :
    items (repairAt o f c x up) = items (plug (f :: c) x) := by
  unfold repairAt
  cases hs : f.sibling.unjoin f.side with
  | none => exact hup _
  | some q =>
    obtain ⟨w, near, far⟩ := q
    dsimp only
    rw [plug_cons, fill_of_unjoin hs]
    split_ifs
    · rw [items_blacken, items_settle]
    · rw [hup]
      exact items_plug_congr rfl (items_join_congr rfl rfl (items_join_congr rfl rfl rfl))

/-- Case 1 is a rotation of the parent. -/
theorem plug_lowered : plug (lowered o f near :: raised o f w far c) x =
    plug (turnPath o c) (turn o f.side (f.label.recolor Color.setRed) x
      (w.recolor Color.setBlack) near far) := rfl

theorem items_fixBlackBlack : items (fixBlackBlack o c x) = items (plug c x) := by
  induction c generalizing x with
  | nil => rw [fixBlackBlack]; simp
  | cons f c ih =>
    rw [fixBlackBlack]
    split_ifs
    · rw [items_blacken]
      exact items_plug_congr rfl (items_blacken x)
    · cases hs : f.sibling.unjoin f.side with
      | none => rw [items_blacken]
      | some q =>
        obtain ⟨w, near, far⟩ := q
        dsimp only
        split_ifs
        · rw [items_repairAt, plug_lowered, plug_cons, fill_of_unjoin hs]
          · exact items_plug_congr (map_item_turnPath o c) ((items_turn _ _ _ _ _ _ _).trans
              (items_join_congr rfl rfl (items_join_congr rfl rfl rfl)))
          · intro y
            rw [items_blacken]
            exact items_plug_congr rfl (items_blacken y)
        · exact items_repairAt fun y => ih

/-! ### What rotations keep -/

namespace Turnable

variable {P : ETree → Prop} (hP : Turnable o P)
include hP

theorem blackBlackTurn (h : P (plug c (join d p x (join d w near far)))) :
    P (blackBlackTurn o d p x w near far c) :=
  hP.turn (hP.congr h (by simp [map_plug]))

theorem settle (h : P (plug c (join d p x (join d w near far)))) :
    P (settle o d p x w near far c) := by
  unfold MulleRbtree.settle
  split_ifs
  · exact hP.blackBlackTurn h
  · cases hn : near.unjoin d.other with
    | none => exact h
    | some q =>
      obtain ⟨v, b, e⟩ := q
      obtain rfl := unjoin_eq_some hn
      refine hP.blackBlackTurn ?_
      rw [turn_sibling]
      -- the rotation of the sibling has the parent for its nearest ancestor
      have hrot := hP.turn (c := ⟨d.other, p, x⟩ :: c) (d := d.other)
        (p := w.recolor Color.setRed) (a := far) (t := v.recolor Color.setBlack) (b := b) (u := e)
        (hP.congr h ?_)
      · simpa [turnPath, plug_cons, Frame.fill] using hrot
      · simp [map_plug, plug_cons, Frame.fill]

theorem repairAt {up : ETree → ETree} (h : P (plug (f :: c) x))
    (hup : ∀ y, P (plug c y) → P (up y)) : P (repairAt o f c x up) := by
  unfold MulleRbtree.repairAt
  cases hs : f.sibling.unjoin f.side with
  | none => exact hup _ h
  | some q =>
    obtain ⟨w, near, far⟩ := q
    rw [plug_cons, fill_of_unjoin hs] at h
    dsimp only
    split_ifs
    · exact hP.congr (hP.settle h) (map_flag_blacken _)
    · exact hup _ (hP.congr h (by simp [map_plug]))

theorem lowered (h : P (plug (f :: c) x)) (hs : f.sibling = join f.side w near far) :
    P (plug (lowered o f near :: raised o f w far c) x) := by
  rw [plug_lowered]
  refine hP.turn (hP.congr h ?_)
  rw [plug_cons, Frame.fill, hs]
  simp [map_plug]

theorem fixBlackBlack (h : P (plug c x)) : P (fixBlackBlack o c x) := by
  have hblacken : ∀ T, P T → P (blacken T) := fun T hT => hP.congr hT (map_flag_blacken T)
  have hplug : ∀ (g : Path Entry) (y : ETree), P (plug g y) → P (plug g (blacken y)) :=
    fun g y hy => hP.congr hy (by rw [map_plug, map_plug, map_flag_blacken])
  induction c generalizing x with
  | nil => exact hblacken _ h
  | cons f c ih =>
    rw [MulleRbtree.fixBlackBlack]
    split_ifs
    · exact hblacken _ (hplug _ _ h)
    · cases hs : f.sibling.unjoin f.side with
      | none => exact hblacken _ h
      | some q =>
        obtain ⟨w, near, far⟩ := q
        dsimp only
        split_ifs
        · exact hP.repairAt (hP.lowered h (unjoin_eq_some hs)) fun y hy =>
            hblacken _ (hplug _ _ hy)
        · exact hP.repairAt h fun y hy => ih hy

end Turnable

/-- The fixup keeps what the dirty flags protect, whatever it moves. -/
theorem kept_fixBlackBlack {R : Entry → Option Entry → Option Entry → Prop} (hR : Tolerant R)
    (h : Kept R o.options (plug c x)) : Kept R o.options (fixBlackBlack o c x) :=
  hR.turnable.fixBlackBlack h

end MulleRbtree
