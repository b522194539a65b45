import MulleRbtree.Library.Credit
import MulleRbtree.Tree.Attach
import MulleRbtree.Tree.Value

/-!
# What rebalancing recolours

One call may recolour nodes all the way up to the root, but a later call that does so again has to
be prepared for by others in between: the credit of the tree, as colours, pays for it.

* `colors T`: a tree of entries as a tree of colours;
* `charged_fixRedRed`, `covered_fixBlackBlack`: what the two fixups cost;
* `attach_paid`, `removeAt_paid`: a node more costs at most 8, a node less at most 12.
-/

namespace MulleRbtree

open BinaryTree

variable {o : Stamp} {c : Path Entry} {f g : Frame Entry} {x b e l r near far : ETree} {n k : ℕ}
  {a p w : Entry} {d : Side} {T : ETree}

/-! ### Trees as colours -/

/-- The colours of a tree. -/
def colors (T : ETree) : BinaryTree Bool := T.map Entry.isRed

/-- The colours of the surroundings of a place. -/
def pathColors (c : Path Entry) : Path Bool := List.map (Frame.map Entry.isRed) c

theorem inorder_colors (T : ETree) : (colors T).inorder = T.inorder.map Entry.isRed :=
  inorder_map _ T

@[simp] theorem root_colors (T : ETree) : root (colors T) = rootHas Entry.isRed T :=
  rootHas_map fun _ _ => rfl

@[simp] theorem colors_join (d : Side) (a : Entry) (x y : ETree) :
    colors (join d a x y) = join d a.isRed (colors x) (colors y) := map_join _ d a x y

theorem colors_plug (c : Path Entry) (T : ETree) :
    colors (plug c T) = plug (pathColors c) (colors T) := map_plug _ c T

@[simp] theorem colors_touchRoot (T : ETree) : colors (T.mapRoot (Entry.touch o)) = colors T :=
  map_mapRoot (Entry.isRed_touch o) T

@[simp] theorem pathColors_soil (c : Path Entry) :
    pathColors (Path.mapLabels (Entry.soil o) c) = pathColors c :=
  map_mapLabels (Entry.isRed_soil o) c

@[simp] theorem pathColors_turnPath (c : Path Entry) : pathColors (turnPath o c) = pathColors c := by
  rw [turnPath, pathColors_soil]
  exact map_mapHead (Entry.isRed_touch o) c

theorem colors_blacken (T : ETree) : colors (blacken T) = (colors T).mapRoot fun _ => false := by
  cases T <;> simp [colors, blacken, map]

/-- A black root may be painted black. -/
theorem colors_blacken_of_black (h : rootHas Entry.isRed T = false) :
    colors (blacken T) = colors T := by
  cases T with
  | nil => rfl
  | node a l r =>
    have ha : a.isRed = false := h
    simp [colors, blacken, map, ha]

/-! ### The red-red fixup -/

/-- What the fixup costs, for a red node below the path. -/
def redRedFee : Path Entry → ℕ
  | [] => 4
  | f :: _ => if f.label.isRed then 8 else 0

/-- A new red node at the end of the path costs at most 8. -/
theorem redRedFee_le (c : Path Entry) : 3 * around (pathColors c) true + redRedFee c ≤
    3 * around (pathColors c) false + 8 := by
  cases c with
  | nil => simp [pathColors, redRedFee]
  | cons f c =>
    cases hf : f.label.isRed with
    | true =>
      have := around_red (c := pathColors c) (f := f.map Entry.isRed) hf true false
      simp only [redRedFee, hf, if_true, pathColors, List.map_cons] at this ⊢
      omega
    | false =>
      have := around_true_le (pathColors (f :: c))
      simp only [redRedFee, hf, Bool.false_eq_true, if_false]
      omega

theorem charged_redRedTurn {t : Entry} (ht : t.isRed = true) (hg : g.label.isRed = false)
    (hu : rootHas Entry.isRed g.sibling = false) (hc : Hole Entry.isRed c n) :
    Charged 8 (colors (plug (g :: c) (join g.side t b e))) (colors (redRedTurn o t b e g c)) := by
  have hroot : rootHas Entry.isRed (plug (turnPath o c) (turn o g.side.other
      (g.label.recolor Color.setRed) g.sibling (t.recolor Color.setBlack) e b)) = false :=
    rootHas_plug_of_hole (hole_turnPath.2 hc) fun _ => by simp [turn]
  rw [redRedTurn, colors_blacken_of_black hroot, plug_cons, colors_plug, colors_plug,
    pathColors_turnPath]
  simp only [Frame.fill, turn, colors_join, ht, hg, Entry.isRed_soil, Entry.isRed_touch,
    Entry.isRed_recolor, Color.isRed_setRed, Color.isRed_setBlack, join_other, colors_touchRoot]
  have hpaint : Differ 2 (join g.side false (join g.side true (colors b) (colors e))
      (colors g.sibling)) (join g.side true (join g.side false (colors b) (colors e))
      (colors g.sibling)) :=
    (Differ.refl _).join g.side true false (.refl _) |>.join g.side false true (.refl _)
  refine .of_differ ((hpaint.reshape ?_).plug _) ?_
  · cases g.side <;> simp [join]
  · rw [credit_plug, credit_plug]
    have := weight_le false (root (colors b)) true
    simp only [credit_join, root_join, root_colors, hu, weight] at this ⊢
    omega

/-- Case 1 takes a unit of credit from the grandparent. -/
theorem differ_redRedRecolor (hs : rootHas Entry.isRed f.sibling = false)
    (hu : Balanced Entry.isRed g.sibling n) (hur : rootHas Entry.isRed g.sibling = true)
    (hx : rootHas Entry.isRed x = true) (hf : f.label.isRed = true) (hg : g.label.isRed = false) :
    Differ 3 (colors ((g.fill (f.fill x)))) (colors (redRedRecolor f g x)) ∧
      credit (colors (redRedRecolor f g x)) + 1 = credit (colors (g.fill (f.fill x))) := by
  obtain ⟨w, near, far, hw⟩ := exists_join .left (ne_nil_of_rootHas hur)
  rw [hw, rootHas_join] at hur
  rw [hw] at hu
  obtain ⟨hnr, hfr, -, -⟩ := (balanced_red hur).1 hu
  have hbefore : colors (g.fill (f.fill x)) = join g.side false
      (join f.side true (colors x) (colors f.sibling)) (join .left true (colors near)
        (colors far)) := by
    simp [Frame.fill, hw, hf, hg, hur]
  have hafter : colors (redRedRecolor f g x) = join g.side true
      (join f.side false (colors x) (colors f.sibling)) (join .left false (colors near)
        (colors far)) := by
    simp [redRedRecolor, Frame.fill, hw, blacken]
  rw [hbefore, hafter]
  constructor
  · exact ((Differ.refl _).join f.side true false (.refl _)).join g.side false true
      ((Differ.refl _).join .left true false (.refl _))
  · simp [hx, hs, hnr, hfr, weight]
    omega

/-- Below the root nothing is left to paint. -/
theorem charged_blacken_plug (hc : Hole Entry.isRed c n) (hne : c ≠ []) :
    Charged 0 (colors (plug c x)) (colors (blacken (plug c x))) := by
  rw [colors_blacken_of_black (rootHas_plug_of_hole hc fun h => absurd h hne)]
  exact .refl _

/-- A red node without red children becomes the black root. -/
theorem charged_blacken (hx : Balanced Entry.isRed x n) (hr : rootHas Entry.isRed x = true) :
    Charged 4 (colors x) (colors (blacken x)) := by
  obtain ⟨a, l, r, rfl⟩ := exists_join .left (ne_nil_of_rootHas hr)
  rw [rootHas_join] at hr
  obtain ⟨hlr, hrr, -, -⟩ := (balanced_red hr).1 hx
  rw [colors_blacken]
  refine .of_differ (differ_blacken _) ?_
  simp only [colors_join, mapRoot_join, credit_join, root_colors, hlr, hrr, hr, weight]
  omega

/-- The red-red fixup costs at most 8. -/
theorem charged_fixRedRed (hc : Hole Entry.isRed c n) (hx : Balanced Entry.isRed x n)
    (hr : rootHas Entry.isRed x = true) :
    Charged (redRedFee c) (colors (plug c x)) (colors (fixRedRed o c x)) := by
  induction c, x using fixRedRed.induct generalizing n with
  | case1 f g c x hf hu ih =>
    obtain ⟨⟨hs, hsr⟩, hg, hgs, hc'⟩ := hole_red_red hc hf
    have hmid := ih hc' (redRedRecolor_balanced hx hs hgs hu) (by simp [redRedRecolor])
    obtain ⟨hdiffer, hcredit⟩ := differ_redRedRecolor hsr hgs hu hr hf hg
    rw [fixRedRed, if_pos hf, if_pos hu, redRedFee, if_pos hf]
    rw [colors_plug] at hmid
    rw [plug_cons, plug_cons, colors_plug]
    refine .of_differ_trans (hdiffer.plug _) hmid ?_
    -- the grandparent is red now
    have hbefore : root (colors (g.fill (f.fill x))) = false := by simp [Frame.fill, hg]
    have hafter : root (colors (redRedRecolor f g x)) = true := by simp [redRedRecolor]
    have := redRedFee_le c
    rw [credit_plug, credit_plug, hbefore, hafter]
    omega
  | case2 f g c x hf hu hside =>
    obtain ⟨-, hg, -, hc'⟩ := hole_red_red hc hf
    rw [fixRedRed, if_pos hf, if_neg hu, if_pos hside, redRedFee, if_pos hf, plug_cons, Frame.fill,
      hside]
    exact charged_redRedTurn hf hg (by simpa using hu) hc'
  | case3 f g c x hf hu hside t b e hxe =>
    obtain ⟨-, hg, -, hc'⟩ := hole_red_red hc hf
    obtain rfl := unjoin_eq_some hxe
    rw [rootHas_join] at hr
    rw [fixRedRed, if_pos hf, if_neg hu, if_neg hside, hxe, redRedFee, if_pos hf]
    refine .of_differ_trans (n := 0) ?_ (charged_redRedTurn (n := n + 1) (by simpa using hr)
      (by simpa using hg) (by simpa using hu) ((hole_mapLabels (Entry.isRed_soil o)).2 hc')) ?_
    all_goals
      rw [plug_cons, plug_cons, plug_cons, fill_of_side_ne hside, colors_plug, colors_plug,
        pathColors_soil]
      simp only [Frame.fill, Frame.mapLabel_side, Frame.mapLabel_label, Frame.mapLabel_sibling,
        colors_join, colors_touchRoot, Entry.isRed_soil, Entry.isRed_touch, hf, hg, hr]
    · -- the node and its parent, both red, change places
      refine (Differ.refl _).reshape ?_
      rw [inorder_plug, inorder_plug]
      cases g.side <;> simp [join]
    · rw [credit_plug, credit_plug]
      simp only [credit_join, root_join, weight]
      omega
  | case4 f g c x hf hu hside hxe =>
    rw [unjoin_eq_none hxe] at hr
    simp at hr
  | case5 f g c x hf =>
    rw [fixRedRed, if_neg hf, redRedFee, if_neg hf]
    exact charged_blacken_plug hc (List.cons_ne_nil _ _)
  | case6 c x hshort =>
    rw [fixRedRed]
    · obtain rfl | ⟨f, rfl⟩ := eq_nil_or_singleton hshort
      · exact charged_blacken hx hr
      · rw [redRedFee, if_neg (by simp [isRed_of_hole_singleton hc])]
        exact charged_blacken_plug hc (List.cons_ne_nil _ _)
    · exact hshort

/-! ### Attaching -/

@[simp] theorem colors_soilTo (i : ℕ) (T : ETree) : colors (soilTo o i T) = colors T :=
  map_soilTo (Entry.isRed_soil o) T

theorem charged_hang (h : IsRedBlack Entry.isRed (plug c nil)) (ha : a.isRed = true) :
    Charged (redRedFee c) (colors (plug c (node a nil nil))) (colors (hang o a c)) := by
  obtain ⟨n, hc, hn, -⟩ := hole_of_isRedBlack h
  have hleaf : Balanced Entry.isRed (node (a.relink o) nil nil) n :=
    (balanced_red (d := .left) ha).2 ⟨rfl, rfl, hn, hn⟩
  cases c with
  | nil => exact charged_blacken hleaf ha
  | cons f c =>
    have hpath : colors (plug (f :: c) (node a nil nil)) =
        colors (plug (Path.mapHead (Entry.relink o) (f :: c)) (node (a.relink o) nil nil)) := by
      rw [colors_plug, colors_plug]
      rfl
    rw [hpath]
    unfold hang
    dsimp only
    cases hf : f.label.isRed with
    | true =>
      rw [if_pos (show belowRed (f :: c) = true from hf)]
      exact charged_fixRedRed (hole_mapHead_relink.2 hc) hleaf ha
    | false =>
      rw [if_neg (by simp [belowRed, hf]), redRedFee, if_neg (by simp [hf])]
      exact .refl _

/-- A new node costs at most 8. -/
theorem attach_paid (o : Stamp) (h : IsRedBlack Entry.isRed (plug c nil)) (ha : a.isRed = true) :
    (plug c (node a nil nil)).inorder.length = (attach o a c).inorder.length ∧
      changes ((plug c (node a nil nil)).inorder.map Entry.isRed)
        ((attach o a c).inorder.map Entry.isRed) + 3 * credit (colors (attach o a c)) ≤
      3 * credit (colors (plug c nil)) + 8 := by
  have hattach : colors (attach o a c) = colors (hang o a c) := colors_soilTo a.slot _
  obtain ⟨hlen, hpaid⟩ := charged_hang (o := o) h ha
  have hcredit : credit (colors (plug c (node a nil nil))) = around (pathColors c) true := by
    rw [colors_plug, credit_plug, ← join_left, colors_join, credit_join, root_join, ha]
    exact Nat.zero_add _
  have hempty : credit (colors (plug c nil)) = around (pathColors c) false := by
    rw [colors_plug, credit_plug]
    exact Nat.zero_add _
  have := redRedFee_le c
  rw [hcredit, ← hattach, inorder_colors, inorder_colors] at hpaid
  rw [← hattach, inorder_colors, inorder_colors, List.length_map, List.length_map] at hlen
  rw [hempty]
  exact ⟨hlen, hpaid.trans (by omega)⟩

/-! ### The black-black fixup -/

/-- The changes from the tree with `x` at the end of `c` to `T` are paid for by `k`, if the credit
around `x` is what it would be for a black `x`. -/
structure Covered (k : ℕ) (c : Path Entry) (x T : ETree) : Prop where
  length : (colors (plug c x)).inorder.length = (colors T).inorder.length
  paid : changes (colors (plug c x)).inorder (colors T).inorder + 3 * credit (colors T) ≤
    3 * (credit (colors x) + around (pathColors c) false) + k

theorem covered_iff (hx : rootHas Entry.isRed x = false) :
    Covered k c x T ↔ Charged k (colors (plug c x)) (colors T) := by
  have hcredit : credit (colors (plug c x)) =
      credit (colors x) + around (pathColors c) false := by
    rw [colors_plug, credit_plug, root_colors, hx]
  constructor
  · rintro ⟨hlen, hpaid⟩
    exact ⟨hlen, by rw [hcredit]; exact hpaid⟩
  · rintro ⟨hlen, hpaid⟩
    exact ⟨hlen, by rw [← hcredit]; exact hpaid⟩

/-- A red node is painted black. -/
theorem covered_blacken (c : Path Entry) (x : ETree) : Covered 7 c x (plug c (blacken x)) := by
  obtain ⟨hlen, hn⟩ := (differ_blacken (colors x)).plug (pathColors c)
  rw [← colors_blacken, ← colors_plug, ← colors_plug] at hlen hn
  refine ⟨hlen, ?_⟩
  have hle := credit_blacken_le (colors x)
  rw [← colors_blacken] at hle
  have hroot : root (colors (blacken x)) = false := by rw [root_colors, rootHas_isRed_blacken]
  have hafter : credit (colors (plug c (blacken x))) =
      credit (colors (blacken x)) + around (pathColors c) false := by
    rw [colors_plug, credit_plug, hroot]
  omega

/-- The same below the root, which is black anyway. -/
theorem covered_blacken_plug (hc : Hole Entry.isRed c n) (x : ETree) :
    Covered 7 c x (blacken (plug c (blacken x))) := by
  have hroot : rootHas Entry.isRed (plug c (blacken x)) = false :=
    rootHas_plug_of_hole hc fun _ => rootHas_isRed_blacken x
  obtain ⟨hlen, hpaid⟩ := covered_blacken c x
  rw [← colors_blacken_of_black hroot] at hlen hpaid
  exact ⟨hlen, hpaid⟩

/-- Case 4 costs at most 9. -/
theorem charged_blackBlackTurn (hw : w.isRed = false) (hx : rootHas Entry.isRed x = false)
    (hfar : Balanced Entry.isRed far n) (hfr : rootHas Entry.isRed far = true) :
    Charged 9 (colors (plug c (join d p x (join d w near far))))
      (colors (blackBlackTurn o d p x w near far c)) := by
  have hcolor : (w.recolor fun k => k.setColor p.color.getColor).isRed = p.isRed := by
    rw [Entry.isRed_recolor, Color.isRed_setColor_getColor]
    rfl
  obtain ⟨v, u, u', rfl⟩ := exists_join .left (ne_nil_of_rootHas hfr)
  rw [rootHas_join] at hfr
  obtain ⟨hur, hur', -, -⟩ := (balanced_red hfr).1 hfar
  rw [blackBlackTurn, colors_plug, colors_plug, pathColors_turnPath]
  simp only [turn, blacken, mapRoot_join, colors_join, colors_touchRoot, Entry.isRed_soil,
    Entry.isRed_touch, hcolor, hw, hfr, Entry.isRed_recolor, Color.isRed_setBlack]
  -- painted first, then turned
  have hpaint := (Differ.refl (colors x)).join d p.isRed false ((Differ.refl (colors near)).join d
    false p.isRed ((Differ.refl (colors u)).join .left true false (.refl (colors u'))))
  refine .of_differ ((hpaint.reshape ?_).plug _) ?_
  · cases d <;> simp [join]
  · rw [credit_plug, credit_plug]
    simp only [credit_join, root_join, root_colors, hx, hur, hur']
    cases p.isRed <;> cases rootHas Entry.isRed near <;> simp only [weight] <;> split_ifs <;> omega

/-- Cases 3 and 4 cost at most 9. -/
theorem charged_settle (hw : w.isRed = false) (hx : rootHas Entry.isRed x = false)
    (hnear : Balanced Entry.isRed near n) (hfar : Balanced Entry.isRed far n)
    (hr : (rootHas Entry.isRed near || rootHas Entry.isRed far) = true) :
    Charged 9 (colors (plug c (join d p x (join d w near far))))
      (colors (settle o d p x w near far c)) := by
  unfold settle
  split_ifs with hfr
  · exact charged_blackBlackTurn hw hx hfar hfr
  · have hnr : rootHas Entry.isRed near = true := by simpa [hfr] using hr
    rw [Bool.not_eq_true] at hfr
    obtain ⟨v, b, e, rfl⟩ := exists_join d.other (ne_nil_of_rootHas hnr)
    rw [rootHas_join] at hnr
    obtain ⟨hbr, her, -, -⟩ := (balanced_red hnr).1 hnear
    rw [unjoin_join]
    dsimp only
    rw [blackBlackTurn, colors_plug, colors_plug, pathColors_turnPath, pathColors_soil]
    have hcolor : ∀ v : Entry, (v.recolor fun k => k.setColor
        ((p.touch o).soil o).color.getColor).isRed = p.isRed := fun v => by
      rw [Entry.isRed_recolor, Color.isRed_setColor_getColor, Entry.color_isRed, Entry.isRed_soil,
        Entry.isRed_touch]
    simp only [turn, blacken, mapRoot_join, colors_join, colors_touchRoot, Entry.isRed_soil,
      Entry.isRed_touch, hcolor, hw, hnr, Entry.isRed_recolor, Color.isRed_setBlack]
    -- the near nephew takes the colour of the parent, the sibling is black again
    have hpaint := (Differ.refl (colors x)).join d p.isRed false
      (((Differ.refl (colors b)).join d.other true p.isRed (.refl (colors e))).join d false false
        (.refl (colors far)))
    refine .of_differ ((hpaint.reshape ?_).plug _) ?_
    · cases d <;> simp [join]
    · rw [credit_plug, credit_plug]
      simp only [credit_join, root_join, root_colors, hx, hbr, her, hfr]
      cases p.isRed <;> simp only [weight] <;> split_ifs <;> omega

/-- What the fixup costs below a parent, when the sibling is black. -/
def repairFee (f : Frame Entry) : ℕ := if f.label.isRed then 9 else 11

/-- What the fixup costs at a node. -/
def blackBlackFee (red : Bool) : ℕ := if red then 7 else 11

/-- Case 2 leaves enough credit behind for what follows at the parent. -/
theorem charged_of_up (hs : f.sibling = join f.side w near far) (hw : w.isRed = false)
    (hx : rootHas Entry.isRed x = false) (hnr : rootHas Entry.isRed near = false)
    (hfr : rootHas Entry.isRed far = false) (hup : Covered (blackBlackFee f.label.isRed) c
      (join f.side f.label x (join f.side (w.recolor Color.setRed) near far)) T) :
    Charged (repairFee f) (colors (plug (f :: c) x)) (colors T) := by
  obtain ⟨hlen, hpaid⟩ := hup
  have hbefore : colors (f.fill x) =
      join f.side f.label.isRed (colors x) (join f.side false (colors near) (colors far)) := by
    rw [Frame.fill, hs, colors_join, colors_join, hw]
  have hafter : colors (join f.side f.label x (join f.side (w.recolor Color.setRed) near far)) =
      join f.side f.label.isRed (colors x) (join f.side true (colors near) (colors far)) := by
    rw [colors_join, colors_join, Entry.isRed_recolor, Color.isRed_setRed]
  rw [colors_plug, hafter] at hlen hpaid
  rw [plug_cons, colors_plug, hbefore]
  have hdiffer : Differ 1 (join f.side f.label.isRed (colors x) (join f.side false (colors near)
      (colors far))) (join f.side f.label.isRed (colors x) (join f.side true (colors near)
        (colors far))) :=
    ((Differ.refl _).join f.side _ _ ((Differ.refl _).join f.side false true (.refl _))).mono
      (by simp)
  have hplug := hdiffer.plug (pathColors c)
  refine ⟨hplug.length.trans hlen, ?_⟩
  have htriangle := changes_triangle hplug.length hlen
  have hchanges := hplug.changes
  have haround := around_false_le (pathColors c)
  have hweight : weight f.label.isRed false true + (if f.label.isRed then 0 else 1) =
      weight f.label.isRed false false := by
    cases f.label.isRed <;> rfl
  rw [credit_join, root_join, root_colors, hx, credit_join] at hpaid
  rw [credit_plug, root_join, credit_join, root_join, root_colors, hx, credit_join, root_colors,
    root_colors, hnr, hfr]
  have hred : ∀ b b', weight true b b' = 0 := fun _ _ => rfl
  have hblack : weight false false false = 1 := rfl
  rw [hred] at hpaid
  rw [hblack]
  unfold blackBlackFee at hpaid
  unfold repairFee
  cases hp : f.label.isRed <;> rw [hp] at hpaid hweight htriangle hchanges <;>
    simp only [Bool.false_eq_true, if_false, if_true] at hpaid hweight ⊢ <;> omega

theorem charged_repairAt {up : ETree → ETree} (hc : Hole Entry.isRed (f :: c) (n + 1))
    (hs : rootHas Entry.isRed f.sibling = false) (hx : Balanced Entry.isRed x n)
    (hxr : rootHas Entry.isRed x = false)
    (hup : ∀ y m, rootHas Entry.isRed y = f.label.isRed → Deficit c y m →
      Covered (blackBlackFee f.label.isRed) c y (up y)) :
    Charged (repairFee f) (colors (plug (f :: c) x)) (colors (repairAt o f c x up)) := by
  have hsib := hc.sibling
  obtain ⟨w, near, far, e⟩ := exists_join f.side hsib.ne_nil
  rw [e, rootHas_join] at hs
  unfold repairAt
  rw [e, unjoin_join]
  dsimp only
  split_ifs with hr
  · rw [e] at hsib
    obtain ⟨m, hm, hnear, hfar⟩ := (balanced_black hs).1 hsib
    obtain rfl : n = m := by omega
    have hblack := (settle_isRedBlack (o := o) (d := f.side) (w := w) (hole_parent hc) hx hnear hfar
      hr).1
    rw [colors_blacken_of_black hblack, plug_cons, Frame.fill, e]
    refine (charged_settle hs hxr hnear hfar hr).mono ?_
    unfold repairFee
    split_ifs <;> decide
  · rw [Bool.or_eq_true, not_or, Bool.not_eq_true, Bool.not_eq_true] at hr
    obtain ⟨m, hm⟩ := deficit_parent hc hx hs e hr.1 hr.2
    exact charged_of_up e hs hxr hr.1 hr.2 (hup _ m (rootHas_join _ _ _ _ _) hm)

/-- Case 1 costs 2, and no credit. -/
theorem charged_lowered (hc : Hole Entry.isRed (f :: c) (n + 1)) (hw : w.isRed = true)
    (hs : f.sibling = join f.side w near far) (hx : rootHas Entry.isRed x = false) :
    Charged 2 (colors (plug (f :: c) x))
      (colors (plug (lowered o f near :: raised o f w far c) x)) := by
  have hsib := hc.sibling
  rw [hs] at hsib
  obtain ⟨-, hfr, -, -⟩ := (balanced_red hw).1 hsib
  have hf : f.label.isRed = false := by
    by_contra hf
    have hsr := ((hole_red (by simpa using hf)).1 hc).2.1
    rw [hs, rootHas_join, hw] at hsr
    cases hsr
  rw [plug_lowered, plug_cons, Frame.fill, hs, colors_plug, colors_plug, pathColors_turnPath]
  simp only [turn, colors_join, colors_touchRoot, Entry.isRed_soil, Entry.isRed_touch, hf, hw,
    Entry.isRed_recolor, Color.isRed_setRed, Color.isRed_setBlack]
  have hpaint := (Differ.refl (colors x)).join f.side false true
    ((Differ.refl (colors near)).join f.side true false (.refl (colors far)))
  refine .of_differ (n := 2) (((hpaint.mono (by simp)).reshape ?_).plug _) ?_
  · cases f.side <;> simp [join]
  · rw [credit_plug, credit_plug]
    simp only [credit_join, root_join, root_colors, hx, hfr, weight]
    omega

/-- The black-black fixup costs at most 11. -/
theorem covered_fixBlackBlack (h : Deficit c x n) :
    Covered (blackBlackFee (rootHas Entry.isRed x)) c x (fixBlackBlack o c x) := by
  induction c generalizing x n with
  | nil =>
    rw [fixBlackBlack]
    cases hr : rootHas Entry.isRed x with
    | true => exact covered_blacken [] x
    | false =>
      rw [covered_iff hr, colors_blacken_of_black hr]
      exact (Charged.refl _).mono (Nat.zero_le _)
  | cons f c ih =>
    obtain ⟨hc, hx⟩ := h
    rw [fixBlackBlack]
    cases hr : rootHas Entry.isRed x with
    | true =>
      rw [if_pos rfl]
      exact covered_blacken_plug hc x
    | false =>
      rw [hr, if_neg (by simp)] at hx
      have hsib := hc.sibling
      obtain ⟨w, near, far, e⟩ := exists_join f.side hsib.ne_nil
      rw [if_neg (by simp), e, unjoin_join, covered_iff hr]
      dsimp only
      split_ifs with hw
      · obtain ⟨hc', hs'⟩ := hole_lowered (o := o) hc hw e
        have hred : (lowered o f near).label.isRed = true := by simp [lowered]
        have hrepair := charged_repairAt (o := o) hc' hs' hx hr fun y m _ hd => by
          rw [hred]
          exact covered_blacken_plug hd.1 y
        rw [repairFee, if_pos hred] at hrepair
        exact (charged_lowered hc hw e hr).trans hrepair
      · have hs : rootHas Entry.isRed f.sibling = false := by
          rw [e, rootHas_join]
          simpa using hw
        refine (charged_repairAt hc hs hx hr fun y m hy hd => hy ▸ ih hd).mono ?_
        unfold repairFee
        split_ifs <;> decide

/-! ### Removing -/

/-- What is left when the node with the children `l` and `r` is taken out at the end of `c`. -/
def staying (c : Path Entry) (l r : ETree) : List Entry :=
  before c ++ (l.inorder ++ r.inorder ++ after c)

theorem map_item_staying (o : Stamp) (c : Path Entry) (a : Entry) (l r : ETree) :
    (staying c l r).map Entry.item = items (removeAt o c a l r) := by
  rw [items_removeAt, staying, items_eq, items_eq]
  simp only [List.map_append]

/-- In colours, the node that is taken out is one with a single subtree; if it is the successor,
this one takes on the colour of `a`. -/
theorem unlink_recolors (o : Stamp) (c : Path Entry) (a : Entry) (l r : ETree) : ∃ d y,
    colors (plug c (node a l r)) = plug (pathColors (unlink o c a l r).1)
      (join d y (colors (unlink o c a l r).2.1) nil) ∧ (unlink o c a l r).2.2 = !y ∧
    changes ((staying c l r).map Entry.isRed)
      (colors (plug (unlink o c a l r).1 (unlink o c a l r).2.1)).inorder ≤ 1 := by
  have hpath : pathColors (Path.mapLabels (Entry.soil o) (Path.mapHead (Entry.touch o) c)) =
      pathColors c := pathColors_turnPath c
  have hroot : ∀ x : ETree, colors ((x.mapRoot (Entry.touch o)).mapRoot (Entry.soil o)) =
      colors x := fun x =>
    (map_mapRoot (Entry.isRed_soil o) _).trans (map_mapRoot (Entry.isRed_touch o) _)
  simp only [colors_plug]
  obtain ⟨rfl, e⟩ | ⟨-, rfl, e⟩ | ⟨-, g, y, x, hpop, e⟩ := unlink_cases o c a l r
  · rw [e]
    dsimp only
    rw [hpath, hroot]
    refine ⟨.right, a.isRed, rfl, rfl, ?_⟩
    rw [← colors_plug, inorder_colors, inorder_plug, staying]
    simp
  · rw [e]
    dsimp only
    rw [hpath, hroot]
    refine ⟨.left, a.isRed, rfl, rfl, ?_⟩
    rw [← colors_plug, inorder_colors, inorder_plug, staying]
    simp
  · have hpromote : (promote o a y).isRed = a.isRed := by
      rw [promote, Entry.isRed_recolor, Color.isRed_setColor_getColor]
      rfl
    have hpath' : pathColors (unlink o c a l r).1 = pathColors (g ++ ⟨.right, a, l⟩ :: c) := by
      rw [e, pathColors_soil, pathColors, pathColors, List.map_append, List.map_append,
        List.map_cons, List.map_cons, map_mapLast (Entry.isRed_touch o),
        map_mapHead (Entry.isRed_touch o), map_mapHead (Entry.isRed_touch o)]
      simp only [Frame.map, hpromote, map_mapRoot (Entry.isRed_touch o)]
    have hr : colors r = colors (r.mapRoot (Entry.mark o)) :=
      (map_mapRoot (Entry.isRed_mark o) r).symm
    obtain ⟨hbefore, hin⟩ := inorder_pop hpop
    rw [hpath', e]
    dsimp only
    rw [hroot]
    refine ⟨.right, y.isRed, ?_, rfl, ?_⟩
    · have hT := congrArg colors (plug_successor (a := a) (l := l) (c := c) hpop)
      rw [colors_plug, colors_plug, ← join_left, colors_join, colors_join, ← hr, ← colors_join] at hT
      exact hT.symm
    · have hrin : r.inorder.map Entry.isRed = (y :: (x.inorder ++ after g)).map Entry.isRed := by
        rw [← inorder_colors, hr, inorder_colors, hin]
      rw [← colors_plug, inorder_colors, inorder_plug, staying, before_append, after_append, hbefore]
      simp only [List.map_append, List.map_cons, hrin, before, after, List.nil_append,
        List.append_assoc, List.cons_append, changes_append_left]
      rw [changes_cons, changes_self]
      split_ifs <;> decide

/-- A node less costs at most 12. -/
theorem removeAt_paid (o : Stamp) (h : IsRedBlack Entry.isRed (plug c (node a l r))) :
    changes ((staying c l r).map Entry.isRed) ((removeAt o c a l r).inorder.map Entry.isRed) +
      3 * credit (colors (removeAt o c a l r)) ≤ 3 * credit (colors (plug c (node a l r))) + 12 := by
  obtain ⟨d, y, hT, hy, hstay⟩ := unlink_recolors o c a l r
  have hT' : credit (colors (plug c (node a l r))) = weight y (root (colors (unlink o c a l r).2.1))
      false + credit (colors (unlink o c a l r).2.1) + around (pathColors (unlink o c a l r).1) y := by
    rw [hT, credit_plug, credit_join, root_join, root_nil, credit_nil]
    rfl
  have hlen : ((staying c l r).map Entry.isRed).length =
      (colors (plug (unlink o c a l r).1 (unlink o c a l r).2.1)).inorder.length := by
    have hitems := congrArg List.length (map_item_staying o c a l r)
    have hslots := congrArg List.length (slots_unlink (o := o) (c := c) (a := a) (l := l) (r := r))
    rw [slots_eq (removeAt o c a l r), slots, List.length_map, List.length_map, ← hitems,
      List.length_map] at hslots
    rw [inorder_colors, List.length_map, List.length_map, hslots]
  rw [← inorder_colors]
  cases y with
  | false =>
    -- the missing black node is made up for
    obtain ⟨n, hn⟩ := unlink_deficit (o := o) h hy
    have hfix := covered_fixBlackBlack (o := o) hn
    rw [removeAt, if_pos (by rw [hy]; rfl)]
    have := changes_triangle hlen hfix.length
    have := hfix.paid
    have hfee : ∀ red, blackBlackFee red ≤ 11 := by decide
    have := hfee (rootHas Entry.isRed (unlink o c a l r).2.1)
    omega
  | true =>
    have hroot : root (colors (unlink o c a l r).2.1) = false := by
      have hT₁ : IsRedBlack id (colors (plug c (node a l r))) := (isRedBlack_map fun _ _ => rfl).2 h
      rw [hT] at hT₁
      obtain ⟨n, -, hb, -⟩ := hole_of_isRedBlack hT₁
      exact ((balanced_red (show id true = true from rfl)).1 hb).1
    have hU : credit (colors (plug (unlink o c a l r).1 (unlink o c a l r).2.1)) =
        credit (colors (unlink o c a l r).2.1) + around (pathColors (unlink o c a l r).1) false := by
      rw [colors_plug, credit_plug, hroot]
    have haround := around_false_le (pathColors (unlink o c a l r).1)
    rw [removeAt, if_neg (by rw [hy]; decide)]
    omega

/-! ### The nodes that stay -/

/-- What a node is known by, and its colour. -/
def Entry.tint (e : Entry) : ℕ × Bool := (e.slot, e.isRed)

/-- The nodes that are in both trees, with their colours before and after.  The changes are paid for
by `k` and by credit. -/
structure Recoloring (k : ℕ) (T T' : ETree) (L L' : List (ℕ × Bool)) : Prop where
  before : ∀ q ∈ L, q ∈ (T.map Entry.tint).inorder
  after : ∀ q ∈ L', q ∈ (T'.map Entry.tint).inorder
  slots : L.map Prod.fst = L'.map Prod.fst
  stays : ∀ i ∈ MulleRbtree.slots T, i ∈ MulleRbtree.slots T' → i ∈ L.map Prod.fst
  paid : changes (L.map Prod.snd) (L'.map Prod.snd) + 3 * credit (colors T') ≤
    3 * credit (colors T) + k

/-- The way from `T` to `T'` costs at most `k`. -/
def Recolors (k : ℕ) (T T' : ETree) : Prop := ∃ L L', Recoloring k T T' L L'

theorem slots_eq_tint (T : ETree) : slots T = (T.map Entry.tint).inorder.map Prod.fst := by
  rw [slots, inorder_map, List.map_map]
  rfl

theorem colors_eq_tint (T : ETree) : colors T = (T.map Entry.tint).map Prod.snd := by
  induction T with
  | nil => rfl
  | node e l r ihl ihr =>
    rw [colors] at ihl ihr
    rw [colors, map, map, map, ihl, ihr]
    rfl

/-- Only slots and colours matter. -/
theorem Recolors.congr {T₁ T₁' T' : ETree} (h : Recolors k T T')
    (e : T₁.map Entry.tint = T.map Entry.tint) (e' : T₁'.map Entry.tint = T'.map Entry.tint) :
    Recolors k T₁ T₁' := by
  obtain ⟨L, L', hL, hL', hslots, hstays, hpaid⟩ := h
  rw [slots_eq_tint, slots_eq_tint, ← e, ← e', ← slots_eq_tint, ← slots_eq_tint] at hstays
  rw [colors_eq_tint, colors_eq_tint, ← e, ← e', ← colors_eq_tint, ← colors_eq_tint] at hpaid
  exact ⟨L, L', e ▸ hL, e' ▸ hL', hslots, hstays, hpaid⟩

theorem Recolors.refl (T : ETree) : Recolors 0 T T := by
  refine ⟨_, _, fun q hq => hq, fun q hq => hq, rfl, fun i hi _ => ?_, by simp⟩
  rwa [slots_eq_tint] at hi

theorem tint_mem {L : List Entry} (h : ∀ e ∈ L, e ∈ T.inorder) :
    ∀ q ∈ L.map Entry.tint, q ∈ (T.map Entry.tint).inorder := by
  rw [inorder_map]
  exact fun q hq => List.map_subset _ h hq

theorem map_fst_tint (L : List Entry) : (L.map Entry.tint).map Prod.fst = L.map Entry.slot :=
  List.map_map

theorem map_snd_tint (L : List Entry) : (L.map Entry.tint).map Prod.snd = L.map Entry.isRed :=
  List.map_map

/-- Equal items have equal slots. -/
theorem map_slot_congr {L L' : List Entry} (h : L.map Entry.item = L'.map Entry.item) :
    L.map Entry.slot = L'.map Entry.slot := by
  have hslot := congrArg (List.map Item.slot) h
  rwa [List.map_map, List.map_map] at hslot

theorem recolors_attach (o : Stamp) (h : IsRedBlack Entry.isRed (plug c nil))
    (ha : a.isRed = true) : Recolors 8 (plug c nil) (attach o a c) := by
  obtain ⟨-, hpaid⟩ := attach_paid o h ha
  have hitems := items_attach (o := o) (a := a) (c := c)
  rw [items_plug, items_eq] at hitems
  obtain ⟨u, w, hT, hu, hw⟩ := List.map_eq_append_iff.1 hitems
  obtain ⟨b, v, rfl, -, hv⟩ := List.map_eq_cons_iff.1 hw
  have hempty : (plug c nil).inorder = before c ++ after c := by
    rw [inorder_plug]
    rfl
  refine ⟨(before c ++ after c).map Entry.tint, (u ++ v).map Entry.tint, tint_mem fun e he => ?_,
    tint_mem fun e he => ?_, ?_, fun i hi _ => ?_, ?_⟩
  · rwa [hempty]
  · rw [hT]
    simp only [List.mem_append, List.mem_cons] at he ⊢
    tauto
  · rw [map_fst_tint, map_fst_tint, List.map_append, List.map_append, map_slot_congr hu.symm,
      map_slot_congr hv.symm]
  · rw [map_fst_tint]
    rwa [slots, hempty] at hi
  · have hlen : ((before c).map Entry.isRed).length = (u.map Entry.isRed).length := by
      simpa using (congrArg List.length hu).symm
    have herase := changes_erase_le hlen a.isRed b.isRed ((after c).map Entry.isRed)
      (v.map Entry.isRed)
    rw [inorder_plug, hT] at hpaid
    simp only [map_snd_tint, List.map_append, List.map_cons, inorder_node, inorder_nil,
      List.nil_append, List.cons_append] at hpaid herase ⊢
    omega

theorem recolors_removeAt (o : Stamp) (h : IsRedBlack Entry.isRed (plug c (node a l r))) :
    Recolors 12 (plug c (node a l r)) (removeAt o c a l r) := by
  have hpaid := removeAt_paid o h
  have hitems := map_item_staying o c a l r
  rw [items_eq] at hitems
  refine ⟨(staying c l r).map Entry.tint, (removeAt o c a l r).inorder.map Entry.tint,
    tint_mem fun e he => ?_, tint_mem fun e he => he, ?_, fun i _ hi => ?_, ?_⟩
  · rw [inorder_plug, inorder_node]
    simp only [staying, List.mem_append, List.mem_cons] at he ⊢
    tauto
  · rw [map_fst_tint, map_fst_tint, map_slot_congr hitems]
  · rwa [map_fst_tint, map_slot_congr hitems]
  · rwa [map_snd_tint, map_snd_tint]

theorem recolors_unstore (o : Stamp) (h : IsRedBlack Entry.isRed (plug c (node a l r))) :
    Recolors 12 (plug c (node a l r)) (unstore o c a l r) := by
  have hsoil : ∀ e, (Entry.soil o e).tint = e.tint := fun e => by simp [Entry.tint]
  refine (recolors_removeAt o.next (isRedBlack_soiled (o := o) h)).congr ?_ rfl
  rw [map_plug, map_plug, map_mapLabels hsoil, map, map, hsoil]

/-- Dirty flags cost nothing. -/
theorem Recolors.soiled {T' : ETree} (h : Recolors k T T') (i : ℕ) : Recolors k T (soilTo o i T') :=
  h.congr rfl (map_soilTo (fun e => by simp [Entry.tint]) T')

theorem Recolors.washed {T' : ETree} (h : Recolors k T T') : Recolors k T (wash T') :=
  h.congr rfl (map_wash (fun e => by simp [Entry.tint]) T')

end MulleRbtree
