import MulleRbtree.Tree.Dirt

/-!
# The red-red fixup on trees

`fixRedRed o c x` is what `_mulle__rbtree_red_red_fixup` makes of a tree with the red subtree `x`
at the end of the path `c`.

* `fixRedRed_isRedBlack`: if `x` is the only red node below a red one, no such node is left;
* `items_fixRedRed`: the order is kept.
-/

namespace MulleRbtree

open BinaryTree

variable {o : Stamp} {c : Path Entry} {f g : Frame Entry} {x b e : ETree} {n : ℕ}

/-- Case 3: the grandparent `g` goes down on the other side of the parent `t`. -/
def redRedTurn (o : Stamp) (t : Entry) (b e : ETree) (g : Frame Entry) (c : Path Entry) : ETree :=
  blacken (plug (turnPath o c) (turn o g.side.other (g.label.recolor Color.setRed) g.sibling
    (t.recolor Color.setBlack) e b))

/-- Case 1: parent and uncle become black, the grandparent red. -/
def redRedRecolor (f g : Frame Entry) (x : ETree) : ETree :=
  join g.side (g.label.recolor Color.setRed) ((f.mapLabel (Entry.recolor Color.setBlack)).fill x)
    (blacken g.sibling)

/-- Whether the nearest ancestor is red. -/
def belowRed : Path Entry → Bool
  | [] => false
  | f :: _ => f.label.isRed

/-- `_mulle__rbtree_red_red_fixup` -/
def fixRedRed (o : Stamp) : Path Entry → ETree → ETree
  | f :: g :: c, x =>
    if f.label.isRed then
      if rootHas Entry.isRed g.sibling then fixRedRed o c (redRedRecolor f g x)
      else if f.side = g.side then redRedTurn o f.label x f.sibling g c
      else match x.unjoin g.side with
        | some (t, b, e) =>
          -- case 2: the node changes places with its parent first
          redRedTurn o ((t.touch o).soil o) (join g.side ((f.label.touch o).soil o) f.sibling
            (b.mapRoot (Entry.touch o))) e ((g.mapLabel (Entry.touch o)).mapLabel (Entry.soil o))
            (Path.mapLabels (Entry.soil o) c)
        | none => blacken (plug (f :: g :: c) x)
    else blacken (plug (f :: g :: c) x)
  | c, x => blacken (plug c x)

/-! ### Balance -/

/-- Case 3 repairs the tree. -/
theorem redRedTurn_isRedBlack {t : Entry} (hb : Balanced Entry.isRed b n)
    (he : Balanced Entry.isRed e n) (her : rootHas Entry.isRed e = false)
    (hg : Balanced Entry.isRed g.sibling n) (hgr : rootHas Entry.isRed g.sibling = false)
    (hc : Hole Entry.isRed c (n + 1)) : IsRedBlack Entry.isRed (redRedTurn o t b e g c) := by
  have her' : rootHas Entry.isRed (e.mapRoot (Entry.touch o)) = false := by
    rw [rootHas_mapRoot (Entry.isRed_touch o), her]
  have hlow : Balanced Entry.isRed (join g.side.other (((g.label.recolor Color.setRed).touch o).soil
      o) g.sibling (e.mapRoot (Entry.touch o))) n :=
    (balanced_red (by simp)).2
      ⟨hgr, her', hg, (balanced_mapRoot (Entry.isRed_touch o)).2 he⟩
  have hblack : (((t.recolor Color.setBlack).touch o).soil o).isRed = false := by
    simp
  refine isRedBlack_blacken (isRedBlack_plug (hole_turnPath.2 hc)
    ((balanced_black hblack).2 ⟨n, rfl, hlow, hb⟩) fun h => ?_)
  rw [turn, rootHas_join, hblack] at h
  cases h

/-- Above a red parent there is a black grandparent. -/
theorem hole_red_red (hc : Hole Entry.isRed (f :: g :: c) n) (hf : f.label.isRed = true) :
    (Balanced Entry.isRed f.sibling n ∧ rootHas Entry.isRed f.sibling = false) ∧
      g.label.isRed = false ∧ Balanced Entry.isRed g.sibling n ∧ Hole Entry.isRed c (n + 1) := by
  obtain ⟨hs, hsr, hg, hh⟩ := (hole_red hf).1 hc
  have hgr : g.label.isRed = false := by simpa [takesRed] using hg
  obtain ⟨hu, hc'⟩ := (hole_black hgr).1 hh
  exact ⟨⟨hs, hsr⟩, hgr, hu, hc'⟩

/-- Case 1 moves the red node up by two levels. -/
theorem redRedRecolor_balanced (hx : Balanced Entry.isRed x n)
    (hs : Balanced Entry.isRed f.sibling n) (hu : Balanced Entry.isRed g.sibling n)
    (hur : rootHas Entry.isRed g.sibling = true) :
    Balanced Entry.isRed (redRedRecolor f g x) (n + 1) := by
  have hparent : Balanced Entry.isRed ((f.mapLabel (Entry.recolor Color.setBlack)).fill x)
      (n + 1) := (balanced_black (by simp)).2 ⟨n, rfl, hx, hs⟩
  exact (balanced_red (by simp)).2 ⟨by simp [Frame.fill], rootHas_isRed_blacken g.sibling,
    hparent, balanced_blacken_of_red hu hur⟩

theorem blacken_plug_isRedBlack (hc : Hole Entry.isRed c n) (hx : Balanced Entry.isRed x n)
    (h : c = [] ∨ takesRed Entry.isRed c = true) :
    IsRedBlack Entry.isRed (blacken (plug c x)) := by
  rcases h with rfl | h
  · exact hx.blacken fun e => by simp
  · exact isRedBlack_blacken (isRedBlack_plug hc hx fun _ => h)

/-- A path with fewer than two nodes. -/
theorem eq_nil_or_singleton {α : Type} {u : List α} (h : ∀ a b v, u = a :: b :: v → False) :
    u = [] ∨ ∃ a, u = [a] := by
  cases u with
  | nil => exact .inl rfl
  | cons a u =>
    cases u with
    | nil => exact .inr ⟨a, rfl⟩
    | cons b v => exact (h a b v rfl).elim

/-- The root is black. -/
theorem isRed_of_hole_singleton (hc : Hole Entry.isRed [f] n) : f.label.isRed = false := by
  cases hf : f.label.isRed with
  | false => rfl
  | true => exact absurd ((hole_red hf).1 hc).2.2.1 (by simp [takesRed])

theorem fixRedRed_isRedBlack (hc : Hole Entry.isRed c n) (hx : Balanced Entry.isRed x n)
    (hr : rootHas Entry.isRed x = true) : IsRedBlack Entry.isRed (fixRedRed o c x) := by
  induction c, x using fixRedRed.induct generalizing n with
  | case1 f g c x hf hu ih =>
    obtain ⟨⟨hs, -⟩, -, hg, hc'⟩ := hole_red_red hc hf
    rw [fixRedRed, if_pos hf, if_pos hu]
    exact ih hc' (redRedRecolor_balanced hx hs hg hu) (by simp [redRedRecolor])
  | case2 f g c x hf hu hside =>
    obtain ⟨⟨hs, hsr⟩, -, hg, hc'⟩ := hole_red_red hc hf
    rw [fixRedRed, if_pos hf, if_neg hu, if_pos hside]
    exact redRedTurn_isRedBlack hx hs hsr hg (by simpa using hu) hc'
  | case3 f g c x hf hu hside t b e hxe =>
    obtain ⟨⟨hs, hsr⟩, -, hg, hc'⟩ := hole_red_red hc hf
    obtain rfl := unjoin_eq_some hxe
    rw [rootHas_join] at hr
    obtain ⟨hbr, her, hb, he⟩ := (balanced_red hr).1 hx
    rw [fixRedRed, if_pos hf, if_neg hu, if_neg hside, hxe]
    have hlow : Balanced Entry.isRed (join g.side ((f.label.touch o).soil o) f.sibling
        (b.mapRoot (Entry.touch o))) n :=
      (balanced_red (by simpa using hf)).2 ⟨hsr, by rwa [rootHas_mapRoot (Entry.isRed_touch o)],
        hs, (balanced_mapRoot (Entry.isRed_touch o)).2 hb⟩
    exact redRedTurn_isRedBlack hlow he her hg (by simpa using hu)
      ((hole_mapLabels (Entry.isRed_soil o)).2 hc')
  | case4 f g c x hf hu hside hxe =>
    rw [unjoin_eq_none hxe] at hr
    simp at hr
  | case5 f g c x hf =>
    rw [fixRedRed, if_neg hf]
    exact blacken_plug_isRedBlack hc hx (.inr (by simpa [takesRed] using hf))
  | case6 c x hshort =>
    rw [fixRedRed]
    · refine blacken_plug_isRedBlack hc hx ?_
      obtain rfl | ⟨f, rfl⟩ := eq_nil_or_singleton hshort
      · exact .inl rfl
      · exact .inr (by simp [takesRed, isRed_of_hole_singleton hc])
    · exact hshort

/-! ### Black height -/

/-- The two sides of a frame that does not lie on side `d`. -/
theorem fill_of_side_ne {d : Side} (h : f.side ≠ d) (x : ETree) :
    f.fill x = join d f.label f.sibling x := by
  rw [Frame.fill, Side.eq_other h, join_other]

/-- Only the shape and the colours matter. -/
theorem hasBlackHeight_congr {t t' : ETree} (h : HasBlackHeight Entry.isRed t n)
    (e : t'.map Entry.isRed = t.map Entry.isRed) : HasBlackHeight Entry.isRed t' n := by
  have hid : ∀ u : ETree, HasBlackHeight id (u.map Entry.isRed) n ↔
      HasBlackHeight Entry.isRed u n := fun u => hasBlackHeight_map fun _ _ => rfl
  rw [← hid] at h ⊢
  rwa [e]

theorem hasBlackHeight_redRedTurn {t : Entry} (ht : t.isRed = true) (hg : g.label.isRed = false)
    (h : HasBlackHeight Entry.isRed (plug (g :: c) (join g.side t b e)) n) :
    HasBlackHeight Entry.isRed (redRedTurn o t b e g c) n ∨
      HasBlackHeight Entry.isRed (redRedTurn o t b e g c) (n + 1) := by
  refine HasBlackHeight.blacken (fun e => by simp) ?_
  have hcolors : (plug (turnPath o c) (turn o g.side.other (g.label.recolor Color.setRed) g.sibling
      (t.recolor Color.setBlack) e b)).map Entry.isRed = (plug c (join g.side.other
      (t.recolor Color.setBlack) (join g.side.other (g.label.recolor Color.setRed) g.sibling e)
        b)).map Entry.isRed := by
    rw [map_plug, map_plug, turnPath, map_mapLabels (Entry.isRed_soil o),
      map_mapHead (Entry.isRed_touch o)]
    simp [turn, map_mapRoot (Entry.isRed_touch o)]
  refine hasBlackHeight_congr (HasBlackHeight.plug_mono (fun m hm => ?_) (plug_cons g c _ ▸ h))
    hcolors
  obtain ⟨k, rfl, hlow, hs⟩ := (hasBlackHeight_black hg).1 hm
  obtain ⟨hb, he⟩ := (hasBlackHeight_red ht).1 hlow
  exact (hasBlackHeight_black (by simp)).2 ⟨k, rfl, (hasBlackHeight_red (by simp)).2 ⟨hs, he⟩, hb⟩

/-- The fixup raises the black height by one on all paths at once, or not at all. -/
theorem hasBlackHeight_fixRedRed {k : ℕ} (hc : Hole Entry.isRed c k)
    (hr : rootHas Entry.isRed x = true) (h : HasBlackHeight Entry.isRed (plug c x) n) :
    HasBlackHeight Entry.isRed (fixRedRed o c x) n ∨
      HasBlackHeight Entry.isRed (fixRedRed o c x) (n + 1) := by
  have hblacken : ∀ {T : ETree}, HasBlackHeight Entry.isRed T n →
      HasBlackHeight Entry.isRed (blacken T) n ∨ HasBlackHeight Entry.isRed (blacken T) (n + 1) :=
    fun hT => hT.blacken fun e => by simp
  induction c, x using fixRedRed.induct generalizing k with
  | case1 f g c x hf hu ih =>
    obtain ⟨-, hg, -, hc'⟩ := hole_red_red hc hf
    rw [fixRedRed, if_pos hf, if_pos hu]
    refine ih hc' (by simp [redRedRecolor]) (HasBlackHeight.plug_mono (fun m hm => ?_) h)
    obtain ⟨j, rfl, hfx, hs⟩ := (hasBlackHeight_black hg).1 hm
    obtain ⟨hx, hfs⟩ := (hasBlackHeight_red hf).1 hfx
    exact (hasBlackHeight_red (by simp)).2 ⟨(hasBlackHeight_black (by simp)).2 ⟨j, rfl, hx, hfs⟩,
      hs.blacken_red (fun e => by simp) hu⟩
  | case2 f g c x hf hu hside =>
    obtain ⟨-, hg, -, -⟩ := hole_red_red hc hf
    rw [fixRedRed, if_pos hf, if_neg hu, if_pos hside]
    refine hasBlackHeight_redRedTurn hf hg ?_
    rw [← hside]
    exact h
  | case3 f g c x hf hu hside t b e hxe =>
    obtain ⟨-, hg, -, -⟩ := hole_red_red hc hf
    obtain rfl := unjoin_eq_some hxe
    rw [rootHas_join] at hr
    rw [fixRedRed, if_pos hf, if_neg hu, if_neg hside, hxe]
    refine hasBlackHeight_redRedTurn (by simpa using hr) (by simpa using hg) ?_
    -- the node and its parent, both red, have changed places
    have hcolors : (plug ((g.mapLabel (Entry.touch o)).mapLabel (Entry.soil o) ::
        Path.mapLabels (Entry.soil o) c) (join g.side ((t.touch o).soil o) (join g.side
          ((f.label.touch o).soil o) f.sibling (b.mapRoot (Entry.touch o))) e)).map Entry.isRed =
        (plug (g :: c) (join g.side t (join g.side f.label f.sibling b) e)).map Entry.isRed := by
      rw [map_plug, map_plug, List.map_cons, List.map_cons, map_mapLabels (Entry.isRed_soil o)]
      simp [map_mapRoot (Entry.isRed_touch o), Frame.map]
    refine hasBlackHeight_congr (HasBlackHeight.plug_mono (fun m hm => ?_) (plug_cons f _ _ ▸ h))
      hcolors
    rw [fill_of_side_ne hside] at hm
    obtain ⟨hs, hx⟩ := (hasBlackHeight_red hf).1 hm
    obtain ⟨hb, he⟩ := (hasBlackHeight_red hr).1 hx
    exact (hasBlackHeight_red hr).2 ⟨(hasBlackHeight_red hf).2 ⟨hs, hb⟩, he⟩
  | case4 f g c x hf hu hside hxe =>
    rw [fixRedRed, if_pos hf, if_neg hu, if_neg hside, hxe]
    exact hblacken h
  | case5 f g c x hf =>
    rw [fixRedRed, if_neg hf]
    exact hblacken h
  | case6 c x hshort =>
    rw [fixRedRed]
    · exact hblacken h
    · exact hshort

/-! ### Order -/

theorem items_redRedTurn {t : Entry} :
    items (redRedTurn o t b e g c) = items (plug (g :: c) (join g.side t b e)) := by
  rw [redRedTurn, items_blacken, plug_cons]
  refine items_plug_congr (map_item_turnPath o c) ?_
  rw [items_turn]
  simp [items, Frame.fill]

theorem items_fixRedRed : items (fixRedRed o c x) = items (plug c x) := by
  induction c, x using fixRedRed.induct with
  | case1 f g c x hf hu ih =>
    rw [fixRedRed, if_pos hf, if_pos hu, ih]
    refine items_plug_congr (c := c) rfl ?_
    simp [items, redRedRecolor, Frame.fill, blacken, map_mapRoot (Entry.item_recolor _)]
  | case2 f g c x hf hu hside =>
    rw [fixRedRed, if_pos hf, if_neg hu, if_pos hside, items_redRedTurn, ← hside]
    rfl
  | case3 f g c x hf hu hside t b e hxe =>
    obtain rfl := unjoin_eq_some hxe
    rw [fixRedRed, if_pos hf, if_neg hu, if_neg hside, hxe, items_redRedTurn]
    refine items_plug_congr (c := g :: c) ?_ ?_
    · simp [map_mapLabels (Entry.item_soil o), Frame.map]
    · rw [fill_of_side_ne hside, ← items_turn o]
      simp [items, turn]
  | case4 f g c x hf hu hside hxe => rw [fixRedRed, if_pos hf, if_neg hu, if_neg hside, hxe]; simp
  | case5 f g c x hf => rw [fixRedRed, if_neg hf]; simp
  | case6 c x hshort => rw [fixRedRed]; simp; exact hshort

/-! ### What dirty flags protect -/

section Kept

variable {R : Entry → Option Entry → Option Entry → Prop} (hR : Tolerant R)
include hR

theorem kept_redRedTurn {t : Entry} (h : Kept R o.options (plug (g :: c) (join g.side t b e))) :
    Kept R o.options (redRedTurn o t b e g c) := by
  refine (kept_turn hR (h.congr hR ?_)).congr hR (map_flag_blacken _)
  simp [map_plug, plug_cons, Frame.fill]

/-- The fixup keeps what the dirty flags protect. -/
theorem kept_fixRedRed (h : Kept R o.options (plug c x)) :
    Kept R o.options (fixRedRed o c x) := by
  induction c, x using fixRedRed.induct with
  | case1 f g c x hf hu ih =>
    rw [fixRedRed, if_pos hf, if_pos hu]
    refine ih (h.congr hR ?_)
    simp [map_plug, plug_cons, redRedRecolor, Frame.fill]
  | case2 f g c x hf hu hside =>
    rw [fixRedRed, if_pos hf, if_neg hu, if_pos hside]
    refine kept_redRedTurn hR ?_
    rw [← hside]
    exact h
  | case3 f g c x hf hu hside t b e hxe =>
    obtain rfl := unjoin_eq_some hxe
    rw [fixRedRed, if_pos hf, if_neg hu, if_neg hside, hxe]
    rw [plug_cons, fill_of_side_ne hside] at h
    exact kept_redRedTurn hR (kept_turn (c := g :: c) hR h)
  | case4 f g c x hf hu hside hxe =>
    rw [fixRedRed, if_pos hf, if_neg hu, if_neg hside, hxe]
    exact h.congr hR (map_flag_blacken _)
  | case5 f g c x hf =>
    rw [fixRedRed, if_neg hf]
    exact h.congr hR (map_flag_blacken _)
  | case6 c x hshort =>
    rw [fixRedRed]
    · exact h.congr hR (map_flag_blacken _)
    · exact hshort

end Kept
end MulleRbtree
