import MulleRbtree.Library.Wiring
import MulleRbtree.Tree.Attach
import MulleRbtree.Tree.Value

/-!
# Rebalancing by rotations

But for colours and flags the fixups do nothing else than rotate: an insertion at most twice, a
removal at most three times.

* `shape T`: a tree of entries as a tree of slots;
* `rotates_fixRedRed`, `rotates_fixBlackBlack`: what the fixups do to the shape;
* `rewired_attach`, `rewired_removeAt`: hence how many links an insertion and a removal change.
-/

namespace MulleRbtree

open BinaryTree

/-- The shape of a tree. -/
def shape (T : ETree) : BinaryTree ℕ := T.map Entry.slot

/-- The shape of the surroundings of a place. -/
def shapePath (c : Path Entry) : Path ℕ := List.map (Frame.map Entry.slot) c

variable {o : Stamp} {c : Path Entry} {f g : Frame Entry} {x b e l r near far : ETree}
  {a p t w : Entry} {d : Side} {T : ETree}

theorem shape_plug (c : Path Entry) (T : ETree) : shape (plug c T) = plug (shapePath c) (shape T) :=
  map_plug _ c T

@[simp] theorem shape_join (d : Side) (a : Entry) (x y : ETree) :
    shape (join d a x y) = join d a.slot (shape x) (shape y) := map_join _ d a x y

@[simp] theorem shape_blacken (T : ETree) : shape (blacken T) = shape T :=
  map_mapRoot (Entry.recolor_slot Color.setBlack) T

@[simp] theorem shape_touchRoot (T : ETree) : shape (T.mapRoot (Entry.touch o)) = shape T :=
  map_mapRoot (Entry.touch_slot o) T

@[simp] theorem shape_soilRoot (T : ETree) : shape (T.mapRoot (Entry.soil o)) = shape T :=
  map_mapRoot (Entry.soil_slot o) T

@[simp] theorem shapePath_soil (c : Path Entry) :
    shapePath (Path.mapLabels (Entry.soil o) c) = shapePath c := map_mapLabels (Entry.soil_slot o) c

@[simp] theorem shapePath_mapHead (c : Path Entry) :
    shapePath (Path.mapHead (Entry.touch o) c) = shapePath c := map_mapHead (Entry.touch_slot o) c

@[simp] theorem shapePath_turnPath (c : Path Entry) : shapePath (turnPath o c) = shapePath c := by
  rw [turnPath, shapePath_soil, shapePath_mapHead]

/-! ### The red-red fixup -/

theorem rotated_redRedTurn : Rotated (shape (plug (g :: c) (join g.side t b e)))
    (shape (redRedTurn o t b e g c)) := by
  have hbefore : shape (plug (g :: c) (join g.side t b e)) = plug (shapePath c) (join g.side.other
      g.label.slot (shape g.sibling) (join g.side.other t.slot (shape e) (shape b))) := by
    rw [plug_cons, shape_plug, Frame.fill, shape_join, shape_join, join_other, join_other]
  have hafter : shape (redRedTurn o t b e g c) = plug (shapePath c) (join g.side.other t.slot
      (join g.side.other g.label.slot (shape g.sibling) (shape e)) (shape b)) := by
    rw [redRedTurn, shape_blacken, shape_plug, shapePath_turnPath, turn, shape_join, shape_join,
      shape_touchRoot]
    rfl
  rw [hbefore, hafter]
  exact .turn _ _ _ _ _ _ _

/-- The red-red fixup rotates at most twice. -/
theorem rotates_fixRedRed (c : Path Entry) (x : ETree) :
    ∃ k ≤ 2, Rotates k (shape (plug c x)) (shape (fixRedRed o c x)) := by
  induction c, x using fixRedRed.induct with
  | case1 f g c x hf hu ih =>
    have hsame : shape (plug (f :: g :: c) x) = shape (plug c (redRedRecolor f g x)) := by
      rw [plug_cons, plug_cons, shape_plug, shape_plug]
      simp [redRedRecolor, Frame.fill]
    rw [fixRedRed, if_pos hf, if_pos hu, hsame]
    exact ih
  | case2 f g c x hf hu hside =>
    have h := rotated_redRedTurn (o := o) (t := f.label) (b := x) (e := f.sibling) (g := g) (c := c)
    rw [fixRedRed, if_pos hf, if_neg hu, if_pos hside]
    refine ⟨1, by decide, Rotated.rotates ?_⟩
    rwa [plug_cons, Frame.fill, hside]
  | case3 f g c x hf hu hside t b e hxe =>
    obtain rfl := unjoin_eq_some hxe
    have hfirst : Rotated (shape (plug (f :: g :: c) (join g.side t b e))) (shape (plug
        ((g.mapLabel (Entry.touch o)).mapLabel (Entry.soil o) :: Path.mapLabels (Entry.soil o) c)
        (join g.side ((t.touch o).soil o) (join g.side ((f.label.touch o).soil o) f.sibling
          (b.mapRoot (Entry.touch o))) e))) := by
      have hpath : shapePath ((g.mapLabel (Entry.touch o)).mapLabel (Entry.soil o) ::
          Path.mapLabels (Entry.soil o) c) = shapePath (g :: c) :=
        congrArg (List.cons _) (shapePath_soil c)
      rw [plug_cons, fill_of_side_ne hside, shape_plug, shape_plug, hpath]
      simp only [shape_join, shape_touchRoot]
      exact .turn (shapePath (g :: c)) _ _ _ _ _ _
    rw [fixRedRed, if_pos hf, if_neg hu, if_neg hside, hxe]
    exact ⟨2, le_rfl, .step hfirst (Rotated.rotates rotated_redRedTurn)⟩
  | case4 f g c x hf hu hside hxe =>
    rw [fixRedRed, if_pos hf, if_neg hu, if_neg hside, hxe]
    dsimp only
    rw [shape_blacken]
    exact ⟨0, by decide, .refl _⟩
  | case5 f g c x hf =>
    rw [fixRedRed, if_neg hf, shape_blacken]
    exact ⟨0, by decide, .refl _⟩
  | case6 c x hshort =>
    rw [fixRedRed, shape_blacken]
    · exact ⟨0, by decide, .refl _⟩
    · exact hshort

/-! ### The black-black fixup -/

theorem rotated_blackBlackTurn : Rotated (shape (plug c (join d p x (join d w near far))))
    (shape (blackBlackTurn o d p x w near far c)) := by
  rw [blackBlackTurn, shape_plug, shape_plug, shapePath_turnPath]
  simp only [turn, shape_join, shape_touchRoot, shape_blacken]
  exact .turn _ _ _ _ _ _ _

theorem rotates_settle : ∃ k ≤ 2, Rotates k (shape (plug c (join d p x (join d w near far))))
    (shape (settle o d p x w near far c)) := by
  unfold settle
  split_ifs with hfar
  · exact ⟨1, by decide, rotated_blackBlackTurn.rotates⟩
  · cases hn : near.unjoin d.other with
    | none => exact ⟨0, by decide, .refl _⟩
    | some q =>
      obtain ⟨v, b, e⟩ := q
      obtain rfl := unjoin_eq_some hn
      have hfirst : Rotated (shape (plug c (join d p x (join d w (join d.other v b e) far))))
          (shape (plug (Path.mapLabels (Entry.soil o) c) (join d ((p.touch o).soil o) x (join d
            (((v.recolor Color.setBlack).touch o).soil o) e (join d.other
              (((w.recolor Color.setRed).touch o).soil o) far (b.mapRoot (Entry.touch o))))))) := by
        have hturn := Rotated.turn (⟨d.other, p.slot, shape x⟩ :: shapePath c) d.other w.slot v.slot
          (shape far) (shape b) (shape e)
        rw [shape_plug, shape_plug, shapePath_soil]
        simpa [plug_cons, Frame.fill] using hturn
      exact ⟨2, le_rfl, .step hfirst rotated_blackBlackTurn.rotates⟩

theorem rotates_repairAt {up : ETree → ETree} {k : ℕ} (hk : 2 ≤ k)
    (hup : ∀ y, ∃ m ≤ k, Rotates m (shape (plug c y)) (shape (up y))) :
    ∃ m ≤ k, Rotates m (shape (plug (f :: c) x)) (shape (repairAt o f c x up)) := by
  unfold repairAt
  cases hs : f.sibling.unjoin f.side with
  | none => exact hup (f.fill x)
  | some q =>
    obtain ⟨w, near, far⟩ := q
    have hfill := fill_of_unjoin (x := x) hs
    dsimp only
    split_ifs with hr
    · obtain ⟨m, hm, hturns⟩ : ∃ m ≤ 2, Rotates m
          (shape (plug c (join f.side f.label x (join f.side w near far))))
          (shape (settle o f.side f.label x w near far c)) := rotates_settle
      rw [shape_blacken, plug_cons, hfill]
      exact ⟨m, hm.trans hk, hturns⟩
    · obtain ⟨m, hm, hturns⟩ := hup (join f.side f.label x (join f.side (w.recolor Color.setRed)
        near far))
      have hsame : shape (plug (f :: c) x) = shape (plug c (join f.side f.label x (join f.side
          (w.recolor Color.setRed) near far))) := by
        rw [plug_cons, hfill, shape_plug, shape_plug]
        simp only [shape_join, Entry.recolor_slot]
      exact ⟨m, hm, hsame ▸ hturns⟩

/-- The black-black fixup rotates at most three times. -/
theorem rotates_fixBlackBlack (c : Path Entry) (x : ETree) :
    ∃ k ≤ 3, Rotates k (shape (plug c x)) (shape (fixBlackBlack o c x)) := by
  induction c generalizing x with
  | nil =>
    rw [fixBlackBlack, shape_blacken]
    exact ⟨0, by decide, .refl _⟩
  | cons f c ih =>
    have hblack : shape (blacken (plug (f :: c) (blacken x))) = shape (plug (f :: c) x) := by
      rw [shape_blacken, shape_plug, shape_plug, shape_blacken]
    rw [fixBlackBlack]
    split_ifs with hr
    · rw [hblack]
      exact ⟨0, by decide, .refl _⟩
    · cases hs : f.sibling.unjoin f.side with
      | none =>
        dsimp only
        rw [shape_blacken]
        exact ⟨0, by decide, .refl _⟩
      | some q =>
        obtain ⟨w, near, far⟩ := q
        dsimp only
        split_ifs with hw
        · have hfirst : Rotated (shape (plug (f :: c) x))
              (shape (plug (lowered o f near :: raised o f w far c) x)) := by
            rw [plug_cons, fill_of_unjoin hs, plug_lowered, shape_plug, shape_plug,
              shapePath_turnPath, turn]
            simp only [shape_join, shape_touchRoot]
            exact .turn _ _ _ _ _ _ _
          have hup : ∀ y, ∃ m ≤ 2, Rotates m (shape (plug (raised o f w far c) y))
              (shape (blacken (plug (raised o f w far c) (blacken y)))) := by
            intro y
            rw [shape_blacken, shape_plug, shape_plug, shape_blacken]
            exact ⟨0, by decide, .refl _⟩
          obtain ⟨m, hm, hturns⟩ := rotates_repairAt (o := o) (f := lowered o f near) (x := x) le_rfl hup
          exact ⟨m + 1, Nat.succ_le_succ hm, .step hfirst hturns⟩
        · exact rotates_repairAt (by decide) ih

/-! ### Calls -/

/-- An insertion rewires at most ten nodes: the new one, its parent, and four for each rotation. -/
theorem rewired_attach (o : Stamp) (a : Entry) (c : Path Entry) :
    rewired (shape (plug c nil)) (shape (attach o a c)) ≤ 10 := by
  have hsoil : ∀ e : Entry, (Entry.soil o.next e).slot = e.slot := Entry.soil_slot o.next
  have hattach : shape (attach o a c) = shape (hang o a c) := map_soilTo hsoil _
  have hrelink : ∀ c : Path Entry, shapePath (Path.mapHead (Entry.relink o) c) = shapePath c :=
    fun c => map_mapHead (Entry.relink_slot o) c
  have hleaf : ∀ c : Path Entry, shape (plug (Path.mapHead (Entry.relink o) c)
      (node (a.relink o) nil nil)) = plug (shapePath c) (node a.slot nil nil) := by
    intro c
    rw [shape_plug, hrelink]
    rfl
  have hhang : ∃ k ≤ 2, Rotates k (plug (shapePath c) (node a.slot nil nil)) (shape (hang o a c)) := by
    unfold hang
    cases c with
    | nil =>
      dsimp only
      rw [shape_blacken]
      exact ⟨0, by decide, .refl _⟩
    | cons f c =>
      dsimp only
      split_ifs
      · rw [← hleaf]
        exact rotates_fixRedRed _ _
      · rw [hleaf]
        exact ⟨0, by decide, .refl _⟩
  obtain ⟨k, hk, hturns⟩ := hhang
  have h₁ := rewired_leaf (shapePath c) a.slot
  have h₂ := hturns.rewired_le
  have htri := rewired_triangle (plug (shapePath c) nil) (plug (shapePath c) (node a.slot nil nil))
    (shape (hang o a c))
  have hempty : shape (plug c nil) = plug (shapePath c) nil := shape_plug c nil
  rw [hattach, hempty]
  omega

/-- Taking a node out of the tree rewires at most six others. -/
theorem rewired_unlink (o : Stamp) (c : Path Entry) (a : Entry) (l r : ETree) :
    rewired (shape (plug c (node a l r)))
      (shape (plug (unlink o c a l r).1 (unlink o c a l r).2.1)) ≤ 6 := by
  obtain ⟨rfl, e⟩ | ⟨-, rfl, e⟩ | ⟨-, g, y, x, hpop, e⟩ := unlink_cases o c a l r
  · have h := rewired_splice (shapePath c) .right a.slot (shape r)
    rw [e, shape_plug, shape_plug]
    dsimp only
    rw [shapePath_soil, shapePath_mapHead, shape_soilRoot, shape_touchRoot]
    exact h.trans (by decide)
  · have h := rewired_splice (shapePath c) .left a.slot (shape l)
    rw [e, shape_plug, shape_plug]
    dsimp only
    rw [shapePath_soil, shapePath_mapHead, shape_soilRoot, shape_touchRoot]
    exact h.trans (by decide)
  · have hr : plug (shapePath g) (join .right y.slot (shape x) nil) = shape r := by
      have hmark : shape (r.mapRoot (Entry.mark o)) = shape r := map_mapRoot (Entry.mark_slot o) r
      have hplug : plug g (join .right y x nil) = r.mapRoot (Entry.mark o) := plug_pop hpop
      rw [← hmark, ← hplug, shape_plug, shape_join]
      rfl
    have hbefore : shape (plug c (node a l r)) = plug (shapePath g ++ ⟨.right, a.slot, shape l⟩ ::
        shapePath c) (join .right y.slot (shape x) nil) := by
      rw [plug_append, hr, shape_plug, ← join_left, shape_join, ← join_other]
      rfl
    have hpath : shapePath (unlink o c a l r).1 =
        shapePath g ++ ⟨.right, y.slot, shape l⟩ :: shapePath c := by
      have hlast : shapePath (Path.mapLast (Entry.touch o) (Path.mapHead (Entry.touch o) g)) =
          shapePath g := (map_mapLast (Entry.touch_slot o) _).trans (shapePath_mapHead g)
      have hframe : (⟨.right, promote o a y, l.mapRoot (Entry.touch o)⟩ : Frame Entry).map Entry.slot =
          ⟨.right, y.slot, shape l⟩ := congrArg (Frame.mk Side.right y.slot) (shape_touchRoot l)
      rw [e, shapePath_soil, shapePath, List.map_append, List.map_cons, hframe]
      exact congrArg₂ _ hlast (congrArg _ (shapePath_mapHead c))
    have hafter : shape (plug (unlink o c a l r).1 (unlink o c a l r).2.1) =
        plug (shapePath g ++ ⟨.right, y.slot, shape l⟩ :: shapePath c) (shape x) := by
      rw [shape_plug, hpath, e]
      dsimp only
      rw [shape_soilRoot, shape_touchRoot]
    rw [hbefore, hafter]
    exact rewired_replace _ _ _ _ _ _ _ _

/-- A removal rewires at most eighteen nodes. -/
theorem rewired_removeAt (o : Stamp) (c : Path Entry) (a : Entry) (l r : ETree) :
    rewired (shape (plug c (node a l r))) (shape (removeAt o c a l r)) ≤ 18 := by
  have hfix : ∃ k ≤ 3, Rotates k (shape (plug (unlink o c a l r).1 (unlink o c a l r).2.1))
      (shape (removeAt o c a l r)) := by
    unfold removeAt
    split_ifs
    · exact rotates_fixBlackBlack _ _
    · exact ⟨0, by decide, .refl _⟩
  obtain ⟨k, hk, hturns⟩ := hfix
  have h₁ := rewired_unlink o c a l r
  have h₂ := hturns.rewired_le
  have htri := rewired_triangle (shape (plug c (node a l r)))
    (shape (plug (unlink o c a l r).1 (unlink o c a l r).2.1)) (shape (removeAt o c a l r))
  omega

theorem rewired_unstore (o : Stamp) (c : Path Entry) (a : Entry) (l r : ETree) :
    rewired (shape (plug c (node a l r))) (shape (unstore o c a l r)) ≤ 18 := by
  have h := rewired_removeAt o.next (Path.mapLabels (Entry.soil o) c) (a.soil o) l r
  have hsame : shape (plug (Path.mapLabels (Entry.soil o) c) (node (a.soil o) l r)) =
      shape (plug c (node a l r)) := by
    rw [shape_plug, shape_plug, shapePath_soil]
    rfl
  rwa [hsame] at h

end MulleRbtree
