import MulleRbtree.Library.Image
import MulleRbtree.Tree.Value

/-!
# The algorithms on images of trees

The algorithms of the tree read nothing of an entry but its colour, and write its colour word and
its epoch.  So they commute with every renaming of entries that respects these (`Respects`), and,
being written once for both sides or in two mirrored halves, with mirror images too.

* `image_fixRedRed`, `image_attach`: inserting;
* `image_fixBlackBlack`: the fixup of a removal, with sides exchanged or not;
* `image_unlink`, `image_removeAt`, `image_unstore`: removing, under a renaming.
-/

namespace MulleRbtree

open BinaryTree

/-- `f` respects what is read and written of an entry; the marks depend on `o` before and on `o'`
after the renaming. -/
structure Respects (o o' : Stamp) (f : Entry → Entry) : Prop where
  isRed : ∀ e, (f e).isRed = e.isRed
  mark : ∀ e, f (e.mark o) = (f e).mark o'
  relink : ∀ e, f (e.relink o) = (f e).relink o'
  soil : ∀ e, f (e.soil o) = (f e).soil o'
  setRed : ∀ e, f (e.recolor Color.setRed) = (f e).recolor Color.setRed
  setBlack : ∀ e, f (e.recolor Color.setBlack) = (f e).recolor Color.setBlack
  setColor : ∀ e p : Entry, f (e.recolor fun k => k.setColor p.color.getColor) =
    (f e).recolor fun k => k.setColor (f p).color.getColor

theorem respects_id (o : Stamp) : Respects o o id :=
  ⟨fun _ => rfl, fun _ => rfl, fun _ => rfl, fun _ => rfl, fun _ => rfl, fun _ => rfl,
    fun _ _ => rfl⟩

/-- `f` respects what a removal and the fixups do: they write no link without marking the node. -/
structure Follows (o o' : Stamp) (f : Entry → Entry) : Prop where
  isRed : ∀ e, (f e).isRed = e.isRed
  touch : ∀ e, f (e.touch o) = (f e).touch o'
  soil : ∀ e, f (e.soil o) = (f e).soil o'
  setRed : ∀ e, f (e.recolor Color.setRed) = (f e).recolor Color.setRed
  setBlack : ∀ e, f (e.recolor Color.setBlack) = (f e).recolor Color.setBlack
  setColor : ∀ e p : Entry, f (e.recolor fun k => k.setColor p.color.getColor) =
    (f e).recolor fun k => k.setColor (f p).color.getColor

theorem Respects.follows {o o' : Stamp} {f : Entry → Entry} (hf : Respects o o' f) :
    Follows o o' f where
  isRed := hf.isRed
  touch e := by
    rw [Entry.touch, hf.mark, hf.relink]
    rfl
  soil := hf.soil
  setRed := hf.setRed
  setBlack := hf.setBlack
  setColor := hf.setColor

/-- What is seen of an entry when items are looked at through `look` and of the colour word only the
colour is. -/
def Entry.seen (look : Item → Item) (e : Entry) : Entry :=
  ⟨(look e.item).slot, e.color.getColor, (look e.item).payload, (look e.item).extra, e.relinked⟩

namespace Color

theorem getColor_congr {c d : Color} (h : c.isRed = d.isRed) : c.getColor = d.getColor := by
  rw [getColor_eq_ite, getColor_eq_ite, h]

@[simp] theorem isRed_getColor (c : Color) : c.getColor.isRed = c.isRed := by
  rw [getColor_eq_ite]
  cases c.isRed <;> rfl

@[simp] theorem getColor_getColor (c : Color) : c.getColor.getColor = c.getColor :=
  getColor_congr (isRed_getColor c)

theorem getColor_setRed (c : Color) : c.setRed.getColor = c.getColor.setRed := by
  rw [getColor_eq_ite c, getColor_eq_ite c.setRed]
  cases c.isRed <;> simp <;> rfl

theorem getColor_setBlack (c : Color) : c.setBlack.getColor = c.getColor.setBlack := by
  rw [getColor_eq_ite c, getColor_eq_ite c.setBlack]
  rw [isRed_setBlack]
  cases c.isRed <;> rfl

theorem getColor_setColor (c d : Color) :
    (c.setColor d.getColor).getColor = c.getColor.setColor d.getColor := by
  rw [getColor_eq_ite c, getColor_eq_ite (c.setColor _), isRed_setColor_getColor, getColor_eq_ite d]
  cases c.isRed <;> cases d.isRed <;> rfl

end Color

namespace Entry

variable (look : Item → Item) (o : Stamp) (e : Entry)

@[simp] theorem isRed_seen : (e.seen look).isRed = e.isRed := Color.isRed_getColor e.color

theorem seen_congr {e e' : Entry} (hi : e'.item = e.item) (hc : e'.isRed = e.isRed)
    (hr : e'.relinked = e.relinked) : e'.seen look = e.seen look := by
  have hcolor : e'.color.getColor = e.color.getColor := Color.getColor_congr hc
  rw [seen, seen, hi, hcolor, hr]

@[simp] theorem seen_mark : (e.mark o).seen look = e.seen look :=
  seen_congr look rfl (isRed_mark o e) rfl

@[simp] theorem seen_soil : (e.soil o).seen look = e.seen look :=
  seen_congr look rfl (isRed_soil o e) rfl

@[simp] theorem seen_clean : e.clean.seen look = e.seen look := seen_congr look rfl e.isRed_clean rfl

end Entry

/-- Without flags there are no marks. -/
theorem Entry.mark_eq_id {o : Stamp} (h : Options.useMarker o.options = false) :
    Entry.mark o = id := by
  funext e
  simp [Entry.mark, Entry.recolor, Stamp.markColor, h]

/-- What is seen goes through the algorithms as if the tree used no flags. -/
theorem respects_seen (look : Item → Item) {o o' : Stamp} (he : o'.epoch = o.epoch)
    (hd : Options.useDirty o'.options = false) (hm : Options.useMarker o'.options = false) :
    Respects o o' (Entry.seen look) where
  isRed := Entry.isRed_seen look
  mark e := by rw [Entry.seen_mark, Entry.mark_eq_id hm]; rfl
  relink e := by rw [Entry.relink, Entry.relink, he]; rfl
  soil e := by rw [Entry.seen_soil, Entry.soil_eq_id hd]; rfl
  setRed e := by rw [Entry.seen, Entry.recolor_color, Color.getColor_setRed]; rfl
  setBlack e := by rw [Entry.seen, Entry.recolor_color, Color.getColor_setBlack]; rfl
  setColor e p := by
    rw [Entry.seen, Entry.recolor_color, Color.getColor_setColor]
    change _ = (e.seen look).recolor fun k => k.setColor p.color.getColor.getColor
    rw [Color.getColor_getColor]
    rfl

section Follows

variable {o o' : Stamp} {f : Entry → Entry} (hf : Follows o o' f) {swap : Bool} {d : Side}
  {c : Path Entry} {a p t w e : Entry} {x y l r b u near far : ETree} {g h : Frame Entry}
include hf

theorem image_blacken : (blacken x).image swap f = blacken (x.image swap f) :=
  image_mapRoot hf.setBlack

theorem image_touchRoot :
    (x.mapRoot (Entry.touch o)).image swap f = (x.image swap f).mapRoot (Entry.touch o') :=
  image_mapRoot hf.touch

theorem rootHas_isRed_image : rootHas Entry.isRed (x.image swap f) = rootHas Entry.isRed x :=
  rootHas_image hf.isRed

theorem image_turn : (turn o d p x t b u).image swap f =
    turn o' (d.flip swap) (f p) (x.image swap f) (f t) (b.image swap f) (u.image swap f) := by
  simp only [turn, image_join, hf.soil, hf.touch, image_touchRoot hf]

theorem image_turnPath : Path.image swap f (turnPath o c) = turnPath o' (Path.image swap f c) := by
  rw [turnPath, Path.image_mapLabels hf.soil, Path.image_mapHead hf.touch]
  rfl

/-! ### `_mulle__rbtree_red_red_fixup` -/

theorem image_redRedTurn : (redRedTurn o t b u g c).image swap f =
    redRedTurn o' (f t) (b.image swap f) (u.image swap f) (g.image swap f)
      (Path.image swap f c) := by
  simp only [redRedTurn, image_blacken hf, image_plug, image_turnPath hf, image_turn hf, hf.setRed,
    hf.setBlack, Side.flip_other, Frame.image_side, Frame.image_label, Frame.image_sibling]

theorem image_redRedRecolor : (redRedRecolor g h x).image swap f =
    redRedRecolor (g.image swap f) (h.image swap f) (x.image swap f) := by
  simp only [redRedRecolor, image_join, image_fill, image_blacken hf, hf.setRed,
    Frame.image_mapLabel hf.setBlack, Frame.image_side, Frame.image_label, Frame.image_sibling]

theorem image_fixRedRed :
    (fixRedRed o c x).image swap f = fixRedRed o' (Path.image swap f c) (x.image swap f) := by
  induction c, x using fixRedRed.induct with
  | case1 g h c x hg hu ih =>
    rw [fixRedRed, if_pos hg, if_pos hu, ih, image_redRedRecolor hf]
    simp only [Path.image_cons]
    rw [fixRedRed, Frame.image_label, hf.isRed, if_pos hg, Frame.image_sibling,
      rootHas_isRed_image hf, if_pos hu]
  | case2 g h c x hg hu hside =>
    rw [fixRedRed, if_pos hg, if_neg hu, if_pos hside, image_redRedTurn hf]
    simp only [Path.image_cons]
    rw [fixRedRed, Frame.image_label, hf.isRed, if_pos hg, Frame.image_sibling,
      rootHas_isRed_image hf, if_neg hu, Frame.image_side, Frame.image_side,
      if_pos (Side.flip_inj.2 hside)]
    rfl
  | case3 g h c x hg hu hside t b u hx =>
    rw [fixRedRed, if_pos hg, if_neg hu, if_neg hside, hx, image_redRedTurn hf]
    simp only [Path.image_cons]
    rw [fixRedRed, Frame.image_label, hf.isRed, if_pos hg, Frame.image_sibling,
      rootHas_isRed_image hf, if_neg hu, Frame.image_side, Frame.image_side,
      if_neg (mt Side.flip_inj.1 hside), unjoin_image, hx]
    simp only [Option.map_some, image_join, hf.soil, hf.touch, image_touchRoot hf,
      Frame.image_mapLabel hf.soil, Frame.image_mapLabel hf.touch, Path.image_mapLabels hf.soil,
      Frame.image_sibling]
  | case4 g h c x hg hu hside hx =>
    rw [fixRedRed, if_pos hg, if_neg hu, if_neg hside, hx, image_blacken hf, image_plug]
    simp only [Path.image_cons]
    rw [fixRedRed, Frame.image_label, hf.isRed, if_pos hg, Frame.image_sibling,
      rootHas_isRed_image hf, if_neg hu, Frame.image_side, Frame.image_side,
      if_neg (mt Side.flip_inj.1 hside), unjoin_image, hx]
    rfl
  | case5 g h c x hg =>
    rw [fixRedRed, if_neg hg, image_blacken hf, image_plug]
    simp only [Path.image_cons]
    rw [fixRedRed, Frame.image_label, hf.isRed, if_neg hg]
  | case6 c x hshort =>
    have hshort' : ∀ (g h : Frame Entry) (e : Path Entry),
        Path.image swap f c = g :: h :: e → False := by
      intro g h e hc
      obtain rfl | ⟨f', rfl⟩ := eq_nil_or_singleton hshort
      · cases hc
      · cases hc
    rw [fixRedRed, fixRedRed, image_blacken hf, image_plug]
    · exact hshort'
    · exact hshort

/-! ### `_mulle__rbtree_black_black_fixup` -/

theorem image_blackBlackTurn : (blackBlackTurn o d p x w near far c).image swap f =
    blackBlackTurn o' (d.flip swap) (f p) (x.image swap f) (f w) (near.image swap f)
      (far.image swap f) (Path.image swap f c) := by
  simp only [blackBlackTurn, image_plug, image_turnPath hf, image_turn hf, hf.setBlack, hf.setColor,
    image_blacken hf]

theorem image_settle : (settle o d p x w near far c).image swap f =
    settle o' (d.flip swap) (f p) (x.image swap f) (f w) (near.image swap f) (far.image swap f)
      (Path.image swap f c) := by
  unfold settle
  rw [rootHas_isRed_image hf, ← Side.flip_other, unjoin_image]
  split_ifs
  · exact image_blackBlackTurn hf
  · cases near.unjoin d.other with
    | none => simp only [Option.map_none, image_plug, image_join]
    | some q =>
      simp only [Option.map_some, image_blackBlackTurn hf, image_join, hf.soil, hf.touch, hf.setRed,
        hf.setBlack, image_touchRoot hf, Path.image_mapLabels hf.soil, Side.flip_other]

theorem image_repairAt {up up' : ETree → ETree}
    (hup : ∀ y, (up y).image swap f = up' (y.image swap f)) :
    (repairAt o g c x up).image swap f =
      repairAt o' (g.image swap f) (Path.image swap f c) (x.image swap f) up' := by
  unfold repairAt
  rw [Frame.image_sibling, Frame.image_side, unjoin_image]
  cases g.sibling.unjoin g.side with
  | none => rw [hup, image_fill]; rfl
  | some q =>
    simp only [Option.map_some, rootHas_isRed_image hf]
    split_ifs
    · rw [image_blacken hf, image_settle hf]
      rfl
    · rw [hup, image_join, image_join, hf.setRed]
      rfl

theorem image_lowered : (lowered o g near).image swap f =
    lowered o' (g.image swap f) (near.image swap f) := by
  simp only [lowered, Frame.image, hf.soil, hf.touch, hf.setRed, image_touchRoot hf]

theorem image_raised : Path.image swap f (raised o g w far c) =
    raised o' (g.image swap f) (f w) (far.image swap f) (Path.image swap f c) := by
  simp only [raised, Path.image_cons, Frame.image, hf.soil, hf.touch, hf.setBlack,
    image_turnPath hf]

theorem image_fixBlackBlack : (fixBlackBlack o c x).image swap f =
    fixBlackBlack o' (Path.image swap f c) (x.image swap f) := by
  induction c generalizing x with
  | nil => exact image_blacken hf
  | cons g c ih =>
    rw [Path.image_cons, fixBlackBlack, fixBlackBlack, rootHas_isRed_image hf, Frame.image_sibling,
      Frame.image_side, unjoin_image]
    split_ifs
    · rw [image_blacken hf, image_plug, image_blacken hf]
      rfl
    · cases g.sibling.unjoin g.side with
      | none =>
        rw [Option.map_none]
        dsimp only
        rw [image_blacken hf, image_plug]
        rfl
      | some q =>
        simp only [Option.map_some, hf.isRed]
        split_ifs
        · rw [← image_lowered hf, ← image_raised hf]
          refine image_repairAt hf fun y => ?_
          rw [image_blacken hf, image_plug, image_blacken hf]
        · exact image_repairAt hf fun y => ih

/-! ### `_mulle__rbtree_attach_node` -/

theorem image_hang {c : Path Entry} {a : Entry} (hr : ∀ e, f (e.relink o) = (f e).relink o')
    (hn : Follows o.next o'.next f) :
    (hang o a c).image swap f = hang o' (f a) (Path.image swap f c) := by
  have hleaf : (node (a.relink o) nil nil).image swap f = node ((f a).relink o') nil nil := by
    rw [image_leaf, hr]
  unfold hang
  cases c with
  | nil => rw [image_blacken hf, hleaf]; rfl
  | cons g c =>
    have hbelow : belowRed (g.image swap f :: Path.image swap f c) = belowRed (g :: c) :=
      hf.isRed g.label
    rw [Path.image_cons]
    dsimp only
    rw [hbelow]
    split_ifs
    · rw [image_fixRedRed hn, Path.image_mapHead hr, hleaf]
      rfl
    · rw [image_plug, Path.image_mapHead hr, hleaf]
      rfl

end Follows

section Soil

variable {o o' : Stamp} {f : Entry → Entry} (hf : Follows o o' f) {swap : Bool} {i j : ℕ}
  {t : ETree}
include hf

/-- A renaming that keeps the slots does not change which nodes lie on the way to a node. -/
theorem image_soilTo (hs : ∀ e, (f e).slot = e.slot) :
    (soilTo o i t).image swap f = soilTo o' i (t.image swap f) := by
  have hmem : ∀ u : ETree, i ∈ slots (u.image swap f) ↔ i ∈ slots u := fun u => by
    simp [slots, mem_inorder_image, hs]
  induction t with
  | nil => rfl
  | node e l r ihl ihr =>
    by_cases hi : i ∈ slots (node e l r)
    · have hi' : i ∈ slots (join (Side.left.flip swap) (f e) (l.image swap f) (r.image swap f)) :=
        (hmem (node e l r)).2 hi
      rw [soilTo, if_pos hi, image_node, image_node, soilTo_join_of_mem hi', ihl, ihr, hf.soil]
    · rw [soilTo_of_notMem hi, soilTo_of_notMem (mt (hmem (node e l r)).1 hi)]

/-- A renaming that forgets dirty flags does not see the way to a node at all. -/
theorem image_soilTo_of_clean (ho : Options.useDirty o'.options = false) :
    (soilTo o i t).image swap f = soilTo o' j (t.image swap f) := by
  have hsoil : ∀ e, f (e.soil o) = f e := fun e => by rw [hf.soil, Entry.soil_eq_id ho]; rfl
  rw [soilTo_eq_self ho]
  induction t with
  | nil => rfl
  | node e l r ihl ihr =>
    unfold soilTo
    split_ifs
    · rw [image_node, image_node, ihl, ihr, hsoil]
    · rfl

end Soil

/-- The renamed tree after attaching a node; `hway` is one of `image_soilTo` and
`image_soilTo_of_clean`. -/
theorem image_attach {o o' : Stamp} {f : Entry → Entry} {swap : Bool} {a : Entry} {c : Path Entry}
    (hf : Respects o o' f) (hn : Respects o.next o'.next f)
    (hway : ∀ t : ETree, (soilTo o.next a.slot t).image swap f =
      soilTo o'.next (f a).slot (t.image swap f)) :
    (attach o a c).image swap f = attach o' (f a) (Path.image swap f c) := by
  rw [attach, hway, image_hang hf.follows hf.relink hn.follows]
  rfl

/-! ### `_mulle__rbtree_remove_node` -/

section Remove

variable {o o' : Stamp} {f : Entry → Entry} (hf : Follows o o' f) {c : Path Entry} {a y : Entry}
  {l r : ETree}
include hf

theorem Follows.promote : f (promote o a y) = MulleRbtree.promote o' (f a) (f y) := by
  rw [MulleRbtree.promote, hf.setColor, hf.touch]
  rfl

theorem image_unlink : unlink o' (Path.image false f c) (f a) (l.image false f) (r.image false f) =
    (Path.image false f (unlink o c a l r).1, (unlink o c a l r).2.1.image false f,
      (unlink o c a l r).2.2) := by
  have hlast : ∀ x : ETree, ((x.mapRoot (Entry.touch o)).mapRoot (Entry.soil o)).image false f =
      ((x.image false f).mapRoot (Entry.touch o')).mapRoot (Entry.soil o') := fun x => by
    rw [image_mapRoot hf.soil, image_touchRoot hf]
  by_cases hl : l = nil
  · subst hl
    rw [unlink, hlast, Path.image_mapLabels hf.soil, Path.image_mapHead hf.touch, ← hf.isRed]
    rfl
  · by_cases hr : r = nil
    · subst hr
      rw [image_nil, unlink_nil_right, unlink_nil_right, hlast, Path.image_mapLabels hf.soil,
        Path.image_mapHead hf.touch, hf.isRed]
    · obtain ⟨g, y, x, hpop⟩ := exists_pop .left [] hr
      have hpop' : pop .left [] (r.image false f) =
          some (Path.image false f g, f y, x.image false f) := by
        have h : pop (Side.left.flip false) (Path.image false f [])
            (r.image false f) = _ := pop_image
        rw [hpop] at h
        exact h
      rw [unlink_successor hl hpop, unlink_successor (mt image_eq_nil.1 hl) hpop', hlast,
        Path.image_mapLabels hf.soil, Path.image_append, Path.image_cons,
        Path.image_mapHead hf.touch, Path.image_mapLast hf.touch, Path.image_mapHead hf.touch,
        hf.isRed]
      simp only [Frame.image, hf.promote, image_touchRoot hf]
      rfl

theorem image_removeAt : (removeAt o c a l r).image false f =
    removeAt o' (Path.image false f c) (f a) (l.image false f) (r.image false f) := by
  unfold removeAt
  rw [image_unlink hf]
  split_ifs
  · exact image_fixBlackBlack hf
  · exact image_plug

end Remove

theorem image_unstore {o o' : Stamp} {f : Entry → Entry} {c : Path Entry} {a : Entry} {l r : ETree}
    (hf : Respects o o' f) (hn : Respects o.next o'.next f) :
    (unstore o c a l r).image false f =
      unstore o' (Path.image false f c) (f a) (l.image false f) (r.image false f) := by
  rw [unstore, image_removeAt hn.follows, Path.image_mapLabels hf.soil, hf.soil]
  rfl

end MulleRbtree
