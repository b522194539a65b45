import MulleRbtree.Tree.Image

/-!
# Markers and epochs

A rotation marks every node of which it writes a link, and so does a removal while it takes its node
out.  The history variable `relinked` says when a link was last written, so the two can be compared.

* `agree_fixRedRed`, `agree_removeAt`, `agree_attach`: two views of entries that both follow the
  algorithms and agree on a tree agree on what the algorithms make of it;
* `recent_attach`, `recent_removeAt`: no link is written in the future;
* `told_removeAt`, `told_attach`: marked are the nodes of which a link is written, at an insertion
  those that the rebalancing writes.
-/

namespace MulleRbtree

open BinaryTree

/-! ### Two views of a tree -/

section Agree

variable {o o' : Stamp} {f g : Entry → Entry} {c : Path Entry} {a : Entry} {x l r t : ETree} {i : ℕ}

/-- The two views of the tree are the same. -/
def Agree (f g : Entry → Entry) (t : ETree) : Prop := Everywhere (fun e => f e = g e) t

theorem agree_iff : Agree f g t ↔ t.image false f = t.image false g := by
  constructor
  · intro h
    rw [image_false, image_false, h.map_congr]
  · intro h e he
    have hmap := congrArg BinaryTree.inorder h
    rw [inorder_image_false, inorder_image_false, List.map_inj_left] at hmap
    exact hmap e he

theorem Agree.plug (h : Agree f g (plug c x)) :
    Path.image false f c = Path.image false g c ∧ x.image false f = x.image false g := by
  obtain ⟨hx, hc⟩ := everywhere_plug.1 h
  refine ⟨List.map_congr_left fun k hk => ?_, agree_iff.1 hx⟩
  obtain ⟨hlabel, hsibling⟩ := hc k hk
  rw [Frame.image, Frame.image, hlabel, agree_iff.1 hsibling]

theorem agree_fixRedRed (hf : Follows o o' f) (hg : Follows o o' g) (h : Agree f g (plug c x)) :
    Agree f g (fixRedRed o c x) := by
  obtain ⟨hc, hx⟩ := h.plug
  rw [agree_iff, image_fixRedRed hf, image_fixRedRed hg, hc, hx]

theorem agree_soilTo (hf : Follows o o' f) (hg : Follows o o' g) (hs : ∀ e, (f e).slot = e.slot)
    (hs' : ∀ e, (g e).slot = e.slot) (h : Agree f g t) : Agree f g (soilTo o i t) := by
  rw [agree_iff, image_soilTo hf hs, image_soilTo hg hs', agree_iff.1 h]

theorem agree_removeAt (hf : Follows o o' f) (hg : Follows o o' g)
    (h : Agree f g (plug c (node a l r))) : Agree f g (removeAt o c a l r) := by
  obtain ⟨hc, hx⟩ := h.plug
  obtain ⟨ha, hl, hr⟩ := BinaryTree.node.inj hx
  rw [agree_iff, image_removeAt hf, image_removeAt hg, hc, ha, hl, hr]

theorem agree_attach (hf : Respects o o' f) (hg : Respects o o' g)
    (hnf : Respects o.next o'.next f) (hng : Respects o.next o'.next g)
    (hs : ∀ e, (f e).slot = e.slot) (hs' : ∀ e, (g e).slot = e.slot)
    (h : Agree f g (plug c nil)) (ha : f a = g a) : Agree f g (attach o a c) := by
  have hway : ∀ {k : Entry → Entry}, (∀ e, (k e).slot = e.slot) → Respects o.next o'.next k →
      ∀ u : ETree, (soilTo o.next a.slot u).image false k =
        soilTo o'.next (k a).slot (u.image false k) := fun hk hn u => by
    rw [image_soilTo hn.follows hk, hk]
  rw [agree_iff, image_attach hf hnf (hway hs hnf), image_attach hg hng (hway hs' hng), h.plug.1, ha]

end Agree

/-! ### No link is written in the future -/

section Recent

variable {o : Stamp} {c : Path Entry} {a : Entry} {l r t t' : ETree} {i n : ℕ}

/-- No link has been written after the epoch `n`. -/
def Recent (n : ℕ) (t : ETree) : Prop := Everywhere (fun e => e.relinked ≤ n) t

/-- As if nothing had been written after the epoch `n`. -/
def Entry.dated (n : ℕ) (e : Entry) : Entry := { e with relinked := min e.relinked n }

theorem Entry.dated_eq_iff {e : Entry} : e.dated n = e ↔ e.relinked ≤ n := by
  constructor
  · intro h
    have hmin : min e.relinked n = e.relinked := congrArg Entry.relinked h
    exact min_eq_left_iff.1 hmin
  · intro h
    unfold Entry.dated
    rw [min_eq_left h]

theorem recent_iff : Recent n t ↔ Agree (Entry.dated n) id t :=
  forall₂_congr fun _ _ => Entry.dated_eq_iff.symm

theorem respects_dated (ho : o.epoch ≤ n) : Respects o o (Entry.dated n) where
  isRed _ := rfl
  mark _ := rfl
  relink _ := Entry.dated_eq_iff.2 ho
  soil _ := rfl
  setRed _ := rfl
  setBlack _ := rfl
  setColor _ _ := rfl

theorem recent_removeAt (ho : o.epoch ≤ n) (h : Recent n (plug c (node a l r))) :
    Recent n (removeAt o c a l r) := by
  rw [recent_iff] at h ⊢
  exact agree_removeAt (respects_dated ho).follows (respects_id o).follows h

theorem recent_attach (ho : o.epoch + 1 ≤ n) (h : Recent n (plug c nil)) (ha : a.relinked ≤ n) :
    Recent n (attach o a c) := by
  rw [recent_iff] at h ⊢
  exact agree_attach (respects_dated (Nat.le_of_succ_le ho)) (respects_id o) (respects_dated ho)
    (respects_id o.next) (fun _ => rfl) (fun _ => rfl) h (Entry.dated_eq_iff.2 ha)

/-- Neither dirty flags nor colours have to do with it. -/
theorem Recent.congr (h : Recent n t) (e : t'.map Entry.relinked = t.map Entry.relinked) :
    Recent n t' := by
  have hmap : ∀ u : ETree, Recent n u ↔ Everywhere (fun k => k ≤ n) (u.map Entry.relinked) :=
    fun u => (everywhere_map (Q := fun k => k ≤ n) Entry.relinked u).symm
  rw [hmap] at h ⊢
  rwa [e]

theorem Recent.mono {m : ℕ} (h : Recent n t) (hm : n ≤ m) : Recent m t := fun e he => (h e he).trans hm

/-- An insertion ends in the next epoch. -/
theorem Recent.attach (h : Recent o.epoch (plug c nil)) (ha : a.relinked ≤ o.epoch) :
    Recent (o.epoch + 1) (attach o a c) :=
  recent_attach le_rfl (h.mono (Nat.le_succ _)) (ha.trans (Nat.le_succ _))

/-- A removal takes place in the next epoch. -/
theorem Recent.removeAt (h : Recent o.epoch (plug c (node a l r))) :
    Recent (o.epoch + 1) (removeAt o.next c a l r) :=
  recent_removeAt le_rfl (h.mono (Nat.le_succ _))

theorem Recent.unstore (h : Recent o.epoch (plug c (node a l r))) :
    Recent (o.epoch + 1) (unstore o c a l r) := by
  have hsoil : ∀ e : Entry, (e.soil o).relinked = e.relinked := fun _ => rfl
  refine Recent.removeAt (h.congr ?_)
  rw [map_plug, map_plug, map_mapLabels hsoil]
  rfl

theorem recent_soilTo (h : Recent n t) : Recent n (soilTo o i t) :=
  h.congr (map_soilTo (fun _ => rfl) t)

theorem recent_wash (h : Recent n t) : Recent n (wash t) := h.congr (map_wash (fun _ => rfl) t)

end Recent

/-! ### Marked is what is written -/

namespace Color

/-- A colour word with nothing in it but the colour and the marker. -/
def paint (red marked : Bool) : Color :=
  let c := if red then Color.red else Color.black
  if marked then c.setMarker else c

variable {red marked : Bool}

@[simp] theorem isRed_paint : (paint red marked).isRed = red := by
  cases red <;> cases marked <;> rfl

theorem setMarker_paint : (paint red marked).setMarker = paint red true := by
  cases red <;> cases marked <;> rfl

theorem setRed_paint : (paint red marked).setRed = paint true marked := by
  cases red <;> cases marked <;> rfl

theorem setBlack_paint : (paint red marked).setBlack = paint false marked := by
  cases red <;> cases marked <;> rfl

theorem setColor_paint {red' marked' : Bool} :
    (paint red marked).setColor (paint red' marked').getColor = paint red' marked := by
  cases red <;> cases marked <;> cases red' <;> cases marked' <;> rfl

theorem paint_inj {marked' : Bool} : paint red marked = paint red marked' ↔ marked = marked' := by
  cases red <;> cases marked <;> cases marked' <;> decide

end Color

section Told

variable {o : Stamp} {c : Path Entry} {a e : Entry} {l r t : ETree} {n : ℕ}

/-- The marker tells whether a link has been written after the epoch `n`. -/
def Entry.Told (n : ℕ) (e : Entry) : Prop := e.color.isMarked = true ↔ n < e.relinked

/-- The colour word shows the colour and, as a marker, `b`. -/
def Entry.showing (b : Entry → Bool) (e : Entry) : Entry :=
  { e with color := Color.paint e.isRed (b e) }

theorem Entry.told_iff : e.Told n ↔ e.showing (fun e => e.color.isMarked) =
    e.showing fun e => decide (n < e.relinked) := by
  constructor
  · intro h
    have hb : e.color.isMarked = decide (n < e.relinked) := by
      rw [Bool.eq_iff_iff, decide_eq_true_eq]
      exact h
    rw [showing, showing, hb]
  · intro h
    have hb : e.color.isMarked = decide (n < e.relinked) :=
      Color.paint_inj.1 (congrArg Entry.color h)
    rw [Told, hb, decide_eq_true_eq]

/-- What is shown goes through the algorithms as in a tree that uses markers only, if marked is what
is touched. -/
theorem follows_showing {b : Entry → Bool} (htouch : ∀ e : Entry, b (e.touch o) = true)
    (hsoil : ∀ e : Entry, b (e.soil o) = b e) (hred : ∀ e : Entry, b (e.recolor Color.setRed) = b e)
    (hblack : ∀ e : Entry, b (e.recolor Color.setBlack) = b e)
    (hcolor : ∀ (e : Entry) (k : Color), b (e.recolor fun c => c.setColor k.getColor) = b e) :
    Follows o ⟨0x8#32, o.epoch⟩ (Entry.showing b) where
  isRed e := Color.isRed_paint
  touch e := by
    have hmark : Stamp.markColor ⟨0x8#32, o.epoch⟩ (Color.paint e.isRed (b e)) =
        Color.paint e.isRed true := by
      have hon : Options.useMarker 0x8#32 = true := by decide
      rw [Stamp.markColor, if_pos hon, Color.setMarker_paint]
    rw [Entry.showing, htouch, Entry.isRed_touch]
    exact congrArg (fun c => ({ e with color := c, relinked := o.epoch } : Entry)) hmark.symm
  soil e := by
    have hoff : Options.useDirty 0x8#32 = false := by decide
    rw [Entry.showing, hsoil, Entry.isRed_soil, Entry.soil_eq_id (o := ⟨0x8#32, o.epoch⟩) hoff]
    rfl
  setRed e := by
    rw [Entry.showing, hred, Entry.isRed_recolor, Color.isRed_setRed]
    exact congrArg (fun c => ({ e with color := c } : Entry)) Color.setRed_paint.symm
  setBlack e := by
    rw [Entry.showing, hblack, Entry.isRed_recolor, Color.isRed_setBlack]
    exact congrArg (fun c => ({ e with color := c } : Entry)) Color.setBlack_paint.symm
  setColor e p := by
    rw [Entry.showing, hcolor, Entry.isRed_recolor, Color.isRed_setColor_getColor]
    exact congrArg (fun c => ({ e with color := c } : Entry)) Color.setColor_paint.symm

theorem Entry.isMarked_soil (e : Entry) : (e.soil o).color.isMarked = e.color.isMarked := by
  rw [Entry.soil, Entry.recolor_color, Stamp.soilColor]
  split_ifs <;> simp

theorem follows_marked (hm : Options.useMarker o.options = true) :
    Follows o ⟨0x8#32, o.epoch⟩ (Entry.showing fun e => e.color.isMarked) :=
  follows_showing (fun e => by simp [Entry.touch, Entry.mark, Stamp.markColor, hm])
    Entry.isMarked_soil (fun e => by simp) (fun e => by simp) fun e k => by simp

theorem follows_written (hn : n < o.epoch) :
    Follows o ⟨0x8#32, o.epoch⟩ (Entry.showing fun e => decide (n < e.relinked)) :=
  follows_showing (fun _ => decide_eq_true hn) (fun _ => rfl) (fun _ => rfl) (fun _ => rfl)
    fun _ _ => rfl

/-- All markers of the tree tell. -/
theorem everywhere_told_iff : Everywhere (Entry.Told n) t ↔
    Agree (Entry.showing fun e => e.color.isMarked) (Entry.showing fun e => decide (n < e.relinked)) t :=
  forall₂_congr fun _ _ => Entry.told_iff

theorem told_removeAt (hm : Options.useMarker o.options = true) (hn : n < o.epoch)
    (h : Everywhere (Entry.Told n) (plug c (node a l r))) :
    Everywhere (Entry.Told n) (removeAt o c a l r) := by
  rw [everywhere_told_iff] at h ⊢
  exact agree_removeAt (follows_marked hm) (follows_written hn) h

/-- At an insertion nothing is marked before the rebalancing begins. -/
theorem told_attach (hm : Options.useMarker o.options = true)
    (h : Everywhere (fun e => e.color.isMarked = false ∧ e.relinked ≤ o.epoch) (plug c (node a nil nil))) :
    Everywhere (Entry.Told o.epoch) (attach o a c) := by
  have hmn : Options.useMarker o.next.options = true := hm
  have hn : o.epoch < o.next.epoch := Nat.lt_succ_self _
  have hhang : Everywhere (Entry.Told o.epoch) (hang o a c) := by
    have hrelink : ∀ e : Entry, e.color.isMarked = false → (e.relink o).Told o.epoch :=
      fun e he => by simp [Entry.Told, Entry.relink, he]
    have hblank : Everywhere (Entry.Told o.epoch) (plug c (node a nil nil)) :=
      h.mono fun e he => by simp [Entry.Told, he.1, he.2]
    obtain ⟨ha, hc⟩ := everywhere_plug.1 h
    have ha : a.color.isMarked = false := (everywhere_node.1 ha).1.1
    unfold hang
    cases c with
    | nil => simpa [blacken, Entry.Told, Entry.relink] using ha
    | cons f c =>
      have hleaf : Everywhere (Entry.Told o.epoch) (plug (Path.mapHead (Entry.relink o) (f :: c))
          (node (a.relink o) nil nil)) := by
        obtain ⟨-, hblank⟩ := everywhere_plug.1 hblank
        rw [List.forall_mem_cons] at hblank hc
        refine everywhere_plug.2 ⟨?_, List.forall_mem_cons.2 ⟨⟨?_, hblank.1.2⟩, hblank.2⟩⟩
        · exact everywhere_node.2 ⟨hrelink a ha, everywhere_nil, everywhere_nil⟩
        · exact hrelink f.label hc.1.1.1
      dsimp only
      split_ifs
      · rw [everywhere_told_iff] at hleaf ⊢
        exact agree_fixRedRed (follows_marked hmn) (follows_written hn) hleaf
      · exact hleaf
  rw [everywhere_told_iff] at hhang ⊢
  exact agree_soilTo (follows_marked hmn) (follows_written hn) (fun _ => rfl) (fun _ => rfl) hhang

end Told
end MulleRbtree
