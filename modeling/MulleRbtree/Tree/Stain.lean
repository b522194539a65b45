import MulleRbtree.Tree.Marker
import MulleRbtree.Tree.Upkeep

/-!
# More dirty nodes

Setting the dirty flag of some nodes does not disturb the algorithms, so they may as well be dirty
before as after.

* `Entry.stain X`: the nodes in the slots `X` are made dirty (`respects_stain`);
* `dirtySlots T`, `cleanSlots T`: the slots of the dirty nodes and of the others;
* `dirtyNodes_stain`: staining clean nodes adds to the dirty ones, and staining dirty nodes does
  nothing (`map_stain_inter`);
* `map_stain_wash`: a stain can undo a dirty walk;
* `calledBack_washEvents`: the values that a dirty walk hands to the callback.
-/

namespace MulleRbtree

open BinaryTree

namespace Color

variable (c : Color)

theorem setDirty_setMarker : c.setMarker.setDirty = c.setDirty.setMarker := by
  unfold setMarker setDirty
  rw [BitVec.or_assoc, BitVec.or_assoc, BitVec.or_comm marker]

/-- The setters of the colour leave the dirty flag alone. -/
theorem setDirty_setColor (k : Color) : (c.setColor k).setDirty = c.setDirty.setColor k := by
  have hmask : dirty &&& ~~~1#32 = dirty := rfl
  unfold setColor setDirty
  rw [BitVec.and_or_distrib_right, hmask, BitVec.or_assoc, BitVec.or_assoc, BitVec.or_comm k]

theorem setDirty_eq_self {c : Color} (h : c.isDirty = true) : c.setDirty = c := by
  have hbit : c &&& BitVec.twoPow 32 7 = BitVec.twoPow 32 7 := by
    rw [isDirty_eq] at h
    rw [BitVec.and_twoPow, if_pos h]
  have hdirty : c &&& dirty = dirty := hbit
  refine BitVec.eq_of_getLsbD_eq fun i hi => ?_
  have hbit : (c &&& dirty).getLsbD i = dirty.getLsbD i := by rw [hdirty]
  rw [BitVec.getLsbD_and] at hbit
  rw [setDirty, BitVec.getLsbD_or, ← hbit]
  cases c.getLsbD i <;> rfl

theorem clearDirty_setDirty : c.setDirty.clearDirty = c.clearDirty := by
  have hmask : dirty &&& ~~~dirty = 0#32 := rfl
  unfold setDirty clearDirty
  rw [BitVec.and_or_distrib_right, hmask, BitVec.or_zero]

theorem setDirty_clearDirty : c.clearDirty.setDirty = c.setDirty := by
  refine BitVec.eq_of_getLsbD_eq fun i hi => ?_
  unfold setDirty clearDirty
  rw [BitVec.getLsbD_or, BitVec.getLsbD_and, BitVec.getLsbD_not, BitVec.getLsbD_or, decide_eq_true hi]
  cases c.getLsbD i <;> cases dirty.getLsbD i <;> rfl

theorem setDirty_setRed : c.setRed.setDirty = c.setDirty.setRed := setDirty_setColor c red

theorem setDirty_setBlack : c.setBlack.setDirty = c.setDirty.setBlack := setDirty_setColor c black

end Color

variable {X Y : Finset ℕ} {T : ETree} {o : Stamp} {e : Entry}

/-- Dirty, if it is in one of the slots. -/
def Entry.stain (X : Finset ℕ) (e : Entry) : Entry :=
  if e.slot ∈ X then e.recolor Color.setDirty else e

@[simp] theorem Entry.stain_slot (X : Finset ℕ) (e : Entry) : (e.stain X).slot = e.slot := by
  unfold stain
  split_ifs <;> rfl

@[simp] theorem Entry.stain_item (X : Finset ℕ) (e : Entry) : (e.stain X).item = e.item := by
  unfold stain
  split_ifs <;> rfl

@[simp] theorem Entry.value_stain (options : BitVec 32) (X : Finset ℕ) (e : Entry) :
    (e.stain X).value options = e.value options := congrArg (Item.value options) (e.stain_item X)

theorem Entry.stain_of_notMem (h : e.slot ∉ X) : e.stain X = e := if_neg h

@[simp] theorem Entry.stain_empty : Entry.stain ∅ = id := by
  funext e
  exact stain_of_notMem (Finset.notMem_empty _)

theorem Entry.isDirty_stain (X : Finset ℕ) (e : Entry) :
    (e.stain X).isDirty = (decide (e.slot ∈ X) || e.isDirty) := by
  by_cases h : e.slot ∈ X
  · rw [stain, if_pos h, decide_eq_true h]
    exact Color.isDirty_setDirty e.color
  · rw [stain_of_notMem h, decide_eq_false h, Bool.false_or]

theorem Entry.stain_of_dirty (h : e.isDirty = true) (X : Finset ℕ) : e.stain X = e := by
  unfold stain
  split_ifs
  · have hcolor : e.color.setDirty = e.color := Color.setDirty_eq_self h
    rw [recolor, hcolor]
  · rfl

theorem Entry.clean_stain (X : Finset ℕ) (e : Entry) : (e.stain X).clean = e.clean := by
  unfold stain
  split_ifs
  · have hcolor : e.color.setDirty.clearDirty = e.color.clearDirty := Color.clearDirty_setDirty _
    show { e with color := e.color.setDirty.clearDirty } = { e with color := e.color.clearDirty }
    rw [hcolor]
  · rfl

/-- A dirty node that is cleaned can be stained again. -/
theorem Entry.stain_clean (h : e.isDirty = true) (hX : e.slot ∈ X) : e.clean.stain X = e := by
  have hcolor : e.color.clearDirty.setDirty = e.color := by
    rw [Color.setDirty_clearDirty, Color.setDirty_eq_self h]
  have hstain : e.clean.stain X = { e with color := e.color.clearDirty.setDirty } := if_pos hX
  rw [hstain, hcolor]

theorem Entry.stain_recolor {g : Color → Color} (hg : ∀ c, (g c).setDirty = g c.setDirty)
    (X : Finset ℕ) (e : Entry) : (e.recolor g).stain X = (e.stain X).recolor g := by
  unfold stain
  show (if e.slot ∈ X then _ else _) = _
  split_ifs
  · show { e with color := (g e.color).setDirty } = { e with color := g e.color.setDirty }
    rw [hg]
  · rfl

theorem respects_stain (o : Stamp) (X : Finset ℕ) : Respects o o (Entry.stain X) where
  isRed e := by
    unfold Entry.stain
    split_ifs
    · exact Color.isRed_setDirty e.color
    · rfl
  mark e := by
    apply Entry.stain_recolor
    intro c
    unfold Stamp.markColor
    split_ifs
    · exact Color.setDirty_setMarker c
    · rfl
  relink e := by
    unfold Entry.stain
    show (if e.slot ∈ X then _ else _) = _
    split_ifs <;> rfl
  soil e := by
    apply Entry.stain_recolor
    intro c
    unfold Stamp.soilColor
    split_ifs <;> rfl
  setRed e := Entry.stain_recolor Color.setDirty_setRed X e
  setBlack e := Entry.stain_recolor Color.setDirty_setBlack X e
  setColor e p := by
    have hp : (p.stain X).color.getColor = p.color.getColor := by
      unfold Entry.stain
      split_ifs
      · exact Color.getColor_congr (Color.isRed_setDirty p.color)
      · rfl
    rw [hp]
    exact Entry.stain_recolor (fun c => Color.setDirty_setColor c _) X e

/-! ### Slots of dirty and of clean nodes -/

def dirtySlots (T : ETree) : Finset ℕ := ((T.inorder.filter Entry.isDirty).map Entry.slot).toFinset

def cleanSlots (T : ETree) : Finset ℕ :=
  ((T.inorder.filter fun e => !e.isDirty).map Entry.slot).toFinset

theorem mem_dirtySlots {i : ℕ} :
    i ∈ dirtySlots T ↔ ∃ e ∈ T.inorder, e.isDirty = true ∧ e.slot = i := by
  simp [dirtySlots, and_assoc]

theorem mem_cleanSlots {i : ℕ} :
    i ∈ cleanSlots T ↔ ∃ e ∈ T.inorder, e.isDirty = false ∧ e.slot = i := by
  simp [cleanSlots, and_assoc]

theorem mem_slots_of_cleanSlots {i : ℕ} (h : i ∈ cleanSlots T) : i ∈ slots T := by
  obtain ⟨e, he, -, rfl⟩ := mem_cleanSlots.1 h
  exact List.mem_map_of_mem he

theorem card_dirtySlots (hn : (slots T).Nodup) : (dirtySlots T).card = dirtyNodes T := by
  rw [dirtySlots, List.toFinset_card_of_nodup, List.length_map, dirtyNodes, List.countP_eq_length_filter]
  exact hn.sublist ((List.filter_sublist).map Entry.slot)

theorem dirtySlots_stain (hX : ∀ i ∈ X, i ∈ slots T) :
    dirtySlots (T.map (Entry.stain X)) = dirtySlots T ∪ X := by
  ext i
  rw [mem_dirtySlots, Finset.mem_union, mem_dirtySlots, inorder_map]
  constructor
  · rintro ⟨_, hmem, hdirty, rfl⟩
    obtain ⟨e, he, rfl⟩ := List.mem_map.1 hmem
    rw [Entry.isDirty_stain, Bool.or_eq_true, decide_eq_true_iff] at hdirty
    rw [Entry.stain_slot]
    exact hdirty.symm.imp (fun h => ⟨e, he, h, rfl⟩) id
  · rintro (⟨e, he, hdirty, rfl⟩ | hi)
    · refine ⟨e.stain X, List.mem_map_of_mem he, ?_, e.stain_slot X⟩
      rw [Entry.isDirty_stain, hdirty, Bool.or_true]
    · obtain ⟨e, he, rfl⟩ := List.mem_map.1 (hX i hi)
      refine ⟨e.stain X, List.mem_map_of_mem he, ?_, e.stain_slot X⟩
      rw [Entry.isDirty_stain, decide_eq_true hi, Bool.true_or]

theorem slots_stain (X : Finset ℕ) (T : ETree) : slots (T.map (Entry.stain X)) = slots T := by
  rw [slots, inorder_map, List.map_map]
  exact List.map_congr_left fun e _ => e.stain_slot X

theorem dirtySlots_disjoint (hn : (slots T).Nodup) : Disjoint (dirtySlots T) (cleanSlots T) := by
  rw [Finset.disjoint_left]
  intro i hi hi'
  obtain ⟨e, he, hdirty, rfl⟩ := mem_dirtySlots.1 hi
  obtain ⟨e', he', hclean, hslot⟩ := mem_cleanSlots.1 hi'
  obtain rfl : e' = e := List.inj_on_of_nodup_map hn he' he hslot
  rw [hclean] at hdirty
  cases hdirty

/-- Staining clean nodes makes as many more dirty ones. -/
theorem dirtyNodes_stain (hn : (slots T).Nodup) (hX : X ⊆ cleanSlots T) :
    dirtyNodes (T.map (Entry.stain X)) = dirtyNodes T + X.card := by
  have hn' : (slots (T.map (Entry.stain X))).Nodup := by rwa [slots_stain]
  rw [← card_dirtySlots hn', dirtySlots_stain fun i hi => mem_slots_of_cleanSlots (hX hi),
    Finset.card_union_of_disjoint, card_dirtySlots hn]
  exact Finset.disjoint_of_subset_right hX (dirtySlots_disjoint hn)

theorem map_congr_of_agree {f g : Entry → Entry} (h : ∀ e ∈ T.inorder, f e = g e) :
    T.map f = T.map g := by
  rw [← image_false, ← image_false]
  exact agree_iff.1 h

/-- A dirty node need not be stained. -/
theorem map_stain_inter (X : Finset ℕ) (T : ETree) :
    T.map (Entry.stain (X ∩ cleanSlots T)) = T.map (Entry.stain X) := by
  refine map_congr_of_agree fun e he => ?_
  cases hdirty : e.isDirty with
  | true => rw [Entry.stain_of_dirty hdirty, Entry.stain_of_dirty hdirty]
  | false =>
    have hclean : e.slot ∈ cleanSlots T := mem_cleanSlots.2 ⟨e, he, hdirty, rfl⟩
    unfold Entry.stain
    simp only [Finset.mem_inter, hclean, and_true]

/-! ### The dirty walk -/

/-- What a dirty walk has cleaned can be stained again. -/
theorem map_stain_wash (h : Locally Up T) (hn : (slots T).Nodup) (X : Finset ℕ) :
    (wash T).map (Entry.stain (dirtySlots T ∪ X)) = T.map (Entry.stain X) := by
  rw [wash_eq_map h, ← comp_map]
  refine map_congr_of_agree fun e he => ?_
  show e.clean.stain (dirtySlots T ∪ X) = e.stain X
  cases hdirty : e.isDirty with
  | true =>
    have hi : e.slot ∈ dirtySlots T := mem_dirtySlots.2 ⟨e, he, hdirty, rfl⟩
    rw [Entry.stain_clean hdirty (Finset.mem_union_left _ hi), Entry.stain_of_dirty hdirty]
  | false =>
    have hclean : e.slot ∈ cleanSlots T := mem_cleanSlots.2 ⟨e, he, hdirty, rfl⟩
    have hi : e.slot ∉ dirtySlots T := fun hi =>
      Finset.disjoint_left.1 (dirtySlots_disjoint hn) hi hclean
    rw [Entry.clean_eq_self hdirty]
    unfold Entry.stain
    simp only [Finset.mem_union, hi, false_or]

theorem wash_stain (h : Locally Up T) (h' : Locally Up (T.map (Entry.stain X))) :
    wash (T.map (Entry.stain X)) = wash T := by
  rw [wash_eq_map h, wash_eq_map h', ← comp_map]
  exact map_congr_of_agree fun e _ => e.clean_stain X

theorem cleanSlots_wash (h : Locally Up T) {i : ℕ} : i ∈ cleanSlots (wash T) ↔ i ∈ slots T := by
  rw [mem_cleanSlots, wash_eq_map h, inorder_map]
  constructor
  · rintro ⟨_, hmem, -, rfl⟩
    obtain ⟨e, he, rfl⟩ := List.mem_map.1 hmem
    show e.slot ∈ slots T
    exact List.mem_map_of_mem he
  · intro hi
    obtain ⟨e, he, rfl⟩ := List.mem_map.1 hi
    have hmem : e.clean ∈ T.inorder.map Entry.clean := List.mem_map_of_mem he
    exact ⟨e.clean, hmem, e.isDirty_clean, rfl⟩

/-- The callback has been called for the value. -/
def CalledBack (u : List Event) (v : VoidPtr) : Prop := ∃ l r, Event.dirty v l r ∈ u

theorem calledBack_append {u w : List Event} {v : VoidPtr} :
    CalledBack (u ++ w) v ↔ CalledBack u v ∨ CalledBack w v := by
  simp only [CalledBack, List.mem_append, exists_or]

theorem calledBack_singleton {value left right v : VoidPtr} :
    CalledBack [.dirty value left right] v ↔ value = v := by
  constructor
  · rintro ⟨l, r, h⟩
    cases List.mem_singleton.1 h
    rfl
  · rintro rfl
    exact ⟨left, right, List.mem_singleton_self _⟩

/-- A dirty walk calls the callback for the values of the dirty nodes. -/
theorem calledBack_washEvents {options : BitVec 32} (h : Locally Up T) {v : VoidPtr} :
    CalledBack (washEvents options T) v ↔
      ∃ e ∈ T.inorder, e.isDirty = true ∧ e.value options = v := by
  induction T with
  | nil =>
    constructor
    · rintro ⟨_, _, ⟨⟩⟩
    · rintro ⟨_, ⟨⟩, -⟩
  | node e l r ihl ihr =>
    unfold washEvents
    split_ifs with he
    · rw [calledBack_append, calledBack_append, calledBack_singleton, ihl h.2.1, ihr h.2.2,
        inorder_node]
      constructor
      · rintro ((⟨b, hb, hv⟩ | ⟨b, hb, hv⟩) | hv)
        · exact ⟨b, List.mem_append_left _ hb, hv⟩
        · exact ⟨b, List.mem_append_right _ (List.mem_cons_of_mem _ hb), hv⟩
        · exact ⟨e, List.mem_append_right _ List.mem_cons_self, he, hv⟩
      · rintro ⟨b, hb, hv⟩
        rcases List.mem_append.1 hb with hb | hb
        · exact .inl (.inl ⟨b, hb, hv⟩)
        · rcases List.mem_cons.1 hb with rfl | hb
          · exact .inr hv.2
          · exact .inl (.inr ⟨b, hb, hv⟩)
    · have hclean : Clean (node e l r) := clean_of_root h (by simpa using he)
      constructor
      · rintro ⟨_, _, ⟨⟩⟩
      · rintro ⟨b, hb, hdirty, -⟩
        rw [hclean b hb] at hdirty
        cases hdirty

end MulleRbtree
