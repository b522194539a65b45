import MulleRbtree.Tree.RedRed

/-!
# Attaching a node

`attach o a c` is the tree after `_mulle__rbtree_attach_node` has hung the node `a` at the empty
place at the end of the path `c`.

* `soilTo i T`: the way from the root to the node in slot `i` is soiled;
* `attach_isRedBlack`, `items_attach`, `kept_attach`: balance, order, and what the dirty flags
  protect.  The new node is born dirty below parents that may be clean, so until the last step the
  node itself is exempt (`Exempt`).
-/

namespace MulleRbtree

open BinaryTree

variable {o : Stamp} {c : Path Entry} {a e : Entry} {x y t T : ETree} {i : ℕ} {d : Side}

/-! ### The way to a node -/

/-- Soil the way from the root to the node in slot `i`. -/
def soilTo (o : Stamp) (i : ℕ) : ETree → ETree
  | nil => nil
  | node e l r => if i ∈ slots (node e l r) then node (e.soil o) (soilTo o i l) (soilTo o i r)
    else node e l r

theorem soilTo_of_notMem (h : i ∉ slots t) : soilTo o i t = t := by
  cases t with
  | nil => rfl
  | node e l r => rw [soilTo, if_neg h]

theorem soilTo_join_of_mem (hx : i ∈ slots (join d e x y)) :
    soilTo o i (join d e x y) = join d (e.soil o) (soilTo o i x) (soilTo o i y) := by
  cases d <;> exact if_pos hx

/-- The way to a node below the place leads through the path. -/
theorem soilTo_plug (hi : i ∈ slots t) (hn : (slots (plug c t)).Nodup) :
    soilTo o i (plug c t) = plug (Path.mapLabels (Entry.soil o) c) (soilTo o i t) := by
  induction c generalizing t with
  | nil => rfl
  | cons f c ih =>
    have hfill : i ∈ slots (f.fill t) := mem_slots_join.2 (.inr (.inl hi))
    have hsib : i ∉ slots f.sibling := by
      have hsub : (slots (f.fill t)).Nodup := by
        have h := hn
        simp only [plug_cons, slots, inorder_plug, List.map_append] at h
        exact (List.nodup_append.1 (List.nodup_append.1 h).2.1).1
      obtain ⟨d, b, u⟩ := f
      intro hu
      cases d
      · rw [Frame.fill, join_left, slots_node, List.nodup_append] at hsub
        exact hsub.2.2 i hi i (List.mem_cons_of_mem _ hu) rfl
      · rw [Frame.fill, join_right, slots_node, List.nodup_append] at hsub
        exact hsub.2.2 i hu i (List.mem_cons_of_mem _ hi) rfl
    rw [plug_cons, ih hfill hn, Frame.fill, soilTo_join_of_mem hfill, soilTo_of_notMem hsib]
    rfl

/-- Without dirty flags nothing is soiled. -/
theorem soilTo_eq_self (ho : Options.useDirty o.options = false) (t : ETree) :
    soilTo o i t = t := by
  induction t with
  | nil => rfl
  | node e l r ihl ihr =>
    unfold soilTo
    rw [ihl, ihr, Entry.soil_eq_id ho]
    split_ifs <;> rfl

/-- The way to the node at a place consists of it and the path. -/
theorem soilTo_plug_node {l r : ETree} (hn : (slots (plug c (node e l r))).Nodup) :
    soilTo o e.slot (plug c (node e l r)) =
      plug (Path.mapLabels (Entry.soil o) c) (node (e.soil o) l r) := by
  have hmem : e.slot ∈ slots (node e l r) := by simp
  have hsub : (slots (node e l r)).Nodup := by
    have h := hn
    simp only [slots, inorder_plug, List.map_append] at h
    exact (List.nodup_append.1 (List.nodup_append.1 h).2.1).1
  rw [slots_node, List.nodup_append, List.nodup_cons] at hsub
  have hl : e.slot ∉ slots l := fun h => hsub.2.2 e.slot h e.slot (by simp) rfl
  rw [soilTo_plug hmem hn, soilTo, if_pos hmem, soilTo_of_notMem hl,
    soilTo_of_notMem hsub.2.1.1]

theorem map_soilTo {β : Type} {k : Entry → β} (hk : ∀ e, k (Entry.soil o e) = k e) (t : ETree) :
    (soilTo o i t).map k = t.map k := by
  induction t with
  | nil => rfl
  | node e l r ihl ihr =>
    unfold soilTo
    split_ifs
    · simp only [map, hk, ihl, ihr]
    · rfl

theorem items_soilTo (t : ETree) : items (soilTo o i t) = items t := by
  rw [items, map_soilTo (Entry.item_soil o), items]

theorem soilTo_isRedBlack (h : IsRedBlack Entry.isRed t) :
    IsRedBlack Entry.isRed (soilTo o i t) := isRedBlack_congr h (map_soilTo (Entry.isRed_soil o) t)

/-! ### An exempt node -/

/-- The property, but for the node in slot `i`, whose parent need not know of it yet. -/
def Exempt (i : ℕ) (R : Entry → Option Entry → Option Entry → Prop) (a : Entry)
    (u v : Option Entry) : Prop :=
  a.slot = i ∨ R a (u.filter fun b => b.slot ≠ i) (v.filter fun b => b.slot ≠ i)

/-- Away from the node nothing is filtered out. -/
theorem filter_slot_ne {w : Option Entry} (hi : i ∉ slots t) (hw : ∀ b ∈ w, b ∈ t.inorder) :
    (w.filter fun b => b.slot ≠ i) = w := by
  cases w with
  | none => rfl
  | some b =>
    have hslot : b.slot ≠ i := fun e => hi (List.mem_map.2 ⟨b, hw b rfl, e⟩)
    simp [Option.filter, hslot]

section Kept

variable {R : Entry → Option Entry → Option Entry → Prop}

/-- Away from the node there is no exemption. -/
theorem kept_of_exempt {options : BitVec 32} (h : Kept (Exempt i R) options t)
    (hi : i ∉ slots t) : Kept R options t := by
  refine ⟨fun ho => (h.locally ho).mono_on fun b hb v w hv hw hex => ?_, h.proper⟩
  rcases hex with hex | hex
  · exact absurd (List.mem_map.2 ⟨b, hb, hex⟩) hi
  · rwa [filter_slot_ne hi hv, filter_slot_ne hi hw] at hex

/-- A leaf may be hung anywhere, exempt. -/
theorem exempt_leaf {options : BitVec 32} (h : Kept R options (plug c nil))
    (ha : a.Proper options) (hi : a.slot ∉ slots (plug c nil)) :
    Kept (Exempt a.slot R) options (plug c (node a nil nil)) := by
  refine ⟨fun ho => ?_, everywhere_plug.2 ⟨by simp [ha], (everywhere_plug.1 h.proper).2⟩⟩
  have hex : Locally (Exempt a.slot R) (plug c nil) := by
    refine (h.locally ho).mono_on fun b hb u v hu hv hR => .inr ?_
    rwa [filter_slot_ne hi hu, filter_slot_ne hi hv]
  refine hex.replace ⟨.inl rfl, trivial, trivial⟩ (fun b v hb => ?_) fun b u hb => ?_
  · simpa [Exempt, Option.filter] using hb
  · simpa [Exempt, Option.filter] using hb

variable (hR : Tolerant R)
include hR

theorem tolerant_exempt (i : ℕ) : Tolerant (Exempt i R) := by
  refine ⟨fun a u v h => .inr (hR.dirty _ _ _ h), fun a a' u u' v v' ha hu hv h => ?_⟩
  have hmap : ∀ {w w' : Option Entry}, Option.map Entry.flag w' = Option.map Entry.flag w →
      Option.map Entry.flag (w'.filter fun b => b.slot ≠ i) =
        Option.map Entry.flag (w.filter fun b => b.slot ≠ i) := by
    intro w w' hw
    cases w with
    | none => cases w' <;> simp_all
    | some b =>
      cases w' with
      | none => simp at hw
      | some b' =>
        have hb : b'.flag = b.flag := Option.some.inj hw
        have hslot : b'.slot = b.slot := congrArg (fun q => q.1.slot) hb
        by_cases hi : b.slot = i
        · simp [Option.filter, hslot, hi]
        · simp [Option.filter, hslot, hi, hb]
  have hslot : a'.slot = a.slot := congrArg (fun q => q.1.slot) ha
  exact h.imp (fun h => hslot.trans h) (hR.congr _ _ _ _ _ _ ha (hmap hu) (hmap hv))

/-- Soiling the way to the exempt node ends its exemption. -/
theorem kept_soilTo (h : Kept (Exempt i R) o.options t) (hi : i ∈ slots t) :
    Kept R o.options (soilTo o i t) := by
  induction t with
  | nil => simp at hi
  | node e l r ihl ihr =>
    obtain ⟨he, hl, hr⟩ := Kept.of_join (d := .left) h
    have hchild : ∀ u : ETree, Kept (Exempt i R) o.options u →
        (Kept (Exempt i R) o.options u → i ∈ slots u → Kept R o.options (soilTo o i u)) →
        Kept R o.options (soilTo o i u) := by
      intro u hu ih
      by_cases hiu : i ∈ slots u
      · exact ih hu hiu
      · rw [soilTo_of_notMem hiu]
        exact kept_of_exempt hu hiu
    rw [soilTo, if_pos hi]
    exact kept_join_soil (d := .left) hR he (hchild l hl ihl) (hchild r hr ihr)

end Kept

/-! ### `_mulle__rbtree_attach_node` -/

/-- The new leaf hangs in the tree, and the tree is balanced again. -/
def hang (o : Stamp) (a : Entry) (c : Path Entry) : ETree :=
  match c with
  | [] => blacken (node (a.relink o) nil nil)
  | _ => if belowRed c then
      fixRedRed o.next (Path.mapHead (Entry.relink o) c) (node (a.relink o) nil nil)
    else plug (Path.mapHead (Entry.relink o) c) (node (a.relink o) nil nil)

/-- `_mulle__rbtree_attach_node` -/
def attach (o : Stamp) (a : Entry) (c : Path Entry) : ETree := soilTo o.next a.slot (hang o a c)

theorem hole_mapHead_relink {n : ℕ} :
    Hole Entry.isRed (Path.mapHead (Entry.relink o) c) n ↔ Hole Entry.isRed c n :=
  hole_mapHead (Entry.isRed_relink o)

theorem hang_isRedBlack (h : IsRedBlack Entry.isRed (plug c nil)) (ha : a.isRed = true) :
    IsRedBlack Entry.isRed (hang o a c) := by
  obtain ⟨n, hc, hn, -⟩ := hole_of_isRedBlack h
  have hleaf : Balanced Entry.isRed (node (a.relink o) nil nil) n :=
    (balanced_red (d := .left) ha).2 ⟨rfl, rfl, hn, hn⟩
  unfold hang
  cases c with
  | nil => exact hleaf.blacken fun e => by simp
  | cons f c =>
    dsimp only
    split_ifs with hf
    · exact fixRedRed_isRedBlack (hole_mapHead_relink.2 hc) hleaf ha
    · refine isRedBlack_plug (hole_mapHead_relink.2 hc) hleaf fun _ => ?_
      simpa [takesRed, belowRed] using hf

theorem attach_isRedBlack (h : IsRedBlack Entry.isRed (plug c nil)) (ha : a.isRed = true) :
    IsRedBlack Entry.isRed (attach o a c) := soilTo_isRedBlack (hang_isRedBlack h ha)

theorem items_hang : items (hang o a c) = items (plug c (node a nil nil)) := by
  have hleaf : items (plug (Path.mapHead (Entry.relink o) c) (node (a.relink o) nil nil)) =
      items (plug c (node a nil nil)) :=
    items_plug_congr (map_mapHead (Entry.item_relink o) c) rfl
  unfold hang
  cases c with
  | nil => rw [items_blacken]; exact hleaf
  | cons f c =>
    dsimp only
    split_ifs
    · rw [items_fixRedRed, hleaf]
    · exact hleaf

/-- The new item stands at the empty place. -/
theorem items_attach : items (attach o a c) = items (plug c (node a nil nil)) := by
  rw [attach, items_soilTo, items_hang]

/-- The same, cut at the place. -/
theorem items_attach_split :
    items (plug c nil) = (before c).map Entry.item ++ (after c).map Entry.item ∧
      items (attach o a c) = (before c).map Entry.item ++ a.item :: (after c).map Entry.item := by
  rw [items_attach, items_plug, items_plug]
  simp

theorem mem_slots_hang : a.slot ∈ slots (hang o a c) := by
  rw [slots_eq, items_hang, ← slots_eq, slots, inorder_plug]
  simp

theorem kept_attach {R : Entry → Option Entry → Option Entry → Prop} (hR : Tolerant R)
    (h : Kept R o.options (plug c nil)) (ha : a.Proper o.options)
    (hi : a.slot ∉ slots (plug c nil)) : Kept R o.options (attach o a c) := by
  have hleaf := exempt_leaf h ha hi
  have hex := tolerant_exempt hR a.slot
  have hrelink : (plug (Path.mapHead (Entry.relink o) c) (node (a.relink o) nil nil)).map
      Entry.flag = (plug c (node a nil nil)).map Entry.flag := by
    rw [map_plug, map_plug, map_mapHead (Entry.flag_relink o)]
    rfl
  refine kept_soilTo (o := o.next) hR ?_ mem_slots_hang
  unfold hang
  cases c with
  | nil => exact (hleaf.congr hex hrelink).congr hex (map_flag_blacken _)
  | cons f c =>
    dsimp only
    split_ifs
    · exact kept_fixRedRed (o := o.next) hex (hleaf.congr hex hrelink)
    · exact hleaf.congr hex hrelink

end MulleRbtree
