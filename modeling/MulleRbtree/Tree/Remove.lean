import MulleRbtree.Tree.BlackBlack

/-!
# Removing a node

`removeAt o c a l r` is the tree after `_mulle__rbtree_remove_node` has removed the node `a` with
the children `l` and `r` at the end of the path `c`.

* `unlink`: what is left when `a` is out of the tree: the place where a node went missing, the
  subtree there, and whether the missing node was black;
* `removeAt_isRedBlack`, `items_removeAt`, `kept_removeAt`.
-/

namespace MulleRbtree

open BinaryTree

variable {o : Stamp} {c : Path Entry} {a : Entry} {l r x : ETree} {n : ℕ}

/-- The successor `y` takes the place of `a`: it has the colour of `a` now. -/
def promote (o : Stamp) (a y : Entry) : Entry :=
  (y.touch o).recolor fun k => k.setColor a.color.getColor

@[simp] theorem promote_slot (o : Stamp) (a y : Entry) : (promote o a y).slot = y.slot := rfl

theorem promote_mark (o : Stamp) (a y : Entry) : promote o (a.mark o) y = promote o a y := by
  simp [promote, Entry.mark]

theorem promote_touch (o : Stamp) (a y : Entry) : promote o (a.touch o) y = promote o a y := by
  simp [promote, Entry.touch, Entry.mark, Entry.relink]

/-- `_mulle__rbtree_remove_node`, before the node is freed and the tree is rebalanced. -/
def unlink (o : Stamp) (c : Path Entry) (a : Entry) (l r : ETree) : Path Entry × ETree × Bool :=
  match l, pop .left [] (r.mapRoot (Entry.mark o)) with
  | node .., some (g, y, x) =>
    (Path.mapLabels (Entry.soil o) (Path.mapLast (Entry.touch o) (Path.mapHead (Entry.touch o) g) ++
      ⟨.right, promote o a y, l.mapRoot (Entry.touch o)⟩ :: Path.mapHead (Entry.touch o) c),
      (x.mapRoot (Entry.touch o)).mapRoot (Entry.soil o), !y.isRed)
  | nil, _ => (Path.mapLabels (Entry.soil o) (Path.mapHead (Entry.touch o) c),
      (r.mapRoot (Entry.touch o)).mapRoot (Entry.soil o), !a.isRed)
  | _, none => (Path.mapLabels (Entry.soil o) (Path.mapHead (Entry.touch o) c),
      (l.mapRoot (Entry.touch o)).mapRoot (Entry.soil o), !a.isRed)

/-- `_mulle__rbtree_remove_node` -/
def removeAt (o : Stamp) (c : Path Entry) (a : Entry) (l r : ETree) : ETree :=
  if (unlink o c a l r).2.2 then fixBlackBlack o (unlink o c a l r).1 (unlink o c a l r).2.1
  else plug (unlink o c a l r).1 (unlink o c a l r).2.1

theorem unlink_nil_right : unlink o c a l nil =
    (Path.mapLabels (Entry.soil o) (Path.mapHead (Entry.touch o) c),
      (l.mapRoot (Entry.touch o)).mapRoot (Entry.soil o), !a.isRed) := by
  cases l <;> rfl

/-- The three shapes of a removal: no left child, no right child, or a successor `y` at the end of
the path `g` in the right subtree. -/
theorem unlink_cases (o : Stamp) (c : Path Entry) (a : Entry) (l r : ETree) :
    (l = nil ∧ unlink o c a l r = (Path.mapLabels (Entry.soil o) (Path.mapHead (Entry.touch o) c),
      (r.mapRoot (Entry.touch o)).mapRoot (Entry.soil o), !a.isRed)) ∨
    (l ≠ nil ∧ r = nil ∧
      unlink o c a l r = (Path.mapLabels (Entry.soil o) (Path.mapHead (Entry.touch o) c),
        (l.mapRoot (Entry.touch o)).mapRoot (Entry.soil o), !a.isRed)) ∨
    (l ≠ nil ∧ ∃ g y x, pop .left [] (r.mapRoot (Entry.mark o)) = some (g, y, x) ∧
      unlink o c a l r = (Path.mapLabels (Entry.soil o)
        (Path.mapLast (Entry.touch o) (Path.mapHead (Entry.touch o) g) ++
          ⟨.right, promote o a y, l.mapRoot (Entry.touch o)⟩ :: Path.mapHead (Entry.touch o) c),
        (x.mapRoot (Entry.touch o)).mapRoot (Entry.soil o), !y.isRed)) := by
  cases l with
  | nil => exact .inl ⟨rfl, rfl⟩
  | node e l₁ l₂ =>
    cases hr : pop .left [] (r.mapRoot (Entry.mark o)) with
    | none =>
      refine .inr (.inl ⟨by simp, ?_, by simp only [unlink, hr]⟩)
      by_contra hne
      obtain ⟨g, y, x, h⟩ := exists_pop .left [] (t := r.mapRoot (Entry.mark o)) (by simpa using hne)
      rw [hr] at h
      cases h
    | some q =>
      obtain ⟨g, y, x⟩ := q
      exact .inr (.inr ⟨by simp, g, y, x, rfl, by simp only [unlink, hr]⟩)

/-- The mark on the root of the right subtree goes unnoticed, for that node is touched anyway. -/
theorem unlink_successor {g : Path Entry} {y : Entry} (hl : l ≠ nil)
    (hpop : pop .left [] r = some (g, y, x)) : unlink o c a l r =
      (Path.mapLabels (Entry.soil o) (Path.mapLast (Entry.touch o) (Path.mapHead (Entry.touch o) g) ++
        ⟨.right, promote o a y, l.mapRoot (Entry.touch o)⟩ :: Path.mapHead (Entry.touch o) c),
        (x.mapRoot (Entry.touch o)).mapRoot (Entry.soil o), !y.isRed) := by
  have hpath : Path.mapLast (Entry.touch o) (Path.mapHead (Entry.touch o)
      (Path.mapLast (Entry.mark o) g)) =
        Path.mapLast (Entry.touch o) (Path.mapHead (Entry.touch o) g) := by
    have htouch : Entry.touch o ∘ Entry.mark o = Entry.touch o := by
      funext e
      simp
    match g with
    | [] => rfl
    | [f] => simp [Path.mapLast, Frame.mapLabel]
    | f :: f' :: g =>
      have hlast := Path.mapLast_mapLast (Entry.touch o) (Entry.mark o)
        (f.mapLabel (Entry.touch o) :: f' :: g)
      rw [htouch] at hlast
      exact hlast
  have hy : promote o a (if g = [] then y.mark o else y) = promote o a y ∧
      (if g = [] then y.mark o else y).isRed = y.isRed := by
    split_ifs <;> simp [promote]
  have hpop' := pop_mapRoot (Entry.mark o) hpop
  obtain ⟨b, u, v, rfl⟩ := exists_join .left hl
  simp only [join_left, unlink, hpop', hpath, hy]

/-- The successor is the leftmost node of the right subtree. -/
theorem plug_successor {g : Path Entry} {y : Entry} {t : ETree}
    (hpop : pop .left [] t = some (g, y, x)) :
    plug (g ++ ⟨.right, a, l⟩ :: c) (join .right y x nil) = plug c (node a l t) := by
  have h : plug g (join .right y x nil) = t := plug_pop hpop
  rw [plug_append, h]
  rfl

/-! ### Balance -/

/-- In colours, a node `y` with a single subtree is taken out, and the answer says whether it was
black. -/
theorem unlink_colors (h : IsRedBlack Entry.isRed (plug c (node a l r))) : ∃ d g y x,
    IsRedBlack Entry.isRed (plug g (join d y x nil)) ∧
      List.map (Frame.map Entry.isRed) (unlink o c a l r).1 = List.map (Frame.map Entry.isRed) g ∧
      (unlink o c a l r).2.1.map Entry.isRed = x.map Entry.isRed ∧
      (unlink o c a l r).2.2 = !y.isRed := by
  have hpath : List.map (Frame.map Entry.isRed) (Path.mapLabels (Entry.soil o)
      (Path.mapHead (Entry.touch o) c)) = List.map (Frame.map Entry.isRed) c := by
    rw [map_mapLabels (Entry.isRed_soil o), map_mapHead (Entry.isRed_touch o)]
  have hroot : ∀ x : ETree, ((x.mapRoot (Entry.touch o)).mapRoot (Entry.soil o)).map Entry.isRed =
      x.map Entry.isRed := fun x => by
    rw [map_mapRoot (Entry.isRed_soil o), map_mapRoot (Entry.isRed_touch o)]
  obtain ⟨rfl, e⟩ | ⟨-, rfl, e⟩ | ⟨-, g, y, x, hpop, e⟩ := unlink_cases o c a l r
  · rw [e]
    exact ⟨.right, c, a, r, h, hpath, hroot r, rfl⟩
  · rw [e]
    exact ⟨.left, c, a, l, h, hpath, hroot l, rfl⟩
  · have h' : IsRedBlack Entry.isRed (plug c (node a l (r.mapRoot (Entry.mark o)))) :=
      isRedBlack_congr h (by
        rw [map_plug, map_plug, map, map, map_mapRoot (Entry.isRed_mark o)])
    rw [← plug_successor hpop] at h'
    have hpromote : (promote o a y).isRed = a.isRed := by
      rw [promote, Entry.isRed_recolor, Color.isRed_setColor_getColor]
      rfl
    rw [e]
    refine ⟨.right, _, y, x, h', ?_, hroot x, rfl⟩
    rw [map_mapLabels (Entry.isRed_soil o), List.map_append, List.map_append, List.map_cons,
      List.map_cons, map_mapLast (Entry.isRed_touch o), map_mapHead (Entry.isRed_touch o),
      map_mapHead (Entry.isRed_touch o)]
    simp only [Frame.map, hpromote, map_mapRoot (Entry.isRed_touch o)]

/-- After a black node has been taken out, its place is one black node short. -/
theorem unlink_deficit (h : IsRedBlack Entry.isRed (plug c (node a l r)))
    (hblack : (unlink o c a l r).2.2 = true) :
    ∃ n, Deficit (unlink o c a l r).1 (unlink o c a l r).2.1 n := by
  obtain ⟨d, g, y, x, h', hg, hx, e⟩ := unlink_colors (o := o) h
  obtain ⟨n, hh, hb, -⟩ := hole_of_isRedBlack h'
  rw [e, Bool.not_eq_true'] at hblack
  obtain ⟨m, rfl, hxb, -⟩ := (balanced_black hblack).1 hb
  exact ⟨m, deficit_of_balanced (hole_congr hh hg) (balanced_congr hxb hx)⟩

theorem removeAt_isRedBlack (h : IsRedBlack Entry.isRed (plug c (node a l r))) :
    IsRedBlack Entry.isRed (removeAt o c a l r) := by
  unfold removeAt
  split_ifs with hblack
  · obtain ⟨n, hn⟩ := unlink_deficit h hblack
    exact fixBlackBlack_isRedBlack hn
  · obtain ⟨d, g, y, x, h', hg, hx, e⟩ := unlink_colors (o := o) h
    obtain ⟨n, hh, hb, -⟩ := hole_of_isRedBlack h'
    have hy : y.isRed = true := by simpa [e] using hblack
    obtain ⟨hxr, -, hxb, -⟩ := (balanced_red hy).1 hb
    refine isRedBlack_plug (hole_congr hh hg) (balanced_congr hxb hx) fun hr => ?_
    have hxr' : rootHas Entry.isRed (unlink o c a l r).2.1 = rootHas Entry.isRed x := by
      generalize (unlink o c a l r).2.1 = x' at hx
      cases x <;> cases x' <;> simp_all [map]
    rw [hxr', hxr] at hr
    cases hr

/-! ### Order -/

theorem map_item_soil_touch (t : ETree) :
    items ((t.mapRoot (Entry.touch o)).mapRoot (Entry.soil o)) = items t := by
  rw [items_mapRoot (Entry.item_soil o), items_mapRoot (Entry.item_touch o)]

/-- The node is gone, everything else stays in its order. -/
theorem items_removeAt : items (removeAt o c a l r) =
    (before c).map Entry.item ++ (items l ++ items r ++ (after c).map Entry.item) := by
  have hpath : List.map (Frame.map Entry.item) (Path.mapLabels (Entry.soil o)
      (Path.mapHead (Entry.touch o) c)) = List.map (Frame.map Entry.item) c := by
    rw [map_mapLabels (Entry.item_soil o), map_mapHead (Entry.item_touch o)]
  have hfix : items (removeAt o c a l r) = items (plug (unlink o c a l r).1
      (unlink o c a l r).2.1) := by
    unfold removeAt
    split_ifs
    · exact items_fixBlackBlack
    · rfl
  rw [hfix]
  obtain ⟨rfl, e⟩ | ⟨-, rfl, e⟩ | ⟨-, g, y, x, hpop, e⟩ := unlink_cases o c a l r
  · rw [e, items_plug_congr hpath (map_item_soil_touch r), items_plug]
    rfl
  · rw [e, items_plug_congr hpath (map_item_soil_touch l), items_plug]
    simp
  · obtain ⟨hbefore, hr⟩ := inorder_pop hpop
    have hr : items r = y.item :: (items x ++ (after g).map Entry.item) := by
      rw [← items_mapRoot (Entry.item_mark o) r, items_eq, hr]
      simp [items_eq]
    have hpath' : List.map (Frame.map Entry.item) (Path.mapLabels (Entry.soil o)
        (Path.mapLast (Entry.touch o) (Path.mapHead (Entry.touch o) g) ++
          ⟨.right, promote o a y, l.mapRoot (Entry.touch o)⟩ :: Path.mapHead (Entry.touch o) c)) =
        List.map (Frame.map Entry.item) (g ++ ⟨.right, y, l⟩ :: c) := by
      rw [map_mapLabels (Entry.item_soil o), List.map_append, List.map_append, List.map_cons,
        List.map_cons, map_mapLast (Entry.item_touch o), map_mapHead (Entry.item_touch o),
        map_mapHead (Entry.item_touch o)]
      simp only [Frame.map, map_mapRoot (Entry.item_touch o)]
      rfl
    rw [e, items_plug_congr hpath' (map_item_soil_touch x), items_plug, hr, before_append,
      after_append, hbefore]
    simp [before, after, items_eq]

/-- The same, cut at the place. -/
theorem items_removeAt_split (o : Stamp) (c : Path Entry) (a : Entry) (l r : ETree) :
    ∃ u v, items (plug c (node a l r)) = u ++ a.item :: v ∧ items (removeAt o c a l r) = u ++ v := by
  refine ⟨(before c).map Entry.item ++ items l, items r ++ (after c).map Entry.item, ?_, ?_⟩
  · rw [items_plug, items_node]
    simp
  · rw [items_removeAt]
    simp

/-- The former children and what took the place of the node are in the tree, too. -/
theorem mem_slots_removeAt {i : ℕ} : i ∈ slots (removeAt o c a l r) ↔
    (∃ b ∈ before c, b.slot = i) ∨ i ∈ slots l ∨ i ∈ slots r ∨ ∃ b ∈ after c, b.slot = i := by
  rw [slots_eq, items_removeAt]
  simp [slots_eq, items_eq, Entry.item]

theorem slots_unlink : slots (plug (unlink o c a l r).1 (unlink o c a l r).2.1) =
    slots (removeAt o c a l r) := by
  rw [slots_eq, slots_eq]
  unfold removeAt
  split_ifs
  · rw [items_fixBlackBlack]
  · rfl

/-! ### What is kept -/

section Kept

variable {R : Entry → Option Entry → Option Entry → Prop}
  (hR : Tolerant R)
include hR

theorem kept_soilRoot (h : Kept R o.options x) : Kept R o.options (x.mapRoot (Entry.soil o)) := by
  cases x with
  | nil => exact kept_nil
  | node e l r =>
    obtain ⟨he, hl, hr⟩ := Kept.of_join (d := .left) h
    exact kept_join_soil (d := .left) hR he hl hr

/-- What hung at the node is soiled, and so is everything above. -/
theorem kept_unlink (h : Kept R o.options (plug c (node a l r))) :
    Kept R o.options (plug (unlink o c a l r).1 (unlink o c a l r).2.1) := by
  obtain ⟨hx, hc⟩ := h.of_plug
  obtain ⟨ha, hl, hr⟩ := Kept.of_join (d := .left) hx
  have htouch : ∀ f : Frame Entry, f.label.Proper o.options ∧ Kept R o.options f.sibling →
      (f.mapLabel (Entry.touch o)).label.Proper o.options ∧
        Kept R o.options (f.mapLabel (Entry.touch o)).sibling := fun f hf => ⟨hf.1.touch, hf.2⟩
  have hroot : ∀ t : ETree, Kept R o.options t → Kept R o.options (t.mapRoot (Entry.touch o)) :=
    fun t ht => ht.congr hR (map_flag_touchRoot o t)
  have hhead := Path.forall_mapHead htouch hc
  obtain ⟨rfl, e⟩ | ⟨-, rfl, e⟩ | ⟨-, g, y, x, hpop, e⟩ := unlink_cases o c a l r
  · rw [e]
    exact kept_plug_soil hR hhead (kept_soilRoot hR (hroot r hr))
  · rw [e]
    exact kept_plug_soil hR hhead (kept_soilRoot hR (hroot l hl))
  · have hg : Kept R o.options (plug g (join .left y nil x)) := by
      rw [plug_pop hpop]
      exact hr.congr hR (map_mapRoot (Entry.flag_mark o) r)
    obtain ⟨hy, hg⟩ := hg.of_plug
    obtain ⟨hy, -, hx⟩ := hy.of_join
    have hpromote : (promote o a y).Proper o.options := by
      intro ho
      rw [promote, Entry.isDirty_recolor, Color.isDirty_setColor_getColor]
      exact hy.touch ho
    rw [e]
    refine kept_plug_soil hR (fun f hf => ?_) (kept_soilRoot hR (hroot x hx))
    rcases List.mem_append.1 hf with hf | hf
    · exact Path.forall_mapLast htouch (Path.forall_mapHead htouch hg) f hf
    · rcases List.mem_cons.1 hf with rfl | hf
      · exact ⟨hpromote, hroot l hl⟩
      · exact hhead f hf

theorem kept_removeAt (h : Kept R o.options (plug c (node a l r))) :
    Kept R o.options (removeAt o c a l r) := by
  unfold removeAt
  split_ifs
  · exact kept_fixBlackBlack hR (kept_unlink hR h)
  · exact kept_unlink hR h

end Kept

end MulleRbtree
