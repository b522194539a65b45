import MulleRbtree.Tree.Attach
import MulleRbtree.Tree.Value

/-!
# How many nodes a call soils

A call soils paths to the root, but these run together: whatever the fixups do, an insertion or a
removal leaves at most a few more dirty nodes than one path has.

* `Gauge μ`: `μ` counts dirty nodes, or nodes that are going to be dirty;
* `beside μ c`: the count beside the path `c`;
* `fixRedRed_le`, `fixBlackBlack_le`: the fixups soil the path, and one node or three besides;
* `dirtyNodes_attach_le`, `dirtyNodes_unstore_le`, `dirtyNodes_soilTo_le`: hence the bounds for the
  calls;
* `count_dirty_washEvents`: a dirty walk calls the callback once for each dirty node.
-/

namespace MulleRbtree

open BinaryTree

/-- `μ` counts nodes and looks at slots and dirty flags only. -/
structure Gauge (μ : ETree → ℕ) : Prop where
  nil : μ nil = 0
  le_join : ∀ d e x y, μ x + μ y ≤ μ (join d e x y)
  join_le : ∀ d e x y, μ (join d e x y) ≤ μ x + μ y + 1
  congr : ∀ T T' : ETree, T.map Entry.flag = T'.map Entry.flag → μ T = μ T'

/-- The count beside a path. -/
def beside (μ : ETree → ℕ) : Path Entry → ℕ
  | [] => 0
  | f :: c => μ f.sibling + beside μ c

/-- The number of dirty nodes. -/
def dirtyNodes (T : ETree) : ℕ := T.inorder.countP Entry.isDirty

variable {μ : ETree → ℕ} {o : Stamp} {c : Path Entry} {f g : Frame Entry} {x b e l r near far : ETree}
  {a p t w : Entry} {d : Side} {T : ETree} {i : ℕ}

/-! ### Counts beside a path -/

theorem beside_append (c c' : Path Entry) : beside μ (c ++ c') = beside μ c + beside μ c' := by
  induction c with
  | nil => simp [beside]
  | cons f c ih =>
    rw [List.cons_append, beside, beside, ih]
    omega

@[simp] theorem beside_mapLabels (h : Entry → Entry) (c : Path Entry) :
    beside μ (Path.mapLabels h c) = beside μ c := by
  induction c with
  | nil => rfl
  | cons f c ih =>
    rw [Path.mapLabels_cons, beside, beside, ih]
    rfl

@[simp] theorem beside_mapHead (h : Entry → Entry) (c : Path Entry) :
    beside μ (Path.mapHead h c) = beside μ c := by cases c <;> rfl

@[simp] theorem beside_mapLast (h : Entry → Entry) (c : Path Entry) :
    beside μ (Path.mapLast h c) = beside μ c := by
  induction c with
  | nil => rfl
  | cons f c ih =>
    cases c with
    | nil => rfl
    | cons f' c =>
      show μ f.sibling + beside μ (Path.mapLast h (f' :: c)) = _
      rw [ih]
      rfl

@[simp] theorem length_mapLabels (h : Entry → Entry) (c : Path Entry) :
    (Path.mapLabels h c).length = c.length := List.length_map _

@[simp] theorem length_mapHead (h : Entry → Entry) (c : Path Entry) :
    (Path.mapHead h c).length = c.length := by cases c <;> rfl

@[simp] theorem length_mapLast (h : Entry → Entry) (c : Path Entry) :
    (Path.mapLast h c).length = c.length := by
  induction c with
  | nil => rfl
  | cons f c ih =>
    cases c with
    | nil => rfl
    | cons f' c =>
      show (Path.mapLast h (f' :: c)).length + 1 = _
      rw [ih]
      rfl

namespace Gauge

variable (hμ : Gauge μ)
include hμ

/-- If a path gets dirty, so do its nodes and no others. -/
theorem plug_le (c : Path Entry) (x : ETree) : μ (plug c x) ≤ μ x + beside μ c + c.length := by
  induction c generalizing x with
  | nil => rfl
  | cons f c ih =>
    have h := ih (f.fill x)
    have hf : μ (f.fill x) ≤ μ x + μ f.sibling + 1 := hμ.join_le _ _ _ _
    rw [plug_cons, beside, List.length_cons]
    omega

theorem le_plug (c : Path Entry) (x : ETree) : μ x + beside μ c ≤ μ (plug c x) := by
  induction c generalizing x with
  | nil => exact le_rfl
  | cons f c ih =>
    have h := ih (f.fill x)
    have hf : μ x + μ f.sibling ≤ μ (f.fill x) := hμ.le_join _ _ _ _
    rw [plug_cons, beside]
    omega

theorem blacken_eq (T : ETree) : μ (blacken T) = μ T := hμ.congr _ _ (map_flag_blacken T)

theorem touch_eq (T : ETree) : μ (T.mapRoot (Entry.touch o)) = μ T :=
  hμ.congr _ _ (map_flag_touchRoot o T)

/-- Changing the root changes the count by one at most. -/
theorem mapRoot_le (h : Entry → Entry) (T : ETree) : μ (T.mapRoot h) ≤ μ T + 1 := by
  cases T with
  | nil => exact Nat.le_succ _
  | node e l r =>
    have h₁ := hμ.join_le .left (h e) l r
    have h₂ := hμ.le_join .left e l r
    exact h₁.trans (Nat.succ_le_succ h₂)

theorem turn_le (o : Stamp) (d : Side) (p : Entry) (x : ETree) (t : Entry) (b e : ETree) :
    μ (turn o d p x t b e) ≤ μ x + μ b + μ e + 2 := by
  have h₁ := hμ.join_le d ((t.touch o).soil o) (join d ((p.touch o).soil o) x
    (b.mapRoot (Entry.touch o))) e
  have h₂ := hμ.join_le d ((p.touch o).soil o) x (b.mapRoot (Entry.touch o))
  have h₃ := hμ.touch_eq (o := o) b
  unfold turn
  omega

/-- What is above a rotation becomes dirty. -/
theorem plug_turnPath_le (c : Path Entry) (T : ETree) :
    μ (plug (turnPath o c) T) ≤ μ T + beside μ c + c.length := by
  have h := hμ.plug_le (turnPath o c) T
  rwa [turnPath, beside_mapLabels, beside_mapHead, length_mapLabels, length_mapHead] at h

/-! ### The red-red fixup -/

theorem redRedTurn_le (o : Stamp) (t : Entry) (b e : ETree) (g : Frame Entry) (c : Path Entry) :
    μ (redRedTurn o t b e g c) ≤ μ b + μ e + μ g.sibling + 2 + beside μ c + c.length := by
  have h₁ := hμ.plug_turnPath_le (o := o) c (turn o g.side.other (g.label.recolor Color.setRed)
    g.sibling (t.recolor Color.setBlack) e b)
  have h₂ := hμ.turn_le o g.side.other (g.label.recolor Color.setRed) g.sibling
    (t.recolor Color.setBlack) e b
  rw [redRedTurn, hμ.blacken_eq]
  omega

theorem fixRedRed_le (c : Path Entry) (x : ETree) :
    μ (fixRedRed o c x) ≤ μ x + beside μ c + c.length + 1 := by
  induction c, x using fixRedRed.induct with
  | case1 f g c x hf hu ih =>
    have h₁ := hμ.join_le g.side (g.label.recolor Color.setRed)
      ((f.mapLabel (Entry.recolor Color.setBlack)).fill x) (blacken g.sibling)
    have h₂ : μ ((f.mapLabel (Entry.recolor Color.setBlack)).fill x) ≤ μ x + μ f.sibling + 1 :=
      hμ.join_le _ _ _ _
    have h₃ := hμ.blacken_eq g.sibling
    rw [fixRedRed, if_pos hf, if_pos hu]
    rw [redRedRecolor] at ih ⊢
    simp only [beside, List.length_cons]
    omega
  | case2 f g c x hf hu hside =>
    have h := hμ.redRedTurn_le o f.label x f.sibling g c
    rw [fixRedRed, if_pos hf, if_neg hu, if_pos hside]
    simp only [beside, List.length_cons]
    omega
  | case3 f g c x hf hu hside t b e hxe =>
    obtain rfl := unjoin_eq_some hxe
    have h₁ := hμ.redRedTurn_le o ((t.touch o).soil o) (join g.side ((f.label.touch o).soil o)
      f.sibling (b.mapRoot (Entry.touch o))) e ((g.mapLabel (Entry.touch o)).mapLabel (Entry.soil o))
      (Path.mapLabels (Entry.soil o) c)
    have h₂ := hμ.join_le g.side ((f.label.touch o).soil o) f.sibling (b.mapRoot (Entry.touch o))
    have h₃ := hμ.touch_eq (o := o) b
    have h₄ := hμ.le_join g.side t b e
    rw [fixRedRed, if_pos hf, if_neg hu, if_neg hside, hxe]
    simp only [beside, List.length_cons, beside_mapLabels, length_mapLabels,
      Frame.mapLabel_sibling] at h₁ ⊢
    omega
  | case4 f g c x hf hu hside hxe =>
    have h := hμ.plug_le (f :: g :: c) x
    rw [fixRedRed, if_pos hf, if_neg hu, if_neg hside, hxe]
    dsimp only
    rw [hμ.blacken_eq]
    omega
  | case5 f g c x hf =>
    have h := hμ.plug_le (f :: g :: c) x
    rw [fixRedRed, if_neg hf, hμ.blacken_eq]
    omega
  | case6 c x hshort =>
    have h := hμ.plug_le c x
    rw [fixRedRed, hμ.blacken_eq]
    · omega
    · exact hshort

/-! ### The black-black fixup -/

theorem blackBlackTurn_le (o : Stamp) (d : Side) (p : Entry) (x : ETree) (w : Entry)
    (near far : ETree) (c : Path Entry) : μ (blackBlackTurn o d p x w near far c) ≤
      μ x + μ near + μ far + 2 + beside μ c + c.length := by
  have h₁ := hμ.plug_turnPath_le (o := o) c (turn o d (p.recolor Color.setBlack) x
    (w.recolor fun k => k.setColor p.color.getColor) near (blacken far))
  have h₂ := hμ.turn_le o d (p.recolor Color.setBlack) x
    (w.recolor fun k => k.setColor p.color.getColor) near (blacken far)
  have h₃ := hμ.blacken_eq far
  unfold blackBlackTurn
  omega

theorem settle_le (o : Stamp) (d : Side) (p : Entry) (x : ETree) (w : Entry) (near far : ETree)
    (c : Path Entry) : μ (settle o d p x w near far c) ≤
      μ x + μ near + μ far + 3 + beside μ c + c.length := by
  unfold settle
  split_ifs with hfar
  · have h := hμ.blackBlackTurn_le o d p x w near far c
    omega
  · cases hn : near.unjoin d.other with
    | none =>
      have h₁ := hμ.plug_le c (join d p x (join d w near far))
      have h₂ := hμ.join_le d p x (join d w near far)
      have h₃ := hμ.join_le d w near far
      dsimp only
      omega
    | some q =>
      obtain ⟨v, b, e⟩ := q
      obtain rfl := unjoin_eq_some hn
      have h₁ := hμ.blackBlackTurn_le o d ((p.touch o).soil o) x
        (((v.recolor Color.setBlack).touch o).soil o) e (join d.other
        (((w.recolor Color.setRed).touch o).soil o) far (b.mapRoot (Entry.touch o)))
        (Path.mapLabels (Entry.soil o) c)
      have h₂ := hμ.join_le d.other (((w.recolor Color.setRed).touch o).soil o) far
        (b.mapRoot (Entry.touch o))
      have h₃ := hμ.touch_eq (o := o) b
      have h₄ := hμ.le_join d.other v b e
      simp only [beside_mapLabels, length_mapLabels] at h₁
      dsimp only
      omega

/-- If `up` soils the path and `k` nodes besides, so does the step to the parent; a rotation at this
place soils two nodes besides. -/
theorem repairAt_le {up : ETree → ETree} {k : ℕ} (hk : 2 ≤ k)
    (hup : ∀ y, μ (up y) ≤ μ y + beside μ c + c.length + k) :
    μ (repairAt o f c x up) ≤ μ x + beside μ (f :: c) + (f :: c).length + k := by
  unfold repairAt
  rw [beside, List.length_cons]
  cases hs : f.sibling.unjoin f.side with
  | none =>
    have h : μ (f.fill x) ≤ μ x + μ f.sibling + 1 := hμ.join_le _ _ _ _
    have := hup (f.fill x)
    dsimp only
    omega
  | some q =>
    obtain ⟨w, near, far⟩ := q
    have hsib := unjoin_eq_some hs
    have h₁ := hμ.le_join f.side w near far
    dsimp only
    rw [hsib]
    split_ifs with hr
    · have h₂ := hμ.settle_le o f.side f.label x w near far c
      rw [hμ.blacken_eq]
      omega
    · -- the sibling becomes red, which is no matter of dirt
      have h₂ := hμ.join_le f.side f.label x (join f.side (w.recolor Color.setRed) near far)
      have h₃ : μ (join f.side (w.recolor Color.setRed) near far) = μ (join f.side w near far) := by
        apply hμ.congr
        rw [map_join, map_join, Entry.flag_setRed]
      have := hup (join f.side f.label x (join f.side (w.recolor Color.setRed) near far))
      omega

theorem fixBlackBlack_le (c : Path Entry) (x : ETree) :
    μ (fixBlackBlack o c x) ≤ μ x + beside μ c + c.length + 3 := by
  induction c generalizing x with
  | nil =>
    have h := hμ.blacken_eq x
    rw [fixBlackBlack]
    omega
  | cons f c ih =>
    have hplug := hμ.plug_le (f :: c) (blacken x)
    have hx := hμ.blacken_eq x
    rw [fixBlackBlack]
    split_ifs with hr
    · rw [hμ.blacken_eq]
      omega
    · cases hs : f.sibling.unjoin f.side with
      | none =>
        have h := hμ.plug_le (f :: c) x
        dsimp only
        rw [hμ.blacken_eq]
        omega
      | some q =>
        obtain ⟨w, near, far⟩ := q
        dsimp only
        split_ifs with hw
        · -- case 1 adds the former sibling to the path
          have hsib := hμ.le_join f.side w near far
          rw [← unjoin_eq_some hs] at hsib
          have hnear := hμ.touch_eq (o := o) near
          have hpath : beside μ (raised o f w far c) = μ far + beside μ c ∧
              (raised o f w far c).length = c.length + 1 := by
            constructor
            · rw [raised, beside, turnPath, beside_mapLabels, beside_mapHead]
            · rw [raised, List.length_cons, turnPath, length_mapLabels, length_mapHead]
          have hup : ∀ y, μ (blacken (plug (raised o f w far c) (blacken y))) ≤
              μ y + beside μ (raised o f w far c) + (raised o f w far c).length + 2 := by
            intro y
            have h := hμ.plug_le (raised o f w far c) (blacken y)
            rw [hμ.blacken_eq] at h ⊢
            omega
          have h := hμ.repairAt_le (o := o) (f := lowered o f near) (x := x) le_rfl hup
          rw [beside, List.length_cons, hpath.1, hpath.2] at h
          rw [beside, List.length_cons]
          have hsibling : μ (lowered o f near).sibling = μ near := hnear
          omega
        · exact hμ.repairAt_le (by decide) ih

end Gauge

/-! ### Dirty nodes -/

@[simp] theorem dirtyNodes_nil : dirtyNodes nil = 0 := rfl

theorem dirtyNodes_join (d : Side) (e : Entry) (x y : ETree) :
    dirtyNodes (join d e x y) = dirtyNodes x + dirtyNodes y + e.isDirty.toNat := by
  have he : [e].countP Entry.isDirty = e.isDirty.toNat := by cases he : e.isDirty <;> simp [he]
  unfold dirtyNodes
  cases d
  · rw [join_left, inorder_node, ← List.singleton_append, List.countP_append, List.countP_append, he]
    omega
  · rw [join_right, inorder_node, ← List.singleton_append, List.countP_append, List.countP_append, he]
    omega

theorem dirtyNodes_of_clean (h : Clean T) : dirtyNodes T = 0 := by
  apply List.countP_eq_zero.2
  intro e he
  rw [h e he]
  exact Bool.false_ne_true

theorem dirtyNodes_congr {T T' : ETree} (h : T.map Entry.flag = T'.map Entry.flag) :
    dirtyNodes T = dirtyNodes T' := by
  have hflag : ∀ T : ETree, dirtyNodes T = (T.map Entry.flag).inorder.countP Prod.snd := by
    intro T
    rw [inorder_map, List.countP_map]
    rfl
  rw [hflag, hflag, h]

theorem gauge_dirtyNodes : Gauge dirtyNodes where
  nil := rfl
  le_join d e x y := by
    rw [dirtyNodes_join]
    omega
  join_le d e x y := by
    rw [dirtyNodes_join]
    have := e.isDirty.toNat_le
    omega
  congr _ _ := dirtyNodes_congr

theorem slots_eq_flag (T : ETree) :
    slots T = (T.map Entry.flag).inorder.map fun q => q.1.slot := by
  rw [slots, inorder_map, List.map_map]
  rfl

theorem flag_soil (o : Stamp) (e : Entry) :
    (e.soil o).flag = (e.flag.1, Options.useDirty o.options || e.flag.2) := by
  cases ho : Options.useDirty o.options <;> simp [Entry.flag, Entry.soil, Stamp.soilColor, ho]

/-- Soiling looks at slots and dirty flags only. -/
theorem flag_soilTo {T T' : ETree} (h : T.map Entry.flag = T'.map Entry.flag) :
    (soilTo o i T).map Entry.flag = (soilTo o i T').map Entry.flag := by
  induction T generalizing T' with
  | nil =>
    cases T' with
    | nil => rfl
    | node e l r => cases h
  | node e l r ihl ihr =>
    cases T' with
    | nil => cases h
    | node e' l' r' =>
      have hslots : slots (node e l r) = slots (node e' l' r') := by
        rw [slots_eq_flag, slots_eq_flag, h]
      obtain ⟨he, hl, hr⟩ := node.inj h
      unfold soilTo
      rw [hslots]
      split_ifs
      · rw [map, map, ihl hl, ihr hr, flag_soil, flag_soil, he]
      · exact h

/-- The nodes that are dirty once the way to a node is. -/
theorem gauge_soilTo (o : Stamp) (i : ℕ) : Gauge fun T => dirtyNodes (soilTo o i T) where
  nil := rfl
  le_join d e x y := by
    by_cases hi : i ∈ slots (join d e x y)
    · rw [soilTo_join_of_mem hi]
      exact gauge_dirtyNodes.le_join _ _ _ _
    · have hx : i ∉ slots x := fun h => hi (mem_slots_join.2 (.inr (.inl h)))
      have hy : i ∉ slots y := fun h => hi (mem_slots_join.2 (.inr (.inr h)))
      rw [soilTo_of_notMem hi, soilTo_of_notMem hx, soilTo_of_notMem hy]
      exact gauge_dirtyNodes.le_join _ _ _ _
  join_le d e x y := by
    by_cases hi : i ∈ slots (join d e x y)
    · rw [soilTo_join_of_mem hi]
      exact gauge_dirtyNodes.join_le _ _ _ _
    · have hx : i ∉ slots x := fun h => hi (mem_slots_join.2 (.inr (.inl h)))
      have hy : i ∉ slots y := fun h => hi (mem_slots_join.2 (.inr (.inr h)))
      rw [soilTo_of_notMem hi, soilTo_of_notMem hx, soilTo_of_notMem hy]
      exact gauge_dirtyNodes.join_le _ _ _ _
  congr T T' h := by
    apply dirtyNodes_congr
    exact flag_soilTo h

/-! ### Calls -/

/-- Away from a node the way to it soils nothing. -/
theorem beside_soilTo (hs : i ∉ slots (plug c T)) :
    beside (fun T => dirtyNodes (soilTo o i T)) c = beside dirtyNodes c := by
  induction c generalizing T with
  | nil => rfl
  | cons f c ih =>
    rw [plug_cons] at hs
    have hfill : i ∉ slots (f.fill T) := by
      intro h
      apply hs
      rw [slots, inorder_plug]
      simp only [List.map_append, List.mem_append]
      exact .inr (.inl h)
    have hsib : i ∉ slots f.sibling := fun h => hfill (mem_slots_join.2 (.inr (.inr h)))
    rw [beside, beside, ih hs, soilTo_of_notMem hsib]

/-- An insertion soils one path, and one node besides. -/
theorem dirtyNodes_attach_le (o : Stamp) (hs : a.slot ∉ slots (plug c nil)) :
    dirtyNodes (attach o a c) ≤ dirtyNodes (plug c nil) + c.length + 2 := by
  have hμ := gauge_soilTo o.next a.slot
  have hbeside : beside dirtyNodes c ≤ dirtyNodes (plug c nil) := by
    have h := gauge_dirtyNodes.le_plug c nil
    rwa [dirtyNodes_nil, Nat.zero_add] at h
  have hleaf : dirtyNodes (soilTo o.next a.slot (node (a.relink o) nil nil)) ≤ 1 :=
    hμ.join_le .left (a.relink o) nil nil
  have hpath : beside (fun T => dirtyNodes (soilTo o.next a.slot T))
      (Path.mapHead (Entry.relink o) c) = beside dirtyNodes c := by
    rw [beside_mapHead, beside_soilTo hs]
  show dirtyNodes (soilTo o.next a.slot (hang o a c)) ≤ _
  unfold hang
  cases c with
  | nil =>
    have h := hμ.blacken_eq (node (a.relink o) nil nil)
    dsimp only at h ⊢
    omega
  | cons f c =>
    dsimp only
    split_ifs
    · have h := hμ.fixRedRed_le (o := o.next) (Path.mapHead (Entry.relink o) (f :: c))
        (node (a.relink o) nil nil)
      rw [hpath, length_mapHead] at h
      omega
    · have h := hμ.plug_le (Path.mapHead (Entry.relink o) (f :: c)) (node (a.relink o) nil nil)
      rw [hpath, length_mapHead] at h
      omega

/-- Unlinking a node leaves a path that is no longer than the tree is high. -/
theorem unlink_le (hμ : Gauge μ) (o : Stamp) (c : Path Entry) (a : Entry) (l r : ETree) :
    μ (unlink o c a l r).2.1 + beside μ (unlink o c a l r).1 ≤ μ l + μ r + beside μ c + 1 ∧
      (unlink o c a l r).1.length ≤ c.length + 1 + r.height := by
  have hroot : ∀ x : ETree, μ ((x.mapRoot (Entry.touch o)).mapRoot (Entry.soil o)) ≤ μ x + 1 := by
    intro x
    have h := hμ.mapRoot_le (Entry.soil o) (x.mapRoot (Entry.touch o))
    rwa [hμ.touch_eq] at h
  obtain ⟨rfl, e⟩ | ⟨-, rfl, e⟩ | ⟨-, g, y, x, hpop, e⟩ := unlink_cases o c a l r
  · have h := hroot r
    rw [e]
    dsimp only
    rw [beside_mapLabels, beside_mapHead, length_mapLabels, length_mapHead]
    omega
  · have h := hroot l
    rw [e]
    dsimp only
    rw [beside_mapLabels, beside_mapHead, length_mapLabels, length_mapHead]
    omega
  · have h := hroot x
    have hr : plug g (join .right y x nil) = r.mapRoot (Entry.mark o) := plug_pop hpop
    have hle := hμ.le_plug g (join .right y x nil)
    have hx := hμ.le_join .right y x nil
    have hmark : μ (r.mapRoot (Entry.mark o)) = μ r :=
      hμ.congr _ _ (map_mapRoot (Entry.flag_mark o) r)
    have hlength := length_add_height_le g (join .right y x nil)
    have hl := hμ.touch_eq (o := o) l
    rw [hr, hmark] at hle
    rw [hr, height_mapRoot] at hlength
    rw [e]
    dsimp only
    rw [beside_mapLabels, length_mapLabels, beside_append, List.length_append, beside_mapLast,
      beside_mapHead, length_mapLast, length_mapHead, beside, beside_mapHead, List.length_cons,
      length_mapHead]
    dsimp only
    omega

/-- A removal soils one path, and four nodes besides. -/
theorem dirtyNodes_removeAt_le (o : Stamp) (c : Path Entry) (a : Entry) (l r : ETree) :
    dirtyNodes (removeAt o c a l r) ≤ dirtyNodes l + dirtyNodes r + beside dirtyNodes c +
      (plug c (node a l r)).height + 4 := by
  obtain ⟨hcount, hlength⟩ := unlink_le gauge_dirtyNodes o c a l r
  have hheight := length_add_height_le c (node a l r)
  have hr : r.height + 1 ≤ (node a l r).height := Nat.succ_le_succ (Nat.le_max_right _ _)
  unfold removeAt
  split_ifs
  · have h := gauge_dirtyNodes.fixBlackBlack_le (o := o) (unlink o c a l r).1 (unlink o c a l r).2.1
    omega
  · have h := gauge_dirtyNodes.plug_le (unlink o c a l r).1 (unlink o c a l r).2.1
    omega

/-- What is left of a node's path and subtrees is in the tree. -/
theorem le_dirtyNodes (c : Path Entry) (a : Entry) (l r : ETree) :
    dirtyNodes l + dirtyNodes r + beside dirtyNodes c ≤ dirtyNodes (plug c (node a l r)) := by
  have h₁ := gauge_dirtyNodes.le_plug c (node a l r)
  have h₂ := gauge_dirtyNodes.le_join .left a l r
  rw [join_left] at h₂
  omega

theorem dirtyNodes_unstore_le (o : Stamp) (c : Path Entry) (a : Entry) (l r : ETree) :
    dirtyNodes (unstore o c a l r) ≤ dirtyNodes (plug c (node a l r)) +
      (plug c (node a l r)).height + 4 := by
  have h := dirtyNodes_removeAt_le o.next (Path.mapLabels (Entry.soil o) c) (a.soil o) l r
  have hle := le_dirtyNodes c a l r
  have hslot : ∀ e : Entry, (e.soil o).slot = e.slot := fun _ => rfl
  have hheight : (plug (Path.mapLabels (Entry.soil o) c) (node (a.soil o) l r)).height =
      (plug c (node a l r)).height := by
    rw [← height_map Entry.slot, ← height_map Entry.slot (plug c _), map_plug, map_plug,
      map_mapLabels hslot]
    rfl
  rw [beside_mapLabels, hheight] at h
  unfold unstore
  omega

/-- Marking a node soils its path. -/
theorem dirtyNodes_soilTo_le (o : Stamp) (hi : i ∈ slots T) (hn : (slots T).Nodup) :
    dirtyNodes (soilTo o i T) ≤ dirtyNodes T + T.height := by
  obtain ⟨e, he, rfl⟩ := List.mem_map.1 hi
  obtain ⟨c, l, r, rfl⟩ := exists_plug_of_mem he
  have h := gauge_dirtyNodes.plug_le (Path.mapLabels (Entry.soil o) c) (node (e.soil o) l r)
  have hnode := gauge_dirtyNodes.join_le .left (e.soil o) l r
  have hle := le_dirtyNodes c e l r
  have hheight := length_add_height_le c (node e l r)
  have hpos : 0 < (node e l r).height := Nat.succ_pos _
  rw [beside_mapLabels, length_mapLabels] at h
  rw [soilTo_plug_node hn]
  rw [join_left] at hnode
  omega

end MulleRbtree
