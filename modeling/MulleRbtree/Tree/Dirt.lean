import MulleRbtree.Tree.Entry

/-!
# What dirty flags protect

Dirty nodes are exempt from whatever the dirty flags stand for; the rest is a matter of a node and
its children.

* `Tolerant R`: a property of a node and its children that asks nothing of dirty nodes and does
  not look at colours and marks;
* `Kept R options T`: `R` holds throughout `T`, and without the option no node is dirty;
* what soils a path or a node keeps it so (`kept_plug_soil`, `kept_join_soil`), hence so does a
  rotation (`kept_turn`), and so does repainting (`Kept.congr`); `Turnable` says just that;
* `Dirt`: every ancestor of a dirty node is dirty, the first such property.
-/

namespace MulleRbtree

open BinaryTree

/-- A tree that does not use dirty flags has no dirty node. -/
def Entry.Proper (options : BitVec 32) (e : Entry) : Prop :=
  Options.useDirty options = false → e.isDirty = false

/-- What an entry shows to local properties. -/
def Entry.flag (e : Entry) : Item × Bool := (e.item, e.isDirty)

namespace Entry

variable (o : Stamp) (e : Entry)

@[simp] theorem flag_mark : (e.mark o).flag = e.flag := by simp [flag]
@[simp] theorem flag_relink : (e.relink o).flag = e.flag := rfl
@[simp] theorem flag_touch : (e.touch o).flag = e.flag := by simp [flag]

theorem flag_recolor {g : Color → Color} (hg : ∀ k, (g k).isDirty = k.isDirty) :
    (e.recolor g).flag = e.flag := by simp [flag, hg]

@[simp] theorem flag_setRed : (e.recolor Color.setRed).flag = e.flag :=
  flag_recolor e Color.isDirty_setRed
@[simp] theorem flag_setBlack : (e.recolor Color.setBlack).flag = e.flag :=
  flag_recolor e Color.isDirty_setBlack
@[simp] theorem flag_setColor (k : Color) :
    (e.recolor fun c => c.setColor k.getColor).flag = e.flag :=
  flag_recolor e fun c => Color.isDirty_setColor_getColor c k

end Entry

@[simp] theorem map_flag_blacken (t : ETree) : (blacken t).map Entry.flag = t.map Entry.flag :=
  map_mapRoot Entry.flag_setBlack t

@[simp] theorem map_flag_touchRoot (o : Stamp) (t : ETree) :
    (t.mapRoot (Entry.touch o)).map Entry.flag = t.map Entry.flag := map_mapRoot (Entry.flag_touch o) t

/-- A property of a node and its children that is not asked of dirty nodes. -/
structure Tolerant (R : Entry → Option Entry → Option Entry → Prop) : Prop where
  dirty : ∀ a u v, a.isDirty = true → R a u v
  congr : ∀ a a' u u' v v', a'.flag = a.flag → Option.map Entry.flag u' = Option.map Entry.flag u →
    Option.map Entry.flag v' = Option.map Entry.flag v → R a u v → R a' u' v'

/-- The property holds throughout a tree that uses dirty flags. -/
structure Kept (R : Entry → Option Entry → Option Entry → Prop) (options : BitVec 32)
    (T : ETree) : Prop where
  locally : Options.useDirty options = true → Locally R T
  proper : Everywhere (Entry.Proper options) T

section Kept

variable {R : Entry → Option Entry → Option Entry → Prop} {options : BitVec 32} {o : Stamp}
  {c : Path Entry} {d : Side} {e p t : Entry} {x y T T' a b u : ETree}

/-! ### Taking apart -/

theorem kept_nil : Kept R options nil := ⟨fun _ => locally_nil, everywhere_nil⟩

theorem Kept.of_join (h : Kept R options (join d e x y)) :
    e.Proper options ∧ Kept R options x ∧ Kept R options y := by
  obtain ⟨he, hx, hy⟩ := everywhere_join.1 h.proper
  exact ⟨he, ⟨fun ho => (h.locally ho).of_join.1, hx⟩, ⟨fun ho => (h.locally ho).of_join.2, hy⟩⟩

theorem Kept.of_plug (h : Kept R options (plug c x)) :
    Kept R options x ∧ ∀ f ∈ c, f.label.Proper options ∧ Kept R options f.sibling := by
  obtain ⟨hx, hc⟩ := everywhere_plug.1 h.proper
  exact ⟨⟨fun ho => (h.locally ho).of_plug.1, hx⟩,
    fun f hf => ⟨(hc f hf).1, fun ho => (h.locally ho).of_plug.2 f hf, (hc f hf).2⟩⟩

/-- Only the shape, the values and the dirty flags matter. -/
theorem Kept.congr (hR : Tolerant R) (h : Kept R options T)
    (hT : T'.map Entry.flag = T.map Entry.flag) : Kept R options T' := by
  have hproper : ∀ u : ETree, Everywhere (Entry.Proper options) u ↔
      Everywhere (fun q : Item × Bool => Options.useDirty options = false → q.2 = false)
        (u.map Entry.flag) := fun u => by rw [everywhere_map]; rfl
  refine ⟨fun ho => (h.locally ho).congr hR.congr hT, ?_⟩
  rw [hproper, hT, ← hproper]
  exact h.proper

/-! ### Putting together -/

theorem Entry.Proper.soil (he : e.Proper o.options) : (e.soil o).Proper o.options := by
  intro ho
  rw [soil_eq_id ho]
  exact he ho

theorem Entry.Proper.touch (he : e.Proper o.options) : (e.touch o).Proper o.options := by
  simpa [Entry.Proper] using he

theorem kept_join_soil (hR : Tolerant R) (he : e.Proper o.options) (hx : Kept R o.options x)
    (hy : Kept R o.options y) : Kept R o.options (join d (e.soil o) x y) :=
  ⟨fun ho => locally_join_of (fun u v => hR.dirty _ u v (Entry.isDirty_soil e ho)) (hx.locally ho)
    (hy.locally ho), everywhere_join.2 ⟨he.soil, hx.proper, hy.proper⟩⟩

theorem kept_plug_soil (hR : Tolerant R)
    (hc : ∀ f ∈ c, f.label.Proper o.options ∧ Kept R o.options f.sibling)
    (hx : Kept R o.options x) : Kept R o.options (plug (Path.mapLabels (Entry.soil o) c) x) := by
  induction c generalizing x with
  | nil => exact hx
  | cons f c ih =>
    rw [List.forall_mem_cons] at hc
    exact ih hc.2 (kept_join_soil hR hc.1.1 hx hc.1.2)

/-- A rotation soils what it moves. -/
theorem kept_turn (hR : Tolerant R) (h : Kept R o.options (plug c (join d p a (join d t b u)))) :
    Kept R o.options (plug (turnPath o c) (turn o d p a t b u)) := by
  obtain ⟨hx, hc⟩ := h.of_plug
  obtain ⟨hp, ha, hu⟩ := hx.of_join
  obtain ⟨ht, hb, hu⟩ := hu.of_join
  have hb' := hb.congr hR (map_flag_touchRoot o b)
  refine kept_plug_soil hR ?_
    (kept_join_soil hR ht.touch (kept_join_soil hR hp.touch ha hb') hu)
  cases c with
  | nil => simp
  | cons f c =>
    rw [List.forall_mem_cons] at hc
    rw [Path.mapHead_cons, List.forall_mem_cons]
    exact ⟨⟨hc.1.1.touch, hc.1.2⟩, hc.2⟩

end Kept

/-- A property of trees that outlives repainting and rotations. -/
structure Turnable (o : Stamp) (P : ETree → Prop) : Prop where
  congr : ∀ {T T' : ETree}, P T → T'.map Entry.flag = T.map Entry.flag → P T'
  turn : ∀ {c : Path Entry} {d : Side} {p t : Entry} {a b u : ETree},
    P (plug c (join d p a (join d t b u))) → P (plug (turnPath o c) (turn o d p a t b u))

theorem Tolerant.turnable {R : Entry → Option Entry → Option Entry → Prop} {o : Stamp}
    (hR : Tolerant R) : Turnable o (Kept R o.options) :=
  ⟨fun h e => h.congr hR e, fun h => kept_turn hR h⟩

theorem turnable_true {o : Stamp} : Turnable o fun _ => True := ⟨fun _ _ => trivial, fun _ => trivial⟩

/-! ### Dirty flags reach up to the root -/

/-- A node that is not dirty has no dirty child. -/
def Up (a : Entry) (u v : Option Entry) : Prop :=
  a.isDirty = true ∨ (∀ b ∈ u, b.isDirty = false) ∧ ∀ b ∈ v, b.isDirty = false

theorem tolerant_up : Tolerant Up := by
  refine ⟨fun a u v h => .inl h, fun a a' u u' v v' ha hu hv h => ?_⟩
  have hmap : ∀ {w w' : Option Entry}, Option.map Entry.flag w' = Option.map Entry.flag w →
      (∀ b ∈ w, b.isDirty = false) → ∀ b ∈ w', b.isDirty = false := by
    rintro w w' hw hall b ⟨⟩
    cases w with
    | none => simp at hw
    | some b' =>
      have hb := congrArg Prod.snd (Option.some.inj hw)
      exact hb.trans (hall b' rfl)
  have ha' : a'.isDirty = a.isDirty := congrArg Prod.snd ha
  exact h.imp (fun h => ha'.trans h) fun h => ⟨hmap hu h.1, hmap hv h.2⟩

/-- The dirty flags of a tree between calls: every ancestor of a dirty node is dirty. -/
abbrev Dirt (options : BitVec 32) (T : ETree) : Prop := Kept Up options T

section Dirt

variable {options : BitVec 32} {c : Path Entry} {x T : ETree}

/-- Where no node is dirty there is nothing to show. -/
theorem locally_up_of_clean (h : Everywhere (fun e => e.isDirty = false) T) : Locally Up T := by
  induction T with
  | nil => trivial
  | node e l r ihl ihr =>
    obtain ⟨-, hl, hr⟩ := everywhere_node.1 h
    have hroot : ∀ v : ETree, Everywhere (fun e => e.isDirty = false) v →
        ∀ b ∈ v.label?, b.isDirty = false := by
      intro v hv b hb
      cases v with
      | nil => simp at hb
      | node e' l' r' =>
        obtain rfl : e' = b := by simpa using hb
        exact (everywhere_node.1 hv).1
    exact ⟨.inr ⟨hroot l hl, hroot r hr⟩, ihl hl, ihr hr⟩

theorem Kept.up (h : Dirt options T) : Locally Up T := by
  cases ho : Options.useDirty options with
  | true => exact h.locally ho
  | false => exact locally_up_of_clean (h.proper.mono fun _ he => he ho)

theorem locally_up_ancestors (h : Locally Up (plug c x)) (hx : rootHas Entry.isDirty x = true) :
    ∀ f ∈ c, f.label.isDirty = true := by
  induction c generalizing x with
  | nil => simp
  | cons f c ih =>
    have hf : f.label.isDirty = true := by
      have hup := (Locally.of_plug (c := c) h).1
      obtain ⟨e, l, r, rfl⟩ := exists_join .left (ne_nil_of_rootHas hx)
      rw [rootHas_join] at hx
      obtain ⟨d, a, y⟩ := f
      cases d
      · rcases hup.1 with h' | h'
        · exact h'
        · exact absurd hx (by rw [h'.1 e (by simp)]; simp)
      · rcases hup.1 with h' | h'
        · exact h'
        · exact absurd hx (by rw [h'.2 e (by simp)]; simp)
    rw [List.forall_mem_cons]
    exact ⟨hf, ih h (by rw [Frame.fill, rootHas_join, hf])⟩

/-- The ancestors of a dirty node are dirty. -/
theorem Kept.ancestors (h : Dirt options (plug c x)) (hx : rootHas Entry.isDirty x = true) :
    ∀ f ∈ c, f.label.isDirty = true := locally_up_ancestors h.up hx

end Dirt
end MulleRbtree
