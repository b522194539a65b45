import MulleRbtree.Library.Zipper

/-!
# Local properties of trees

* `Everywhere P t`: `P` holds of every label;
* `Locally R t`: `R` holds of every node and its two children, `R a x y` for the label `a` and the
  labels `x` and `y` of the roots below it, if there are any;
* both for trees with a place in focus: what survives when the place and the nodes above it are
  changed (`Locally.of_plug`, `Locally.replace`);
* `summary g t`: what `g` computes from the leaves up; labels that agree with those of the children
  are the summaries of the subtrees (`locally_iff_summary`).
-/

namespace BinaryTree

variable {α β : Type}

/-! ### Everywhere -/

/-- All labels satisfy `P`. -/
def Everywhere (P : α → Prop) (t : BinaryTree α) : Prop := ∀ a ∈ t.inorder, P a

variable {P : α → Prop}

@[simp] theorem everywhere_nil : Everywhere P nil := by simp [Everywhere]

@[simp] theorem everywhere_join {d : Side} {a : α} {x y : BinaryTree α} :
    Everywhere P (join d a x y) ↔ P a ∧ Everywhere P x ∧ Everywhere P y := by
  simp only [Everywhere, mem_inorder_join]
  exact ⟨fun h => ⟨h a (.inl rfl), fun b hb => h b (.inr (.inl hb)),
    fun b hb => h b (.inr (.inr hb))⟩, fun h b hb => hb.elim (· ▸ h.1)
    fun hb => hb.elim (h.2.1 b) (h.2.2 b)⟩

@[simp] theorem everywhere_node {a : α} {l r : BinaryTree α} :
    Everywhere P (node a l r) ↔ P a ∧ Everywhere P l ∧ Everywhere P r :=
  everywhere_join (d := .left)

theorem everywhere_plug {c : Path α} {t : BinaryTree α} :
    Everywhere P (plug c t) ↔
      Everywhere P t ∧ ∀ f ∈ c, P f.label ∧ Everywhere P f.sibling := by
  induction c generalizing t with
  | nil => simp
  | cons f c ih =>
    rw [plug_cons, ih, Frame.fill, everywhere_join, List.forall_mem_cons]
    tauto

theorem Everywhere.map_congr {β : Type} {f g : α → β} {t : BinaryTree α}
    (h : Everywhere (fun a => f a = g a) t) : t.map f = t.map g := by
  induction t with
  | nil => rfl
  | node a l r ihl ihr =>
    obtain ⟨ha, hl, hr⟩ := everywhere_node.1 h
    rw [map, map, ha, ihl hl, ihr hr]

theorem Everywhere.mono {Q : α → Prop} (h : ∀ a, P a → Q a) {t : BinaryTree α}
    (ht : Everywhere P t) : Everywhere Q t := fun a ha => h a (ht a ha)

theorem everywhere_map {Q : β → Prop} (f : α → β) (t : BinaryTree α) :
    Everywhere Q (t.map f) ↔ Everywhere (fun a => Q (f a)) t := by
  simp [Everywhere, inorder_map]

/-! ### Locally -/

/-- `R` holds of every node with its children. -/
def Locally (R : α → Option α → Option α → Prop) : BinaryTree α → Prop
  | nil => True
  | node a l r => R a l.label? r.label? ∧ Locally R l ∧ Locally R r

variable {R R' : α → Option α → Option α → Prop}

@[simp] theorem locally_nil : Locally R nil := trivial

@[simp] theorem locally_node {a : α} {l r : BinaryTree α} :
    Locally R (node a l r) ↔ R a l.label? r.label? ∧ Locally R l ∧ Locally R r := Iff.rfl

theorem Locally.of_join {d : Side} {a : α} {x y : BinaryTree α} (h : Locally R (join d a x y)) :
    Locally R x ∧ Locally R y := by
  cases d
  · exact h.2
  · exact h.2.symm

/-- A node of which `R` holds with any children. -/
theorem locally_join_of {d : Side} {a : α} {x y : BinaryTree α} (ha : ∀ u v, R a u v)
    (hx : Locally R x) (hy : Locally R y) : Locally R (join d a x y) := by
  cases d
  · exact ⟨ha _ _, hx, hy⟩
  · exact ⟨ha _ _, hy, hx⟩

theorem Locally.of_plug {c : Path α} {t : BinaryTree α} (h : Locally R (plug c t)) :
    Locally R t ∧ ∀ f ∈ c, Locally R f.sibling := by
  induction c generalizing t with
  | nil => exact ⟨h, by simp⟩
  | cons f c ih =>
    obtain ⟨hf, hc⟩ := ih h
    obtain ⟨ht, hs⟩ := hf.of_join
    exact ⟨ht, by simpa [hs] using hc⟩

/-- Another subtree at the place, whose root the parent accepts in place of the old one. -/
theorem Locally.replace {c : Path α} {t t' : BinaryTree α} (h : Locally R (plug c t))
    (ht : Locally R t') (hl : ∀ a v, R a t.label? v → R a t'.label? v)
    (hr : ∀ a u, R a u t.label? → R a u t'.label?) : Locally R (plug c t') := by
  induction c generalizing t t' with
  | nil => exact ht
  | cons f c ih =>
    obtain ⟨d, a, y⟩ := f
    have hf := (Locally.of_plug (c := c) h).1
    refine ih h ?_ (fun b v hb => ?_) fun b u hb => ?_
    · cases d
      · exact ⟨hl a _ hf.1, ht, hf.2.2⟩
      · exact ⟨hr a _ hf.1, hf.2.1, ht⟩
    · simpa [Frame.fill] using hb
    · simpa [Frame.fill] using hb

/-- A property that is weaker on the labels of the tree. -/
theorem Locally.mono_on {t : BinaryTree α} (ht : Locally R t)
    (h : ∀ a ∈ t.inorder, ∀ u v, (∀ b ∈ u, b ∈ t.inorder) → (∀ b ∈ v, b ∈ t.inorder) →
      R a u v → R' a u v) : Locally R' t := by
  induction t with
  | nil => trivial
  | node a l r ihl ihr =>
    have hroot : ∀ (u : BinaryTree α), ∀ b ∈ u.label?, b ∈ u.inorder := by
      intro u b hb
      cases u with
      | nil => simp at hb
      | node a' l' r' =>
        obtain rfl : a' = b := by simpa using hb
        simp
    simp only [inorder_node, List.mem_append, List.mem_cons] at h
    refine ⟨h a (by simp) _ _ (fun b hb => .inl (hroot l b hb))
      (fun b hb => .inr (.inr (hroot r b hb))) ht.1, ihl ht.2.1 ?_, ihr ht.2.2 ?_⟩
    · exact fun b hb u v hu hv =>
        h b (.inl hb) u v (fun x hx => .inl (hu x hx)) fun x hx => .inl (hv x hx)
    · exact fun b hb u v hu hv =>
        h b (.inr (.inr hb)) u v (fun x hx => .inr (.inr (hu x hx))) fun x hx =>
          .inr (.inr (hv x hx))

theorem label?_map (f : α → β) (t : BinaryTree α) : (t.map f).label? = t.label?.map f := by
  cases t <;> rfl

theorem locally_map {R : β → Option β → Option β → Prop} (f : α → β) (t : BinaryTree α) :
    Locally R (t.map f) ↔ Locally (fun a u v => R (f a) (u.map f) (v.map f)) t := by
  induction t with
  | nil => rfl
  | node a l r ihl ihr => simp only [map, locally_node, label?_map, ihl, ihr]

/-- A property that looks at the labels through `k` only. -/
theorem Locally.congr {k : α → β} {t t' : BinaryTree α}
    (hR : ∀ a a' u u' v v', k a' = k a → Option.map k u' = Option.map k u →
      Option.map k v' = Option.map k v → R a u v → R' a' u' v')
    (ht : Locally R t) (e : t'.map k = t.map k) : Locally R' t' := by
  induction t generalizing t' with
  | nil =>
    cases t' with
    | nil => trivial
    | node => simp [map] at e
  | node a l r ihl ihr =>
    cases t' with
    | nil => simp [map] at e
    | node a' l' r' =>
      simp only [map, node.injEq] at e
      obtain ⟨ha, hl, hr⟩ := e
      refine ⟨hR a a' _ _ _ _ ha ?_ ?_ ht.1, ihl ht.2.1 hl, ihr ht.2.2 hr⟩
      · rw [← label?_map, hl, label?_map]
      · rw [← label?_map, hr, label?_map]

/-! ### From the leaves up -/

/-- What `g` computes at the root, from its label and from what it computes at the children. -/
def summary (g : α → Option β → Option β → β) : BinaryTree α → Option β
  | nil => none
  | node a l r => some (g a (summary g l) (summary g r))

/-- Where `k` agrees with the children everywhere, it is what `g` computes from scratch. -/
theorem summary_of_locally {g : α → Option β → Option β → β} {k : α → β} {t : BinaryTree α}
    (h : Locally (fun a u v => k a = g a (u.map k) (v.map k)) t) :
    t.label?.map k = summary g t := by
  induction t with
  | nil => rfl
  | node a l r ihl ihr =>
    obtain ⟨ha, hl, hr⟩ := h
    show some (k a) = some (g a (summary g l) (summary g r))
    rw [← ihl hl, ← ihr hr, ha]

theorem locally_iff_summary {g : α → Option β → Option β → β} {k : α → β} {t : BinaryTree α} :
    Locally (fun a u v => k a = g a (u.map k) (v.map k)) t ↔
      ∀ c x, plug c x = t → x.label?.map k = summary g x := by
  constructor
  · rintro h c x rfl
    exact summary_of_locally h.of_plug.1
  · intro h
    induction t with
    | nil => trivial
    | node a l r ihl ihr =>
      have hl : ∀ c x, plug c x = l → x.label?.map k = summary g x := fun c x hx =>
        h (c ++ [⟨.left, a, r⟩]) x (by rw [plug_append, hx]; rfl)
      have hr : ∀ c x, plug c x = r → x.label?.map k = summary g x := fun c x hx =>
        h (c ++ [⟨.right, a, l⟩]) x (by rw [plug_append, hx]; rfl)
      refine ⟨?_, ihl hl, ihr hr⟩
      have ha : some (k a) = some (g a (summary g l) (summary g r)) := h [] _ rfl
      show k a = g a (l.label?.map k) (r.label?.map k)
      rw [hl [] l rfl, hr [] r rfl]
      exact Option.some.inj ha

end BinaryTree
