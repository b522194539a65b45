import MulleRbtree.Runs.Asserts

/-!
# What a tree shows determines what a call does

* `Image.Distinct`: no two nodes share a slot;
* `Evolves.determined`, `Performs.determined`: the image before a call determines the answer and the
  image after it, but for the number of rotations, which `Image.still` leaves out.
-/

namespace MulleRbtree

open BinaryTree Cells Program

variable {σ : Type}

/-! ### Without the rotations -/

def Env.still (E : Env σ) : Env σ := { E with rotations := 0 }

def Image.still (m : Image σ) : Image σ := { m with env := m.env.still }

@[simp] theorem Env.still_turnedBy (E : Env σ) (k : ℕ) : (E.turnedBy k).still = E.still := rfl
@[simp] theorem Env.still_traced (E : Env σ) (u : List Event) :
    (E.traced u).still = E.still.traced u := rfl

variable [MulleStorage σ]

/-! ### Distinct slots -/

/-- No slot occurs twice. -/
def Image.Distinct (m : Image σ) : Prop := (m.spare.map Entry.slot + slots m.tree).Nodup

theorem Shows.distinct {s : Base σ} {m : Image σ} (h : Shows s m) : m.Distinct := by
  obtain ⟨z, h⟩ := h
  have hle : (m.spare.map looseCell + below .nil m.tree).map Prod.fst ≤
      (({z.cell} + (m.spare.map looseCell + below .nil m.tree) : Multiset Cell)).map Prod.fst :=
    Multiset.map_le_map (Multiset.le_add_left _ _)
  have hn := Multiset.nodup_of_le hle (Holds.owns h).1
  have hcells : (m.spare.map looseCell + below .nil m.tree).map Prod.fst =
      (m.spare.map Entry.slot + slots m.tree).map Ref.slot := by
    rw [Multiset.map_add, Multiset.map_add, map_fst_below, Multiset.map_map, Multiset.map_map]
    rfl
  rw [hcells] at hn
  exact hn.of_map

namespace Image.Distinct

variable {E : Env σ} {F F' : Multiset Entry} {T : ETree} {a a' : Entry}

omit [MulleStorage σ] in
theorem nodup_slots {m : Image σ} (h : m.Distinct) : (slots m.tree).Nodup := by
  have hn := (Multiset.nodup_add.1 h).2.1
  rwa [Multiset.coe_nodup] at hn

omit [MulleStorage σ] in
/-- The node in a slot is one node. -/
theorem spare_unique (h : Image.Distinct ⟨E, a ::ₘ F, T⟩) (he : a ::ₘ F = a' ::ₘ F')
    (hs : a.slot = a'.slot) : a = a' ∧ F = F' := by
  have haa : a = a' := by
    have hn := (Multiset.nodup_add.1 h).1
    have ha' : a' ∈ a ::ₘ F := he ▸ Multiset.mem_cons_self a' F'
    rcases Multiset.mem_cons.1 ha' with rfl | hF
    · rfl
    · rw [Multiset.map_cons, Multiset.nodup_cons] at hn
      exact absurd (hs ▸ Multiset.mem_map_of_mem Entry.slot hF) hn.1
  subst haa
  exact ⟨rfl, (Multiset.cons_inj_right a).1 he⟩

omit [MulleStorage σ] in
/-- So is the place of a node. -/
theorem place_unique {c c' : Path Entry} {l r l' r' : ETree}
    (h : Image.Distinct ⟨E, F, plug c (node a l r)⟩)
    (he : plug c (node a l r) = plug c' (node a' l' r')) (hs : a.slot = a'.slot) :
    c = c' ∧ a = a' ∧ l = l' ∧ r = r' := node_unique he hs h.nodup_slots

end Image.Distinct

/-! ### Calls -/

theorem Evolves.determined {m m₁ m₂ : Image σ} {c : Call} {r₁ r₂ : Answer} (hd : m.Distinct)
    (h₁ : Evolves m c r₁ m₁) (h₂ : Evolves m c r₂ m₂) : r₁ = r₂ ∧ m₁.still = m₂.still := by
  cases h₁ with
  | newNode => cases h₂; exact ⟨rfl, rfl⟩
  | freeNode E a F T =>
    generalize hm : (⟨E, a ::ₘ F, T⟩ : Image σ) = m at h₂
    generalize hn : Ref.slot a.slot = n at h₂
    cases h₂ with
    | freeNode E' a' F' T' =>
      obtain ⟨rfl, hF, rfl⟩ := Image.mk.inj hm
      obtain ⟨rfl, rfl⟩ := hd.spare_unique hF (Ref.slot.inj hn)
      exact ⟨rfl, rfl⟩
  | @rejected E a F T comp hseek =>
    generalize hm : (⟨E, a ::ₘ F, T⟩ : Image σ) = m at h₂
    generalize hn : Ref.slot a.slot = n at h₂
    cases h₂ with
    | rejected hseek' =>
      obtain ⟨rfl, hF, rfl⟩ := Image.mk.inj hm
      obtain ⟨rfl, rfl⟩ := hd.spare_unique hF (Ref.slot.inj hn)
      exact ⟨rfl, rfl⟩
    | inserted hseek' =>
      obtain ⟨rfl, hF, rfl⟩ := Image.mk.inj hm
      obtain ⟨rfl, rfl⟩ := hd.spare_unique hF (Ref.slot.inj hn)
      rw [hseek] at hseek'
      cases hseek'
  | @inserted E a F T comp g k hseek =>
    generalize hm : (⟨E, a ::ₘ F, T⟩ : Image σ) = m at h₂
    generalize hn : Ref.slot a.slot = n at h₂
    cases h₂ with
    | rejected hseek' =>
      obtain ⟨rfl, hF, rfl⟩ := Image.mk.inj hm
      obtain ⟨rfl, rfl⟩ := hd.spare_unique hF (Ref.slot.inj hn)
      rw [hseek] at hseek'
      cases hseek'
    | inserted hseek' =>
      obtain ⟨rfl, hF, rfl⟩ := Image.mk.inj hm
      obtain ⟨rfl, rfl⟩ := hd.spare_unique hF (Ref.slot.inj hn)
      rw [hseek] at hseek'
      cases hseek'
      exact ⟨rfl, rfl⟩
  | @before E a e F c l r k =>
    generalize hm : (⟨E, a ::ₘ F, plug c (node e l r)⟩ : Image σ) = m at h₂
    generalize hn : Ref.slot a.slot = n at h₂
    generalize hs : Ref.slot e.slot = n' at h₂
    cases h₂ with
    | before =>
      obtain ⟨rfl, hF, hT⟩ := Image.mk.inj hm
      obtain ⟨rfl, rfl⟩ := hd.spare_unique hF (Ref.slot.inj hn)
      obtain ⟨rfl, rfl, rfl, rfl⟩ := hd.place_unique hT (Ref.slot.inj hs)
      exact ⟨rfl, rfl⟩
  | @after E a e F c l r k =>
    generalize hm : (⟨E, a ::ₘ F, plug c (node e l r)⟩ : Image σ) = m at h₂
    generalize hn : Ref.slot a.slot = n at h₂
    generalize hs : Ref.slot e.slot = n' at h₂
    cases h₂ with
    | after =>
      obtain ⟨rfl, hF, hT⟩ := Image.mk.inj hm
      obtain ⟨rfl, rfl⟩ := hd.spare_unique hF (Ref.slot.inj hn)
      obtain ⟨rfl, rfl, rfl, rfl⟩ := hd.place_unique hT (Ref.slot.inj hs)
      exact ⟨rfl, rfl⟩
  | @removed E F c a l r k =>
    generalize hm : (⟨E, F, plug c (node a l r)⟩ : Image σ) = m at h₂
    generalize hs : Ref.slot a.slot = n at h₂
    cases h₂ with
    | removed =>
      obtain ⟨rfl, rfl, hT⟩ := Image.mk.inj hm
      obtain ⟨rfl, rfl, rfl, rfl⟩ := hd.place_unique hT (Ref.slot.inj hs)
      exact ⟨rfl, rfl⟩
  | marked => cases h₂; exact ⟨rfl, rfl⟩
  | walked => cases h₂; exact ⟨rfl, rfl⟩
  | found => cases h₂; exact ⟨rfl, rfl⟩
  | reached => cases h₂; exact ⟨rfl, rfl⟩
  | next E F c e l r =>
    generalize hm : (⟨E, F, plug c (node e l r)⟩ : Image σ) = m at h₂
    generalize hs : Ref.slot e.slot = n at h₂
    cases h₂ with
    | next =>
      obtain ⟨rfl, rfl, hT⟩ := Image.mk.inj hm
      obtain ⟨rfl, rfl, rfl, rfl⟩ := hd.place_unique hT (Ref.slot.inj hs)
      exact ⟨rfl, rfl⟩
  | previous E F c e l r =>
    generalize hm : (⟨E, F, plug c (node e l r)⟩ : Image σ) = m at h₂
    generalize hs : Ref.slot e.slot = n at h₂
    cases h₂ with
    | previous =>
      obtain ⟨rfl, rfl, hT⟩ := Image.mk.inj hm
      obtain ⟨rfl, rfl, rfl, rfl⟩ := hd.place_unique hT (Ref.slot.inj hs)
      exact ⟨rfl, rfl⟩
  | isDirty => cases h₂; exact ⟨rfl, rfl⟩
  | counted => cases h₂; exact ⟨rfl, rfl⟩

/-! ### Operations -/

theorem Performs.determined {cb : Callbacks} {m m₁ m₂ : Image σ} {op : Op} {r₁ r₂ : Result}
    (hd : m.Distinct) (h₁ : Performs cb m op r₁ m₁) (h₂ : Performs cb m op r₂ m₂) :
    r₁ = r₂ ∧ m₁.still = m₂.still := by
  cases h₁ with
  | added hplace =>
    cases h₂ with
    | added hplace' =>
      rw [hplace] at hplace'
      cases hplace'
      exact ⟨rfl, rfl⟩
    | rejected hplace' =>
      rw [hplace] at hplace'
      cases hplace'
  | rejected hplace =>
    cases h₂ with
    | added hplace' =>
      rw [hplace] at hplace'
      cases hplace'
    | rejected => exact ⟨rfl, rfl⟩
  | @removed E F key c a l r k hfind =>
    generalize hm : (⟨E, F, plug c (node a l r)⟩ : Image σ) = m at h₂
    cases h₂ with
    | removed hfind' =>
      obtain ⟨rfl, rfl, hT⟩ := Image.mk.inj hm
      rw [hT, hfind'] at hfind
      obtain rfl := Option.some.inj hfind
      obtain ⟨rfl, -, rfl, rfl⟩ := hd.place_unique hT rfl
      exact ⟨rfl, rfl⟩
    | missing hfind' =>
      obtain ⟨rfl, rfl, rfl⟩ := Image.mk.inj hm
      rw [hfind'] at hfind
      cases hfind
  | @missing E F T key hfind =>
    generalize hm : (⟨E, F, T⟩ : Image σ) = m at h₂
    cases h₂ with
    | removed hfind' =>
      obtain ⟨rfl, rfl, rfl⟩ := Image.mk.inj hm
      rw [hfind'] at hfind
      cases hfind
    | missing =>
      obtain ⟨rfl, rfl, rfl⟩ := Image.mk.inj hm
      exact ⟨rfl, rfl⟩
  | @removedNode E F c a l r k =>
    generalize hm : (⟨E, F, plug c (node a l r)⟩ : Image σ) = m at h₂
    generalize hs : Ref.slot a.slot = n at h₂
    cases h₂ with
    | removedNode =>
      obtain ⟨rfl, rfl, hT⟩ := Image.mk.inj hm
      obtain ⟨rfl, rfl, rfl, rfl⟩ := hd.place_unique hT (Ref.slot.inj hs)
      exact ⟨rfl, rfl⟩
  | found => cases h₂; exact ⟨rfl, rfl⟩
  | reached => cases h₂; exact ⟨rfl, rfl⟩
  | isEmpty => cases h₂; exact ⟨rfl, rfl⟩
  | enumerated => cases h₂; exact ⟨rfl, rfl⟩

end MulleRbtree
