import MulleRbtree.Library.Search

/-!
# Comparisons

* `PreorderOn comp D`: on the domain `D` the comparison is that of a total preorder;
* `Ascending comp u`: the list `u` is sorted;
* `Ascending.cut`: a key cuts a sorted list in two, so a search finds its way;
* `Ascending.insert`: where an element goes;
* `pairwise_replace`: when another element may take the place of one.
-/

namespace BinaryTree

variable {α β : Type} {comp : α → α → ℤ} {D : Set α}

/-- A consistent total preorder on `D`. -/
structure PreorderOn (comp : α → α → ℤ) (D : Set α) : Prop where
  lt_iff : ∀ a ∈ D, ∀ b ∈ D, comp a b < 0 ↔ 0 < comp b a
  trans : ∀ a ∈ D, ∀ b ∈ D, ∀ c ∈ D, comp a b ≤ 0 → comp b c ≤ 0 → comp a c ≤ 0

namespace PreorderOn

variable (h : PreorderOn comp D) {a b c : α} (ha : a ∈ D) (hb : b ∈ D) (hc : c ∈ D)

include h ha hb

theorem le_iff : comp a b ≤ 0 ↔ 0 ≤ comp b a := by
  have h₁ := h.lt_iff b hb a ha
  omega

theorem eq_iff : comp a b = 0 ↔ comp b a = 0 := by
  have h₁ := h.lt_iff a ha b hb
  have h₂ := h.lt_iff b hb a ha
  omega

include hc

theorem lt_of_le_of_lt (hab : comp a b ≤ 0) (hbc : comp b c < 0) : comp a c < 0 := by
  by_contra hac
  have hca : comp c a ≤ 0 := (h.le_iff hc ha).2 (by omega)
  have hcb : comp c b ≤ 0 := h.trans c hc a ha b hb hca hab
  have := (h.le_iff hc hb).1 hcb
  omega

/-- Equal elements compare alike. -/
theorem congr (hab : comp a b = 0) :
    (comp a c < 0 ↔ comp b c < 0) ∧ (comp a c = 0 ↔ comp b c = 0) := by
  have hba : comp b a = 0 := (h.eq_iff ha hb).1 hab
  have h₁ : comp a c ≤ 0 ↔ comp b c ≤ 0 :=
    ⟨fun h' => h.trans b hb a ha c hc hba.le h', fun h' => h.trans a ha b hb c hc hab.le h'⟩
  have h₂ : comp a c < 0 ↔ comp b c < 0 :=
    ⟨fun h' => h.lt_of_le_of_lt hb ha hc hba.le h', fun h' => h.lt_of_le_of_lt ha hb hc hab.le h'⟩
  omega

end PreorderOn

/-- Sorted. -/
def Ascending (comp : α → α → ℤ) (u : List α) : Prop := u.Pairwise fun a b => comp a b ≤ 0

theorem Ascending.cut (h : PreorderOn comp D) {u : List α} (hu : Ascending comp u)
    (hD : ∀ a ∈ u, a ∈ D) {key : α} (hk : key ∈ D) : Cut (comp key) u := by
  refine List.Pairwise.imp_of_mem (fun {a b} ha hb hab => ⟨fun h₁ => ?_, fun h₁ => ?_⟩) hu
  · exact (h.le_iff (hD a ha) hk).1 (h.trans a (hD a ha) b (hD b hb) key hk hab
      ((h.le_iff (hD b hb) hk).2 h₁))
  · exact (h.lt_iff a (hD a ha) key hk).1 (h.lt_of_le_of_lt (hD a ha) (hD b hb) hk hab
      ((h.lt_iff b (hD b hb) key hk).2 h₁))

/-- An element between those that are not greater and those that are not less. -/
theorem Ascending.insert {u v : List α} {a : α} (h : Ascending comp (u ++ v))
    (hu : ∀ b ∈ u, comp b a ≤ 0) (hv : ∀ b ∈ v, comp a b ≤ 0) :
    Ascending comp (u ++ a :: v) := by
  obtain ⟨h₁, h₂, h₃⟩ := List.pairwise_append.1 h
  refine List.pairwise_append.2 ⟨h₁, List.pairwise_cons.2 ⟨hv, h₂⟩, fun b hb c hc => ?_⟩
  rcases List.mem_cons.1 hc with rfl | hc
  · exact hu b hb
  · exact h₃ b hb c hc

/-- Another element may take a place in a sequence if it goes with the two neighbours. -/
theorem pairwise_replace {R : α → α → Prop}
    (htrans : ∀ a ∈ D, ∀ b ∈ D, ∀ c ∈ D, R a b → R b c → R a c) {u v : List α} {a p : α}
    (hD : ∀ b ∈ u ++ v, b ∈ D) (hp : p ∈ D) (h : (u ++ a :: v).Pairwise R) :
    (u ++ p :: v).Pairwise R ↔ (∀ b ∈ u.getLast?, R b p) ∧ ∀ b ∈ v.head?, R p b := by
  obtain ⟨hu, hav, huv⟩ := List.pairwise_append.1 h
  obtain ⟨-, hv⟩ := List.pairwise_cons.1 hav
  constructor
  · intro h'
    obtain ⟨-, hpv, hup⟩ := List.pairwise_append.1 h'
    constructor
    · intro b hb
      exact hup b (List.mem_of_getLast? hb) p List.mem_cons_self
    · intro b hb
      exact (List.pairwise_cons.1 hpv).1 b (List.mem_of_head? hb)
  · rintro ⟨hlast, hhead⟩
    have hup : ∀ b ∈ u, R b p := by
      intro b hb
      rcases List.eq_nil_or_concat' u with rfl | ⟨u', l, rfl⟩
      · cases hb
      · have hl : R l p := hlast l (by simp)
        rcases List.mem_append.1 hb with hb' | hb'
        · have hbl : R b l := (List.pairwise_append.1 hu).2.2 b hb' l (by simp)
          exact htrans b (hD b (by simp [hb'])) l (hD l (by simp)) p hp hbl hl
        · rwa [List.mem_singleton.1 hb']
    have hpv : ∀ b ∈ v, R p b := by
      intro b hb
      cases v with
      | nil => cases hb
      | cons r v' =>
        have hr : R p r := hhead r rfl
        rcases List.mem_cons.1 hb with rfl | hb'
        · exact hr
        · have hrb : R r b := (List.pairwise_cons.1 hv).1 b hb'
          exact htrans p hp r (hD r (by simp)) b (hD b (by simp [hb'])) hr hrb
    refine List.pairwise_append.2 ⟨hu, List.pairwise_cons.2 ⟨hpv, hv⟩, fun b hb c hc => ?_⟩
    rcases List.mem_cons.1 hc with rfl | hc
    · exact hup b hb
    · exact huv b hb c (List.mem_cons_of_mem _ hc)

/-- A list falls apart into the elements with a property and those without in one way at most. -/
theorem split_unique {P : α → Prop} {u v u' v' : List α} (h : u ++ v = u' ++ v')
    (hu : ∀ a ∈ u, P a) (hv : ∀ a ∈ v, ¬ P a) (hu' : ∀ a ∈ u', P a) (hv' : ∀ a ∈ v', ¬ P a) :
    u = u' := by
  classical
  have hfilter : ∀ {x y : List α}, (∀ a ∈ x, P a) → (∀ a ∈ y, ¬ P a) →
      (x ++ y).filter (fun a => decide (P a)) = x := by
    intro x y hx hy
    rw [List.filter_append, List.filter_eq_self.2 (by simpa using hx),
      List.filter_eq_nil_iff.2 (by simpa using hy), List.append_nil]
  rw [← hfilter hu hv, h, hfilter hu' hv']

end BinaryTree
