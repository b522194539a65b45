import MulleRbtree.Library.Runs

/-!
# Cursors in a list that changes

A cursor goes through a list while elements are put into the list and taken out of it.  It stands
before an element, the pending one, or at the end.

* `Edits`: what can happen to a list of distinct elements;
* `Cursor.Follows`: what an edit does to a cursor, as long as the pending element stays;
* `Cursor.Moves`: edits, and the steps in which the pending element is handed out;
* `Edits.exists_follows`: every edit that leaves the pending element alone can be followed;
* `Moves.handed`, `Run.handed`: whatever happens to the list, the elements that stay in it are
  handed out once each and in order;
* `Spares`, `Run.spares_iff`: the elements that stay are those that no call takes out;
* `Run.survivors`: they keep their order.
-/

namespace Program

variable {α : Type}

/-! ### Lists that change -/

/-- A change of a list. -/
inductive Edit (α : Type)
  | keep
  | insert (a : α)
  | erase (a : α)

/-- What becomes of a list. -/
inductive Edits : List α → Edit α → List α → Prop
  | keep (u : List α) : Edits u .keep u
  | insert {u v : List α} {a : α} (ha : a ∉ u ++ v) : Edits (u ++ v) (.insert a) (u ++ a :: v)
  | erase (u v : List α) (a : α) : Edits (u ++ a :: v) (.erase a) (u ++ v)

namespace Edits

variable {L L' : List α} {e : Edit α}

theorem reverse (h : Edits L e L') : Edits L.reverse e L'.reverse := by
  cases h with
  | keep => exact .keep _
  | @insert u v a ha =>
    rw [List.reverse_append, List.reverse_append, List.reverse_cons, List.append_assoc]
    refine .insert ?_
    rw [← List.reverse_append, List.mem_reverse]
    exact ha
  | erase u v a =>
    rw [List.reverse_append, List.reverse_append, List.reverse_cons, List.append_assoc]
    exact .erase v.reverse u.reverse a

/-- What is not taken out stays. -/
theorem mem (h : Edits L e L') {a : α} (ha : a ∈ L) (he : e ≠ .erase a) : a ∈ L' := by
  cases h with
  | keep => exact ha
  | insert =>
    rw [List.mem_append] at ha
    simp only [List.mem_append, List.mem_cons]
    tauto
  | erase u v b =>
    have hne : a ≠ b := fun hab => he (hab ▸ rfl)
    simp only [List.mem_append, List.mem_cons] at ha ⊢
    tauto

/-- What is there afterwards was there, or has been put in. -/
theorem mem_or (h : Edits L e L') {a : α} (ha : a ∈ L') : a ∈ L ∨ e = .insert a := by
  cases h with
  | keep => exact .inl ha
  | @insert u v b =>
    rw [List.mem_append, List.mem_cons] at ha
    rw [List.mem_append]
    rcases ha with ha | rfl | ha
    · exact .inl (.inl ha)
    · exact .inr rfl
    · exact .inl (.inr ha)
  | erase u v b =>
    simp only [List.mem_append, List.mem_cons] at ha ⊢
    tauto

/-- What neither comes nor goes keeps its order. -/
theorem filter_eq (h : Edits L e L') {p : α → Bool}
    (hp : ∀ a, p a = true → e ≠ .insert a ∧ e ≠ .erase a) : L'.filter p = L.filter p := by
  cases h with
  | keep => rfl
  | @insert u v a ha =>
    have hpa : ¬ p a = true := fun hpa => (hp a hpa).1 rfl
    rw [List.filter_append, List.filter_append, List.filter_cons_of_neg hpa]
  | erase u v a =>
    have hpa : ¬ p a = true := fun hpa => (hp a hpa).2 rfl
    rw [List.filter_append, List.filter_append, List.filter_cons_of_neg hpa]

/-- In a list of distinct elements there is one way to take one out. -/
theorem erase_eq {u v : List α} {a : α} (h : Edits (u ++ a :: v) (.erase a) L')
    (hn : (u ++ a :: v).Nodup) : L' = u ++ v := by
  classical
  have herase : ∀ x y : List α, (x ++ a :: y).Nodup → (x ++ a :: y).erase a = x ++ y := by
    intro x y hxy
    have hx : a ∉ x := fun hx =>
      (List.nodup_cons.1 (List.nodup_middle.1 hxy)).1 (List.mem_append_left _ hx)
    rw [List.erase_append_right _ hx, List.erase_cons_head]
  generalize hL : u ++ a :: v = L at h
  cases h with
  | erase u' v' => rw [← herase u' v' (hL ▸ hn), ← hL, herase u v hn]

end Edits

/-! ### Cursors -/

/-- The elements behind a cursor and the elements ahead of it. -/
structure Cursor (α : Type) where
  behind : List α
  ahead : List α

namespace Cursor

/-- The list that the cursor is in. -/
def list (m : Cursor α) : List α := m.behind ++ m.ahead

/-- The element that is handed out next. -/
def pending (m : Cursor α) : Option α := m.ahead.head?

/-- An edit that leaves the pending element where it is. -/
inductive Follows : Cursor α → Edit α → Cursor α → Prop
  | keep (m : Cursor α) : Follows m .keep m
  | insertBehind {u v w : List α} {a : α} (ha : a ∉ u ++ v ++ w) :
      Follows ⟨u ++ v, w⟩ (.insert a) ⟨u ++ a :: v, w⟩
  | insertAhead {u v w : List α} {a b : α} (ha : a ∉ u ++ b :: (v ++ w)) :
      Follows ⟨u, b :: (v ++ w)⟩ (.insert a) ⟨u, b :: (v ++ a :: w)⟩
  | eraseBehind (u v w : List α) (a : α) : Follows ⟨u ++ a :: v, w⟩ (.erase a) ⟨u ++ v, w⟩
  | eraseAhead (u v w : List α) (a b : α) :
      Follows ⟨u, b :: (v ++ a :: w)⟩ (.erase a) ⟨u, b :: (v ++ w)⟩

/-- What happens to a cursor. -/
inductive Motion (α : Type)
  | edit (e : Edit α)
  | next

/-- Edits, and steps of the cursor with what they hand out. -/
inductive Moves : Cursor α → Motion α → Option α → Cursor α → Prop
  | edit {m m' : Cursor α} {e : Edit α} : Follows m e m' → Moves m (.edit e) none m'
  | next (u v : List α) (a : α) : Moves ⟨u, a :: v⟩ .next (some a) ⟨u ++ [a], v⟩
  | exhausted (u : List α) : Moves ⟨u, []⟩ .next none ⟨u, []⟩

variable {m m' : Cursor α} {e : Edit α}

theorem Follows.edits (h : Follows m e m') : Edits m.list e m'.list := by
  cases h with
  | keep => exact .keep _
  | @insertBehind u v w a ha =>
    have hedit := Edits.insert (u := u) (v := v ++ w) (a := a) (by simpa using ha)
    simpa [list] using hedit
  | @insertAhead u v w a b ha =>
    have hedit := Edits.insert (u := u ++ b :: v) (v := w) (a := a) (by simpa using ha)
    simpa [list] using hedit
  | eraseBehind u v w a => simpa [list] using Edits.erase u (v ++ w) a
  | eraseAhead u v w a b => simpa [list] using Edits.erase (u ++ b :: v) w a

theorem Follows.pending_eq (h : Follows m e m') : m'.pending = m.pending := by
  cases h <;> rfl

end Cursor

open Cursor

/-- Two ways to cut a list. -/
theorem append_eq_or {u v u' v' : List α} (h : u ++ v = u' ++ v') :
    (∃ w, u = u' ++ w ∧ v' = w ++ v) ∨ ∃ b w, u' = u ++ b :: w ∧ v = b :: (w ++ v') := by
  rcases List.append_eq_append_iff.1 h with ⟨w, rfl, rfl⟩ | ⟨w, rfl, rfl⟩
  · cases w with
    | nil => exact .inl ⟨[], by simp, rfl⟩
    | cons b w => exact .inr ⟨b, w, rfl, rfl⟩
  · exact .inl ⟨w, rfl, rfl⟩

/-- An edit that does not take out the pending element can be followed. -/
theorem Edits.exists_follows {m : Cursor α} {e : Edit α} {L : List α} (h : Edits m.list e L)
    (he : ∀ a, e = .erase a → m.pending ≠ some a) :
    ∃ m', m.Follows e m' ∧ m'.list = L := by
  obtain ⟨u₀, v₀⟩ := m
  generalize hL : (Cursor.mk u₀ v₀).list = L₀ at h
  have hL : u₀ ++ v₀ = L₀ := hL
  cases h with
  | keep => exact ⟨_, .keep _, hL⟩
  | @insert u v a ha =>
    rcases append_eq_or hL with ⟨w, rfl, rfl⟩ | ⟨b, w, rfl, rfl⟩
    · exact ⟨_, .insertBehind (by simpa using ha), by simp [list]⟩
    · exact ⟨_, .insertAhead (by simpa using ha), by simp [list]⟩
  | erase u v a =>
    rcases append_eq_or hL with ⟨w, rfl, hw⟩ | ⟨b, w, rfl, rfl⟩
    · cases w with
      | nil =>
        obtain rfl : v₀ = a :: v := hw.symm
        exact absurd rfl (he a rfl)
      | cons b w =>
        obtain ⟨rfl, rfl⟩ := List.cons.inj hw
        exact ⟨_, .eraseBehind u w v₀ a, by simp [list]⟩
    · exact ⟨_, .eraseAhead u₀ w v a b, by simp [list]⟩

section Filter

variable {m m' : Cursor α} {p : α → Bool}

/-- What neither comes nor goes is handed out, or still lies ahead. -/
theorem Cursor.Moves.handed {c : Motion α} {r : Option α} (h : Moves m c r m')
    (hp : ∀ a, p a = true → c ≠ .edit (.insert a) ∧ c ≠ .edit (.erase a)) :
    r.toList.filter p ++ m'.ahead.filter p = m.ahead.filter p := by
  cases h with
  | edit hf =>
    cases hf with
    | keep => rfl
    | insertBehind => rfl
    | @insertAhead u v w a b ha =>
      have hpa : ¬ p a = true := fun hpa => (hp a hpa).1 rfl
      simp [List.filter_cons, hpa]
    | eraseBehind => rfl
    | eraseAhead u v w a b =>
      have hpa : ¬ p a = true := fun hpa => (hp a hpa).2 rfl
      simp [List.filter_cons, hpa]
  | next u v a => exact (List.filter_append [a] v).symm
  | exhausted => rfl

end Filter

/-! ### Runs -/

namespace Interface

variable {σ ε C A : Type} {S : Interface σ ε C A}

/-- Where every call moves a cursor, the elements that are there all the time are handed out in
order.  `here` tells which elements are there, and `out` what an answer hands out. -/
theorem Run.handed {Rep : σ → Cursor α → Prop} {here : σ → α → Prop} {out : A → Option α}
    (hstep : ∀ c s m, Rep s m → S.Pre c s → Ensures (S.exec c) s fun r s' =>
      ∃ k m', m.Moves k (out r) m' ∧ Rep s' m' ∧ (∀ a, k = .edit (.insert a) → ¬ here s a) ∧
        ∀ a, k = .edit (.erase a) → ¬ here s' a)
    {p : α → Bool} {s t : σ} {m : Cursor α} {h : List (C × A)} (hrun : S.Run s h t) (hs : Rep s m)
    (hp : ∀ a, p a = true → ∀ x ∈ S.states s (h.map Prod.fst), here x a) :
    ∃ m', Rep t m' ∧ (h.filterMap fun q => out q.2).filter p ++ m'.ahead.filter p =
      m.ahead.filter p := by
  induction hrun generalizing m with
  | nil => exact ⟨m, hs, rfl⟩
  | @cons s s' t c r h hpre he _ ih =>
    obtain ⟨k, m', hmove, hs', hcomes, hgoes⟩ := (hstep c s m hs hpre).elim he
    rw [List.map_cons, S.states_cons he] at hp
    obtain ⟨m'', ht, hrest⟩ := ih hs' fun a ha x hx => hp a ha x (List.mem_cons_of_mem _ hx)
    refine ⟨m'', ht, ?_⟩
    have hhead := hmove.handed fun a ha =>
      ⟨fun hk => hcomes a hk (hp a ha s List.mem_cons_self),
        fun hk => hgoes a hk (hp a ha s' (List.mem_cons_of_mem _ (S.mem_states s' _)))⟩
    have hout : ((c, r) :: h).filterMap (fun q => out q.2) =
        (out r).toList ++ h.filterMap fun q => out q.2 := by
      cases hr : out r <;> simp [hr]
    rw [hout, List.filter_append, List.append_assoc, hrest, hhead]

variable (S) in
/-- None of the calls takes the element out. -/
def Spares (takes : C → σ → α → Prop) (s : σ) (cs : List C) (a : α) : Prop :=
  ∀ q ∈ (S.states s cs).zip cs, ¬ takes q.2 q.1 a

theorem spares_nil {takes : C → σ → α → Prop} {s : σ} {a : α} : S.Spares takes s [] a := by
  intro q hq
  rw [List.zip_nil_right] at hq
  cases hq

theorem spares_cons {takes : C → σ → α → Prop} {s s' : σ} {c : C} {r : A} {cs : List C} {a : α}
    (he : S.exec c s = .ok (r, s')) :
    S.Spares takes s (c :: cs) a ↔ ¬ takes c s a ∧ S.Spares takes s' cs a := by
  unfold Spares
  rw [S.states_cons he, List.zip_cons_cons]
  exact List.forall_mem_cons

/-- Where the calls take out just the elements that are gone afterwards, the elements that the calls
of a run spare are those that are there all the time. -/
theorem Run.spares_iff {I : σ → Prop} {here : σ → α → Prop} {takes : C → σ → α → Prop}
    (hstep : ∀ c s, I s → S.Pre c s → Ensures (S.exec c) s fun _ s' =>
      I s' ∧ ∀ a, here s a → (¬ takes c s a ↔ here s' a))
    {s t : σ} {h : List (C × A)} (hrun : S.Run s h t) (hs : I s) {a : α} (ha : here s a) :
    S.Spares takes s (h.map Prod.fst) a ↔ ∀ x ∈ S.states s (h.map Prod.fst), here x a := by
  induction hrun with
  | nil s =>
    refine iff_of_true spares_nil fun x hx => ?_
    rw [List.mem_singleton.1 hx]
    exact ha
  | @cons s s' t c r h hpre he _ ih =>
    obtain ⟨hs', hhere⟩ := (hstep c s hs hpre).elim he
    rw [List.map_cons, spares_cons he, S.states_cons he, List.forall_mem_cons]
    constructor
    · rintro ⟨hc, hrest⟩
      exact ⟨ha, (ih hs' ((hhere a ha).1 hc)).1 hrest⟩
    · rintro ⟨-, hrest⟩
      have ha' : here s' a := hrest s' (S.mem_states s' _)
      exact ⟨(hhere a ha).2 ha', (ih hs' ha').2 hrest⟩

/-- Where every call edits a list, the elements that are there all the time keep their order. -/
theorem Run.survivors {Rep : σ → List α → Prop} {here : σ → α → Prop}
    (hstep : ∀ c s L, Rep s L → S.Pre c s → Ensures (S.exec c) s fun _ s' =>
      ∃ e L', Edits L e L' ∧ Rep s' L' ∧ (∀ a, e = .insert a → ¬ here s a) ∧
        ∀ a, e = .erase a → ¬ here s' a)
    {p : α → Bool} {s t : σ} {L : List α} {h : List (C × A)} (hrun : S.Run s h t) (hs : Rep s L)
    (hp : ∀ a, p a = true → ∀ x ∈ S.states s (h.map Prod.fst), here x a) :
    ∃ L', Rep t L' ∧ L'.filter p = L.filter p := by
  induction hrun generalizing L with
  | nil => exact ⟨L, hs, rfl⟩
  | @cons s s' t c r h hpre he _ ih =>
    obtain ⟨e, L', hedits, hs', hcomes, hgoes⟩ := (hstep c s L hs hpre).elim he
    rw [List.map_cons, S.states_cons he] at hp
    obtain ⟨L'', ht, hrest⟩ := ih hs' fun a ha x hx => hp a ha x (List.mem_cons_of_mem _ hx)
    refine ⟨L'', ht, hrest.trans (hedits.filter_eq fun a ha => ⟨fun hk => ?_, fun hk => ?_⟩)⟩
    · exact hcomes a hk (hp a ha s List.mem_cons_self)
    · exact hgoes a hk (hp a ha s' (List.mem_cons_of_mem _ (S.mem_states s' _)))

end Interface
end Program
