import Mathlib.Tactic
import Mathlib.Data.Multiset.AddSub

/-!
# Custody of tokens along a trace

A custodian takes tokens, gives them back, and uses those it has.  Equal tokens may be taken more
than once; each time counts.

* `Move`: what an event of the trace does;
* `Keeps move P es Q`: the events `es` lead from the custody of `P` to that of `Q`, and every use is
  of tokens in custody at that time;
* `Keeps.balance`: what has been taken has been given back or is in custody;
* `Keeps.cut`, `Keeps.held`: at every event of the trace.
-/

namespace Custody

variable {ε α : Type}

/-- What an event does with tokens. -/
inductive Move (α : Type)
  | take (a : α)
  | give (a : α)
  | use (u : List α)

namespace Move

/-- The token that is taken. -/
def taken? : Move α → Option α
  | take a => some a
  | _ => none

/-- The token that is given back. -/
def given? : Move α → Option α
  | give a => some a
  | _ => none

/-- The tokens that are used. -/
def used : Move α → List α
  | use u => u
  | _ => []

end Move

variable {move : ε → Move α}

/-- The tokens taken in a trace. -/
def taken (move : ε → Move α) (es : List ε) : Multiset α := es.filterMap fun e => (move e).taken?

/-- The tokens given back in a trace. -/
def given (move : ε → Move α) (es : List ε) : Multiset α := es.filterMap fun e => (move e).given?

@[simp] theorem taken_nil : taken move [] = 0 := rfl
@[simp] theorem given_nil : given move [] = 0 := rfl

@[simp] theorem taken_append (u v : List ε) : taken move (u ++ v) = taken move u + taken move v := by
  simp [taken]

@[simp] theorem given_append (u v : List ε) : given move (u ++ v) = given move u + given move v := by
  simp [given]

theorem taken_cons (e : ε) (es : List ε) : taken move (e :: es) = taken move [e] + taken move es :=
  taken_append [e] es

theorem given_cons (e : ε) (es : List ε) : given move (e :: es) = given move [e] + given move es :=
  given_append [e] es

/-- Events that only use. -/
theorem taken_of_uses {es : List ε} (h : ∀ e ∈ es, ∃ u, move e = .use u) : taken move es = 0 := by
  rw [taken, Multiset.coe_eq_zero, List.filterMap_eq_nil_iff]
  intro e he
  obtain ⟨u, hu⟩ := h e he
  rw [hu]
  rfl

/-- The events lead from the custody of `P` to that of `Q`, and what is used is in custody. -/
inductive Keeps (move : ε → Move α) : Multiset α → List ε → Multiset α → Prop
  | nil (P : Multiset α) : Keeps move P [] P
  | take {e : ε} {a : α} {P Q : Multiset α} {es : List ε} : move e = .take a →
      Keeps move (a ::ₘ P) es Q → Keeps move P (e :: es) Q
  | give {e : ε} {a : α} {P Q : Multiset α} {es : List ε} : move e = .give a →
      Keeps move P es Q → Keeps move (a ::ₘ P) (e :: es) Q
  | use {e : ε} {u : List α} {P Q : Multiset α} {es : List ε} : move e = .use u →
      (∀ a ∈ u, a ∈ P) → Keeps move P es Q → Keeps move P (e :: es) Q

namespace Keeps

variable {P Q R : Multiset α} {es u v : List ε} {e : ε}

theorem append (h₁ : Keeps move P u Q) (h₂ : Keeps move Q v R) : Keeps move P (u ++ v) R := by
  induction h₁ with
  | nil P => exact h₂
  | take he _ ih => exact .take he (ih h₂)
  | give he _ ih => exact .give he (ih h₂)
  | use he hu _ ih => exact .use he hu (ih h₂)

theorem of_uses (h : ∀ e ∈ es, ∃ u, move e = .use u ∧ ∀ a ∈ u, a ∈ P) : Keeps move P es P := by
  induction es with
  | nil => exact .nil P
  | cons e es ih =>
    rw [List.forall_mem_cons] at h
    obtain ⟨⟨u, he, hu⟩, hes⟩ := h
    exact .use he hu (ih hes)

theorem balance (h : Keeps move P es Q) : P + taken move es = given move es + Q := by
  induction h with
  | nil P => simp
  | @take e a P Q es he _ ih =>
    have htaken : taken move [e] = {a} := by simp [taken, he, Move.taken?]
    have hgiven : given move [e] = 0 := by simp [given, he, Move.given?]
    rw [taken_cons, given_cons, htaken, hgiven, zero_add, ← ih, ← Multiset.singleton_add]
    abel
  | @give e a P Q es he _ ih =>
    have htaken : taken move [e] = 0 := by simp [taken, he, Move.taken?]
    have hgiven : given move [e] = {a} := by simp [given, he, Move.given?]
    rw [taken_cons, given_cons, htaken, hgiven, zero_add, ← Multiset.singleton_add, add_assoc, ih,
      add_assoc]
  | @use e u P Q es he hu _ ih =>
    have htaken : taken move [e] = 0 := by simp [taken, he, Move.taken?]
    have hgiven : given move [e] = 0 := by simp [given, he, Move.given?]
    rw [taken_cons, given_cons, htaken, hgiven, zero_add, zero_add, ih]

/-- What is in custody at a point of the trace. -/
theorem cut (h : Keeps move P (u ++ v) Q) : ∃ R, Keeps move P u R ∧ Keeps move R v Q := by
  induction u generalizing P with
  | nil => exact ⟨P, .nil P, h⟩
  | cons e u ih =>
    cases h with
    | take he h =>
      obtain ⟨R, h₁, h₂⟩ := ih h
      exact ⟨R, .take he h₁, h₂⟩
    | give he h =>
      obtain ⟨R, h₁, h₂⟩ := ih h
      exact ⟨R, .give he h₁, h₂⟩
    | use he hu h =>
      obtain ⟨R, h₁, h₂⟩ := ih h
      exact ⟨R, .use he hu h₁, h₂⟩

/-- What is used is in custody, and stays there over the use. -/
theorem held (h : Keeps move P (u ++ e :: v) Q) {a : α} (ha : a ∈ (move e).used) :
    ∃ R, a ∈ R ∧ Keeps move P u R ∧ Keeps move R v Q := by
  obtain ⟨R, h₁, h₂⟩ := h.cut
  cases h₂ with
  | take he h => simp [he, Move.used] at ha
  | give he h => simp [he, Move.used] at ha
  | use he hu h =>
    rw [he] at ha
    exact ⟨R, hu a ha, h₁, h⟩

end Keeps
end Custody
