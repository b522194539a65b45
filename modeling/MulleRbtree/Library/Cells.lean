import Mathlib.Tactic
import Mathlib.Data.Multiset.Basic
import Mathlib.Algebra.Order.Group.Multiset

/-!
# Memories described by their cells

A memory is a partial function from addresses to contents.  `Owns m H` says that the multiset `H`
of cells (an address with its content) is the whole of the memory `m`, no address twice.  Cells
commute, so a data structure laid out in memory is a sum of cells and a change of one cell leaves
the other summands alone: no separate argument about distinct addresses is needed.

* `Owns.read`, `Owns.write`, `Owns.alloc`, `Owns.free`: what the four accesses do to `H`;
* `Owns.ne`: two cells of the sum have two addresses;
* `Owns.unique`, `Owns.agree`: `H` determines the memory;
* `Owns.map`: a change of all cells.
-/

namespace Cells

variable {A C : Type}

theorem mem_front {p : A × C} {R : Multiset (A × C)} : p ∈ ({p} + R : Multiset (A × C)) :=
  Multiset.mem_add.2 (.inl (Multiset.mem_singleton_self p))

/-- `H` is exactly the set of cells of the memory `m`. -/
def Owns (m : A → Option C) (H : Multiset (A × C)) : Prop :=
  (H.map Prod.fst).Nodup ∧ ∀ a c, m a = some c ↔ (a, c) ∈ H

variable {m : A → Option C} {H R : Multiset (A × C)} {a b : A} {c d : C}

theorem Owns.read (h : Owns m H) (ha : (a, c) ∈ H) : m a = some c := (h.2 a c).2 ha

/-- The address of one summand does not occur in the rest. -/
theorem Owns.notMem (h : Owns m ({(a, c)} + R)) : a ∉ R.map Prod.fst := by
  have hn := h.1
  rw [Multiset.singleton_add, Multiset.map_cons, Multiset.nodup_cons] at hn
  exact hn.1

theorem Owns.ne (h : Owns m ({(a, c)} + R)) (hb : (b, d) ∈ R) : a ≠ b := by
  rintro rfl
  exact h.notMem (Multiset.mem_map.2 ⟨_, hb, rfl⟩)

/-- The cells determine the memory. -/
theorem Owns.unique {m' : A → Option C} (h : Owns m H) (h' : Owns m' H) : m = m' := by
  funext x
  refine Option.ext fun e => ?_
  simpa [Option.mem_def] using (h.2 x e).trans (h'.2 x e).symm

/-- An address is in use exactly when it is the address of a cell. -/
theorem Owns.isSome_iff (h : Owns m H) : (m a).isSome ↔ a ∈ H.map Prod.fst := by
  rw [Option.isSome_iff_exists, Multiset.mem_map]
  constructor
  · rintro ⟨c, hc⟩
    exact ⟨(a, c), (h.2 a c).1 hc, rfl⟩
  · rintro ⟨⟨a', c⟩, hc, rfl⟩
    exact ⟨c, h.read hc⟩

/-- Memories that differ in one cell agree elsewhere. -/
theorem Owns.agree {m' : A → Option C} (h : Owns m ({(a, c)} + R)) (h' : Owns m' ({(a, d)} + R))
    {x : A} (hx : x ≠ a) : m x = m' x := by
  refine Option.ext fun e => ?_
  rw [h.2, h'.2]
  simp [hx]

/-- The same change of every cell. -/
theorem Owns.map (h : Owns m H) (f : C → C) :
    Owns (fun a => (m a).map f) (H.map fun p => (p.1, f p.2)) := by
  refine ⟨?_, fun x e => ?_⟩
  · rw [Multiset.map_map]
    exact h.1
  · rw [Option.map_eq_some_iff, Multiset.mem_map]
    constructor
    · rintro ⟨c, hc, rfl⟩
      exact ⟨(x, c), (h.2 x c).1 hc, rfl⟩
    · rintro ⟨⟨y, c⟩, hc, he⟩
      obtain ⟨rfl, rfl⟩ := Prod.mk.inj he
      exact ⟨c, h.read hc, rfl⟩

variable [DecidableEq A]

theorem Owns.write (h : Owns m ({(a, c)} + R)) (d : C) :
    Owns (Function.update m a (some d)) ({(a, d)} + R) := by
  have hnot := h.notMem
  refine ⟨by simpa using h.1, fun x e => ?_⟩
  by_cases hx : x = a
  · subst hx
    have hR : (x, e) ∉ R := fun he => hnot (Multiset.mem_map.2 ⟨_, he, rfl⟩)
    simp [hR, eq_comm]
  · rw [Function.update_of_ne hx, h.2]
    simp [hx]

theorem Owns.alloc (h : Owns m R) (ha : m a = none) (c : C) :
    Owns (Function.update m a (some c)) ({(a, c)} + R) := by
  have hnot : a ∉ R.map Prod.fst := by
    intro hmem
    obtain ⟨⟨a', d⟩, hd, rfl⟩ := Multiset.mem_map.1 hmem
    rw [h.read hd] at ha
    cases ha
  refine ⟨by simpa using ⟨by simpa using hnot, h.1⟩, fun x e => ?_⟩
  by_cases hx : x = a
  · subst hx
    have hR : (x, e) ∉ R := fun he => hnot (Multiset.mem_map.2 ⟨_, he, rfl⟩)
    simp [hR, eq_comm]
  · rw [Function.update_of_ne hx, h.2]
    simp [hx]

theorem Owns.free (h : Owns m ({(a, c)} + R)) : Owns (Function.update m a none) R := by
  have hnot := h.notMem
  refine ⟨Multiset.nodup_of_le (Multiset.map_le_map (Multiset.le_add_left R _)) h.1,
    fun x e => ?_⟩
  by_cases hx : x = a
  · subst hx
    have hR : (x, e) ∉ R := fun he => hnot (Multiset.mem_map.2 ⟨_, he, rfl⟩)
    simp [hR]
  · rw [Function.update_of_ne hx, h.2]
    simp [hx]

end Cells
