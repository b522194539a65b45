import MulleRbtree.Library.Preorder

/-!
# Stable sorting

* `stableSort comp L`: the list `L`, sorted;
* `Ascending.ext`: a sorted list is determined by the order of equal elements in it;
* `ascending_stableSort`, `filter_stableSort`: sorting keeps equal elements in their order;
* `Ascending.eq_stableSort`: every procedure that does so computes the same list.
-/

namespace BinaryTree

variable {α : Type} {comp : α → α → ℤ} {D : Set α}

/-- The list, sorted; equal elements stay in their order. -/
def stableSort (comp : α → α → ℤ) (L : List α) : List α := L.mergeSort fun a b => comp a b ≤ 0

theorem perm_stableSort (comp : α → α → ℤ) (L : List α) : (stableSort comp L).Perm L :=
  List.mergeSort_perm L _

theorem PreorderOn.self (h : PreorderOn comp D) {a : α} (ha : a ∈ D) : comp a a = 0 := by
  have := h.lt_iff a ha a ha
  omega

/-- Sorted lists are equal if their equal elements stand in the same order. -/
theorem Ascending.ext (hp : PreorderOn comp D) {u v : List α} (hu : Ascending comp u)
    (hv : Ascending comp v) (huD : ∀ a ∈ u, a ∈ D) (hvD : ∀ a ∈ v, a ∈ D)
    (h : ∀ w ∈ D, u.filter (fun a => comp w a = 0) = v.filter fun a => comp w a = 0) : u = v := by
  have hmem : ∀ {x y : List α}, (∀ w ∈ D, x.filter (fun a => comp w a = 0) =
      y.filter fun a => comp w a = 0) → ∀ a ∈ x, a ∈ D → a ∈ y := by
    intro x y hxy a hax ha
    have hin : a ∈ x.filter fun b => comp a b = 0 := by simp [hax, hp.self ha]
    rw [hxy a ha] at hin
    exact (List.mem_filter.1 hin).1
  induction u generalizing v with
  | nil =>
    cases v with
    | nil => rfl
    | cons b v =>
      have hb : b ∈ [] := hmem (fun w hw => (h w hw).symm) b (by simp) (hvD b (by simp))
      cases hb
  | cons a u ih =>
    have ha : a ∈ D := huD a (by simp)
    have hav : a ∈ v := hmem h a (by simp) ha
    cases v with
    | nil => cases hav
    | cons b v =>
      have hb : b ∈ D := hvD b (by simp)
      have hbu : b ∈ a :: u := hmem (fun w hw => (h w hw).symm) b (by simp) hb
      -- each of the two heads stands in the other list, so neither is greater
      have hba : comp b a ≤ 0 := by
        rcases List.mem_cons.1 hav with rfl | hav
        · exact (hp.self ha).le
        · exact List.rel_of_pairwise_cons hv hav
      have hab : comp a b ≤ 0 := by
        rcases List.mem_cons.1 hbu with rfl | hbu
        · exact (hp.self hb).le
        · exact List.rel_of_pairwise_cons hu hbu
      have heq : comp a b = 0 := le_antisymm hab ((hp.le_iff hb ha).1 hba)
      have hfilter := h a ha
      simp only [List.filter_cons, hp.self ha, heq, decide_true, if_true] at hfilter
      obtain ⟨rfl, -⟩ := List.cons.inj hfilter
      refine congrArg _ (ih hu.of_cons hv.of_cons (fun x hx => huD x (by simp [hx]))
        (fun x hx => hvD x (by simp [hx])) fun w hw => ?_)
      have hw' := h w hw
      rw [List.filter_cons, List.filter_cons] at hw'
      split_ifs at hw' with hwa
      · exact (List.cons.inj hw').2
      · exact hw'

/-- Sorting keeps the order of elements that are equal. -/
theorem filter_mergeSort {le : α → α → Bool} (trans : ∀ a b c, le a b → le b c → le a c)
    (total : ∀ a b, le a b || le b a) {p : α → Bool} {L : List α}
    (hp : ∀ a b, p a = true → p b = true → le a b = true) :
    (L.mergeSort le).filter p = L.filter p := by
  have hsorted : (L.filter p).Pairwise fun a b => le a b := by
    exact List.pairwise_filter.2 (List.pairwise_of_forall fun a b ha hb => hp a b ha hb)
  have hsub := (List.sublist_mergeSort trans total hsorted List.filter_sublist).filter p
  rw [List.filter_filter] at hsub
  simp only [Bool.and_self] at hsub
  refine (hsub.eq_of_length ?_).symm
  exact ((List.mergeSort_perm L le).filter p).length_eq.symm

section Domain

variable (hp : PreorderOn comp D) {L : List α} (hD : ∀ a ∈ L, a ∈ D)
include hp hD

/-- Sorting within the domain. -/
theorem exists_stableSort : ∃ (M : List D) (le : D → D → Bool), L = M.map Subtype.val ∧
    stableSort comp L = (M.mergeSort le).map Subtype.val ∧
    (∀ a b, le a b = true ↔ comp a.1 b.1 ≤ 0) ∧ (∀ a b c, le a b → le b c → le a c) ∧
    ∀ a b, le a b || le b a := by
  refine ⟨L.pmap Subtype.mk hD, fun a b => decide (comp a.1 b.1 ≤ 0), ?_, ?_, fun a b => by simp,
    fun a b c hab hbc => ?_, fun a b => ?_⟩
  · rw [List.map_pmap]
    simp
  · rw [List.map_mergeSort (s := fun a b => decide (comp a b ≤ 0)) fun _ _ _ _ => rfl,
      List.map_pmap]
    simp [stableSort]
  · simp only [decide_eq_true_eq] at *
    exact hp.trans a a.2 b b.2 c c.2 hab hbc
  · have := hp.le_iff a.2 b.2
    simp only [Bool.or_eq_true, decide_eq_true_eq]
    omega

theorem ascending_stableSort : Ascending comp (stableSort comp L) := by
  obtain ⟨M, le, -, hsort, hle, trans, total⟩ := exists_stableSort hp hD
  rw [hsort]
  refine List.pairwise_map.2 ((List.pairwise_mergeSort trans total M).imp fun {a b} h => ?_)
  exact (hle a b).1 h

theorem filter_stableSort {w : α} (hw : w ∈ D) :
    (stableSort comp L).filter (fun a => comp w a = 0) = L.filter fun a => comp w a = 0 := by
  obtain ⟨M, le, hL, hsort, hle, trans, total⟩ := exists_stableSort hp hD
  rw [hsort, List.filter_map, hL, List.filter_map]
  refine congrArg _ (filter_mergeSort trans total fun a b ha hb => (hle a b).2 ?_)
  have ha : comp w a.1 = 0 := by simpa using ha
  have hb : comp w b.1 = 0 := by simpa using hb
  exact (((hp.congr hw a.2 b.2 ha).2).1 hb).le

/-- What is sorted and has equal elements in the order of `L` is `L` sorted. -/
theorem Ascending.eq_stableSort {u : List α} (hu : Ascending comp u) (huD : ∀ a ∈ u, a ∈ D)
    (h : ∀ w ∈ D, u.filter (fun a => comp w a = 0) = L.filter fun a => comp w a = 0) :
    u = stableSort comp L := by
  refine hu.ext hp (ascending_stableSort hp hD) huD (fun a ha => ?_) fun w hw => ?_
  · exact hD a ((perm_stableSort comp L).subset ha)
  · rw [h w hw, filter_stableSort hp hD hw]

end Domain

end BinaryTree
