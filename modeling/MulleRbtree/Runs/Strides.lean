import MulleRbtree.Layout.Strides
import MulleRbtree.Runs.Traversals

/-!
# What an iteration costs

A single call of `_mulle__rbtree_next_node` may go through the whole height of the tree.  Calls in a
row do not: `k` of them follow at most `2 k + 4 log₂ (n + 1)` links, from any node on, and the
iteration over the whole tree, with the search for its first node, exactly `2 n - 1`.

* `Strides d s ns`: this, for the nodes in the order `ns` of the steps to side `d`, which are
  `_mulle__rbtree_next_node` and `_mulle__rbtree_previous_node` (`fst_stepNodeCounting_right`,
  `fst_stepNodeCounting_left`);
* `strides_of_run`: it is so in every state that calls lead to.
-/

namespace MulleRbtree

open BinaryTree Cells Program

variable {σ : Type} [MulleStorage σ]

/-- How many links the steps to side `d` follow, where they lead through the nodes `ns`. -/
structure Strides (d : Side) (s : Base σ) (ns : List Ref) : Prop where
  steps : ∀ u n v, ns = u ++ n :: v → ∀ k ≤ v.length + 1, ∃ links,
    Base.travel d k n s = .ok (((n :: v)[k]?.getD .nil, links), s) ∧
      (links : ℝ) ≤ 2 * k + 4 * Real.logb 2 (ns.length + 1)
  whole : ns ≠ [] → ∃ links,
    Base.journey d ns.length s = .ok ((.nil, links), s) ∧ links + 1 = 2 * ns.length

variable {s : Base σ} {E : Env σ} {z : Sentinel} {K : Multiset Cell} {T : ETree}
  {c : Path Entry} {d d' : Side} {e : Entry} {x y : ETree}

theorem bends_lt_height (hT : T = plug c (join d e x y)) : bends d' c < T.height := by
  subst hT
  have hlength := length_add_height_le c (join d e x y)
  have hjoin : x.height < (join d e x y).height := Base.height_join
  have hbends := bends_le d' c
  omega

/-- The links of `k` steps, in terms of the height. -/
theorem Repr.travel (h : Repr s E z K T) {p q : List Entry} (hT : orderTo d T = p ++ e :: q) {k : ℕ}
    (hk : k ≤ q.length + 1) : ∃ links,
      Base.travel d k e.ref s = .ok (((e.ref :: q.map Entry.ref)[k]?.getD .nil, links), s) ∧
        links ≤ 2 * k + 2 * T.height := by
  obtain ⟨c, x, y, hplug, rfl⟩ := exists_plug_of_orderTo hT
  have hc : bends d c < T.height := bends_lt_height hplug
  rcases Nat.lt_or_ge (orderTo d x ++ ahead d c).length k with hlt | hle
  · obtain rfl : k = (orderTo d x ++ ahead d c).length + 1 := by omega
    rw [hplug] at h
    obtain ⟨links, he, hlinks⟩ := Base.travel_end h rfl
    refine ⟨links, ?_, by omega⟩
    rw [List.getElem?_eq_none (by simp)]
    exact he
  · rw [hplug] at h
    obtain ⟨c', b, x', y', hplug', hb, links, he, hlinks⟩ := Base.travel_spec h hle
    have hc' : bends d.other c' < T.height := bends_lt_height (hplug.trans hplug')
    refine ⟨links, ?_, by omega⟩
    rw [← List.map_cons, List.getElem?_map, hb]
    exact he

theorem Repr.strides (h : Repr s E z K T)
    (hheight : (T.height : ℝ) ≤ 2 * Real.logb 2 (T.numNodes + 1)) :
    Strides d s ((orderTo d T).map Entry.ref) := by
  constructor
  · intro u n v hns k hk
    obtain ⟨p, e, q, hT, -, rfl, rfl⟩ := exists_of_map_ref hns
    obtain ⟨links, he, hlinks⟩ := h.travel hT (k := k) (by simpa using hk)
    refine ⟨links, he, ?_⟩
    have hcast : (links : ℝ) ≤ 2 * k + 2 * T.height := by exact_mod_cast hlinks
    rw [List.length_map, length_orderTo]
    linarith
  · intro hne
    rw [List.length_map, length_orderTo]
    refine Base.journey_spec h ?_
    rintro rfl
    simp at hne

/-- After any calls, steps in a row follow two links each, and at most twice the height besides, in
both directions; and so a whole iteration is linear. -/
theorem strides_of_run (config : Config) (cb : Callbacks)
    {h : List ((Call ⊕ Op) × (Answer ⊕ Result))}
    (hrun : (everything σ cb).Run (Base.initWithConfig config) h s) :
    ∃ ns, InOrder s ns ∧ Strides .right s ns ∧ Strides .left s ns.reverse := by
  obtain ⟨m, ⟨z, hr⟩, hm⟩ : ∃ m : Image σ, Represents s m :=
    hrun.keeps everything_keeps ⟨_, shows_init config, sound_init config⟩
  have hheight := hm.redBlack.height_le
  refine ⟨_, hr.inOrder, hr.strides hheight, ?_⟩
  rw [← List.map_reverse]
  exact hr.strides (d := .left) hheight

theorem strides_of_run_three : ∃ s : Base SlotPool, InOrder s [.slot 0, .slot 1, .slot 2] ∧
    Strides .right s [.slot 0, .slot 1, .slot 2] ∧ Strides .left s [.slot 2, .slot 1, .slot 0] := by
  obtain ⟨s, hrun, hin, -⟩ := exists_run
  obtain ⟨ns, hns, hright, hleft⟩ := strides_of_run _ lengthCallbacks hrun.inl
  obtain rfl := hns.unique hin
  exact ⟨s, hin, hright, hleft⟩

end MulleRbtree
