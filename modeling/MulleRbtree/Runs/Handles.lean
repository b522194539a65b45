import MulleRbtree.Runs.Cursor

/-!
# Nodes that a caller keeps

A caller that has a node in its hands (from `_mulle__rbtree_find_node`, or as it has inserted it)
can keep it while the tree is worked on.

* `Spared cb s cs n`: none of the calls removes the node;
* `Lasts cb s cs t`: such a node stays in the tree, with its value, and keeps its place among the
  others;
* `lasts_of_run`: it is so for the calls of every run.
-/

namespace MulleRbtree

open BinaryTree Cells Program

variable {σ : Type} [MulleStorage σ] {cb : Callbacks} {s t : Base σ}

/-- None of the calls removes the node. -/
def Spared (cb : Callbacks) (s : Base σ) (cs : List (Call ⊕ Op)) (n : Ref) : Prop :=
  (everything σ cb).Spares (fun c s n => Removes cb n c s) s cs n

open Classical in
/-- What has become of the nodes of `s` after the calls, which have led to `t`. -/
structure Lasts (cb : Callbacks) (s : Base σ) (cs : List (Call ⊕ Op)) (t : Base σ) : Prop where
  stays : ∀ n, Attached s n →
    (Spared cb s cs n ↔ ∀ x ∈ (everything σ cb).states s cs, Attached x n)
  reads : ∀ n, Attached s n → Spared cb s cs n →
    Base.getNodeValue n t = .ok (valueAt s n, t)
  order : ∀ ns ns', InOrder s ns → InOrder t ns' →
    ns'.filter (fun n => Attached s n ∧ Spared cb s cs n) = ns.filter fun n => Spared cb s cs n

/-- What a call leaves attached is what it does not remove. -/
theorem everything_spares {c : Call ⊕ Op} (hs : ∃ m : Image σ, Represents s m)
    (hp : (everything σ cb).Pre c s) :
    Ensures ((everything σ cb).exec c) s fun _ s' => (∃ m : Image σ, Represents s' m) ∧
      ∀ n, Attached s n → (¬ Removes cb n c s ↔ Attached s' n) := by
  obtain ⟨m, hs⟩ := hs
  refine (everything_edited hs hp).mono ?_
  rintro _ s' ⟨m', hs', e, hedit⟩
  obtain ⟨⟨z, hr⟩, -⟩ := id hs
  obtain ⟨⟨z', hr'⟩, -⟩ := id hs'
  refine ⟨⟨m', hs'⟩, fun n hn => ⟨fun hc => ?_, fun hn' hc => ?_⟩⟩
  · rw [hr.mem_held m.env.options, List.mem_map] at hn
    rw [hr'.mem_held m.env.options, List.mem_map]
    obtain ⟨a, ha, rfl⟩ := hn
    exact ⟨a, hedit.edits.mem ha fun he => hc ((hedit.removes a.1).2 ⟨a.2, he⟩), rfl⟩
  · obtain ⟨v, rfl⟩ := (hedit.removes n).1 hc
    exact hr.not_attached_of_erase hr' hedit.edits hn'

/-- The sequence of the nodes, with their values. -/
def HasHeld (options : BitVec 32) (s : Base σ) (L : List (Ref × VoidPtr)) : Prop :=
  ∃ m : Image σ, Represents s m ∧ m.env.options = options ∧ L = held options m.tree

theorem HasHeld.eq {options : BitVec 32} {L : List (Ref × VoidPtr)} (h : HasHeld options s L)
    {ns : List Ref} (hns : InOrder s ns) : L = ns.map (withValue s) := by
  obtain ⟨m, ⟨⟨z, hr⟩, -⟩, rfl, rfl⟩ := h
  rw [hr.inOrder_iff.1 hns, hr.map_withValue]

theorem everything_edits {options : BitVec 32} {L : List (Ref × VoidPtr)} {c : Call ⊕ Op}
    (hs : HasHeld options s L) (hp : (everything σ cb).Pre c s) :
    Ensures ((everything σ cb).exec c) s fun _ s' => ∃ e L', Edits L e L' ∧ HasHeld options s' L' ∧
      (∀ a, e = .insert a → ¬ Attached s a.1) ∧ ∀ a, e = .erase a → ¬ Attached s' a.1 := by
  obtain ⟨m, hs, rfl, rfl⟩ := hs
  refine (everything_edited hs hp).mono ?_
  rintro _ s' ⟨m', hs', e, hedit⟩
  obtain ⟨⟨z, hr⟩, -⟩ := id hs
  obtain ⟨⟨z', hr'⟩, -⟩ := id hs'
  refine ⟨e, _, hedit.edits, ⟨m', hs', hedit.options, rfl⟩, ?_, ?_⟩
  · rintro a rfl
    exact hr.not_attached_of_insert hr' hedit.edits
  · rintro a rfl
    exact hr.not_attached_of_erase hr' hedit.edits

/-- The nodes that are attached all the time keep their values and their order. -/
theorem map_withValue_of_attached {h : List ((Call ⊕ Op) × (Answer ⊕ Result))}
    (hs : ∃ m : Image σ, Represents s m) (hrun : (everything σ cb).Run s h t) {p : Ref → Bool}
    (hp : ∀ n, p n = true → ∀ x ∈ (everything σ cb).states s (h.map Prod.fst), Attached x n)
    {ns ns' : List Ref} (hns : InOrder s ns) (hns' : InOrder t ns') :
    (ns'.filter p).map (withValue t) = (ns.filter p).map (withValue s) := by
  obtain ⟨m, hs⟩ := hs
  have hheld : HasHeld m.env.options s (held m.env.options m.tree) := ⟨m, hs, rfl, rfl⟩
  obtain ⟨L, ht, hfilter⟩ := hrun.survivors (fun c s L hs hp => everything_edits hs hp) hheld
    (p := fun a => p a.1) fun a ha => hp a.1 ha
  rw [ht.eq hns', hheld.eq hns, List.filter_map, List.filter_map] at hfilter
  exact hfilter

omit [MulleStorage σ] in
theorem map_fst_withValue (s : Base σ) (ns : List Ref) : (ns.map (withValue s)).map Prod.fst = ns := by
  rw [List.map_map]
  exact List.map_id ns

/-- Where the calls of a run lead, the nodes that none of them removes are still in the tree, with
their values and in their order. -/
theorem lasts {h : List ((Call ⊕ Op) × (Answer ⊕ Result))}
    (hs : ∃ m : Image σ, Represents s m) (hrun : (everything σ cb).Run s h t) :
    Lasts cb s (h.map Prod.fst) t := by
  classical
  have hstays : ∀ n, Attached s n → (Spared cb s (h.map Prod.fst) n ↔
      ∀ x ∈ (everything σ cb).states s (h.map Prod.fst), Attached x n) := by
    intro n hn
    exact hrun.spares_iff (fun c s hs hp => everything_spares hs hp) hs hn
  have hkept : ∀ n, decide (Attached s n ∧ Spared cb s (h.map Prod.fst) n) = true →
      ∀ x ∈ (everything σ cb).states s (h.map Prod.fst), Attached x n := by
    intro n hn
    obtain ⟨hn, hspared⟩ := of_decide_eq_true hn
    exact (hstays n hn).1 hspared
  obtain ⟨m', ⟨z', hr'⟩, -⟩ : ∃ m : Image σ, Represents t m := hrun.keeps everything_keeps hs
  obtain ⟨m, ⟨z, hr⟩, -⟩ := id hs
  have horder : ∀ ns ns', InOrder s ns → InOrder t ns' →
      ns'.filter (fun n => Attached s n ∧ Spared cb s (h.map Prod.fst) n) =
        ns.filter fun n => Attached s n ∧ Spared cb s (h.map Prod.fst) n := by
    intro ns ns' hns hns'
    have hmap := congrArg (List.map Prod.fst) (map_withValue_of_attached hs hrun hkept hns hns')
    rwa [map_fst_withValue, map_fst_withValue] at hmap
  refine ⟨hstays, fun n hn hspared => ?_, fun ns ns' hns hns' => ?_⟩
  · have hmem : withValue s n ∈ (((m'.tree.inorder.map Entry.ref).filter fun n =>
        Attached s n ∧ Spared cb s (h.map Prod.fst) n).map (withValue t)) := by
      rw [map_withValue_of_attached hs hrun hkept hr.inOrder hr'.inOrder]
      refine List.mem_map_of_mem (List.mem_filter.2 ⟨?_, decide_eq_true ⟨hn, hspared⟩⟩)
      exact (hr.traverses.attached n).2 hn
    obtain ⟨n', hn', heq⟩ := List.mem_map.1 hmem
    obtain ⟨rfl, hvalue⟩ := Prod.mk.inj heq
    obtain ⟨e, he, rfl⟩ := List.mem_map.1 (List.mem_filter.1 hn').1
    rw [Base.getNodeValue_of_mem_tree hr' he, ← hr'.valueAt_eq he, hvalue]
  · rw [horder ns ns' hns hns']
    refine List.filter_congr fun n hn => ?_
    rw [hr.inOrder_iff.1 hns] at hn
    exact decide_eq_decide.2 (and_iff_right ((hr.traverses.attached n).1 hn))

/-- A node that a caller keeps while any calls are made stays in the tree just if none of them
removes it, and then reads and stands as before. -/
theorem lasts_of_run (config : Config) (cb : Callbacks) {s t : Base σ}
    {h₀ h : List ((Call ⊕ Op) × (Answer ⊕ Result))}
    (hreach : (everything σ cb).Run (Base.initWithConfig config) h₀ s)
    (hrun : (everything σ cb).Run s h t) : Lasts cb s (h.map Prod.fst) t :=
  lasts (hreach.keeps everything_keeps ⟨_, shows_init config, sound_init config⟩) hrun

/-- A fourth node is inserted, and the first one is removed. -/
theorem lasts_of_run_two : ∃ s t : Base SlotPool, InOrder s [.slot 0, .slot 1, .slot 2] ∧
    InOrder t [.slot 1, .slot 3, .slot 2] ∧ Lasts lengthCallbacks s
      [.inl (.insertNode (.slot 3) byLength), .inl (.removeNode (.slot 0))] t := by
  obtain ⟨s, hrun, hin, -⟩ := exists_run
  obtain ⟨s₀, hrun₀, hs, hcalls⟩ := exists_run_of_calls (σ := SlotPool) ⟨0, 0x4#32, 0⟩ threeCalls
    threeAnswers (fun s => ((everything SlotPool lengthCallbacks).follow check
      [.inl (.insertNode (.slot 3) byLength), .inl (.removeNode (.slot 0))] s).map
        (Prod.map id nodesOf))
    (some ([.inl (.code 0), .inl .done], [.slot 1, .slot 3, .slot 2])) (by decide +kernel)
  obtain rfl := hrun.unique hrun₀
  obtain ⟨t, hgo, ⟨m, hm⟩, hnodes⟩ :=
    Interface.exists_run_of_follow (fun _ _ => pre_of_check) everything_keeps hs hcalls
  exact ⟨s, t, hin, hnodes ▸ hm.inOrder, lasts_of_run _ lengthCallbacks hrun.inl hgo⟩

end MulleRbtree
