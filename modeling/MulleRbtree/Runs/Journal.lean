import MulleRbtree.Library.StableSort
import MulleRbtree.Runs.Order

/-!
# Trees as sorted journals

In payload mode, with values that are not owned, what a tree enumerates is a function of the
history: the values that have been added and are still there, in the order in which they came,
sorted.

* `journal`: that list, after one more operation;
* `recorded σ cb D`: operations by value; with duplicates, where it is left open which of several
  equal values a removal takes, nothing is removed;
* `journal_of_run`: a tree enumerates its journal, sorted;
* `treeSort`: so adding the values of a list and enumerating them sorts the list.
-/

namespace MulleRbtree

open BinaryTree Cells Program

/-- The values in the order in which they were added, after one more operation. -/
def journal (comp : VoidPtr → VoidPtr → ℤ) (L : List VoidPtr) : Op × Result → List VoidPtr
  | (.add v, .code k) => if k = 0 then L ++ [v] else L
  | (.remove key, .code k) => if k = 0 then L.filter fun b => comp key b ≠ 0 else L
  | _ => L

/-- The values `u` of a tree are those of the journal `L`, equal ones in the same order. -/
structure Journaled (comp : VoidPtr → VoidPtr → ℤ) (D : Set VoidPtr) (options : BitVec 32)
    (u L : List VoidPtr) : Prop where
  perm : u.Perm L
  domain : ∀ a ∈ u, a ∈ D
  order : ∀ w ∈ D, u.filter (fun a => comp w a = 0) = L.filter fun a => comp w a = 0
  single : Options.allowDuplicates options = false →
    u.Pairwise fun a b => comp a b ≠ 0

section Lists

variable {cb : Callbacks} {comp : VoidPtr → VoidPtr → ℤ} {D : Set VoidPtr} {options : BitVec 32}
  {u w L : List VoidPtr} {v b key : VoidPtr}

theorem journaled_nil : Journaled comp D options [] [] :=
  ⟨.refl _, by simp, fun _ _ => rfl, fun _ => .nil⟩

/-- A value goes behind those that are equal. -/
theorem Journaled.add (hp : PreorderOn comp D) (h : Journaled comp D options (u ++ w) L)
    (hv : v ∈ D) (hw : ∀ b ∈ w, comp v b < 0)
    (hnew : Options.allowDuplicates options = false → ∀ b ∈ u ++ w, comp v b ≠ 0) :
    Journaled comp D options (u ++ v :: w) (L ++ [v]) := by
  obtain ⟨hperm, hD, horder, hsingle⟩ := h
  refine ⟨?_, fun a ha => ?_, fun x hx => ?_, fun hdup => ?_⟩
  · exact List.perm_middle.trans ((hperm.cons v).trans (List.perm_append_singleton v L).symm)
  · rcases List.mem_append.1 ha with ha | ha
    · exact hD a (List.mem_append_left _ ha)
    · rcases List.mem_cons.1 ha with rfl | ha
      · exact hv
      · exact hD a (List.mem_append_right _ ha)
  · have hx' := horder x hx
    rw [List.filter_append] at hx'
    rw [List.filter_append, List.filter_append, ← hx']
    by_cases hxv : comp x v = 0
    · -- whatever is right of the new value is greater
      have hw₀ : w.filter (fun b => comp x b = 0) = [] := by
        refine List.filter_eq_nil_iff.2 fun b hb => ?_
        have hlt := ((hp.congr hx hv (hD b (List.mem_append_right _ hb)) hxv).1).2 (hw b hb)
        simpa using hlt.ne
      simp [hxv, hw₀]
    · simp [hxv]
  · obtain ⟨hu, hw', huw⟩ := List.pairwise_append.1 (hsingle hdup)
    have hne := hnew hdup
    refine List.pairwise_append.2 ⟨hu, List.pairwise_cons.2 ⟨fun b hb => ?_, hw'⟩, fun a ha b hb => ?_⟩
    · exact hne b (List.mem_append_right _ hb)
    · rcases List.mem_cons.1 hb with rfl | hb
      · have ha' := List.mem_append_left w ha
        exact fun h₀ => hne a ha' ((hp.eq_iff (hD a ha') hv).1 h₀)
      · exact huw a ha b hb

/-- Without duplicates a removal takes out what is equal to the key. -/
theorem Journaled.remove (hp : PreorderOn comp D) (hdup : Options.allowDuplicates options = false)
    (h : Journaled comp D options (u ++ b :: w) L) (hkey : key ∈ D) (heq : comp key b = 0) :
    Journaled comp D options (u ++ w) (L.filter fun a => comp key a ≠ 0) := by
  obtain ⟨hperm, hD, horder, hsingle⟩ := h
  have hpair := hsingle hdup
  have hb : b ∈ D := hD b (by simp)
  have hsub : (u ++ w).Sublist (u ++ b :: w) :=
    (List.Sublist.refl u).append (List.sublist_cons_self b w)
  have hne : ∀ a ∈ u ++ w, comp key a ≠ 0 := by
    intro a ha h₀
    have hba : comp b a = 0 :=
      ((hp.congr hkey hb (hD a (hsub.subset ha)) heq).2).1 h₀
    obtain ⟨-, hbw, hub⟩ := List.pairwise_append.1 hpair
    rcases List.mem_append.1 ha with ha | ha
    · exact hub a ha b (by simp) ((hp.eq_iff hb (hD a (by simp [ha]))).1 hba)
    · exact (List.pairwise_cons.1 hbw).1 a ha hba
  have hfilter : (u ++ b :: w).filter (fun a => comp key a ≠ 0) = u ++ w := by
    rw [List.filter_append, List.filter_cons_of_neg (by simpa using heq), ← List.filter_append]
    exact List.filter_eq_self.2 fun a ha => by simpa using hne a ha
  refine ⟨?_, fun a ha => hD a (hsub.subset ha), fun x hx => ?_, fun _ => hpair.sublist hsub⟩
  · rw [← hfilter]
    exact hperm.filter _
  · have hcomm : ∀ M : List VoidPtr, (M.filter fun a => comp key a ≠ 0).filter
        (fun a => comp x a = 0) = (M.filter fun a => comp x a = 0).filter
          fun a => comp key a ≠ 0 := fun M => by
      rw [List.filter_filter, List.filter_filter]
      exact List.filter_congr fun a _ => Bool.and_comm _ _
    rw [← hfilter, hcomm, hcomm, horder x hx]

end Lists

/-! ### Runs -/

/-- Values and keys are in the domain, and a removal by key is no matter of choice. -/
def Op.Recorded (D : Set VoidPtr) (dup : Bool) : Op → Prop
  | add v => v ∈ D
  | remove key => key ∈ D ∧ dup = false
  | removeNode _ => False
  | find key => key ∈ D
  | findEqualOrGreater key => key ∈ D
  | _ => True

variable {σ : Type} [MulleStorage σ]

/-- The interface whose operations a journal records. -/
def recorded (σ : Type) [MulleStorage σ] (cb : Callbacks) (D : Set VoidPtr) :
    Interface (Base σ) Fault Op Result :=
  ⟨fun op s => op.Recorded D (Options.allowDuplicates s.options), Op.exec cb⟩

section Runs

variable {cb : Callbacks} {D : Set VoidPtr} {s : Base σ} {op : Op} {r : Result}
  {options : BitVec 32} {u u' L : List VoidPtr}

/-- Values are stored as they are. -/
structure StoresAsIs (cb : Callbacks) (options : BitVec 32) : Prop where
  retain : ∀ trace v, cb.retain trace v = v
  payload : Options.useExtra options = false

theorem StoresAsIs.stored_eq (h : StoresAsIs cb options) (trace : List Event) (size i : ℕ)
    (v : VoidPtr) : stored options size i (cb.retain trace v) = v := by
  rw [stored, h.payload, h.retain]
  rfl

/-- What is recorded is faithful to the reference. -/
theorem Op.Recorded.faithful {dup : Bool} (hp : PreorderOn cb.comparison D)
    (h : StoresAsIs cb s.options) (hop : op.Recorded D dup) : op.Faithful cb D s := by
  cases op with
  | add v =>
    have hstored : storedAt cb s v = v := h.stored_eq _ _ _ v
    exact ⟨hop, hstored.symm ▸ hop, hstored.symm ▸ hp.self hop⟩
  | remove key => exact hop.1
  | removeNode n => exact hop.elim
  | find key => exact hop
  | findEqualOrGreater key => exact hop
  | isEmpty => trivial
  | enumerate => trivial

/-- The journal of what the reference does. -/
theorem Collects.journaled (hp : PreorderOn cb.comparison D) (hstores : StoresAsIs cb options)
    (hop : op.Recorded D (Options.allowDuplicates options)) (h : Collects cb options u op r u')
    (hL : Journaled cb.comparison D options u L) :
    Journaled cb.comparison D options u' (journal cb.comparison L (op, r)) := by
  cases h with
  | added hform hu hw hnew =>
    obtain ⟨trace, size, i, rfl⟩ := hform
    rw [hstores.stored_eq]
    exact hL.add hp hop hw hnew
  | refused => exact hL
  | removed heq => exact hL.remove hp hop.2 hop.1 heq
  | missing => exact hL
  | found => exact hL
  | notFound => exact hL
  | least => exact hL
  | noneLeft => exact hL
  | isEmpty => exact hL
  | enumerated => exact hL

/-- A state whose values are those of a journal. -/
def ShowsJournal (cb : Callbacks) (D : Set VoidPtr) (options : BitVec 32) (s : Base σ)
    (L : List VoidPtr) : Prop :=
  ∃ m : Image σ, Represents s m ∧ Ordered cb.comparison D m ∧ m.env.options = options ∧
    Journaled cb.comparison D options (values options m.tree) L

theorem showsJournal_init (config : Config) :
    ShowsJournal cb D config.options (Base.initWithConfig config : Base σ) [] :=
  ⟨_, ⟨shows_init config, sound_init config⟩, ordered_init config, rfl, journaled_nil⟩

theorem ShowsJournal.step (hp : PreorderOn cb.comparison D) (hstores : StoresAsIs cb options)
    (hs : ShowsJournal cb D options s L)
    (hop : op.Recorded D (Options.allowDuplicates s.options)) :
    Ensures (op.exec cb) s fun r s' => (∃ u u', Collects cb options u op r u') ∧
      ShowsJournal cb D options s' (journal cb.comparison L (op, r)) := by
  obtain ⟨m, hm, hord, rfl, hL⟩ := hs
  have ho : s.options = m.env.options := by
    obtain ⟨⟨z, hr⟩, -⟩ := hm
    exact Holds.options_eq hr
  have hfaithful := hop.faithful hp (ho.symm ▸ hstores)
  refine (op_represents hm hfaithful.pre.1).mono fun r s' ⟨m', he, hm'⟩ => ?_
  have hcollects := he.collects hp hm hord hfaithful
  rw [ho] at hop
  exact ⟨⟨_, _, hcollects⟩, m', hm', he.ordered hp hm hord hfaithful.pre.2, he.options_eq,
    hcollects.journaled hp hstores hop hL⟩

/-- With duplicates every value is accepted. -/
theorem Collects.accepted (hdup : Options.allowDuplicates options = true) {v : VoidPtr}
    (h : Collects cb options u (.add v) r u') : r = .code 0 := by
  cases h with
  | added => rfl
  | refused hno =>
    rw [hdup] at hno
    cases hno

/-- What is enumerated is the journal, sorted. -/
theorem ShowsJournal.enumerateAll (hp : PreorderOn cb.comparison D)
    (hs : ShowsJournal cb D options s L) :
    Rbtree.enumerateAll s = .ok (stableSort cb.comparison L, s) := by
  obtain ⟨m, ⟨⟨z, hr⟩, -⟩, ⟨-, harr⟩, rfl, hperm, hD, horder, -⟩ := hs
  have hsort := Ascending.eq_stableSort hp (fun a ha => hD a (hperm.symm.subset ha)) harr.ascending
    hD horder
  rw [← hsort]
  exact Rbtree.enumerateAll_spec hr

/-- After every run the values are enumerated in the order of a stable sort of the journal. -/
theorem journal_of_run (config : Config) (hp : PreorderOn cb.comparison D)
    (hstores : StoresAsIs cb config.options) {h : List (Op × Result)}
    (hrun : (recorded σ cb D).Run (Base.initWithConfig config) h s) :
    Rbtree.enumerateAll s =
      .ok (stableSort cb.comparison (h.foldl (journal cb.comparison) []), s) := by
  have hs : ShowsJournal cb D config.options s (h.foldl (journal cb.comparison) []) :=
    hrun.foldl (fun op s L hs hop => (hs.step hp hstores hop).mono fun _ _ h => h.2)
      (showsJournal_init config)
  exact hs.enumerateAll hp

/-- May the operation of a journal be made? -/
def Op.checkRecorded : Op → Base σ → Bool
  | remove _, s => !Options.allowDuplicates s.options
  | removeNode _, _ => false
  | _, _ => true

omit [MulleStorage σ] in
theorem Op.recorded_of_check (h : op.checkRecorded s = true) :
    op.Recorded Set.univ (Options.allowDuplicates s.options) := by
  cases op with
  | add v => trivial
  | remove key => exact ⟨trivial, by simpa [checkRecorded] using h⟩
  | removeNode n => cases h
  | find key => trivial
  | findEqualOrGreater key => trivial
  | isEmpty => trivial
  | enumerate => trivial

omit [MulleStorage σ] in
theorem Op.Recorded.pre {dup : Bool} (h : op.Recorded D dup) : op.Pre s := by
  cases op with
  | removeNode n => exact h.elim
  | add v => trivial
  | remove key => trivial
  | find key => trivial
  | findEqualOrGreater key => trivial
  | isEmpty => trivial
  | enumerate => trivial

/-- Operations of a journal that are carried out on a new tree are a run. -/
theorem exists_run_of_recorded (config : Config) (cb : Callbacks) (ops : List Op) (rs : List Result)
    {β : Type} (f : Base σ → β) (b : β) (h : ((recorded σ cb Set.univ).follow Op.checkRecorded ops
      (Base.initWithConfig config)).map (Prod.map id f) = some (rs, b)) :
    ∃ s, (recorded σ cb Set.univ).Run (Base.initWithConfig config) (ops.zip rs) s ∧
      (∃ m : Image σ, Represents s m) ∧ f s = b :=
  Interface.exists_run_of_follow (fun _ _ _ => Op.recorded_of_check)
    (fun op s hs hop => operations_keeps op s hs (Op.Recorded.pre hop)) (represents_init config) h

/-- Three values are added, the greatest one first, one of them again, and then it is removed. -/
theorem journal_of_run_five : ∃ s : Base SlotPool, InOrder s [.slot 2, .slot 0] ∧
    ((fiveOps (ofLength 4) (ofLength 2) (ofLength 0)).zip fiveResults).foldl (journal byLength) [] =
      [ofLength 4, ofLength 0] ∧
    Rbtree.enumerateAll s = .ok (stableSort byLength [ofLength 4, ofLength 0], s) := by
  obtain ⟨s, hrun, ⟨m, hm⟩, hnodes⟩ := exists_run_of_recorded (σ := SlotPool) ⟨0, 0x4#32, 0⟩
    lengthCallbacks (fiveOps (ofLength 4) (ofLength 2) (ofLength 0)) fiveResults nodesOf
    [.slot 2, .slot 0] (by decide +kernel)
  have hjournal : ((fiveOps (ofLength 4) (ofLength 2) (ofLength 0)).zip fiveResults).foldl
      (journal byLength) [] = [ofLength 4, ofLength 0] := by
    decide
  have hall := journal_of_run ⟨0, 0x4#32, 0⟩ preorderOn_byLength ⟨fun _ _ => rfl, by decide⟩ hrun
  exact ⟨s, hnodes ▸ hm.inOrder, hjournal, hjournal ▸ hall⟩

/-- The values of a list are added one after the other. -/
theorem ShowsJournal.addAll (hp : PreorderOn cb.comparison D) (hstores : StoresAsIs cb options)
    (hdup : Options.allowDuplicates options = true) {vs : List VoidPtr} (hvs : ∀ v ∈ vs, v ∈ D)
    (hs : ShowsJournal cb D options s L) : ∃ t,
      (operations σ cb).Run s (vs.map fun v => (.add v, .code 0)) t ∧
      ShowsJournal cb D options t (L ++ vs) := by
  induction vs generalizing s L with
  | nil => exact ⟨s, .nil s, by simpa using hs⟩
  | cons v vs ih =>
    obtain ⟨hv, hvs⟩ := List.forall_mem_cons.1 hvs
    have hop : (Op.add v).Recorded D (Options.allowDuplicates s.options) := hv
    obtain ⟨r, s', he, ⟨u, u', hadd⟩, hs'⟩ := hs.step hp hstores hop
    obtain rfl := hadd.accepted hdup
    obtain ⟨t, hrun, ht⟩ := ih hvs hs'
    refine ⟨t, .cons trivial he hrun, ?_⟩
    simpa [journal] using ht

/-- Adding the values of a list to a tree that takes duplicates, and enumerating them, sorts the
list. -/
theorem treeSort (config : Config) (hp : PreorderOn cb.comparison D)
    (hstores : StoresAsIs cb config.options)
    (hdup : Options.allowDuplicates config.options = true) (vs : List VoidPtr)
    (hvs : ∀ v ∈ vs, v ∈ D) : ∃ s : Base σ,
      (operations σ cb).Run (Base.initWithConfig config) (vs.map fun v => (.add v, .code 0)) s ∧
      Rbtree.enumerateAll s = .ok (stableSort cb.comparison vs, s) := by
  have hinit : ShowsJournal cb D config.options (Base.initWithConfig config : Base σ) [] :=
    showsJournal_init config
  obtain ⟨s, hrun, hs⟩ := hinit.addAll hp hstores hdup hvs
  exact ⟨s, hrun, hs.enumerateAll hp⟩

theorem treeSort_three : ∃ s : Base SlotPool,
    (operations SlotPool lengthCallbacks).Run (Base.initWithConfig ⟨0, 0x5#32, 0⟩)
      [(.add ⟨.user 0, [7, 8]⟩, .code 0), (.add ⟨.user 1, [1]⟩, .code 0),
        (.add ⟨.user 2, [9, 0]⟩, .code 0)] s ∧
    Rbtree.enumerateAll s = .ok (stableSort byLength
      [⟨.user 0, [7, 8]⟩, ⟨.user 1, [1]⟩, ⟨.user 2, [9, 0]⟩], s) :=
  treeSort ⟨0, 0x5#32, 0⟩ preorderOn_byLength ⟨fun _ _ => rfl, by decide⟩ (by decide)
    [⟨.user 0, [7, 8]⟩, ⟨.user 1, [1]⟩, ⟨.user 2, [9, 0]⟩] fun _ _ => trivial

end Runs

end MulleRbtree
