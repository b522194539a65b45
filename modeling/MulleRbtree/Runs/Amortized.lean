import MulleRbtree.Runs.Asserts
import MulleRbtree.Tree.Recolor

/-!
# What rebalancing costs over whole runs

The fixups recolour nodes from the place of a change up to the root, so one call may recolour as
many nodes as the tree is high.  Over a whole run there are at most 8 recoloured nodes for each node
that is inserted and 12 for each that is removed, however the calls are mixed.

* `recolored s s'`: how many of the nodes that are in the tree before and after have changed their
  colour;
* `recolored_le`: this is what `Recolors` speaks of;
* `recolorings_of_run`: the bound.
-/

namespace MulleRbtree

open BinaryTree Cells Program

variable {σ : Type}

/-- How many nodes have changed their colour. -/
noncomputable def recolored (s s' : Base σ) : ℕ :=
  {n | Attached s n ∧ Attached s' n ∧ redAt s n ≠ redAt s' n}.ncard

/-- Whether the call has put a node into the tree. -/
def puts : (Call ⊕ Op) × (Answer ⊕ Result) → Bool
  | (.inl (.insertNode _ _), .inl (.code k)) => k = 0
  | (.inl (.insertNodeBeforeNode _ _), _) => true
  | (.inl (.insertNodeAfterNode _ _), _) => true
  | (.inr (.add _), .inr (.code k)) => k = 0
  | _ => false

/-- Whether the call has taken a node out of the tree. -/
def takes : (Call ⊕ Op) × (Answer ⊕ Result) → Bool
  | (.inl (.removeNode _), _) => true
  | (.inr (.remove _), .inr (.code k)) => k = 0
  | (.inr (.removeNode _), _) => true
  | _ => false

/-- What a call may cost. -/
def fee (p : (Call ⊕ Op) × (Answer ⊕ Result)) : ℕ := if puts p then 8 else if takes p then 12 else 0

theorem sum_fee_le (h : List ((Call ⊕ Op) × (Answer ⊕ Result))) :
    (h.map fee).sum ≤ 8 * h.countP puts + 12 * h.countP takes := by
  induction h with
  | nil => simp
  | cons p h ih =>
    rw [List.map_cons, List.sum_cons, List.countP_cons, List.countP_cons, fee]
    split_ifs <;> omega

variable [MulleStorage σ] {s s' : Base σ} {m m' : Image σ} {cb : Callbacks}

/-! ### One call -/

theorem Evolves.recolors {c : Call} {r : Answer} (h : Evolves m c r m') (hm : Sound m) :
    Recolors (fee (.inl c, .inl r)) m.tree m'.tree := by
  obtain ⟨hb, -, hF⟩ := hm
  have hred : ∀ {options : BitVec 32} {a : Entry}, a.color = freshColor options →
      a.isRed = true := fun h => by rw [Entry.isRed, h, isRed_freshColor]
  cases h with
  | newNode => exact .refl _
  | freeNode => exact .refl _
  | rejected => exact .refl _
  | @inserted E a F T comp g k hseek =>
    obtain rfl : plug g nil = T := (plug_seek hseek).1
    exact recolors_attach E.stamp hb (hred (hF a (by simp)))
  | @before E a e F c l r =>
    have hplace : plug (Base.beside .left c e l r) nil = plug c (node e l r) :=
      Base.plug_beside .left c e l r
    rw [← hplace] at hb ⊢
    exact recolors_attach E.stamp hb (hred (hF a (by simp)))
  | @after E a e F c l r =>
    have hplace : plug (Base.beside .right c e r l) nil = plug c (node e l r) :=
      Base.plug_beside .right c e r l
    rw [← hplace] at hb ⊢
    exact recolors_attach E.stamp hb (hred (hF a (by simp)))
  | removed => exact recolors_removeAt _ hb
  | marked => exact (Recolors.refl _).soiled _
  | walked => exact (Recolors.refl _).washed
  | found => exact .refl _
  | reached => exact .refl _
  | next => exact .refl _
  | previous => exact .refl _
  | isDirty => exact .refl _
  | counted => exact .refl _

theorem Performs.recolors {op : Op} {r : Result} (h : Performs cb m op r m') (hm : Sound m) :
    Recolors (fee (.inr op, .inr r)) m.tree m'.tree := by
  obtain ⟨hb, -, -⟩ := hm
  cases h with
  | @added E F T v g k hplace =>
    obtain rfl : plug g nil = T := (plug_seek hplace).1
    exact (recolors_attach E.stamp hb (a := E.newcomer cb v) isRed_freshColor).washed
  | rejected => exact (Recolors.refl _).washed
  | removed => exact (recolors_unstore _ hb).washed
  | missing => exact .refl _
  | removedNode => exact (recolors_unstore _ hb).washed
  | found => exact .refl _
  | reached => exact .refl _
  | isEmpty => exact .refl _
  | enumerated => exact .refl _

/-- The recoloured nodes are among those whose colours are compared. -/
theorem recolored_le {k : ℕ} (hs : Shows s m) (hs' : Shows s' m')
    (h : Recolors k m.tree m'.tree) : recolored s s' + 3 * credit (colors m'.tree) ≤
      3 * credit (colors m.tree) + k := by
  obtain ⟨L, L', hL, hL', hslots, hstays, hpaid⟩ := h
  obtain ⟨z, hr⟩ := hs
  obtain ⟨z', hr'⟩ := hs'
  have htint : ∀ {s : Base σ} {E : Env σ} {z : Sentinel} {K : Multiset Cell} {T : ETree}
      {L : List (ℕ × Bool)}, Repr s E z K T → (∀ q ∈ L, q ∈ (T.map Entry.tint).inorder) →
      (L.map Prod.fst).map (fun i => redAt s (.slot i)) = L.map Prod.snd := by
    intro s E z K T L h hL
    rw [List.map_map]
    refine List.map_congr_left fun q hq => ?_
    have hq := hL q hq
    rw [inorder_map, List.mem_map] at hq
    obtain ⟨e, he, rfl⟩ := hq
    exact h.redAt_eq he
  have hsub : {n | Attached s n ∧ Attached s' n ∧ redAt s n ≠ redAt s' n} ⊆
      Ref.slot '' {i | i ∈ L.map Prod.fst ∧ redAt s (.slot i) ≠ redAt s' (.slot i)} := by
    rintro n ⟨hn, hn', hne⟩
    obtain ⟨i, hi, rfl⟩ := hr.attached_iff.1 hn
    obtain ⟨j, hj, e⟩ := hr'.attached_iff.1 hn'
    obtain rfl := Ref.slot.inj e
    exact ⟨i, ⟨hstays i hi hj, hne⟩, rfl⟩
  have hfinite : {i | i ∈ L.map Prod.fst ∧ redAt s (.slot i) ≠ redAt s' (.slot i)}.Finite :=
    (List.finite_toSet (L.map Prod.fst)).subset fun i hi => hi.1
  have hcount := (Set.ncard_le_ncard hsub (hfinite.image _)).trans (Set.ncard_image_le hfinite)
  have hchanges := ncard_ne_le (fun i => redAt s (.slot i)) (fun i => redAt s' (.slot i))
    (L.map Prod.fst)
  rw [htint hr hL, hslots, htint hr' hL'] at hchanges
  rw [hslots] at hcount
  have := hcount.trans hchanges
  unfold recolored
  omega

theorem everything_recolors {c : Call ⊕ Op} (hs : Represents s m)
    (hp : (everything σ cb).Pre c s) : Ensures ((everything σ cb).exec c) s fun r s' =>
      ∃ m', Represents s' m' ∧ recolored s s' + 3 * credit (colors m'.tree) ≤
        3 * credit (colors m.tree) + fee (c, r) := by
  cases c with
  | inl c =>
    refine Ensures.map ((exec_represents hs hp).mono ?_)
    rintro r s' ⟨m', he, hs'⟩
    exact ⟨m', hs', recolored_le hs.1 hs'.1 (he.recolors hs.2)⟩
  | inr op =>
    refine Ensures.map ((op_represents hs hp).mono ?_)
    rintro r s' ⟨m', he, hs'⟩
    exact ⟨m', hs', recolored_le hs.1 hs'.1 (he.recolors hs.2)⟩

/-! ### Runs -/

/-- Over a whole run, whatever calls it is made of, at most 8 nodes are recoloured for each node
that is inserted, and 12 for each that is removed. -/
theorem recolorings_of_run (config : Config) (cb : Callbacks) {s : Base σ}
    {h : List ((Call ⊕ Op) × (Answer ⊕ Result))}
    (hrun : (everything σ cb).Run (Base.initWithConfig config) h s) :
    Interface.expense recolored ((everything σ cb).states (Base.initWithConfig config)
      (h.map Prod.fst)) ≤ 8 * h.countP puts + 12 * h.countP takes := by
  obtain ⟨m', -, hcost⟩ := hrun.expense_le (fun _ _ _ hs hp => everything_recolors hs hp)
    ⟨shows_init config, sound_init config⟩
  have hcredit : credit (colors (Image.init (σ := σ) config).tree) = 0 := rfl
  have := sum_fee_le h
  omega

/-- Three nodes are inserted, another one is made, and the one in the middle is removed. -/
def eightCalls : List (Call ⊕ Op) := (threeCalls ++ [Call.removeNode (.slot 1)]).map .inl

def eightAnswers : List (Answer ⊕ Result) := (threeAnswers ++ [Answer.done]).map .inl

/-- When the third node is inserted, the two others are recoloured. -/
theorem recolorings_of_run_eight : ∃ s s' : Base SlotPool,
    (calls SlotPool).Run (Base.initWithConfig ⟨0, 0x4#32, 0⟩)
      ((threeCalls.take 5).zip (threeAnswers.take 5)) s ∧
    (calls SlotPool).Run (Base.initWithConfig ⟨0, 0x4#32, 0⟩)
      ((threeCalls.take 6).zip (threeAnswers.take 6)) s' ∧ 2 ≤ recolored s s' ∧
    Interface.expense recolored ((everything SlotPool lengthCallbacks).states
      (Base.initWithConfig ⟨0, 0x4#32, 0⟩) eightCalls) ≤ 8 * 3 + 12 * 1 := by
  obtain ⟨s, hrun, ⟨m, hm⟩, hs⟩ := exists_run_of_calls (σ := SlotPool) ⟨0, 0x4#32, 0⟩
    (threeCalls.take 5) (threeAnswers.take 5)
    (fun s => (nodesOf s, [Ref.slot 0, .slot 1].map (redAt s))) ([.slot 0, .slot 1], [false, true])
    (by decide +kernel)
  obtain ⟨s', hrun', ⟨m', hm'⟩, hs'⟩ := exists_run_of_calls (σ := SlotPool) ⟨0, 0x4#32, 0⟩
    (threeCalls.take 6) (threeAnswers.take 6)
    (fun s => (nodesOf s, [Ref.slot 0, .slot 1].map (redAt s)))
    ([.slot 0, .slot 1, .slot 2], [true, false]) (by decide +kernel)
  obtain ⟨t, ht, -, -⟩ := exists_run_of_everything (σ := SlotPool) ⟨0, 0x4#32, 0⟩ lengthCallbacks
    eightCalls eightAnswers (fun _ => ()) () (by decide +kernel)
  obtain ⟨hnodes, hred⟩ := Prod.mk.inj hs
  obtain ⟨hnodes', hred'⟩ := Prod.mk.inj hs'
  obtain ⟨h₀, h₁⟩ : redAt s (.slot 0) = false ∧ redAt s (.slot 1) = true := by simpa using hred
  obtain ⟨h₀', h₁'⟩ : redAt s' (.slot 0) = true ∧ redAt s' (.slot 1) = false := by simpa using hred'
  refine ⟨s, s', hrun, hrun', ?_, ?_⟩
  · have hsub : ({.slot 0, .slot 1} : Set Ref) ⊆
        {n | Attached s n ∧ Attached s' n ∧ redAt s n ≠ redAt s' n} := by
      rintro n (rfl | rfl)
      · exact ⟨hm.mem_nodesOf.1 (by simp [hnodes]), hm'.mem_nodesOf.1 (by simp [hnodes']),
          by simp [h₀, h₀']⟩
      · exact ⟨hm.mem_nodesOf.1 (by simp [hnodes]), hm'.mem_nodesOf.1 (by simp [hnodes']),
          by simp [h₁, h₁']⟩
    have hfinite : {n | Attached s n ∧ Attached s' n ∧ redAt s n ≠ redAt s' n}.Finite :=
      (List.finite_toSet (nodesOf s)).subset fun n hn => hm.mem_nodesOf.2 hn.1
    have hpair : ({.slot 0, .slot 1} : Set Ref).ncard = 2 := Set.ncard_pair (by decide)
    exact hpair ▸ Set.ncard_le_ncard hsub hfinite
  · have hputs : (eightCalls.zip eightAnswers).countP puts = 3 := by decide
    have htakes : (eightCalls.zip eightAnswers).countP takes = 1 := by decide
    have hcalls : (eightCalls.zip eightAnswers).map Prod.fst = eightCalls := by
      rw [List.map_fst_zip]
      decide
    have hbound := recolorings_of_run _ lengthCallbacks ht
    rwa [hputs, htakes, hcalls] at hbound

end MulleRbtree
