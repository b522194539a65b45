import MulleRbtree.Runs.Amortized
import MulleRbtree.Runs.Balance
import MulleRbtree.Runs.Ownership
import MulleRbtree.Tree.Upkeep

/-!
# What keeping augmented values costs

Each call of the dirty callback cleans a node that an earlier call has soiled, and a call soils
little more than one path of the tree.  So the callback is called a logarithmic number of times for
each change, wherever the dirty walks are put and however many changes come between them.

* `dirtyCalls s`: how often the callback has been called;
* `withinSize σ cb N`: the interface, for trees of at most `N` nodes;
* `dirtyCalls_of_run`: the bound for all calls of a run together;
* `dirtyCalls_of_operation`: the bound for a single operation, which walks at its end.
-/

namespace MulleRbtree

open BinaryTree Cells Program

variable {σ : Type}

/-- Whether an event is a call of the callback of a dirty walk. -/
def Event.isDirtyCall : Event → Bool
  | dirty _ _ _ => true
  | _ => false

/-- How often the callback of a dirty walk has been called. -/
def dirtyCalls (s : Base σ) : ℕ := s.trace.countP Event.isDirtyCall

/-- Whether the call may soil nodes. -/
def soils (p : (Call ⊕ Op) × (Answer ⊕ Result)) : Bool :=
  puts p || takes p || match p.1 with
    | .inl (.markNodeAsDirty _) => true
    | _ => false

/-- What a change may cost in a tree of height `H`. -/
def toll (H : ℕ) (p : (Call ⊕ Op) × (Answer ⊕ Result)) : ℕ := if soils p then H + 4 else 0

/-- At most `N` nodes are attached. -/
def AtMost (N : ℕ) (s : Base σ) : Prop := ∀ ns : Finset Ref, (∀ n ∈ ns, Attached s n) → ns.card ≤ N

/-- The whole interface, for trees of at most `N` nodes. -/
def withinSize (σ : Type) [MulleStorage σ] (cb : Callbacks) (N : ℕ) :
    Interface (Base σ) Fault (Call ⊕ Op) (Answer ⊕ Result) :=
  ⟨fun c s => (everything σ cb).Pre c s ∧ AtMost N s, (everything σ cb).exec⟩

/-! ### Events -/

theorem count_compareEvents (options : BitVec 32) (key : VoidPtr) (u : List Entry) :
    (compareEvents options key u).countP Event.isDirtyCall = 0 := by
  rw [compareEvents, List.countP_map, List.countP_eq_zero]
  intro e _
  exact Bool.false_ne_true

/-- A dirty walk pays for its calls by cleaning nodes. -/
theorem count_washEvents (options : BitVec 32) (T : ETree) :
    (washEvents options T).countP Event.isDirtyCall + dirtyNodes (wash T) = dirtyNodes T := by
  induction T with
  | nil => rfl
  | node e l r ihl ihr =>
    have hnode := dirtyNodes_join .left e l r
    unfold washEvents wash
    split_ifs with he
    · have hclean := dirtyNodes_join .left e.clean (wash l) (wash r)
      have hdirty : e.clean.isDirty = false := Color.isDirty_clearDirty _
      rw [join_left, hdirty] at hclean
      rw [join_left, he] at hnode
      rw [List.countP_append, List.countP_append, hclean, hnode]
      simp only [List.countP_singleton, Event.isDirtyCall, if_true, Bool.toNat_true,
        Bool.toNat_false]
      omega
    · exact Nat.zero_add _

/-! ### One call -/

/-- The calls of the callback so far, and those that are due. -/
def Image.dues (m : Image σ) : ℕ := m.env.trace.countP Event.isDirtyCall + dirtyNodes m.tree

section Dues

variable {E E' : Env σ} {F F' : Multiset Entry} {T T' : ETree} {events : List Event} {H k : ℕ}

theorem dues_walked : (Image.mk (E.traced (washEvents E.options T)) F (wash T)).dues =
    (Image.mk E F T).dues := by
  have h := count_washEvents E.options T
  simp only [Image.dues, Env.traced, List.countP_append]
  omega

/-- Other callbacks are no matter. -/
theorem dues_traced (h : events.countP Event.isDirtyCall = 0) :
    (Image.mk (E.traced events) F T).dues = (Image.mk E F T).dues := by
  simp only [Image.dues, Env.traced, List.countP_append, h, Nat.add_zero]

theorem dues_soiled (htrace : E'.trace = E.trace ++ events)
    (h : events.countP Event.isDirtyCall = 0) (hT : dirtyNodes T' ≤ dirtyNodes T + k) :
    (Image.mk E' F' T').dues ≤ (Image.mk E F T).dues + k := by
  simp only [Image.dues, htrace, List.countP_append, h]
  omega

theorem attach_toll (o : Stamp) {a : Entry} {c : Path Entry} (ha : a.slot ∉ slots (plug c nil))
    (hH : (plug c (nil : ETree)).height ≤ H) :
    dirtyNodes (attach o a c) ≤ dirtyNodes (plug c nil) + (H + 4) := by
  have h := dirtyNodes_attach_le o ha
  have hlength := length_add_height_le c (nil : ETree)
  omega

end Dues

variable [MulleStorage σ] {s s' : Base σ} {m m' : Image σ} {cb : Callbacks} {H N : ℕ}

theorem Evolves.dues_le {c : Call} {r : Answer} (h : Evolves m c r m') (hn : (slots m.tree).Nodup)
    (hH : m.tree.height ≤ H) : m'.dues ≤ m.dues + toll H (.inl c, .inl r) := by
  cases h with
  | newNode => exact le_rfl
  | freeNode => exact le_rfl
  | rejected => exact (dues_traced (count_compareEvents _ _ _)).le
  | @inserted E a F T comp g k hseek ha =>
    obtain rfl : plug g nil = T := (plug_seek hseek).1
    exact dues_soiled rfl (count_compareEvents _ _ _) (attach_toll E.stamp ha hH)
  | @before E a e F c l r k ha =>
    have hplace : plug (Base.beside .left c e l r) nil = plug c (node e l r) :=
      Base.plug_beside .left c e l r
    rw [← hplace] at ha hH ⊢
    exact dues_soiled (List.append_nil _).symm rfl (attach_toll E.stamp ha hH)
  | @after E a e F c l r k ha =>
    have hplace : plug (Base.beside .right c e r l) nil = plug c (node e l r) :=
      Base.plug_beside .right c e r l
    rw [← hplace] at ha hH ⊢
    exact dues_soiled (List.append_nil _).symm rfl (attach_toll E.stamp ha hH)
  | @removed E F c a l r k =>
    have hremove := dirtyNodes_removeAt_le E.stamp.next c a l r
    have hle := le_dirtyNodes c a l r
    refine dues_soiled (List.append_nil _).symm rfl ?_
    show dirtyNodes (removeAt E.stamp.next c a l r) ≤ dirtyNodes (plug c (node a l r)) + (H + 4)
    dsimp only at hH
    omega
  | @marked E F T i hi =>
    have hsoil := dirtyNodes_soilTo_le E.stamp hi hn
    refine dues_soiled (List.append_nil _).symm rfl ?_
    show dirtyNodes (soilTo E.stamp i T) ≤ dirtyNodes T + (H + 4)
    dsimp only at hH
    omega
  | walked => exact dues_walked.le
  | found => exact (dues_traced (count_compareEvents _ _ _)).le
  | reached => exact (dues_traced (count_compareEvents _ _ _)).le
  | next => exact le_rfl
  | previous => exact le_rfl
  | isDirty => exact le_rfl
  | counted => exact le_rfl

theorem unstore_toll (o : Stamp) {c : Path Entry} {a : Entry} {l r : ETree}
    (hH : (plug c (node a l r)).height ≤ H) :
    dirtyNodes (unstore o c a l r) ≤ dirtyNodes (plug c (node a l r)) + (H + 4) := by
  have h := dirtyNodes_unstore_le o c a l r
  omega

theorem Performs.dues_le {op : Op} {r : Result} (h : Performs cb m op r m')
    (hH : m.tree.height ≤ H) : m'.dues ≤ m.dues + toll H (.inr op, .inr r) := by
  cases h with
  | @added E F T v g k hplace ha =>
    obtain rfl : plug g nil = T := (plug_seek hplace).1
    have hsoil : (Image.mk ((E.offered cb (plug g nil) v).advanced.turnedBy k) F
        (attach E.stamp (E.newcomer cb v) g)).dues ≤ (Image.mk E F (plug g nil)).dues + (H + 4) :=
      dues_soiled (List.append_assoc _ _ _) (count_compareEvents _ _ _) (attach_toll E.stamp ha hH)
    exact dues_walked.le.trans hsoil
  | @rejected E F T v =>
    have hrelease : (Image.mk (((E.offered cb T v).traced [.release (E.kept cb v)]).freed
        E.nextSlot) F T).dues = (Image.mk (E.offered cb T v) F T).dues := dues_traced rfl
    have hsoil : (Image.mk (E.offered cb T v) F T).dues ≤ (Image.mk E F T).dues + 0 :=
      dues_soiled (List.append_assoc _ _ _) (count_compareEvents _ _ _) le_rfl
    exact dues_walked.le.trans (hrelease.le.trans hsoil)
  | @removed E F key c a l r k =>
    have hsoil : (Image.mk ((((E.traced (E.comparisons cb (plug c (node a l r)) key true)).traced
        [.release (a.value E.options)]).advanced.freed a.slot).turnedBy k) F
        (unstore E.stamp c a l r)).dues ≤ (Image.mk E F (plug c (node a l r))).dues + (H + 4) := by
      refine dues_soiled (List.append_assoc _ _ _) ?_ (unstore_toll E.stamp hH)
      rw [List.countP_append, Env.comparisons, count_compareEvents]
      rfl
    exact dues_walked.le.trans hsoil
  | missing => exact (dues_traced (count_compareEvents _ _ _)).le
  | @removedNode E F c a l r k =>
    have hsoil : (Image.mk (((E.traced [.release (a.value E.options)]).advanced.freed a.slot).turnedBy
        k) F (unstore E.stamp c a l r)).dues ≤ (Image.mk E F (plug c (node a l r))).dues + (H + 4) :=
      dues_soiled rfl rfl (unstore_toll E.stamp hH)
    exact dues_walked.le.trans hsoil
  | found => exact (dues_traced (count_compareEvents _ _ _)).le
  | reached => exact (dues_traced (count_compareEvents _ _ _)).le
  | isEmpty => exact le_rfl
  | enumerated => exact le_rfl

/-- A tree of at most `N` nodes has a height of at most `2 log₂ (N + 1)`. -/
theorem Represents.height_le (hs : Represents s m) (hN : AtMost N s) :
    m.tree.height ≤ ⌊2 * Real.logb 2 (N + 1)⌋₊ := by
  obtain ⟨⟨z, hr⟩, hm⟩ := hs
  have hcard : m.tree.numNodes ≤ N := by
    have h := hN (m.tree.map Entry.ref).inorder.toFinset fun n hn =>
      (hr.mem_refs n).1 (List.mem_toFinset.1 hn)
    rwa [List.toFinset_card_of_nodup hr.nodup_refs, inorder_map, List.length_map,
      length_inorder] at h
  apply Nat.le_floor
  refine hm.redBlack.height_le.trans ?_
  have hmono : (m.tree.numNodes : ℝ) + 1 ≤ N + 1 := by
    exact_mod_cast Nat.succ_le_succ hcard
  have hlog := Real.logb_le_logb_of_le one_lt_two (by positivity) hmono
  linarith

theorem Represents.dirtyCalls_le (hs : Represents s m) : dirtyCalls s ≤ m.dues := by
  rw [dirtyCalls, hs.trace_eq]
  exact Nat.le_add_right _ _

/-- In a clean tree nothing is due. -/
theorem Represents.dues_eq (hs : Represents s m) (hclean : Clean m.tree) : m.dues = dirtyCalls s := by
  rw [dirtyCalls, hs.trace_eq, Image.dues, dirtyNodes_of_clean hclean, Nat.add_zero]

theorem floor_height_le (N : ℕ) :
    (⌊2 * Real.logb 2 ((N : ℝ) + 1)⌋₊ : ℝ) ≤ 2 * Real.logb 2 (N + 1) := by
  apply Nat.floor_le
  have h := Real.logb_nonneg one_lt_two (le_add_of_nonneg_left (Nat.cast_nonneg (α := ℝ) N))
  exact mul_nonneg zero_le_two h

theorem everything_dues {c : Call ⊕ Op} (hs : Represents s m) (hH : m.tree.height ≤ H)
    (hp : (everything σ cb).Pre c s) : Ensures ((everything σ cb).exec c) s fun r s' =>
      ∃ m', Represents s' m' ∧ m'.dues ≤ m.dues + toll H (c, r) := by
  cases c with
  | inl c =>
    refine Ensures.map ((exec_represents hs hp).mono ?_)
    rintro r s' ⟨m', he, hs'⟩
    obtain ⟨⟨z, hr⟩, -⟩ := hs
    exact ⟨m', hs', he.dues_le hr.nodup_slots hH⟩
  | inr op =>
    refine Ensures.map ((op_represents hs hp).mono ?_)
    rintro r s' ⟨m', he, hs'⟩
    exact ⟨m', hs', he.dues_le hH⟩

/-! ### Runs -/

/-- At most `k` calls of the callback have been made or are due. -/
def Owes (s : Base σ) (k : ℕ) : Prop := ∃ m : Image σ, Represents s m ∧ m.dues ≤ k

theorem foldl_toll (H k : ℕ) (h : List ((Call ⊕ Op) × (Answer ⊕ Result))) :
    h.foldl (fun k p => k + toll H p) k = k + h.countP soils * (H + 4) := by
  induction h generalizing k with
  | nil => simp
  | cons p h ih =>
    rw [List.foldl_cons, ih, List.countP_cons, toll]
    split_ifs <;> ring

/-- In a run in which the tree never has more than `N` nodes, however the calls are mixed, the dirty
callback is called at most `2 log₂ (N + 1) + 4` times for each insertion, removal or explicit
mark. -/
theorem dirtyCalls_of_run (config : Config)
    {h : List ((Call ⊕ Op) × (Answer ⊕ Result))}
    (hrun : (withinSize σ cb N).Run (Base.initWithConfig config) h s) :
    (dirtyCalls s : ℝ) ≤ h.countP soils * (2 * Real.logb 2 (N + 1) + 4) := by
  have hstep : ∀ c s k, Owes s k → (withinSize σ cb N).Pre c s →
      Ensures ((withinSize σ cb N).exec c) s fun r s' =>
        Owes s' (k + toll ⌊2 * Real.logb 2 (N + 1)⌋₊ (c, r)) := by
    rintro c s k ⟨m, hs, hk⟩ ⟨hp, hN⟩
    refine (everything_dues hs (hs.height_le hN) hp).mono ?_
    rintro r s' ⟨m', hs', hdues⟩
    exact ⟨m', hs', by omega⟩
  have howes : Owes (Base.initWithConfig config : Base σ) 0 :=
    ⟨_, ⟨shows_init config, sound_init config⟩, le_rfl⟩
  have hrun' : Owes s (h.foldl (fun k p => k + toll ⌊2 * Real.logb 2 (N + 1)⌋₊ p) 0) :=
    hrun.foldl hstep howes
  obtain ⟨m, hs, hk⟩ := hrun'
  rw [foldl_toll, Nat.zero_add] at hk
  have hcast : (dirtyCalls s : ℝ) ≤ h.countP soils * (⌊2 * Real.logb 2 ((N : ℝ) + 1)⌋₊ + 4) := by
    exact_mod_cast hs.dirtyCalls_le.trans hk
  have hfloor := floor_height_le N
  exact hcast.trans (mul_le_mul_of_nonneg_left (by linarith) (Nat.cast_nonneg _))

/-- May the call be made, in a tree of at most `N` nodes? -/
def checkWithin (N : ℕ) (c : Call ⊕ Op) (s : Base σ) : Bool := check c s && (nodesOf s).length ≤ N

theorem Represents.atMost_nodesOf (hs : Represents s m) : AtMost (nodesOf s).length s := by
  intro ns hns
  have hsub : ns ⊆ (nodesOf s).toFinset := fun n hn =>
    List.mem_toFinset.2 (hs.mem_nodesOf.2 (hns n hn))
  exact (Finset.card_le_card hsub).trans (List.toFinset_card_le _)

/-- Calls in trees of at most `N` nodes that are carried out on a new tree are a run. -/
theorem exists_run_within (N : ℕ) (config : Config) (cb : Callbacks) (cs : List (Call ⊕ Op))
    (as : List (Answer ⊕ Result)) {β : Type} (f : Base σ → β) (b : β)
    (h : ((withinSize σ cb N).follow (checkWithin N) cs (Base.initWithConfig config)).map
      (Prod.map id f) = some (as, b)) :
    ∃ s, (withinSize σ cb N).Run (Base.initWithConfig config) (cs.zip as) s ∧
      (∃ m : Image σ, Represents s m) ∧ f s = b := by
  refine Interface.exists_run_of_follow (S := withinSize σ cb N) (fun c s hs hc => ?_)
    (fun c s hs hp => everything_keeps c s hs hp.1) (represents_init config) h
  obtain ⟨hcheck, hlength⟩ := (Bool.and_eq_true _ _).mp hc
  obtain ⟨m, hm⟩ := id hs
  exact ⟨pre_of_check hs hcheck, fun ns hns =>
    (hm.atMost_nodesOf ns hns).trans (of_decide_eq_true hlength)⟩

/-- Three nodes are inserted and another one is made, the tree is walked, and a value is removed. -/
def nineCalls : List (Call ⊕ Op) :=
  threeCalls.map .inl ++ [.inl .walkDirty, .inr (.remove (ofLength 2))]

def nineAnswers : List (Answer ⊕ Result) := threeAnswers.map .inl ++ [.inl .done, .inr (.code 0)]

theorem dirtyCalls_of_run_nine : ∃ s : Base SlotPool, InOrder s [.slot 0, .slot 2] ∧
    dirtyCalls s = 4 ∧ (dirtyCalls s : ℝ) ≤ (4 : ℕ) * (2 * Real.logb 2 ((3 : ℕ) + 1) + 4) := by
  obtain ⟨s, hrun, ⟨m, hm⟩, hs⟩ := exists_run_within (σ := SlotPool) 3 ⟨0, 0x4#32, 0⟩ lengthCallbacks
    nineCalls nineAnswers (fun s => (nodesOf s, dirtyCalls s)) ([.slot 0, .slot 2], 4)
    (by decide +kernel)
  obtain ⟨hnodes, hcount⟩ := Prod.mk.inj hs
  have hsoils : (nineCalls.zip nineAnswers).countP soils = 4 := by decide
  have hbound := dirtyCalls_of_run ⟨0, 0x4#32, 0⟩ hrun
  rw [hsoils] at hbound
  exact ⟨s, hnodes ▸ hm.inOrder, hcount, hbound⟩

/-- An operation, with the walk at its end, calls the dirty callback at most `2 log₂ (n + 1) + 4`
times in a tree of `n` nodes. -/
theorem dirtyCalls_of_operation (config : Config) {h : List (Op × Result)}
    (hrun : (operations σ cb).Run (Base.initWithConfig config) h s) {op : Op} (hop : op.Pre s) :
    ∃ (r : Result) (s' : Base σ) (ns : Finset Ref), op.exec cb s = .ok (r, s') ∧
      (∀ n, n ∈ ns ↔ Attached s n) ∧
      (dirtyCalls s' : ℝ) ≤ dirtyCalls s + (2 * Real.logb 2 (ns.card + 1) + 4) := by
  obtain ⟨m, hsteps, hs⟩ := run_performs hrun ⟨shows_init config, sound_init config⟩
  have hclean := (Performs.steps_settled hsteps (settled_init config)).clean
  obtain ⟨⟨z, hr⟩, -⟩ := id hs
  have hmem : ∀ n, n ∈ (m.tree.map Entry.ref).inorder.toFinset ↔ Attached s n := by
    intro n
    rw [List.mem_toFinset, hr.mem_refs]
  have hN : AtMost (m.tree.map Entry.ref).inorder.toFinset.card s := fun ns hns =>
    Finset.card_le_card fun n hn => (hmem n).2 (hns n hn)
  obtain ⟨r, s', he, m', hperforms, hs'⟩ : Ensures (op.exec cb) s _ := op_represents hs hop
  refine ⟨r, s', _, he, hmem, ?_⟩
  have hdues := (hs'.dirtyCalls_le.trans (hperforms.dues_le (hs.height_le hN)))
  rw [hs.dues_eq hclean, toll] at hdues
  have hfloor := floor_height_le (m.tree.map Entry.ref).inorder.toFinset.card
  have hcast : (dirtyCalls s' : ℝ) ≤ dirtyCalls s +
      (⌊2 * Real.logb 2 (((m.tree.map Entry.ref).inorder.toFinset.card : ℝ) + 1)⌋₊ + 4) := by
    have hbound : dirtyCalls s' ≤ dirtyCalls s +
        (⌊2 * Real.logb 2 (((m.tree.map Entry.ref).inorder.toFinset.card : ℝ) + 1)⌋₊ + 4) := by
      split_ifs at hdues <;> omega
    exact_mod_cast hbound
  linarith

/-- After three values have been added and one has been removed, another one is added. -/
theorem dirtyCalls_of_operation_sixth : ∃ (s : Base SlotPool) (r : Result) (s' : Base SlotPool)
    (ns : Finset Ref), InOrder s [.slot 0, .slot 2] ∧
      (Op.add (ofLength 3)).exec lengthCallbacks s = .ok (r, s') ∧ (∀ n, n ∈ ns ↔ Attached s n) ∧
      (dirtyCalls s' : ℝ) ≤ dirtyCalls s + (2 * Real.logb 2 (ns.card + 1) + 4) := by
  obtain ⟨s, hrun, hin, -⟩ := exists_five
  have hadd : (Op.add (ofLength 3)).Pre s := trivial
  obtain ⟨r, s', ns, hop⟩ := dirtyCalls_of_operation ⟨0, 0x4#32, 0⟩ hrun hadd
  exact ⟨s, r, s', ns, hin, hop⟩

end MulleRbtree
