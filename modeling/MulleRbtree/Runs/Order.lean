import MulleRbtree.Runs.Operations
import MulleRbtree.Runs.Sorted

/-!
# Ordered collections

The operations of `mulle-rbtree.h` under a comparison that is a total preorder on values and keys.

* `storedAt`: the form in which a value would be stored now;
* `orderedOperations σ cb D`: the interface, with values and keys in the domain `D`;
* `run_ordered`: in such runs the tree is sorted;
* `Collects`: the reference, an ordered set or multiset;
* `collects_of_run`: every result agrees with the reference;
* `failure_changes_nothing`: an operation that reports failure leaves everything as it was.
-/

namespace MulleRbtree

open BinaryTree Cells Program

variable {σ : Type} [MulleStorage σ]

/-! ### Operations within a domain -/

/-- The form in which `_mulle_rbtree_add` would store a value: what `retain` answers and, in extra
mode, the copy of that. -/
def storedAt (cb : Callbacks) (s : Base σ) (v : VoidPtr) : VoidPtr :=
  stored s.options (MulleStorage.getElementSize s.nodes - offsetofPayload)
    (MulleStorage.malloc s.nodes).1 (cb.retain s.trace v)

/-- What is compared is in the domain. -/
def Op.Within (cb : Callbacks) (D : Set VoidPtr) : Op → Base σ → Prop
  | add v, s => storedAt cb s v ∈ D
  | remove key, _ => key ∈ D
  | find key, _ => key ∈ D
  | findEqualOrGreater key, _ => key ∈ D
  | _, _ => True

/-- The interface, with values and keys in the domain of the comparison. -/
def orderedOperations (σ : Type) [MulleStorage σ] (cb : Callbacks) (D : Set VoidPtr) :
    Interface (Base σ) Fault Op Result :=
  ⟨fun op s => op.Pre s ∧ op.Within cb D s, Op.exec cb⟩

/-- What holds between the operations. -/
structure Ordered (comp : VoidPtr → VoidPtr → ℤ) (D : Set VoidPtr) (m : Image σ) : Prop where
  settled : Settled m
  arranged : Arranged m.env.options comp D (items m.tree)

theorem ordered_init (config : Config) {comp : VoidPtr → VoidPtr → ℤ} {D : Set VoidPtr} :
    Ordered comp D (.init config : Image σ) := ⟨settled_init config, arranged_nil⟩

section Operations

variable {cb : Callbacks} {D : Set VoidPtr} {s : Base σ} {m m' : Image σ} {op : Op} {r : Result}

theorem Repr.storedAt_eq {E : Env σ} {z : Sentinel} {K : Multiset Cell} {T : ETree}
    (h : Repr s E z K T) (v : VoidPtr) : storedAt cb s v = (E.newcomer cb v).value E.options := by
  rw [Env.newcomer, Env.fresh, value_fresh, Env.kept, Env.extraSize, Env.nextSlot, storedAt,
    Holds.options_eq h, Holds.nodes_eq h, Holds.trace_eq h]

/-- What happens to the tree happens to the sequence. -/
theorem Performs.arranges (hp : PreorderOn cb.comparison D) (hs : Represents s m)
    (hm : Ordered cb.comparison D m) (hop : op.Within cb D s) (h : Performs cb m op r m') :
    ∃ c a, Arranges m.env.options cb.comparison D (items m.tree) c a (items m'.tree) := by
  have hsame : ∀ u, Arranges m.env.options cb.comparison D u .walkDirty .done u :=
    .other fun _ => rfl
  obtain ⟨⟨z, hr⟩, -⟩ := hs
  cases h with
  | @added E F T v g k hplace ha hk =>
    have hw : (E.newcomer cb v).value E.options ∈ D := hr.storedAt_eq v ▸ hop
    have hmove := hm.arranged.place hp hw ha E.stamp hplace
    rw [← items_wash (attach _ _ _)] at hmove
    exact ⟨_, _, hmove⟩
  | rejected =>
    refine ⟨.walkDirty, .done, ?_⟩
    rw [items_wash]
    exact hsame _
  | @removed E F key c a l r k hfind hk =>
    obtain ⟨u, v, h₁, h₂⟩ := items_unstore_split E.stamp c a l r
    refine ⟨.removeNode a.item.ref, .done, ?_⟩
    rw [items_wash, h₁, h₂]
    exact .removed u v a.item
  | @removedNode E F c a l r k hk =>
    obtain ⟨u, v, h₁, h₂⟩ := items_unstore_split E.stamp c a l r
    refine ⟨.removeNode a.item.ref, .done, ?_⟩
    rw [items_wash, h₁, h₂]
    exact .removed u v a.item
  | missing => exact ⟨_, _, hsame _⟩
  | found => exact ⟨_, _, hsame _⟩
  | reached => exact ⟨_, _, hsame _⟩
  | isEmpty => exact ⟨_, _, hsame _⟩
  | enumerated => exact ⟨_, _, hsame _⟩

theorem Performs.ordered (hp : PreorderOn cb.comparison D) (hs : Represents s m)
    (hm : Ordered cb.comparison D m) (hop : op.Within cb D s) (h : Performs cb m op r m') :
    Ordered cb.comparison D m' := by
  obtain ⟨c, a, ha⟩ := h.arranges hp hs hm hop
  exact ⟨h.settled hm.settled, h.options_eq ▸ ha.arranged hp hm.arranged⟩

/-- In every state of such a run the tree is sorted. -/
theorem run_ordered (config : Config) (hp : PreorderOn cb.comparison D) {h : List (Op × Result)}
    (hrun : (orderedOperations σ cb D).Run (Base.initWithConfig config) h s) :
    ∃ m : Image σ, Represents s m ∧ Ordered cb.comparison D m ∧ m.env.options = config.options := by
  refine hrun.keeps (I := fun s => ∃ m : Image σ, Represents s m ∧ Ordered cb.comparison D m ∧
    m.env.options = config.options) ?_
    ⟨_, ⟨shows_init config, sound_init config⟩, ordered_init config, rfl⟩
  rintro op s ⟨m, hs, hm, ho⟩ ⟨hpre, hop⟩
  refine (op_represents hs hpre).mono fun r s' ⟨m', he, hs'⟩ => ?_
  exact ⟨m', hs', he.ordered hp hs hm hop, he.options_eq.trans ho⟩

end Operations

/-! ### The reference -/

/-- An ordered collection: a set without the option for duplicates, a multiset with it.  `v'` is the
form in which `v` is stored. -/
inductive Collects (cb : Callbacks) (options : BitVec 32) :
    List VoidPtr → Op → Result → List VoidPtr → Prop
  | added {u w : List VoidPtr} {v v' : VoidPtr}
      (hform : ∃ trace size i, v' = stored options size i (cb.retain trace v))
      (hu : ∀ b ∈ u, cb.comparison b v ≤ 0) (hw : ∀ b ∈ w, cb.comparison v b < 0)
      (hnew : Options.allowDuplicates options = false → ∀ b ∈ u ++ w, cb.comparison v b ≠ 0) :
      Collects cb options (u ++ w) (.add v) (.code 0) (u ++ v' :: w)
  | refused {u : List VoidPtr} {v b : VoidPtr} (hdup : Options.allowDuplicates options = false)
      (hb : b ∈ u) (heq : cb.comparison v b = 0) :
      Collects cb options u (.add v) (.code EEXIST) u
  | removed {u w : List VoidPtr} {key b : VoidPtr} (heq : cb.comparison key b = 0) :
      Collects cb options (u ++ b :: w) (.remove key) (.code 0) (u ++ w)
  | missing {u : List VoidPtr} {key : VoidPtr} (hne : ∀ b ∈ u, cb.comparison key b ≠ 0) :
      Collects cb options u (.remove key) (.code ENOENT) u
  | found {u : List VoidPtr} {key b : VoidPtr} (hb : b ∈ u) (heq : cb.comparison key b = 0) :
      Collects cb options u (.find key) (.value b) u
  | notFound {u : List VoidPtr} {key : VoidPtr} (hne : ∀ b ∈ u, cb.comparison key b ≠ 0) :
      Collects cb options u (.find key) (.value null) u
  | least {u : List VoidPtr} {key b : VoidPtr} (hb : b ∈ u) (hle : cb.comparison key b ≤ 0)
      (hleast : ∀ a ∈ u, cb.comparison key a ≤ 0 → cb.comparison b a ≤ 0) :
      Collects cb options u (.findEqualOrGreater key) (.value b) u
  | noneLeft {u : List VoidPtr} {key : VoidPtr} (hlt : ∀ b ∈ u, 0 < cb.comparison key b) :
      Collects cb options u (.findEqualOrGreater key) (.value null) u
  | isEmpty (u : List VoidPtr) : Collects cb options u .isEmpty (.flag (decide (u = []))) u
  | enumerated (u : List VoidPtr) : Collects cb options u .enumerate (.values u) u

/-- The operations of the reference: values compare like their stored form. -/
def Op.Faithful (cb : Callbacks) (D : Set VoidPtr) : Op → Base σ → Prop
  | add v, s => v ∈ D ∧ storedAt cb s v ∈ D ∧ cb.comparison v (storedAt cb s v) = 0
  | remove key, _ => key ∈ D
  | removeNode _, _ => False
  | find key, _ => key ∈ D
  | findEqualOrGreater key, _ => key ∈ D
  | _, _ => True

/-- The interface of an ordered collection. -/
def collection (σ : Type) [MulleStorage σ] (cb : Callbacks) (D : Set VoidPtr) :
    Interface (Base σ) Fault Op Result := ⟨Op.Faithful cb D, Op.exec cb⟩

section Reference

variable {cb : Callbacks} {D : Set VoidPtr} {s : Base σ} {m m' : Image σ} {op : Op} {r : Result}

theorem Op.Faithful.pre (h : op.Faithful cb D s) : op.Pre s ∧ op.Within cb D s := by
  cases op with
  | add v => exact ⟨trivial, h.2.1⟩
  | removeNode n => exact h.elim
  | remove key => exact ⟨trivial, h⟩
  | find key => exact ⟨trivial, h⟩
  | findEqualOrGreater key => exact ⟨trivial, h⟩
  | isEmpty => exact ⟨trivial, trivial⟩
  | enumerate => exact ⟨trivial, trivial⟩

theorem mem_values {options : BitVec 32} {T : ETree} {b : VoidPtr} :
    b ∈ values options T ↔ ∃ e ∈ T.inorder, e.value options = b := by
  rw [values_eq, List.mem_map]

section Tree

variable {options : BitVec 32} {T : ETree} {key v w : VoidPtr}

/-- Where the stored form `w` of a value finds its place, the value itself belongs. -/
theorem Arranged.belongs (hp : PreorderOn cb.comparison D)
    (h : Arranged options cb.comparison D (items T)) (hv : v ∈ D) (hw : w ∈ D)
    (heq : cb.comparison v w = 0) {g : Path Entry}
    (hplace : seek (matching options cb.comparison w) (halts options) [] T = some g) :
    (∀ e ∈ before g, cb.comparison (e.value options) v ≤ 0) ∧
      (∀ e ∈ after g, cb.comparison v (e.value options) < 0) ∧
      (Options.allowDuplicates options = false →
        ∀ e ∈ T.inorder, cb.comparison v (e.value options) ≠ 0) := by
  obtain ⟨hsplit, hbefore, hafter, hno⟩ := seek_spec (h.cut hp hw) hplace
  -- the value compares like its stored form
  have hcongr : ∀ e ∈ T.inorder,
      (cb.comparison v (e.value options) < 0 ↔ matching options cb.comparison w e < 0) ∧
      (cb.comparison v (e.value options) = 0 ↔ matching options cb.comparison w e = 0) :=
    fun e he => hp.congr hv hw (h.mem_domain he) heq
  refine ⟨fun e he => ?_, fun e he => ?_, fun hdup e he h₀ => ?_⟩
  · have hin : e ∈ T.inorder := hsplit ▸ List.mem_append_left _ he
    refine (hp.le_iff (h.mem_domain hin) hv).2 (not_lt.1 fun hlt => ?_)
    exact absurd (hbefore e he) (not_le.2 ((hcongr e hin).1.1 hlt))
  · exact (hcongr e (hsplit ▸ List.mem_append_right _ he)).1.2 (hafter e he)
  · exact hno (by rw [halts]; simpa using hdup) e he ((hcongr e he).2.1 h₀)

theorem Collects.of_lookup (hp : PreorderOn cb.comparison D)
    (h : Arranged options cb.comparison D (items T)) (hkey : key ∈ D) :
    Collects cb options (values options T) (.find key)
      (.value (valueOf options (lookup (matching options cb.comparison key) T)))
      (values options T) := by
  cases hfind : lookup (matching options cb.comparison key) T with
  | none =>
    refine .notFound fun b hb => ?_
    obtain ⟨e, he, rfl⟩ := mem_values.1 hb
    exact lookup_spec (h.cut hp hkey) hfind e he
  | some a =>
    obtain ⟨ha, h₀⟩ := mem_of_lookup hfind
    exact .found (mem_values.2 ⟨a, ha, rfl⟩) h₀

theorem Collects.of_ceiling (hp : PreorderOn cb.comparison D)
    (h : Arranged options cb.comparison D (items T)) (hkey : key ∈ D) :
    Collects cb options (values options T) (.findEqualOrGreater key)
      (.value (valueOf options (ceiling (matching options cb.comparison key) T none)))
      (values options T) := by
  rcases ceiling_spec (h.cut hp hkey) none with ⟨u, a, v, hT, hceil, ha, hu, hu'⟩ | ⟨hall, hceil⟩
  · have hin : a ∈ T.inorder := by simp [hT]
    rw [hceil]
    refine .least (mem_values.2 ⟨a, hin, rfl⟩) ha fun b hb hle => ?_
    obtain ⟨e, he, rfl⟩ := mem_values.1 hb
    have hsplit := he
    rw [hT, List.mem_append, List.mem_cons] at hsplit
    rcases hsplit with hsplit | rfl | hsplit
    · -- before the answer there are only equal values, and only if the answer is one
      have h₁ := hu e hsplit
      have h₀ : cb.comparison key (e.value options) = 0 := le_antisymm hle h₁
      have ha₀ : cb.comparison key (a.value options) = 0 := by
        by_contra hne
        have := hu' (lt_of_le_of_ne ha hne) e hsplit
        exact absurd h₀ this.ne'
      exact (((hp.congr hkey (h.mem_domain hin) (h.mem_domain he) ha₀).2).1 h₀).le
    · have hself := hp.lt_iff _ (h.mem_domain he) _ (h.mem_domain he)
      exact not_lt.1 fun hlt => absurd (hself.2 hlt) (not_lt.2 hlt.le)
    · have hasc := h.ascending
      rw [← values, values_eq, hT, List.map_append, List.map_cons] at hasc
      have hafter := (List.pairwise_append.1 hasc).2.1
      exact List.rel_of_pairwise_cons hafter (List.mem_map_of_mem hsplit)
  · rw [hceil]
    refine .noneLeft fun b hb => ?_
    obtain ⟨e, he, rfl⟩ := mem_values.1 hb
    exact hall e he

end Tree

/-- Every answer is one the reference can give. -/
theorem Performs.collects (hp : PreorderOn cb.comparison D) (hs : Represents s m)
    (hm : Ordered cb.comparison D m) (hop : op.Faithful cb D s) (h : Performs cb m op r m') :
    Collects cb m.env.options (values m.env.options m.tree) op r (values m.env.options m'.tree) := by
  obtain ⟨⟨z, hr⟩, -⟩ := hs
  obtain ⟨-, harr⟩ := hm
  cases h with
  | @added E F T v g k hplace ha hk =>
    obtain ⟨hv, hw, heq⟩ := hop
    rw [hr.storedAt_eq] at hw heq
    obtain ⟨hbefore, hafter, hno⟩ := harr.belongs hp hv hw heq hplace
    obtain ⟨hsplit, -, -, -⟩ := seek_spec (harr.cut hp hw) hplace
    obtain ⟨-, hitems⟩ := items_attach_split (o := E.stamp) (a := E.newcomer cb v) (c := g)
    have hT : values E.options T =
        (before g).map (Entry.value E.options) ++ (after g).map (Entry.value E.options) := by
      rw [values_eq, hsplit, List.map_append]
    have hT' : values E.options (attach E.stamp (E.newcomer cb v) g) =
        (before g).map (Entry.value E.options) ++
          (E.newcomer cb v).value E.options :: (after g).map (Entry.value E.options) := by
      rw [values, hitems, List.map_append, List.map_cons, List.map_map, List.map_map]
      rfl
    dsimp only
    rw [values_wash, hT', hT]
    refine .added ⟨_, _, _, value_fresh _ _⟩ (List.forall_mem_map.2 hbefore)
      (List.forall_mem_map.2 hafter) fun hdup b hb => ?_
    rw [← hT] at hb
    obtain ⟨e, he, rfl⟩ := mem_values.1 hb
    exact hno hdup e he
  | @rejected E F T v hplace =>
    obtain ⟨hv, hw, heq⟩ := hop
    rw [hr.storedAt_eq] at hw heq
    obtain ⟨hh, e, he, h₀⟩ := seek_eq_none hplace
    dsimp only
    rw [values_wash]
    refine .refused (by simpa [halts] using hh) (mem_values.2 ⟨e, he, rfl⟩) ?_
    exact ((hp.congr hv hw (harr.mem_domain he) heq).2).2 h₀
  | @removed E F key c a l r k hfind hk =>
    obtain ⟨u, v, h₁, h₂⟩ := items_unstore_split E.stamp c a l r
    dsimp only
    rw [values, values, items_wash, h₁, h₂, List.map_append, List.map_append, List.map_cons]
    exact .removed (mem_of_lookup hfind).2
  | @missing E F T key hfind =>
    refine .missing fun b hb => ?_
    obtain ⟨e, he, rfl⟩ := mem_values.1 hb
    exact lookup_spec (harr.cut hp hop) hfind e he
  | found E F T key => exact .of_lookup hp harr hop
  | reached E F T key => exact .of_ceiling hp harr hop
  | isEmpty E F T =>
    have hnil : T = nil ↔ values E.options T = [] := by
      rw [values_eq, List.map_eq_nil_iff]
      cases T <;> simp
    simp only [hnil]
    exact .isEmpty _
  | enumerated E F T => exact .enumerated _
  | removedNode => exact hop.elim

/-- Every result of a run agrees with the reference, and every operation returns. -/
theorem collects_of_run (config : Config) (hp : PreorderOn cb.comparison D)
    {h : List (Op × Result)} (hrun : (collection σ cb D).Run (Base.initWithConfig config) h s) :
    ∃ L, Steps (Collects cb config.options) [] h L ∧ Ascending cb.comparison L ∧
      (∃ ns, InOrder s ns ∧ ns.Nodup ∧ ns.map (valueAt s) = L) ∧
      ∀ op : Op, op.Faithful cb D s → ∃ r s', op.exec cb s = .ok (r, s') := by
  have hstep : ∀ (op : Op) (s : Base σ) (L : List VoidPtr),
      (∃ m : Image σ, Represents s m ∧ Ordered cb.comparison D m ∧ m.env.options = config.options ∧
        values config.options m.tree = L) → op.Faithful cb D s →
      Ensures (op.exec cb) s fun r s' => ∃ L', Collects cb config.options L op r L' ∧
        ∃ m : Image σ, Represents s' m ∧ Ordered cb.comparison D m ∧ m.env.options = config.options ∧
          values config.options m.tree = L' := by
    rintro op s L ⟨m, hs, hm, ho, rfl⟩ hop
    refine (op_represents hs hop.pre.1).mono fun r s' ⟨m', he, hs'⟩ => ?_
    have hcollects := he.collects hp hs hm hop
    rw [ho] at hcollects
    exact ⟨_, hcollects, m', hs', he.ordered hp hs hm hop.pre.2, he.options_eq.trans ho, rfl⟩
  have hinit : ∃ m : Image σ, Represents (Base.initWithConfig config : Base σ) m ∧
      Ordered cb.comparison D m ∧ m.env.options = config.options ∧
      values config.options m.tree = [] :=
    ⟨_, ⟨shows_init config, sound_init config⟩, ordered_init config, rfl, rfl⟩
  obtain ⟨L, hsteps, m, hs, hm, ho, rfl⟩ := hrun.simulate hstep hinit
  obtain ⟨⟨z, hr⟩, -⟩ := id hs
  refine ⟨_, hsteps, ho ▸ hm.arranged.ascending, ⟨_, hr.inOrder, ?_, ?_⟩, fun op hop => ?_⟩
  · have hn := hr.nodup_refs
    rwa [inorder_map] at hn
  · rw [hr.map_valueAt, ho, values_eq]
  · obtain ⟨r, s', he, -⟩ : Ensures (op.exec cb) s _ := op_represents hs hop.pre.1
    exact ⟨r, s', he⟩

end Reference

/-- May the operation of a collection be made? -/
def Op.checkFaithful (cb : Callbacks) : Op → Base σ → Bool
  | add v, s => cb.comparison v (storedAt cb s v) = 0
  | removeNode _, _ => false
  | _, _ => true

theorem Op.faithful_of_check {cb : Callbacks} {op : Op} {s : Base σ}
    (h : op.checkFaithful cb s = true) : op.Faithful cb Set.univ s := by
  cases op with
  | add v => exact ⟨trivial, trivial, of_decide_eq_true h⟩
  | removeNode n => cases h
  | remove key => trivial
  | find key => trivial
  | findEqualOrGreater key => trivial
  | isEmpty => trivial
  | enumerate => trivial

/-- Operations of a collection that are carried out on a new tree are a run. -/
theorem exists_run_of_collection (config : Config) (cb : Callbacks) (ops : List Op)
    (rs : List Result) {β : Type} (f : Base σ → β) (b : β)
    (h : ((collection σ cb Set.univ).follow (Op.checkFaithful cb) ops
      (Base.initWithConfig config)).map (Prod.map id f) = some (rs, b)) :
    ∃ s, (collection σ cb Set.univ).Run (Base.initWithConfig config) (ops.zip rs) s ∧
      (∃ m : Image σ, Represents s m) ∧ f s = b :=
  Interface.exists_run_of_follow (fun _ _ _ => Op.faithful_of_check)
    (fun op s hs hop => operations_keeps op s hs (Op.Faithful.pre hop).1) (represents_init config) h

/-- Three values are added, one of them again, and then it is removed. -/
theorem collects_of_run_five : ∃ s : Base SlotPool, InOrder s [.slot 0, .slot 2] ∧
    Steps (Collects lengthCallbacks 0x4#32) []
      ((fiveOps (ofLength 0) (ofLength 2) (ofLength 4)).zip fiveResults) [ofLength 0, ofLength 4] ∧
    Ascending byLength [ofLength 0, ofLength 4] ∧
    ∀ op : Op, op.Faithful lengthCallbacks Set.univ s →
      ∃ r s', op.exec lengthCallbacks s = .ok (r, s') := by
  obtain ⟨s, hrun, ⟨m, hm⟩, hs⟩ := exists_run_of_collection (σ := SlotPool) ⟨0, 0x4#32, 0⟩
    lengthCallbacks (fiveOps (ofLength 0) (ofLength 2) (ofLength 4)) fiveResults
    (fun s => (nodesOf s, [.slot 0, .slot 2].map (valueAt s)))
    ([.slot 0, .slot 2], [ofLength 0, ofLength 4]) (by decide +kernel)
  obtain ⟨hnodes, hvalues⟩ := Prod.mk.inj hs
  have hin : InOrder s [.slot 0, .slot 2] := hnodes ▸ hm.inOrder
  obtain ⟨L, hsteps, hasc, ⟨ns, hns, -, rfl⟩, hall⟩ :=
    collects_of_run ⟨0, 0x4#32, 0⟩ preorderOn_byLength hrun
  obtain rfl := hns.unique hin
  rw [hvalues] at hsteps hasc
  exact ⟨s, hin, hsteps, hasc, hall⟩

/-! ### Operations that report failure -/

/-- An equal value is attached. -/
def EqualAttached (s : Base σ) (comp : VoidPtr → VoidPtr → ℤ) (v : VoidPtr) : Prop :=
  ∃ n, Attached s n ∧ comp v (valueAt s n) = 0

/-- The tree, its flags and its pool are as before. -/
structure Untouched (s s' : Base σ) : Prop where
  root : s'.root = s.root
  mem : s'.mem = s.mem
  options : s'.options = s.options
  live : MulleStorage.live s'.nodes = MulleStorage.live s.nodes

/-- Calls of the comparison. -/
def Comparisons (events : List Event) : Prop := ∀ e ∈ events, ∃ a b, e = .compare a b

section Failure

variable {cb : Callbacks} {D : Set VoidPtr} {s : Base σ} {E : Env σ} {z : Sentinel} {T : ETree}

omit [MulleStorage σ] in
theorem comparisons_comparisons (E : Env σ) (cb : Callbacks) (T : ETree) (key : VoidPtr)
    (halt : Bool) : Comparisons (E.comparisons cb T key halt) := by
  intro e he
  rw [Env.comparisons, compareEvents, List.mem_map] at he
  obtain ⟨a, -, rfl⟩ := he
  exact ⟨_, _, rfl⟩

theorem Repr.equalAttached_iff {K : Multiset Cell} (h : Repr s E z K T) {v : VoidPtr} :
    EqualAttached s cb.comparison v ↔ ∃ e ∈ T.inorder, matching E.options cb.comparison v e = 0 := by
  constructor
  · rintro ⟨n, hn, h₀⟩
    obtain ⟨e, he, rfl⟩ := h.exists_mem_of_attached hn
    rw [h.valueAt_eq he] at h₀
    exact ⟨e, he, h₀⟩
  · rintro ⟨e, he, h₀⟩
    refine ⟨e.ref, h.attached_ref he, ?_⟩
    rw [h.valueAt_eq he]
    exact h₀

/-- The same cells, the same tree. -/
theorem Repr.untouched {s' : Base σ} {E' : Env σ} {K : Multiset Cell} (h : Repr s E z K T)
    (h' : Repr s' E' z K T) (ho : E'.options = E.options) : Untouched s s' := by
  obtain ⟨hroot, hmem⟩ := h.mem_eq h'
  refine ⟨hroot, hmem, ?_, ?_⟩
  · rw [Holds.options_eq h, Holds.options_eq h', ho]
  · ext i
    have hl := Holds.live h i
    have hl' := Holds.live h' i
    rw [Holds.nodes_eq h, Holds.nodes_eq h', hl, hl']

theorem Repr.add_fails (h : Repr s E z 0 T) (hp : PreorderOn cb.comparison D)
    (hm : Ordered cb.comparison D ⟨E, 0, T⟩) {v : VoidPtr} (hv : storedAt cb s v ∈ D) :
    ∃ r s', Rbtree.add cb v s = .ok (r, s') ∧
      (r ≠ 0 ↔ Options.allowDuplicates s.options = false ∧
        EqualAttached s cb.comparison (storedAt cb s v)) ∧
      (r ≠ 0 → r = EEXIST ∧ Untouched s s' ∧ ∃ events, Comparisons events ∧
        s'.trace = s.trace ++ (.retain v (cb.retain s.trace v) :: (events ++
          [.release (cb.retain s.trace v)]))) := by
  obtain ⟨⟨⟨hb, hd, -⟩, hclean, -⟩, harr⟩ := hm
  obtain ⟨r, s', he, hadd⟩ : Ensures (Rbtree.add cb v) s _ := add_spec h hb hd v
  refine ⟨r, s', he, ?_⟩
  rw [h.equalAttached_iff, h.storedAt_eq, Holds.options_eq h]
  rw [h.storedAt_eq] at hv
  cases hplace : E.place cb T v with
  | none =>
    rw [hplace] at hadd
    obtain ⟨hwash, hevents⟩ : wash T = T ∧ washEvents E.options T = [] := wash_of_clean hclean
    obtain ⟨rfl, h'⟩ := hadd
    rw [hwash, hevents, Env.traced_nil] at h'
    obtain ⟨hh, hequal⟩ := seek_eq_none hplace
    refine ⟨iff_of_true (by decide) ⟨by simpa [halts] using hh, hequal⟩, fun _ =>
      ⟨rfl, h.untouched h' rfl, _, comparisons_comparisons E cb T
        ((E.newcomer cb v).value E.options) (halts E.options), ?_⟩⟩
    rw [Holds.trace_eq h', Holds.trace_eq h]
    change ((E.trace ++ [_]) ++ _) ++ [_] = _
    simp [Env.kept]
  | some g =>
    rw [hplace] at hadd
    obtain ⟨-, -, -, hno⟩ := seek_spec (harr.cut hp hv) hplace
    obtain ⟨rfl, -⟩ := hadd
    refine ⟨iff_of_false (by simp) ?_, fun hne => absurd rfl hne⟩
    rintro ⟨hdup, e, hin, h₀⟩
    exact hno (by rw [halts]; simpa using hdup) e hin h₀

theorem Repr.remove_fails (h : Repr s E z 0 T) (hp : PreorderOn cb.comparison D)
    (hm : Ordered cb.comparison D ⟨E, 0, T⟩) {key : VoidPtr} (hkey : key ∈ D) :
    ∃ r s', Rbtree.remove cb key s = .ok (r, s') ∧
      (r = ENOENT ↔ ¬ EqualAttached s cb.comparison key) ∧ (r ≠ 0 → r = ENOENT ∧ Untouched s s' ∧
        ∃ events, Comparisons events ∧ s'.trace = s.trace ++ events) := by
  obtain ⟨⟨⟨hb, hd, -⟩, -, -⟩, harr⟩ := hm
  obtain ⟨_, s₁, hfound, rfl, h₁⟩ := Base.findNode_spec h key cb.comparison
  rw [h.equalAttached_iff]
  rw [Rbtree.remove, bind_eq hfound]
  cases hfind : lookup (matching E.options cb.comparison key) T with
  | none =>
    have hnone := lookup_spec (harr.cut hp hkey) hfind
    refine ⟨ENOENT, s₁, rfl, iff_of_true rfl ?_, fun _ => ⟨rfl, h.untouched h₁ rfl, _,
      comparisons_comparisons E cb T key true, ?_⟩⟩
    · rintro ⟨e, he, h₀⟩
      exact hnone e he h₀
    · rw [Holds.trace_eq h₁, Holds.trace_eq h]
      rfl
  | some a =>
    obtain ⟨ha, h₀⟩ := mem_of_lookup hfind
    obtain ⟨c, l, r, rfl⟩ := exists_plug_of_mem ha
    obtain ⟨_, s₂, hremove, -⟩ := removeNode_spec h₁ hb hd
    rw [labelRef_some, if_neg nofun, bind_eq hremove]
    exact ⟨0, s₂, rfl, iff_of_false (by decide) (not_not.2 ⟨a, ha, h₀⟩), fun hne => absurd rfl hne⟩

end Failure

/-- An operation that reports failure changes nothing. -/
theorem failure_changes_nothing (config : Config) {cb : Callbacks} {D : Set VoidPtr}
    (hp : PreorderOn cb.comparison D) {s : Base σ} {h : List (Op × Result)}
    (hrun : (orderedOperations σ cb D).Run (Base.initWithConfig config) h s) :
    (∀ v, storedAt cb s v ∈ D → ∃ r s', Rbtree.add cb v s = .ok (r, s') ∧
      (r ≠ 0 ↔ Options.allowDuplicates s.options = false ∧
        EqualAttached s cb.comparison (storedAt cb s v)) ∧
      (r ≠ 0 → r = EEXIST ∧ Untouched s s' ∧ ∃ events, Comparisons events ∧
        s'.trace = s.trace ++ (.retain v (cb.retain s.trace v) :: (events ++
          [.release (cb.retain s.trace v)])))) ∧
    ∀ key ∈ D, ∃ r s', Rbtree.remove cb key s = .ok (r, s') ∧
      (r = ENOENT ↔ ¬ EqualAttached s cb.comparison key) ∧ (r ≠ 0 → r = ENOENT ∧ Untouched s s' ∧
        ∃ events, Comparisons events ∧ s'.trace = s.trace ++ events) := by
  obtain ⟨⟨E, F, T⟩, ⟨⟨z, hr⟩, -⟩, hm, -⟩ := run_ordered config hp hrun
  obtain rfl : F = 0 := hm.settled.spare
  exact ⟨fun v hv => Repr.add_fails hr hp hm hv, fun key hkey => Repr.remove_fails hr hp hm hkey⟩

/-- After the five operations, one of the two values that are left is added again, and the one that
has been removed is to be removed again. -/
theorem failure_changes_nothing_five : ∃ s s₁ s₂ : Base SlotPool, InOrder s [.slot 0, .slot 2] ∧
    (Rbtree.add lengthCallbacks (ofLength 4) s = .ok (EEXIST, s₁) ∧ Untouched s s₁) ∧
    Rbtree.remove lengthCallbacks (ofLength 2) s = .ok (ENOENT, s₂) ∧ Untouched s s₂ := by
  obtain ⟨s, hrun, ⟨m, hm⟩, hs⟩ := exists_run_of_operations (σ := SlotPool) ⟨0, 0x4#32, 0⟩
    lengthCallbacks (fiveOps (ofLength 0) (ofLength 2) (ofLength 4)) fiveResults
    (fun s => (nodesOf s, (Rbtree.add lengthCallbacks (ofLength 4) s).toOption.map Prod.fst,
      (Rbtree.remove lengthCallbacks (ofLength 2) s).toOption.map Prod.fst))
    ([.slot 0, .slot 2], some EEXIST, some ENOENT) (by decide +kernel)
  obtain ⟨hnodes, hs⟩ := Prod.mk.inj hs
  obtain ⟨hadd, hremove⟩ := Prod.mk.inj hs
  have hordered := hrun.allowed (orderedOperations SlotPool lengthCallbacks Set.univ) rfl
    (by simp [fiveOps, fiveResults, orderedOperations, operations, Op.Within])
  obtain ⟨hadds, hremoves⟩ := failure_changes_nothing _ preorderOn_byLength hordered
  obtain ⟨r₁, s₁, he₁, -, hs₁⟩ := hadds (ofLength 4) trivial
  obtain ⟨r₂, s₂, he₂, -, hs₂⟩ := hremoves (ofLength 2) trivial
  rw [he₁] at hadd
  rw [he₂] at hremove
  obtain rfl : r₁ = EEXIST := Option.some.inj hadd
  obtain rfl : r₂ = ENOENT := Option.some.inj hremove
  exact ⟨s, s₁, s₂, hnodes ▸ hm.inOrder, ⟨he₁, (hs₁ (by decide)).2.1⟩, he₂, (hs₂ (by decide)).2.1⟩

end MulleRbtree
