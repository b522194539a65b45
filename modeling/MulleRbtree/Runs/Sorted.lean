import MulleRbtree.Runs.Places
import MulleRbtree.Layout.Enumerate

/-!
# Trees that one comparison keeps sorted

Runs in which nodes come in by `_mulle__rbtree_insert_node` alone, always with the same comparison.

* `sortedCalls σ comp D`: the calls of such a run; the values are in the domain `D` of the
  comparison;
* `Arranges`: what a call makes of the sequence of the nodes;
* `run_arranges`: every such run is a run of `Arranges`, and the sequence is sorted;
* `arrivals`: the attached nodes in the order in which they came; `Arrived` says that equal values
  stand in that order;
* `insert_place`, `range_of_run`: where nodes are put, and which nodes a range iteration visits.
-/

namespace MulleRbtree

open BinaryTree Cells Program

/-! ### Sequences of nodes -/

/-- The pointer to the node. -/
def Item.ref (a : Item) : Ref := .slot a.slot

/-- The attached nodes in the order in which they were inserted, after one more call. -/
def arrivals (L : List Ref) : Call × Answer → List Ref
  | (.insertNode n _, .code k) => if k = 0 then L ++ [n] else L
  | (.removeNode n, _) => L.erase n
  | _ => L

section Sequences

variable (options : BitVec 32) (comp : VoidPtr → VoidPtr → ℤ) (D : Set VoidPtr)

/-- What a call makes of the sequence of nodes. -/
inductive Arranges : List Item → Call → Answer → List Item → Prop
  | inserted {u v : List Item} {a : Item} (hD : a.value options ∈ D)
      (hnew : a.ref ∉ (u ++ v).map Item.ref)
      (hu : ∀ b ∈ u, comp (b.value options) (a.value options) ≤ 0)
      (hv : ∀ b ∈ v, comp (a.value options) (b.value options) < 0)
      (hne : Options.allowDuplicates options = false →
        ∀ b ∈ u ++ v, comp (a.value options) (b.value options) ≠ 0) :
      Arranges (u ++ v) (.insertNode a.ref comp) (.code 0) (u ++ a :: v)
  | removed (u v : List Item) (a : Item) :
      Arranges (u ++ a :: v) (.removeNode a.ref) .done (u ++ v)
  | other {c : Call} {r : Answer} (hsame : ∀ L, arrivals L (c, r) = L) (u : List Item) :
      Arranges u c r u

/-- What holds of the sequence at all times. -/
structure Arranged (u : List Item) : Prop where
  nodup : (u.map Item.ref).Nodup
  domain : ∀ a ∈ u, a.value options ∈ D
  ascending : Ascending comp (u.map (Item.value options))
  distinct : Options.allowDuplicates options = false →
    ∀ a ∈ u, ∀ b ∈ u, comp (a.value options) (b.value options) = 0 → a = b

/-- Equal values stand in the order of `L`. -/
structure Arrived (u L : List Item) : Prop where
  perm : L.Perm u
  stable : ∀ w ∈ D, u.filter (fun a => comp w (a.value options) = 0) =
    L.filter fun a => comp w (a.value options) = 0

end Sequences

variable {options : BitVec 32} {comp : VoidPtr → VoidPtr → ℤ} {D : Set VoidPtr}

theorem Arranges.arranged (hp : PreorderOn comp D) {u u' : List Item} {c : Call} {r : Answer}
    (h : Arranges options comp D u c r u') (hu : Arranged options comp D u) :
    Arranged options comp D u' := by
  obtain ⟨hn, hD, hasc, hdis⟩ := hu
  cases h with
  | @inserted u v a haD hnew hu hv hne =>
    refine ⟨?_, fun b hb => ?_, ?_, fun ho => ?_⟩
    · rw [List.map_append, List.map_cons, List.nodup_middle, List.nodup_cons, ← List.map_append]
      exact ⟨hnew, hn⟩
    · rcases List.mem_append.1 hb with hb | hb
      · exact hD b (List.mem_append_left _ hb)
      · rcases List.mem_cons.1 hb with rfl | hb
        · exact haD
        · exact hD b (List.mem_append_right _ hb)
    · rw [List.map_append] at hasc
      rw [List.map_append, List.map_cons]
      refine hasc.insert ?_ ?_
      · simpa using hu
      · intro b hb
        obtain ⟨e, he, rfl⟩ := List.mem_map.1 hb
        exact (hv e he).le
    · have hmem : ∀ b ∈ u ++ a :: v, b = a ∨ b ∈ u ++ v := by
        simp only [List.mem_append, List.mem_cons]
        tauto
      intro b hb e he h₀
      rcases hmem b hb with rfl | hb'
      · rcases hmem e he with rfl | he'
        · rfl
        · exact (hne ho e he' h₀).elim
      · rcases hmem e he with rfl | he'
        · exact (hne ho b hb' ((hp.eq_iff (hD b hb') haD).1 h₀)).elim
        · exact hdis ho b hb' e he' h₀
  | removed u v a =>
    have hsub : (u ++ v).Sublist (u ++ a :: v) :=
      (List.Sublist.refl u).append (List.sublist_cons_self a v)
    exact ⟨hn.sublist (hsub.map _), fun b hb => hD b (hsub.subset hb), hasc.sublist (hsub.map _),
      fun ho b hb e he => hdis ho b (hsub.subset hb) e (hsub.subset he)⟩
  | other => exact ⟨hn, hD, hasc, hdis⟩

/-- A call keeps equal values in the order in which they came. -/
theorem Arranges.arrived (hp : PreorderOn comp D) {u u' L : List Item} {c : Call} {r : Answer}
    (h : Arranges options comp D u c r u') (hu : Arranged options comp D u)
    (hL : Arrived options comp D u L) :
    ∃ L', arrivals (L.map Item.ref) (c, r) = L'.map Item.ref ∧ Arrived options comp D u' L' := by
  obtain ⟨hn, hD, -, -⟩ := hu
  obtain ⟨hperm, hstable⟩ := hL
  cases h with
  | @inserted u v a haD hnew hu hv hne =>
    refine ⟨L ++ [a], by simp [arrivals], ?_, fun w hw => ?_⟩
    · exact (hperm.append_right [a]).trans
        ((List.perm_append_singleton a _).trans List.perm_middle.symm)
    · have hLw := hstable w hw
      rw [List.filter_append] at hLw
      rw [List.filter_append, List.filter_append, ← hLw]
      by_cases hwa : comp w (a.value options) = 0
      · -- whatever is right of the new node is greater
        have hv₀ : v.filter (fun b => comp w (b.value options) = 0) = [] := by
          refine List.filter_eq_nil_iff.2 fun b hb => ?_
          have hlt := ((hp.congr hw haD (hD b (List.mem_append_right _ hb)) hwa).1).2 (hv b hb)
          simpa using hlt.ne
        simp [hwa, hv₀]
      · simp [hwa]
  | removed u v a =>
    obtain ⟨X, Y, rfl⟩ := List.append_of_mem (hperm.symm.subset (by simp : a ∈ u ++ a :: v))
    have hnX : ((X ++ a :: Y).map Item.ref).Nodup := ((hperm.map Item.ref).nodup_iff).2 hn
    have hnot : ∀ {x y : List Item}, ((x ++ a :: y).map Item.ref).Nodup →
        a.ref ∉ x.map Item.ref ∧ a.ref ∉ y.map Item.ref := by
      intro x y hxy
      rw [List.map_append, List.map_cons, List.nodup_middle, List.nodup_cons, List.mem_append] at hxy
      exact not_or.1 hxy.1
    refine ⟨X ++ Y, ?_, ?_, fun w hw => ?_⟩
    · change ((X ++ a :: Y).map Item.ref).erase a.ref = _
      rw [List.map_append, List.map_cons, List.erase_append_right _ (hnot hnX).1,
        List.erase_cons_head, List.map_append]
    · exact List.Perm.cons_inv ((List.perm_middle.symm.trans hperm).trans List.perm_middle)
    · have hw₀ := hstable w hw
      simp only [List.filter_append, List.filter_cons] at hw₀ ⊢
      split_ifs at hw₀ with hwa
      · have hmem : ∀ {x y : List Item}, ((x ++ a :: y).map Item.ref).Nodup → ∀ {p : Item → Bool},
            a ∉ x.filter p ∧ a ∉ y.filter p := by
          intro x y hxy p
          exact ⟨fun h => (hnot hxy).1 (List.mem_map_of_mem (List.mem_filter.1 h).1),
            fun h => (hnot hxy).2 (List.mem_map_of_mem (List.mem_filter.1 h).1)⟩
        obtain ⟨h₁, -, h₂⟩ := (List.append_cons_inj_of_notMem (hmem hn).1 (hmem hn).2).1 hw₀
        rw [h₁, h₂]
      · exact hw₀
  | other hsame => exact ⟨L, hsame _, hperm, hstable⟩

theorem Arranges.steps_arrived (hp : PreorderOn comp D) {u u' L : List Item}
    {h : List (Call × Answer)} (hrun : Steps (Arranges options comp D) u h u')
    (hu : Arranged options comp D u) (hL : Arrived options comp D u L) :
    ∃ L', h.foldl arrivals (L.map Item.ref) = L'.map Item.ref ∧ Arrived options comp D u' L' := by
  induction hrun generalizing L with
  | nil => exact ⟨L, rfl, hL⟩
  | cons hs _ ih =>
    obtain ⟨L', he, hL'⟩ := hs.arrived hp hu hL
    rw [List.foldl_cons, he]
    exact ih (hs.arranged hp hu) hL'

/-! ### Runs -/

variable {σ : Type} [MulleStorage σ]

/-- Nodes come in by the comparison alone. -/
def Sorting (comp : VoidPtr → VoidPtr → ℤ) (D : Set VoidPtr) : Call → Base σ → Prop
  | .insertNode n comp', s => comp' = comp ∧ valueAt s n ∈ D
  | .insertNodeBeforeNode _ _, _ => False
  | .insertNodeAfterNode _ _, _ => False
  | _, _ => True

/-- The low-level interface, with one comparison. -/
def sortedCalls (σ : Type) [MulleStorage σ] (comp : VoidPtr → VoidPtr → ℤ) (D : Set VoidPtr) :
    Interface (Base σ) Fault Call Answer :=
  ⟨fun c s => c.Pre s ∧ Sorting comp D c s, Call.exec⟩

section Simulation

variable {s : Base σ} {m m' : Image σ} {c : Call} {r : Answer}

theorem Arranged.mem_domain {T : ETree} (h : Arranged options comp D (items T)) {e : Entry}
    (he : e ∈ T.inorder) : e.value options ∈ D :=
  h.domain e.item (by rw [items_eq]; exact List.mem_map_of_mem he)

/-- A search finds its way. -/
theorem Arranged.cut (hp : PreorderOn comp D) {T : ETree} (h : Arranged options comp D (items T))
    {w : VoidPtr} (hw : w ∈ D) : Cut (matching options comp w) T.inorder := by
  refine cut_of_ascending hp hw (fun e he => h.mem_domain he) ?_
  have hasc := h.ascending
  rwa [items_eq, List.map_map] at hasc

/-- The place where a node is attached is between those that are not greater and the greater
ones. -/
theorem Arranged.place (hp : PreorderOn comp D) {T : ETree} (h : Arranged options comp D (items T))
    {a : Entry} (hw : a.value options ∈ D) {g : Path Entry} (ha : a.slot ∉ slots T) (o : Stamp)
    (hseek : seek (matching options comp (a.value options)) (halts options) [] T = some g) :
    Arranges options comp D (items T) (.insertNode a.item.ref comp) (.code 0)
      (items (attach o a g)) := by
  obtain ⟨hsplit, hbefore, hafter, hno⟩ := seek_spec (h.cut hp hw) hseek
  have hT : plug g nil = T := (plug_seek hseek).1
  subst hT
  obtain ⟨h₁, h₂⟩ := items_attach_split (o := o) (a := a) (c := g)
  rw [h₂, h₁]
  refine .inserted hw (fun hin => ha ?_) (fun b hb => ?_) (fun b hb => ?_) fun ho b hb => ?_
  · rw [← h₁] at hin
    obtain ⟨b, hb, he⟩ := List.mem_map.1 hin
    rw [slots_eq]
    exact List.mem_map.2 ⟨b, hb, Ref.slot.inj he⟩
  · obtain ⟨e, he, rfl⟩ := List.mem_map.1 hb
    have hin : e ∈ (plug g nil).inorder := hsplit ▸ List.mem_append_left _ he
    exact (hp.le_iff (h.mem_domain hin) hw).2 (hbefore e he)
  · obtain ⟨e, he, rfl⟩ := List.mem_map.1 hb
    exact hafter e he
  · rw [← h₁, items_eq] at hb
    obtain ⟨e, he, rfl⟩ := List.mem_map.1 hb
    exact hno (by rw [halts]; simpa using ho) e he

theorem Arranges.of_removeAt (o : Stamp) (c : Path Entry) (a : Entry) (l r : ETree) :
    Arranges options comp D (items (plug c (node a l r))) (.removeNode a.item.ref) .done
      (items (removeAt o c a l r)) := by
  obtain ⟨u, v, h₁, h₂⟩ := items_removeAt_split o c a l r
  rw [h₁, h₂]
  exact .removed u v a.item

/-- What happens to the tree happens to the sequence. -/
theorem Evolves.arranges (hp : PreorderOn comp D) (hs : Represents s m)
    (hm : Arranged m.env.options comp D (items m.tree)) (hc : Sorting comp D c s)
    (h : Evolves m c r m') :
    m'.env.options = m.env.options ∧ Arranges m.env.options comp D (items m.tree) c r (items m'.tree) := by
  obtain ⟨⟨z, hr⟩, -⟩ := hs
  cases h with
  | newNode E F T value => exact ⟨rfl, .other (fun _ => rfl) _⟩
  | freeNode E a F T => exact ⟨rfl, .other (fun _ => rfl) _⟩
  | rejected hseek => exact ⟨rfl, .other (fun _ => rfl) _⟩
  | @inserted E a F T comp' g k hseek ha hk =>
    obtain ⟨rfl, hw⟩ := hc
    have hr : Repr s E z ({looseCell a} + F.map looseCell) T := repr_cons.1 hr
    have hwa : valueAt s (.slot a.slot) = a.value E.options := valueAt_loose hr
    rw [hwa] at hw
    exact ⟨rfl, Arranged.place hp hm hw ha E.stamp hseek⟩
  | before => exact hc.elim
  | after => exact hc.elim
  | @removed E F c a l r k hk => exact ⟨rfl, .of_removeAt E.stamp.next c a l r⟩
  | marked hi =>
    refine ⟨rfl, ?_⟩
    dsimp only
    rw [items_soilTo]
    exact .other (fun _ => rfl) _
  | walked E F T =>
    refine ⟨rfl, ?_⟩
    dsimp only
    rw [items_wash]
    exact .other (fun _ => rfl) _
  | found => exact ⟨rfl, .other (fun _ => rfl) _⟩
  | reached => exact ⟨rfl, .other (fun _ => rfl) _⟩
  | next => exact ⟨rfl, .other (fun _ => rfl) _⟩
  | previous => exact ⟨rfl, .other (fun _ => rfl) _⟩
  | isDirty => exact ⟨rfl, .other (fun _ => rfl) _⟩
  | counted => exact ⟨rfl, .other (fun _ => rfl) _⟩

end Simulation

/-- A state of a run with one comparison, with the sequence of its nodes. -/
def ShowsSorted (options : BitVec 32) (comp : VoidPtr → VoidPtr → ℤ) (D : Set VoidPtr) (s : Base σ)
    (u : List Item) : Prop :=
  ∃ m, Represents s m ∧ m.env.options = options ∧ items m.tree = u ∧ Arranged options comp D u

/-- Every run with one comparison is a run of the sequence. -/
theorem run_arranges (hp : PreorderOn comp D) {s t : Base σ} {u : List Item}
    {h : List (Call × Answer)} (hrun : (sortedCalls σ comp D).Run s h t)
    (hs : ShowsSorted options comp D s u) :
    ∃ u', Steps (Arranges options comp D) u h u' ∧ ShowsSorted options comp D t u' := by
  refine hrun.simulate (fun c s u hs hc => ?_) hs
  obtain ⟨m, hm, rfl, rfl, hu⟩ := hs
  refine (exec_represents hm hc.1).mono fun r s' ⟨m', he, hm'⟩ => ?_
  obtain ⟨ho, ha⟩ := he.arranges hp hm hu hc.2
  exact ⟨_, ha, m', hm', ho, rfl, ha.arranged hp hu⟩

theorem arranged_nil : Arranged options comp D [] :=
  ⟨List.nodup_nil, by simp, List.Pairwise.nil, by simp⟩

theorem showsSorted_init (config : Config) :
    ShowsSorted config.options comp D (Base.initWithConfig config : Base σ) [] :=
  ⟨.init config, ⟨shows_init config, sound_init config⟩, rfl, rfl, arranged_nil⟩

/-! ### Where nodes are put -/

theorem Repr.valueAt_item {s : Base σ} {E : Env σ} {z : Sentinel} {K : Multiset Cell} {T : ETree}
    {a : Item} (h : Repr s E z K T) (ha : a ∈ items T) : valueAt s a.ref = a.value E.options := by
  rw [items_eq] at ha
  obtain ⟨e, he, rfl⟩ := List.mem_map.1 ha
  exact h.valueAt_eq he

/-- The nodes that compare equal to a value stand in the order in which they came. -/
def InsertionOrder (comp : VoidPtr → VoidPtr → ℤ) (s : Base σ) (h : List (Call × Answer))
    (ns : List Ref) (w : VoidPtr) : Prop :=
  ns.filter (fun n => comp w (valueAt s n) = 0) =
    (h.foldl arrivals []).filter fun n => comp w (valueAt s n) = 0

/-- In a run with one comparison the nodes are sorted, and equal ones stand in the order in which
they came. -/
theorem stable_of_run (config : Config) (hp : PreorderOn comp D) {s : Base σ}
    {h : List (Call × Answer)} (hrun : (sortedCalls σ comp D).Run (Base.initWithConfig config) h s) :
    ∃ ns, InOrder s ns ∧ Ascending comp (ns.map (valueAt s)) ∧
      ∀ w ∈ D, InsertionOrder comp s h ns w := by
  obtain ⟨u, hsteps, m, ⟨⟨z, hr⟩, -⟩, ho, rfl, hu⟩ :=
    run_arranges hp hrun (showsSorted_init config)
  obtain ⟨L, hL, hperm, hstable⟩ := Arranges.steps_arrived hp hsteps arranged_nil (L := [])
    ⟨List.Perm.refl _, fun _ _ => rfl⟩
  have hvalue : ∀ a ∈ items m.tree, valueAt s a.ref = a.value config.options := fun a ha => by
    rw [hr.valueAt_item ha, ho]
  have hfilter : ∀ {v : List Item} (w : VoidPtr), (∀ a ∈ v, a ∈ items m.tree) →
      (v.map Item.ref).filter (fun n => comp w (valueAt s n) = 0) =
        (v.filter fun a => comp w (a.value config.options) = 0).map Item.ref := by
    intro v w hv
    rw [List.filter_map]
    refine congrArg _ (List.filter_congr fun a ha => ?_)
    rw [Function.comp_apply, hvalue a (hv a ha)]
  refine ⟨(items m.tree).map Item.ref, hr.inOrder_items, ?_, fun w hw => ?_⟩
  · have hmap : ((items m.tree).map Item.ref).map (valueAt s) =
        (items m.tree).map (Item.value config.options) := by
      rw [List.map_map]
      exact List.map_congr_left fun a ha => hvalue a ha
    rw [hmap]
    exact hu.ascending
  · rw [InsertionOrder, hfilter w fun a ha => ha, ← List.map_nil (f := Item.ref), hL,
      hfilter w fun a ha => hperm.subset ha, hstable w hw]

/-- In every state that calls lead to, each insert puts the new node where it promises; where one
comparison does it all, equal nodes stand in the order in which they came. -/
theorem insert_place (config : Config) :
    (∀ (s : Base σ) (h : List (Call × Answer)) (a : Ref),
      (calls σ).Run (Base.initWithConfig config) h s → Unattached s a →
        ∃ ns, InsertsInPlace s a ns) ∧
    ∀ (comp : VoidPtr → VoidPtr → ℤ) (D : Set VoidPtr), PreorderOn comp D →
      ∀ (s : Base σ) (h : List (Call × Answer)),
        (sortedCalls σ comp D).Run (Base.initWithConfig config) h s →
        ∃ ns, InOrder s ns ∧ Ascending comp (ns.map (valueAt s)) ∧
          ∀ w ∈ D, InsertionOrder comp s h ns w := by
  refine ⟨fun s h a hrun ha => ?_, fun comp D hp s h hrun => stable_of_run config hp hrun⟩
  obtain ⟨m, -, hs⟩ := run_evolves hrun ⟨shows_init config, sound_init config⟩
  exact hs.insertsInPlace ha

/-- Three nodes are inserted, two of them with equal values. -/
def equalCalls : List Call :=
  [.newNode (ofLength 2), .insertNode (.slot 0) byLength, .newNode (ofLength 2),
    .insertNode (.slot 1) byLength, .newNode (ofLength 0), .insertNode (.slot 2) byLength]

def equalAnswers : List Answer :=
  [.node (.slot 0), .code 0, .node (.slot 1), .code 0, .node (.slot 2), .code 0]

/-- A fourth node besides three; and three nodes two of which have equal values. -/
theorem insert_place_three : ∃ s s' : Base SlotPool,
    (InOrder s [.slot 0, .slot 1, .slot 2] ∧ Unattached s (.slot 3) ∧
      ∃ ns, InsertsInPlace s (.slot 3) ns) ∧
    InOrder s' [.slot 2, .slot 0, .slot 1] ∧
    [.slot 2, .slot 0, .slot 1].map (valueAt s') = [ofLength 0, ofLength 2, ofLength 2] ∧
    InsertionOrder byLength s' (equalCalls.zip equalAnswers) [.slot 2, .slot 0, .slot 1]
      (ofLength 2) := by
  obtain ⟨s, hrun, hin, -, ha, -⟩ := exists_run
  obtain ⟨s', hrun', ⟨m, hm⟩, hs'⟩ := exists_run_of_calls (σ := SlotPool) ⟨0, 0x1#32, 0⟩ equalCalls
    equalAnswers (fun s => (nodesOf s, [.slot 2, .slot 0, .slot 1].map (valueAt s)))
    ([.slot 2, .slot 0, .slot 1], [ofLength 0, ofLength 2, ofLength 2]) (by decide +kernel)
  obtain ⟨hnodes, hvalues⟩ := Prod.mk.inj hs'
  have hin' : InOrder s' [.slot 2, .slot 0, .slot 1] := hnodes ▸ hm.inOrder
  have hsorted := hrun'.allowed (sortedCalls SlotPool byLength Set.univ) rfl
    (by simp [equalCalls, equalAnswers, sortedCalls, Sorting, calls])
  obtain ⟨ns, hns, -, hstable⟩ := (insert_place _).2 _ _ preorderOn_byLength _ _ hsorted
  obtain rfl := hns.unique hin'
  exact ⟨s, s', ⟨hin, ha, (insert_place _).1 s _ _ hrun ha⟩, hin', hvalues, hstable _ trivial⟩

/-! ### Range iteration -/

/-- The nodes `v` that are met from `_mulle__rbtree_find_node_equal_or_greater` on by
`_mulle__rbtree_next_node`, in a state with the nodes `ns`. -/
structure RangeFrom (s : Base σ) (comp : VoidPtr → VoidPtr → ℤ) (key : VoidPtr) (ns v : List Ref) :
    Prop where
  walk : ∃ start s', Base.findNodeEqualOrGreater key comp s = .ok (start, s') ∧
    Base.nodesFrom start s' = .ok (v, s') ∧ v.head?.getD .nil = start
  suffix : v <:+ ns
  /-- only nodes that are not less -/
  sound : ∀ n ∈ v, comp key (valueAt s n) ≤ 0
  /-- all that are greater -/
  greater : ∀ n ∈ ns, comp key (valueAt s n) < 0 → n ∈ v
  /-- and an equal one first, if there is any -/
  equal : (∃ n ∈ ns, comp key (valueAt s n) = 0) → ∃ n ∈ v.head?, comp key (valueAt s n) = 0
  complete : (∀ m ∈ ns, ∀ n ∈ ns, comp key (valueAt s m) = 0 → comp key (valueAt s n) = 0 → m = n) →
    ∀ n ∈ ns, comp key (valueAt s n) ≤ 0 → n ∈ v

theorem Repr.rangeFrom {s : Base σ} {E : Env σ} {z : Sentinel} {K : Multiset Cell} {T : ETree}
    {key : VoidPtr} (h : Repr s E z K T) (hcut : Cut (matching E.options comp key) T.inorder) :
    ∃ v, RangeFrom s comp key (T.inorder.map Entry.ref) v := by
  have hvalue : ∀ e ∈ T.inorder, comp key (valueAt s e.ref) = matching E.options comp key e :=
    fun e he => by rw [h.valueAt_eq he, matching]
  have hnodup := h.nodup_refs
  rw [inorder_map] at hnodup
  obtain ⟨start, s', hfind, rfl, h'⟩ := Base.findNodeEqualOrGreater_spec h key comp
  rcases ceiling_spec hcut none with ⟨u, a, v, hT, hceil, ha, hu, hu'⟩ | ⟨hall, hceil⟩
  · rw [hceil] at hfind
    have hnodes := Base.nodesFrom_spec h' hT
    rw [hT] at hcut
    obtain ⟨-, -, -, hv⟩ := hcut.of_append
    have hmem : ∀ e ∈ T.inorder, e ∈ u ∨ e = a ∨ e ∈ v := fun e he => by
      rw [hT, List.mem_append, List.mem_cons] at he
      exact he
    have hav : a ∈ T.inorder := by simp [hT]
    refine ⟨(a :: v).map Entry.ref, ⟨_, s', hfind, hnodes, rfl⟩, ?_, fun n hn => ?_,
      fun n hn hlt => ?_, ?_, fun hone n hn hle => ?_⟩
    · rw [hT, List.map_append]
      exact List.suffix_append _ _
    · obtain ⟨e, he, rfl⟩ := List.mem_map.1 hn
      rw [hvalue e (hT ▸ List.mem_append_right _ he)]
      rcases List.mem_cons.1 he with rfl | he
      · exact ha
      · exact (hv e he).2 ha
    · obtain ⟨e, he, rfl⟩ := List.mem_map.1 hn
      rw [hvalue e he] at hlt
      rcases hmem e he with hin | hin
      · have := hu e hin
        omega
      · exact List.mem_map_of_mem (List.mem_cons.2 hin)
    · rintro ⟨n, hn, h₀⟩
      obtain ⟨e, he, rfl⟩ := List.mem_map.1 hn
      rw [hvalue e he] at h₀
      refine ⟨a.ref, rfl, ?_⟩
      rw [hvalue a hav]
      -- a node that is not equal has only greater ones behind it
      by_contra hne
      have hlt : matching E.options comp key a < 0 := by omega
      rcases hmem e he with hin | rfl | hin
      · have := hu' hlt e hin
        omega
      · exact hne h₀
      · have := (hv e hin).1 hlt
        omega
    · obtain ⟨e, he, rfl⟩ := List.mem_map.1 hn
      rw [hvalue e he] at hle
      rcases hmem e he with hin | hin
      · exfalso
        have h₀ : matching E.options comp key e = 0 := by
          have := hu e hin
          omega
        have ha₀ : matching E.options comp key a = 0 := by
          by_contra hne
          have := hu' (by omega) e hin
          omega
        have heq : e.ref = a.ref := hone _ hn _ (List.mem_map_of_mem hav)
          ((hvalue e he).trans h₀) ((hvalue a hav).trans ha₀)
        rw [hT, List.map_append, List.map_cons, List.nodup_middle, List.nodup_cons] at hnodup
        exact hnodup.1 (List.mem_append_left _ (heq ▸ List.mem_map_of_mem hin))
      · exact List.mem_map_of_mem (List.mem_cons.2 hin)
  · rw [hceil] at hfind
    have hnodes := Base.nodesFrom_spec (v := []) h' (List.append_nil T.inorder).symm
    have hpos : ∀ n ∈ T.inorder.map Entry.ref, 0 < comp key (valueAt s n) := fun n hn => by
      obtain ⟨e, he, rfl⟩ := List.mem_map.1 hn
      rw [hvalue e he]
      exact hall e he
    refine ⟨[], ⟨_, s', hfind, hnodes, rfl⟩, List.nil_suffix, by simp, fun n hn hlt => ?_, ?_,
      fun _ n hn hle => ?_⟩
    · have := hpos n hn
      omega
    · rintro ⟨n, hn, h₀⟩
      have := hpos n hn
      omega
    · have := hpos n hn
      omega

/-- Where one comparison keeps the tree sorted, a range iteration from a key visits all greater
nodes, no lesser one, and at least one of the equal ones; without duplicates it is complete. -/
theorem range_of_run (config : Config) (hp : PreorderOn comp D) {s : Base σ}
    {h : List (Call × Answer)} (hrun : (sortedCalls σ comp D).Run (Base.initWithConfig config) h s)
    {key : VoidPtr} (hkey : key ∈ D) :
    ∃ ns v, InOrder s ns ∧ ns.Nodup ∧ Ascending comp (ns.map (valueAt s)) ∧
      RangeFrom s comp key ns v ∧
      (Options.allowDuplicates config.options = false → ∀ n ∈ ns, comp key (valueAt s n) ≤ 0 → n ∈ v) := by
  obtain ⟨u, -, m, ⟨⟨z, hr⟩, -⟩, ho, rfl, hu⟩ := run_arranges hp hrun (showsSorted_init config)
  obtain ⟨hnodup, hD, hasc, hdis⟩ := id hu
  have hrefs : (items m.tree).map Item.ref = m.tree.inorder.map Entry.ref := by
    rw [items_eq, List.map_map]
    rfl
  have hvalues : (m.tree.inorder.map Entry.ref).map (valueAt s) =
      (items m.tree).map (Item.value config.options) := by
    rw [hr.map_valueAt, ho, items_eq, List.map_map]
    rfl
  have hcut : Cut (matching m.env.options comp key) m.tree.inorder := ho ▸ hu.cut hp hkey
  obtain ⟨v, hv⟩ := hr.rangeFrom hcut
  refine ⟨_, v, hr.inOrder, hrefs ▸ hnodup, hvalues ▸ hasc, hv, fun hdup => hv.complete ?_⟩
  rw [← hrefs]
  intro m₁ h₁ m₂ h₂ e₁ e₂
  obtain ⟨a, ha, rfl⟩ := List.mem_map.1 h₁
  obtain ⟨b, hb, rfl⟩ := List.mem_map.1 h₂
  rw [hr.valueAt_item ha, ho] at e₁
  rw [hr.valueAt_item hb, ho] at e₂
  have hab : comp (a.value config.options) (b.value config.options) = 0 :=
    ((hp.congr hkey (hD a ha) (hD b hb) e₁).2).1 e₂
  rw [hdis hdup a ha b hb hab]

/-! ### Three equal nodes -/

/-- A new node is made and inserted. -/
theorem exists_insert {s : Base σ} {E : Env σ} {z : Sentinel} {T U : ETree} {i : ℕ}
    {g : Path Entry} (o : Stamp) (comp : VoidPtr → VoidPtr → ℤ) (value : VoidPtr) (a : Entry)
    (h : Repr s E z 0 T) (hb : IsRedBlack Entry.isRed T) (hi : E.nextSlot = i) (ho : E.stamp = o)
    (ha : Entry.fresh o.options E.extraSize i value = a)
    (hseek : seek (matching o.options comp (a.value o.options)) (halts o.options) [] T = some g)
    (hU : attach o a g = U) : ∃ s' k events,
      (sortedCalls σ comp Set.univ).Run s [(.newNode value, .node (.slot i)),
        (.insertNode (.slot i) comp, .code 0)] s' ∧
      Repr s' ((E.malloced.traced events).advanced.turnedBy k) z 0 U ∧ IsRedBlack Entry.isRed U := by
  subst ha hU hi ho
  obtain ⟨_, s₁, he₁, rfl, h₁⟩ := Base.newNode_spec h value
  have hF : Repr s₁ E.malloced z (({E.fresh value} : Multiset Entry).map looseCell) T := h₁
  have ha : Unattached s₁ (.slot E.nextSlot) :=
    hF.unattached_iff.2 ⟨_, Multiset.mem_singleton_self _, rfl⟩
  obtain ⟨r, s₂, he₂, h₂⟩ := Base.insertNode_spec h₁ hb isRed_freshColor comp
  have hseek' : seek (matching E.malloced.options comp ((E.fresh value).value E.malloced.options))
      (halts E.malloced.options) [] T = some g := hseek
  rw [hseek'] at h₂
  obtain ⟨rfl, k, -, h₂⟩ := h₂
  refine ⟨s₂, k, _, .cons ⟨trivial, trivial⟩ (bind_eq he₁)
    (.cons ⟨ha, rfl, trivial⟩ (bind_eq he₂) (.nil _)), h₂, attach_isRedBlack ?_ isRed_freshColor⟩
  rw [(plug_seek hseek).1]
  exact hb

/-- All values are equal. -/
def allEqual (_ _ : VoidPtr) : ℤ := 0

theorem preorderOn_allEqual : PreorderOn allEqual Set.univ := by
  refine ⟨fun a _ b _ => ?_, fun a _ b _ c _ => ?_⟩ <;> simp [allEqual]

/-- The node in slot `i`. -/
def entry (i : ℕ) (color : Color) (relinked : ℕ) : Entry := ⟨i, color, ⟨.user i, []⟩, [], relinked⟩

/-- Three equal nodes: the first rotation puts one of them on each side of the root. -/
theorem exists_three : ∃ (s : Base SlotPool) (E : Env SlotPool) (z : Sentinel)
    (h : List (Call × Answer)),
    (sortedCalls SlotPool allEqual Set.univ).Run (Base.initWithConfig ⟨0, 0x1#32, 0⟩) h s ∧
    Repr s E z 0 (node (entry 1 Color.black 3) (node (entry 0 Color.red 3) nil nil)
      (node (entry 2 Color.red 2) nil nil)) := by
  let E : Env SlotPool := (Image.init ⟨0, 0x1#32, 0⟩ : Image SlotPool).env
  have hi₀ : E.nextSlot = 0 := by decide
  have hi₁ : E.malloced.nextSlot = 1 := by decide
  have hi₂ : E.malloced.malloced.nextSlot = 2 := by decide
  have hT₁ : attach ⟨1#32, 0⟩ (entry 0 Color.red 0) [] = node (entry 0 Color.black 0) nil nil := by
    decide
  have hT₂ : attach ⟨1#32, 1⟩ (entry 1 Color.red 0) [⟨.right, entry 0 Color.black 0, nil⟩] =
      node (entry 0 Color.black 1) nil (node (entry 1 Color.red 1) nil nil) := by
    decide
  have hT₃ : attach ⟨1#32, 2⟩ (entry 2 Color.red 0)
      [⟨.right, entry 1 Color.red 1, nil⟩, ⟨.right, entry 0 Color.black 1, nil⟩] =
      node (entry 1 Color.black 3) (node (entry 0 Color.red 3) nil nil)
        (node (entry 2 Color.red 2) nil nil) := by
    decide
  obtain ⟨z, h₀⟩ := shows_init (σ := SlotPool) ⟨0, 0x1#32, 0⟩
  obtain ⟨s₁, k₁, e₁, hrun₁, h₁, hb₁⟩ := exists_insert ⟨1#32, 0⟩ allEqual ⟨.user 0, []⟩
    (entry 0 Color.red 0) h₀ ⟨rfl, 0, rfl⟩ hi₀ rfl rfl rfl hT₁
  obtain ⟨s₂, k₂, e₂, hrun₂, h₂, hb₂⟩ := exists_insert ⟨1#32, 1⟩ allEqual ⟨.user 1, []⟩
    (entry 1 Color.red 0) h₁ hb₁ hi₁ rfl rfl rfl hT₂
  obtain ⟨s₃, k₃, e₃, hrun₃, h₃, hb₃⟩ := exists_insert ⟨1#32, 2⟩ allEqual ⟨.user 2, []⟩
    (entry 2 Color.red 0) h₂ hb₂ hi₂ rfl rfl rfl hT₃
  exact ⟨s₃, _, z, _, (hrun₁.append hrun₂).append hrun₃, h₃⟩

/-- With duplicates a range iteration can miss equal nodes. -/
theorem range_incomplete : ∃ (s s' : Base SlotPool) (h : List (Call × Answer)) (key : VoidPtr)
    (start n : Ref) (v : List Ref), PreorderOn allEqual Set.univ ∧
    (sortedCalls SlotPool allEqual Set.univ).Run (Base.initWithConfig ⟨0, 0x1#32, 0⟩) h s ∧
    Base.findNodeEqualOrGreater key allEqual s = .ok (start, s') ∧
    Base.nodesFrom start s' = .ok (v, s') ∧ Attached s n ∧ allEqual key (valueAt s n) ≤ 0 ∧ n ∉ v := by
  obtain ⟨s, E, z, h, hrun, hr⟩ := exists_three
  obtain ⟨_, s', hfind, rfl, hr'⟩ := Base.findNodeEqualOrGreater_spec hr null allEqual
  have hnodes := Base.nodesFrom_spec (u := [entry 0 Color.red 3])
    (v := [entry 1 Color.black 3, entry 2 Color.red 2]) hr' rfl
  have hn : Attached s (.slot 0) := hr.attached_ref (e := entry 0 Color.red 3) (by simp)
  exact ⟨s, s', h, null, _, .slot 0, _, preorderOn_allEqual, hrun, hfind, hnodes, hn, le_rfl, by decide⟩

theorem range_of_run_three : ∃ s : Base SlotPool, InOrder s [.slot 0, .slot 1, .slot 2] ∧
    ∃ ns v, InOrder s ns ∧ ns.Nodup ∧ Ascending allEqual (ns.map (valueAt s)) ∧
      RangeFrom s allEqual null ns v ∧ (Options.allowDuplicates 0x1#32 = false →
        ∀ n ∈ ns, allEqual null (valueAt s n) ≤ 0 → n ∈ v) := by
  obtain ⟨s, E, z, h, hrun, hr⟩ := exists_three
  exact ⟨s, hr.inOrder, range_of_run _ preorderOn_allEqual hrun trivial⟩

end MulleRbtree
