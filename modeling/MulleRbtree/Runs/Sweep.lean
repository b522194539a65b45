import MulleRbtree.Runs.Cursor
import MulleRbtree.Runs.Order
import MulleRbtree.Source.Api

/-!
# Removing during an enumeration

The loops `mulle_rbtree_for` and `mulle_rbtree_reversefor` with a body that removes the item it was
given, if the caller wants it gone.  The enumerator is at the next node by then, so such a loop goes
through the whole tree.

* `Rbtree.sweep`: the loop; `Rbtree.removeItem`, `Rbtree.removeExtra`: two ways to remove an item;
* `Discards`: what is asked of the removal, that it takes out the node of the item and no other;
* `sweep_spec`: the loop visits every item once and leaves what is to be kept;
* `sweep_by_key`: for `mulle_rbtree_remove`, in a tree without duplicates;
* `sweep_by_node`: for `_mulle_rbtree_remove_node` by way of the node, in extra mode.
-/

namespace MulleRbtree

open BinaryTree Cells Program

variable {σ : Type} [MulleStorage σ]

namespace Rbtree

open Base

/-- `mulle_rbtree_for( a_tree, item) if( drop( item)) discard( item);` and its reverse, with the
items it goes through. -/
def sweep (d : Side) (drop : VoidPtr → Bool) (discard : VoidPtr → M σ Unit) : M σ (List VoidPtr) := do
  loop (fun ((items, rover) : List VoidPtr × Ref) => do
    match ← nextItem d rover with
    | (none, _) => return .inr items
    | (some item, rover) => do
      when (drop item) (discard item)
      return .inl (items ++ [item], rover)) ([], ← roverOf d)

/-- `_mulle_rbtree_remove_node( a_tree, _mulle__rbtree_get_node_from_extra( &a_tree->base,
item));` -/
def removeExtra (item : VoidPtr) : M σ Unit := do removeNode (← getNodeFromExtra item)

end Rbtree

/-! ### The loop -/

/-- The removal takes out the node of the item and no other; `J` holds in between. -/
def Discards (J : Base σ → Image σ → Prop) (discard : VoidPtr → Base.M σ Unit) : Prop :=
  ∀ (s : Base σ) (m : Image σ) (a : Ref × VoidPtr), Represents s m → J s m →
    a ∈ held m.env.options m.tree → Ensures (discard a.2) s fun _ s' => ∃ m', Represents s' m' ∧
      J s' m' ∧ m'.env.options = m.env.options ∧
      Edits (held m.env.options m.tree) (.erase a) (held m.env.options m'.tree)

section Loop

variable {J : Base σ → Image σ → Prop} {discard : VoidPtr → Base.M σ Unit} {d : Side}
  {options : BitVec 32} {s : Base σ}

/-- Between the nodes `u` that the loop has gone through and the nodes `v` to come. -/
structure Sweeping (J : Base σ → Image σ → Prop) (d : Side) (drop : VoidPtr → Bool)
    (options : BitVec 32) (u v : List (Ref × VoidPtr)) (q : List VoidPtr × Ref) (s : Base σ) :
    Prop where
  items : q.1 = u.map Prod.snd
  rover : q.2 = (v.map Prod.fst).headD .nil
  kept : ∃ m, Represents s m ∧ J s m ∧ m.env.options = options ∧
    along d (held options m.tree) = u.filter (fun a => !drop a.2) ++ v

variable {drop : VoidPtr → Bool}

/-- A removal, where one is wanted. -/
theorem Discards.when (h : Discards J discard) {u v : List (Ref × VoidPtr)} {a : Ref × VoidPtr}
    {m : Image σ} (hs : Represents s m) (hJ : J s m)
    (hm : along d (held m.env.options m.tree) = u ++ a :: v) :
    Ensures (Base.when (drop a.2) (discard a.2)) s fun _ s' => ∃ m', Represents s' m' ∧
      J s' m' ∧ m'.env.options = m.env.options ∧
      along d (held m.env.options m'.tree) = u ++ [a].filter (fun a => !drop a.2) ++ v := by
  cases hdrop : drop a.2 with
  | false => exact .pure ⟨m, hs, hJ, rfl, by simpa [hdrop] using hm⟩
  | true =>
    have ha : a ∈ held m.env.options m.tree := by
      rw [← mem_along (d := d), hm]
      simp
    rw [Base.when_true]
    refine (h s m a hs hJ ha).mono ?_
    rintro _ s' ⟨m', hs', hJ', ho, hedit⟩
    obtain ⟨⟨z, hr⟩, -⟩ := hs
    have hn : (u ++ a :: v).Nodup := by
      rw [← hm, nodup_along]
      exact (hr.nodup_fst_held m.env.options).of_map
    have hedit' := edits_along (d := d) hedit
    rw [hm] at hedit'
    refine ⟨m', hs', hJ', ho, ?_⟩
    rw [hedit'.erase_eq hn]
    simp [hdrop]

theorem sweep_spec (h : Discards J discard) {m : Image σ} (hs : Represents s m) (hJ : J s m)
    (d : Side) (drop : VoidPtr → Bool) :
    Ensures (Rbtree.sweep d drop discard) s fun items s' =>
      items = (along d (held m.env.options m.tree)).map Prod.snd ∧
      ∃ m', Represents s' m' ∧ J s' m' ∧ m'.env.options = m.env.options ∧
        along d (held m.env.options m'.tree) =
          (along d (held m.env.options m.tree)).filter fun a => !drop a.2 := by
  obtain ⟨⟨z, hr⟩, -⟩ := id hs
  have hlen : (along d (held m.env.options m.tree)).length <
      MulleStorage.getCount m.env.nodes + 2 := by
    have hlt := Base.length_inorder_lt (u := []) (v := m.tree.inorder) hr rfl
    rw [held, ← map_along, List.length_map]
    cases d with
    | left => exact hlt
    | right => rwa [along, List.length_reverse]
  have hrover : Rbtree.roverOf d s =
      .ok (((along d (held m.env.options m.tree)).map Prod.fst).headD .nil, s) := by
    rw [Rbtree.roverOf_spec hr, map_along, map_fst_held, ← map_along, labelRef_head?]
  refine .bind_eq hrover (hr.loop (Ensures.iterate_list (u := [])
    (I := Sweeping J d drop m.env.options) ?_ ?_ rfl hlen ⟨rfl, rfl, m, hs, hJ, rfl, rfl⟩))
  · rintro u a v ⟨items, rover⟩ s' - ⟨hitems, hrover, m', hs', hJ', ho, hm'⟩
    dsimp only at hitems hrover
    subst hitems hrover
    obtain ⟨⟨z', hr'⟩, -⟩ := id hs'
    rw [← ho] at hm'
    refine .bind_eq (hr'.nextItem_held hm'.symm) ?_
    refine (h.when hs' hJ' hm').bind fun _ s'' h'' => .pure ⟨_, rfl, by simp, rfl, ?_⟩
    obtain ⟨m'', hs'', hJ'', ho', hm''⟩ := h''
    rw [ho] at ho' hm''
    exact ⟨m'', hs'', hJ'', ho', by rw [hm'', List.filter_append]⟩
  · rintro ⟨items, rover⟩ s' ⟨hitems, hrover, m', hs', hJ', ho, hm'⟩
    dsimp only at hitems hrover
    subst hitems hrover
    refine .bind_eq (Rbtree.nextItem_nil d s') (.pure ⟨_, rfl, rfl, m', hs', hJ', ho, ?_⟩)
    rw [hm', List.append_nil, List.nil_append]

end Loop

/-! ### What is left -/

/-- The loop has gone through all items, and what is left are the nodes to keep, as they were. -/
def Sweeps (d : Side) (drop : VoidPtr → Bool) (discard : VoidPtr → Base.M σ Unit) (s s' : Base σ) :
    Prop :=
  ∃ ns, InOrder s ns ∧
    Rbtree.sweep d drop discard s = .ok ((along d ns).map (valueAt s), s') ∧
    InOrder s' (ns.filter fun n => !drop (valueAt s n)) ∧
    ∀ n ∈ ns, drop (valueAt s n) = false → valueAt s' n = valueAt s n

theorem filter_along {α : Type} {d : Side} {p : α → Bool} (L : List α) :
    (along d L).filter p = along d (L.filter p) := by
  cases d with
  | left => rfl
  | right => exact List.filter_reverse

theorem along_inj {α : Type} {d : Side} {L L' : List α} (h : along d L = along d L') : L = L' := by
  cases d with
  | left => exact h
  | right => exact List.reverse_injective h

theorem exists_sweeps {J : Base σ → Image σ → Prop} {discard : VoidPtr → Base.M σ Unit} {s : Base σ}
    {m : Image σ} (h : Discards J discard) (hs : Represents s m) (hJ : J s m) (d : Side)
    (drop : VoidPtr → Bool) : ∃ s' m', Sweeps d drop discard s s' ∧ J s' m' := by
  obtain ⟨_, s', he, rfl, m', hs', hJ', ho, hm'⟩ := sweep_spec h hs hJ d drop
  obtain ⟨⟨z, hr⟩, -⟩ := hs
  obtain ⟨⟨z', hr'⟩, -⟩ := hs'
  rw [filter_along] at hm'
  have hheld := along_inj hm'
  rw [← ho, ← hr'.map_withValue, ho, ← hr.map_withValue, List.filter_map] at hheld
  have hrefs := congrArg (List.map Prod.fst) hheld
  simp only [List.map_map, Function.comp_def, withValue, List.map_id'] at hrefs
  refine ⟨s', m', ⟨_, hr.inOrder, ?_, ?_, fun n hn hkeep => ?_⟩, hJ'⟩
  · rw [he, ← hr.map_withValue, ← map_along, List.map_map]
    rfl
  · rw [← hrefs]
    exact hr'.inOrder
  · have hin : withValue s n ∈ (m'.tree.inorder.map Entry.ref).map (withValue s') := by
      rw [hheld]
      exact List.mem_map_of_mem (List.mem_filter.2 ⟨hn, by simp [withValue, hkeep]⟩)
    obtain ⟨n', -, heq⟩ := List.mem_map.1 hin
    obtain ⟨rfl, hvalue⟩ := Prod.mk.inj heq
    exact hvalue

/-! ### Removing by key -/

/-- The edit that takes out the node of the call. -/
theorem EditedBy.erase {cb : Callbacks} {c : Call ⊕ Op} {s : Base σ} {m m' : Image σ}
    {e : Edit (Ref × VoidPtr)} (h : EditedBy cb c s m m' e) (hs : Shows s m) {a : Ref × VoidPtr}
    (ha : a ∈ held m.env.options m.tree) (hc : Removes cb a.1 c s) :
    Edits (held m.env.options m.tree) (.erase a) (held m.env.options m'.tree) := by
  obtain ⟨z, hr⟩ := hs
  obtain ⟨v, rfl⟩ := (h.removes a.1).1 hc
  have hedit := h.edits
  have hmem : (a.1, v) ∈ held m.env.options m.tree := by
    generalize held m.env.options m.tree = L, held m.env.options m'.tree = L' at hedit
    cases hedit with
    | erase => simp
  have hinj := List.inj_on_of_nodup_map (hr.nodup_fst_held m.env.options)
  rwa [hinj hmem ha rfl] at hedit

section ByKey

variable {cb : Callbacks} {D : Set VoidPtr}

/-- A sorted tree without duplicates, after a run of operations. -/
structure Distinct (cb : Callbacks) (D : Set VoidPtr) (s₀ s : Base σ) (m : Image σ) : Prop where
  ordered : Ordered cb.comparison D m
  distinct : Options.allowDuplicates m.env.options = false
  run : ∃ h, (orderedOperations σ cb D).Run s₀ h s

end ByKey

/-! ### Removing by node -/

/-- A tree in extra mode, after a run of calls. -/
structure InExtraMode (cb : Callbacks) (s₀ s : Base σ) (m : Image σ) : Prop where
  extra : Options.useExtra m.env.options = true
  run : ∃ h, (everything σ cb).Run s₀ h s

/-- A value leads back to its node. -/
theorem Base.getNodeFromExtra_value {s : Base σ} {E : Env σ} {z : Sentinel} {K : Multiset Cell}
    {T : ETree} (h : Repr s E z K T) (ho : Options.useExtra E.options = true) (e : Entry) :
    Base.getNodeFromExtra (e.value E.options) s = .ok (e.ref, s) := by
  have hvalue : e.value E.options = ⟨.area e.slot, e.extra⟩ := if_pos ho
  rw [hvalue]
  refine (bind_eq h.getOptions).trans ((bind_eq (Base.assert_eq ho)).trans ?_)
  rw [Base.getNodeOfAddr_area]
  rfl

theorem discards_removeExtra (cb : Callbacks) (s₀ : Base σ) :
    Discards (InExtraMode cb s₀) Rbtree.removeExtra := by
  rintro s m ⟨n, v⟩ hs ⟨ho, h, hrun⟩ ha
  obtain ⟨e, he, heq⟩ := List.mem_map.1 ha
  obtain ⟨rfl, rfl⟩ := Prod.mk.inj heq
  obtain ⟨⟨z, hr⟩, -⟩ := id hs
  have hpre : (everything σ cb).Pre (.inr (.removeNode e.ref)) s := hr.attached_ref he
  obtain ⟨r, s', hexec, m', hs', edit, hedit⟩ := everything_edited hs hpre
  have hremove : Rbtree.removeNode e.ref s = .ok ((), s') := by
    have hexec' : (Sum.inr <$> (Op.removeNode e.ref).exec cb : Base.M σ (Answer ⊕ Result)) s =
        .ok (r, s') := hexec
    rw [← bind_pure_comp] at hexec'
    obtain ⟨r', t, hop, hret⟩ := exists_of_bind_eq hexec'
    cases hret
    obtain ⟨⟨⟩, t', hremove, hret⟩ := exists_of_bind_eq hop
    cases hret
    exact hremove
  refine .bind_eq (Base.getNodeFromExtra_value hr ho e) (.of_eq hremove
    ⟨m', hs', ⟨hedit.options ▸ ho, ?_⟩, hedit.options, hedit.erase hs.1 ha rfl⟩)
  exact ⟨_, hrun.append (.cons hpre hexec (.nil _))⟩

/-- In extra mode, with or without duplicates, the same holds of removals by way of the node of the
item. -/
theorem sweep_by_node (config : Config) (cb : Callbacks)
    (ho : Options.useExtra config.options = true) {s : Base σ}
    {h : List ((Call ⊕ Op) × (Answer ⊕ Result))}
    (hrun : (everything σ cb).Run (Base.initWithConfig config) h s) (d : Side)
    (drop : VoidPtr → Bool) : ∃ s' h', Sweeps d drop Rbtree.removeExtra s s' ∧
      (everything σ cb).Run s h' s' := by
  obtain ⟨m, hs, hm⟩ : ∃ m : Image σ, Represents s m ∧ m.env.options = config.options := by
    refine hrun.keeps (I := fun s => ∃ m : Image σ, Represents s m ∧ m.env.options = config.options)
      ?_ ⟨_, ⟨shows_init config, sound_init config⟩, rfl⟩
    rintro c s ⟨m, hs, hm⟩ hp
    exact (everything_edited hs hp).mono fun _ _ ⟨m', hs', _, hedit⟩ =>
      ⟨m', hs', hedit.options.trans hm⟩
  have hJ : InExtraMode cb s s m := ⟨hm ▸ ho, [], .nil s⟩
  obtain ⟨s', m', hsweeps, -, h', hrun'⟩ := exists_sweeps (discards_removeExtra cb s) hs hJ d drop
  exact ⟨s', h', hsweeps, hrun'⟩

/-- Is the first byte even? -/
def isEven (v : VoidPtr) : Bool := v.bytes.headD 0 % 2 = 0

/-- Four records are added; two of them are removed by way of their nodes, from behind. -/
theorem sweep_by_node_four : ∃ (s s' : Base SlotPool)
    (h' : List ((Call ⊕ Op) × (Answer ⊕ Result))),
    InOrder s [.slot 0, .slot 1, .slot 2, .slot 3] ∧
    Rbtree.sweep .right isEven Rbtree.removeExtra s =
      .ok ([.slot 3, .slot 2, .slot 1, .slot 0].map (valueAt s), s') ∧
    InOrder s' [.slot 0, .slot 2] ∧ (everything SlotPool firstByteCallbacks).Run s h' s' := by
  obtain ⟨s, hrun, ⟨m, hm⟩, hs⟩ := exists_run_of_operations (σ := SlotPool) ⟨8, 0x2#32, 0⟩
    firstByteCallbacks ([1, 2, 3, 4].map fun k => .add (ofByte k)) (List.replicate 4 (.code 0))
    (fun s => (nodesOf s, [Ref.slot 0, .slot 1, .slot 2, .slot 3].map fun n => isEven (valueAt s n)))
    ([.slot 0, .slot 1, .slot 2, .slot 3], [false, true, false, true]) (by decide +kernel)
  obtain ⟨hnodes, hs⟩ := Prod.mk.inj hs
  have hin : InOrder s [.slot 0, .slot 1, .slot 2, .slot 3] := hnodes ▸ hm.inOrder
  obtain ⟨h₀, h₁, h₂, h₃⟩ : isEven (valueAt s (.slot 0)) = false ∧
      isEven (valueAt s (.slot 1)) = true ∧ isEven (valueAt s (.slot 2)) = false ∧
      isEven (valueAt s (.slot 3)) = true := by
    simpa using hs
  obtain ⟨s', h', ⟨ns, hns, hsweep, hin', -⟩, hrun'⟩ := sweep_by_node ⟨8, 0x2#32, 0⟩
    firstByteCallbacks (by decide) hrun.inr .right isEven
  obtain rfl := hns.unique hin
  exact ⟨s, s', h', hin, hsweep, by simpa [h₀, h₁, h₂, h₃] using hin', hrun'⟩

end MulleRbtree
