import MulleRbtree.Runs.Valid

/-!
# Logarithmic balance

In every tree that calls lead to, a path from the root to the sentinel has at most `2 log₂ (n + 1)`
nodes, where `n` is the number of attached nodes.  This bounds the calls of the comparison in a
search or an insertion, and the depth of the recursive walks.
-/

namespace MulleRbtree

open BinaryTree Cells Program

variable {σ : Type}

/-- The nodes on a way down from `n` to the sentinel. -/
inductive WayDown (s : Base σ) : Ref → List Ref → Prop
  | nil : WayDown s .nil []
  | node {n : Ref} {c : Rbnode} {p : List Ref} (d : Side) : n ≠ .nil → s.mem n = some c →
      WayDown s (c.child d) p → WayDown s n (n :: p)

variable [MulleStorage σ]

theorem Repr.length_wayDown {s : Base σ} {E : Env σ} {z : Sentinel} {K : Multiset Cell}
    {c : Path Entry} {t : ETree} {p : List Ref} (h : Repr s E z K (plug c t))
    (hp : WayDown s (treeRef t) p) : p.length ≤ t.height := by
  induction t generalizing c p with
  | nil =>
    cases hp with
    | nil => simp
    | node d hn => exact absurd rfl hn
  | node e l r ihl ihr =>
    cases hp with
    | @node _ n p d _ hn hp =>
      rw [treeRef_node, h.mem_node, Option.some.injEq] at hn
      subst hn
      rw [List.length_cons, height]
      cases d with
      | left =>
        have := ihl (c := ⟨.left, e, r⟩ :: c) h hp
        omega
      | right =>
        have := ihr (c := ⟨.right, e, l⟩ :: c) h hp
        omega

/-- The number of events of a call that does nothing but search. -/
theorem length_comparisons_le {T : ETree} (options : BitVec 32) (key : VoidPtr)
    (cmp : Entry → ℤ) (halt : Bool) :
    (compareEvents options key (visits cmp halt T)).length ≤ T.height := by
  rw [compareEvents, List.length_map]
  exact length_visits_le T

/-- In a state with `n` attached nodes. -/
structure BalancedState (s : Base σ) (n : ℕ) : Prop where
  wayDown : ∀ p, WayDown s s.root p → (p.length : ℝ) ≤ 2 * Real.logb 2 (n + 1)
  findNode : ∀ key comp, ∃ r s' events, Base.findNode key comp s = .ok (r, s') ∧
    s'.trace = s.trace ++ events ∧ (events.length : ℝ) ≤ 2 * Real.logb 2 (n + 1)
  findNodeEqualOrGreater : ∀ key comp, ∃ r s' events,
    Base.findNodeEqualOrGreater key comp s = .ok (r, s') ∧ s'.trace = s.trace ++ events ∧
      (events.length : ℝ) ≤ 2 * Real.logb 2 (n + 1)
  insertNode : ∀ a comp, Unattached s a → ∃ r s' events,
    Base.insertNode a comp s = .ok (r, s') ∧ s'.trace = s.trace ++ events ∧
      (events.length : ℝ) ≤ 2 * Real.logb 2 (n + 1)
  /-- the recursions get by with this depth -/
  walks : ∀ depth : ℕ, 2 * Real.logb 2 (n + 1) + 1 ≤ depth →
    Base.walkCount depth s.root s = .ok (n, s) ∧
    ∃ s', Base.walkDirtyFrom depth s.root s = .ok ((), s')

theorem Represents.balanced {s : Base σ} {m : Image σ} (h : Represents s m) :
    BalancedState s m.tree.numNodes := by
  obtain ⟨E, F, T⟩ := m
  obtain ⟨⟨z, hr⟩, hm⟩ := h
  dsimp only at hr ⊢
  have hheight := hm.redBlack.height_le
  dsimp only at hheight
  have hroot : s.root = treeRef T := Holds.root hr
  have htrace : s.trace = E.trace := Holds.trace_eq hr
  have hcast : ∀ {k : ℕ}, k ≤ T.height → (k : ℝ) ≤ 2 * Real.logb 2 (T.numNodes + 1) := fun hk =>
    le_trans (by exact_mod_cast hk) hheight
  refine ⟨fun p hp => hcast (hr.length_wayDown (c := []) (hroot ▸ hp)), fun key comp => ?_,
    fun key comp => ?_, fun a comp ha => ?_, fun depth hd => ?_⟩
  · obtain ⟨r, s', he, -, h'⟩ := Base.findNode_spec hr key comp
    exact ⟨r, s', _, he, by rw [Holds.trace_eq h', htrace]; rfl, hcast (length_comparisons_le _ _ _ _)⟩
  · obtain ⟨r, s', he, -, h'⟩ := Base.findNodeEqualOrGreater_spec hr key comp
    exact ⟨r, s', _, he, by rw [Holds.trace_eq h', htrace]; rfl, hcast (length_comparisons_le _ _ _ _)⟩
  · obtain ⟨b, F, rfl, rfl, hred, hr⟩ := hr.exists_fresh hm.fresh ha
    obtain ⟨r, s', he, h'⟩ := Base.insertNode_spec hr hm.redBlack hred comp
    have htrace' := h'.trace_eq
    exact ⟨r, s', _, he, by rw [htrace', htrace]; rfl, hcast (length_comparisons_le _ _ _ _)⟩
  · have hlt : T.height < depth := by
      have : (T.height : ℝ) + 1 ≤ depth := by linarith
      exact_mod_cast this
    obtain ⟨_, s', he, -⟩ := Base.walkDirtyFrom_spec (c := []) hr hlt
    rw [hroot]
    exact ⟨Base.walkCount_spec (c := []) hr hlt, s', he⟩

/-- Every tree that calls lead to is balanced. -/
theorem balanced_of_run (config : Config) {s : Base σ} {h : List (Call × Answer)}
    (hrun : (calls σ).Run (Base.initWithConfig config) h s) :
    ∃ ns : Finset Ref, (∀ n, n ∈ ns ↔ Attached s n) ∧ BalancedState s ns.card := by
  obtain ⟨m, -, hs⟩ := run_evolves hrun ⟨shows_init config, sound_init config⟩
  obtain ⟨⟨z, hr⟩, -⟩ := id hs
  refine ⟨(m.tree.map Entry.ref).inorder.toFinset, fun n => ?_, ?_⟩
  · rw [List.mem_toFinset, hr.mem_refs]
  · rw [List.toFinset_card_of_nodup hr.nodup_refs, inorder_map, List.length_map, length_inorder]
    exact hs.balanced

theorem balanced_of_run_three : ∃ s : Base SlotPool, InOrder s [.slot 0, .slot 1, .slot 2] ∧
    ∃ ns : Finset Ref, (∀ n, n ∈ ns ↔ Attached s n) ∧ BalancedState s ns.card := by
  obtain ⟨s, hrun, hin, -⟩ := exists_run
  exact ⟨s, hin, balanced_of_run _ hrun⟩

end MulleRbtree
