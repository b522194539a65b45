import MulleRbtree.Layout.Isolated
import MulleRbtree.Runs.Amortized
import MulleRbtree.Tree.Wiring

/-!
# A call changes a bounded part of the tree

However large a tree is, an insertion rotates at most twice and changes the links of at most ten
nodes, a removal rotates at most three times and changes the links of at most eighteen; no other
call changes any link.

* `rewiredNodes s s'`: the nodes of the tree in `s'` that have other links than in `s`;
* `Repr.ncard_rewiredNodes_le`: their number is that of the wires that have changed;
* `Restructures p m m'`: what the call `p` may do;
* `rewired_of_run`: the bounds, for every call after every run, and for the rotations of the run.
-/

namespace MulleRbtree

open BinaryTree Cells Program

variable {σ : Type}

/-- The nodes of the tree that have other links than before. -/
def rewiredNodes (s s' : Base σ) : Set Ref := {n | Attached s' n ∧ linksAt s' n ≠ linksAt s n}

/-- How often a call may rotate. -/
def turns (p : (Call ⊕ Op) × (Answer ⊕ Result)) : ℕ := if puts p then 2 else if takes p then 3 else 0

/-- How many nodes a call may rewire. -/
def reach (p : (Call ⊕ Op) × (Answer ⊕ Result)) : ℕ :=
  if puts p then 10 else if takes p then 18 else 0

/-- The pointer to the node with a label. -/
def slotRef : Option ℕ → Ref
  | none => .nil
  | some i => .slot i

/-! ### Wires in memory -/

theorem slotRef_label? (T : ETree) : slotRef (shape T).label? = treeRef T := by cases T <;> rfl

theorem slotRef_parent (c : Path Entry) : slotRef (shapePath c).parent = parentRef c := by
  cases c <;> rfl

variable [MulleStorage σ] {s s' : Base σ} {E E' : Env σ} {z z' : Sentinel} {K K' : Multiset Cell}
  {T T' : ETree}

/-- The links of a node are the wire of its slot. -/
theorem Repr.linksAt_wire (h : Repr s E z K T) {w : Wire ℕ} (hw : w ∈ wires none (shape T)) :
    linksAt s (.slot w.1) = some (slotRef w.2.1, slotRef w.2.2.1, slotRef w.2.2.2) := by
  obtain ⟨e, i, l, r, hT, rfl⟩ := exists_plug_of_wire (c := []) hw
  obtain ⟨c, X, rfl, rfl, hX⟩ := exists_plug_of_map hT
  cases X with
  | nil => cases hX
  | node a L R =>
    obtain ⟨rfl, rfl, rfl⟩ := node.inj hX
    dsimp only
    rw [linksAt, h.mem_node]
    have hparent : slotRef (Path.parent (List.map (Frame.map Entry.slot) c)) = parentRef c :=
      slotRef_parent c
    have hl : slotRef (L.map Entry.slot).label? = treeRef L := slotRef_label? L
    have hr : slotRef (R.map Entry.slot).label? = treeRef R := slotRef_label? R
    rw [hparent, hl, hr]
    rfl

/-- Every node of the tree has a wire. -/
theorem Repr.exists_wire (h : Repr s E z K T) {n : Ref} (hn : Attached s n) :
    ∃ w ∈ wires none (shape T), n = .slot w.1 := by
  obtain ⟨c, e, l, r, rfl, rfl⟩ := h.exists_of_attached hn
  refine ⟨wire (shapePath c).parent .left e.slot (shape l).label? (shape r).label?, ?_, rfl⟩
  rw [shape_plug, wires_plug, Multiset.mem_add]
  exact .inl (Multiset.mem_cons_self _ _)

theorem Repr.ncard_rewiredNodes_le (h : Repr s E z K T) (h' : Repr s' E' z' K' T') :
    (rewiredNodes s s').ncard ≤ rewired (shape T) (shape T') := by
  have hsub : rewiredNodes s s' ⊆ (fun w : Wire ℕ => Ref.slot w.1) ''
      {w | w ∈ wires none (shape T') - wires none (shape T)} := by
    rintro n ⟨hn, hne⟩
    obtain ⟨w, hw, rfl⟩ := h'.exists_wire hn
    refine ⟨w, ?_, rfl⟩
    have hold : w ∉ wires none (shape T) := fun hold =>
      hne ((h'.linksAt_wire hw).trans (h.linksAt_wire hold).symm)
    show w ∈ wires none (shape T') - wires none (shape T)
    rw [Multiset.mem_sub, Multiset.count_eq_zero.2 hold]
    exact Multiset.count_pos.2 hw
  have hfinite : {w | w ∈ wires none (shape T') - wires none (shape T)}.Finite :=
    Multiset.finite_toSet _
  have himage := Set.ncard_image_le (f := fun w : Wire ℕ => Ref.slot w.1) hfinite
  have hcard : {w | w ∈ wires none (shape T') - wires none (shape T)}.ncard ≤
      rewired (shape T) (shape T') := by
    have hset : {w | w ∈ wires none (shape T') - wires none (shape T)} =
        ↑(wires none (shape T') - wires none (shape T)).toFinset := by
      ext w
      simp
    rw [hset, Set.ncard_coe_finset]
    exact Multiset.toFinset_card_le _
  exact (Set.ncard_le_ncard hsub (hfinite.image _)).trans (himage.trans hcard)

/-! ### One call -/

/-- What a call may do to the shape of the tree. -/
structure Restructures (p : (Call ⊕ Op) × (Answer ⊕ Result)) (m m' : Image σ) : Prop where
  rotations : m'.env.rotations ≤ m.env.rotations + turns p
  rewired : BinaryTree.rewired (shape m.tree) (shape m'.tree) ≤ reach p

variable {m m' : Image σ} {cb : Callbacks}

omit [MulleStorage σ] in
theorem Restructures.same {p : (Call ⊕ Op) × (Answer ⊕ Result)}
    (hrot : m'.env.rotations = m.env.rotations) (hT : shape m'.tree = shape m.tree) :
    Restructures p m m' := by
  constructor
  · rw [hrot]
    exact Nat.le_add_right _ _
  · rw [hT, rewired_self]
    exact Nat.zero_le _

@[simp] theorem shape_wash (T : ETree) : shape (wash T) = shape T := map_wash (fun _ => rfl) T

theorem Evolves.restructures {c : Call} {r : Answer} (h : Evolves m c r m') :
    Restructures (.inl c, .inl r) m m' := by
  cases h with
  | newNode => exact .same rfl rfl
  | freeNode => exact .same rfl rfl
  | rejected => exact .same rfl rfl
  | @inserted E a F T comp g k hseek ha hk =>
    obtain rfl : plug g nil = T := (plug_seek hseek).1
    exact ⟨Nat.add_le_add_left hk _, rewired_attach E.stamp a g⟩
  | @before E a e F c l r k ha hk =>
    have hplace : plug (Base.beside .left c e l r) nil = plug c (node e l r) :=
      Base.plug_beside .left c e l r
    rw [← hplace]
    exact ⟨Nat.add_le_add_left hk _, rewired_attach E.stamp a _⟩
  | @after E a e F c l r k ha hk =>
    have hplace : plug (Base.beside .right c e r l) nil = plug c (node e l r) :=
      Base.plug_beside .right c e r l
    rw [← hplace]
    exact ⟨Nat.add_le_add_left hk _, rewired_attach E.stamp a _⟩
  | @removed E F c a l r k hk =>
    exact ⟨Nat.add_le_add_left hk _, rewired_removeAt E.stamp.next c a l r⟩
  | @marked E F T i => exact .same rfl (map_soilTo (Entry.soil_slot E.stamp) T)
  | walked => exact .same rfl (shape_wash _)
  | found => exact .same rfl rfl
  | reached => exact .same rfl rfl
  | next => exact .same rfl rfl
  | previous => exact .same rfl rfl
  | isDirty => exact .same rfl rfl
  | counted => exact .same rfl rfl

theorem Performs.restructures {op : Op} {r : Result} (h : Performs cb m op r m') :
    Restructures (.inr op, .inr r) m m' := by
  cases h with
  | @added E F T v g k hplace ha hk =>
    obtain rfl : plug g nil = T := (plug_seek hplace).1
    refine ⟨Nat.add_le_add_left hk _, ?_⟩
    rw [shape_wash]
    exact rewired_attach E.stamp (E.newcomer cb v) g
  | rejected => exact .same rfl (shape_wash _)
  | @removed E F key c a l r k hfind hk =>
    refine ⟨Nat.add_le_add_left hk _, ?_⟩
    rw [shape_wash]
    exact rewired_unstore E.stamp c a l r
  | missing => exact .same rfl rfl
  | @removedNode E F c a l r k hk =>
    refine ⟨Nat.add_le_add_left hk _, ?_⟩
    rw [shape_wash]
    exact rewired_unstore E.stamp c a l r
  | found => exact .same rfl rfl
  | reached => exact .same rfl rfl
  | isEmpty => exact .same rfl rfl
  | enumerated => exact .same rfl rfl

/-- What is read off the memory before and after a call. -/
structure Rewires (p : (Call ⊕ Op) × (Answer ⊕ Result)) (s s' : Base σ) : Prop where
  rotations : s'.rotations ≤ s.rotations + turns p
  nodes : (rewiredNodes s s').ncard ≤ reach p

theorem Restructures.rewires {p : (Call ⊕ Op) × (Answer ⊕ Result)} (h : Restructures p m m')
    (hs : Represents s m) (hs' : Represents s' m') : Rewires p s s' := by
  obtain ⟨⟨z, hr⟩, -⟩ := hs
  obtain ⟨⟨z', hr'⟩, -⟩ := hs'
  have hrot : s.rotations = m.env.rotations := congrArg Env.rotations (Holds.env hr)
  have hrot' : s'.rotations = m'.env.rotations := congrArg Env.rotations (Holds.env hr')
  constructor
  · rw [hrot, hrot']
    exact h.rotations
  · exact (hr.ncard_rewiredNodes_le hr').trans h.rewired

theorem everything_rewires {c : Call ⊕ Op} (hs : Represents s m)
    (hp : (everything σ cb).Pre c s) : Ensures ((everything σ cb).exec c) s fun r s' =>
      (∃ m', Represents s' m') ∧ Rewires (c, r) s s' := by
  cases c with
  | inl c =>
    refine Ensures.map ((exec_represents hs hp).mono ?_)
    rintro r s' ⟨m', he, hs'⟩
    exact ⟨⟨m', hs'⟩, he.restructures.rewires hs hs'⟩
  | inr op =>
    refine Ensures.map ((op_represents hs hp).mono ?_)
    rintro r s' ⟨m', he, hs'⟩
    exact ⟨⟨m', hs'⟩, he.restructures.rewires hs hs'⟩

/-! ### Runs -/

theorem foldl_turns (k : ℕ) (h : List ((Call ⊕ Op) × (Answer ⊕ Result))) :
    h.foldl (fun k p => k + turns p) k ≤ k + 2 * h.countP puts + 3 * h.countP takes := by
  induction h generalizing k with
  | nil => exact le_rfl
  | cons p h ih =>
    have h := ih (k + turns p)
    rw [List.foldl_cons, List.countP_cons, List.countP_cons]
    refine h.trans ?_
    unfold turns
    split_ifs <;> omega

/-- A state with at most `k` rotations so far. -/
def TurnedAtMost (s : Base σ) (k : ℕ) : Prop := (∃ m : Image σ, Represents s m) ∧ s.rotations ≤ k

/-- After every run each further call stays within the bounds, and so do all the rotations of the
run together. -/
theorem rewired_of_run (config : Config) (cb : Callbacks)
    {h : List ((Call ⊕ Op) × (Answer ⊕ Result))}
    (hrun : (everything σ cb).Run (Base.initWithConfig config) h s) :
    s.rotations ≤ 2 * h.countP puts + 3 * h.countP takes ∧
      ∀ c, (everything σ cb).Pre c s → ∃ r s', (everything σ cb).exec c s = .ok (r, s') ∧
        Rewires (c, r) s s' := by
  have hstep : ∀ c s k, TurnedAtMost s k → (everything σ cb).Pre c s →
      Ensures ((everything σ cb).exec c) s fun r s' => TurnedAtMost s' (k + turns (c, r)) := by
    rintro c s k ⟨⟨m, hs⟩, hk⟩ hp
    refine (everything_rewires hs hp).mono ?_
    rintro r s' ⟨hs', hrewires⟩
    exact ⟨hs', hrewires.rotations.trans (Nat.add_le_add_right hk _)⟩
  have hinit : TurnedAtMost (Base.initWithConfig config : Base σ) 0 :=
    ⟨⟨_, shows_init config, sound_init config⟩, le_rfl⟩
  have hrun' : TurnedAtMost s (h.foldl (fun k p => k + turns p) 0) := hrun.foldl hstep hinit
  obtain ⟨⟨m, hs⟩, hk⟩ := hrun'
  constructor
  · have hfold := foldl_turns 0 h
    omega
  · intro c hp
    obtain ⟨r, s', he, -, hrewires⟩ : Ensures ((everything σ cb).exec c) s _ :=
      everything_rewires hs hp
    exact ⟨r, s', he, hrewires⟩

theorem rewired_of_run_three : ∃ s : Base SlotPool, InOrder s [.slot 0, .slot 1, .slot 2] ∧
    s.rotations ≤ 2 * 3 + 3 * 0 ∧ ∀ c, (everything SlotPool lengthCallbacks).Pre c s →
      ∃ r s', (everything SlotPool lengthCallbacks).exec c s = .ok (r, s') ∧
        Rewires (c, r) s s' := by
  obtain ⟨s, hrun, hin, -⟩ := exists_run
  exact ⟨s, hin, rewired_of_run _ lengthCallbacks hrun.inl⟩

end MulleRbtree
