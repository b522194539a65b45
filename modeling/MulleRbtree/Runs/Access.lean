import MulleRbtree.Layout.Setters
import MulleRbtree.Runs.Sentinel
import MulleRbtree.Runs.Sweep

/-!
# The accessors among all other calls

The functions of `mulle--rbtree.h` with which a user reaches into a tree, in any order with
everything else: payloads are replaced while their nodes are in the tree, and markers are switched
on at any time.

* `Access`: these calls, and what they ask;
* `Access.effect`: what they make of an image;
* `Replaces s s' n p`: the payload of a node is replaced, and nothing else happens;
* `Accessible s`: each call finds or does what it should;
* `access_of_run`: no order of calls makes the tree invalid, or a call fault.
-/

namespace MulleRbtree

open BinaryTree Cells Program

variable {σ : Type}

/-! ### Calls -/

inductive Access
  | enableMarking
  | setPayload (node : Ref) (payload : VoidPtr)
  | getGrandparent (node : Ref)
  | isRootNode (node : Ref)
  | getNodeFromExtra (extra : VoidPtr)

/-- A node of the pool, in the tree or not. -/
def Allocated (s : Base σ) (n : Ref) : Prop := n ≠ .nil ∧ (s.mem n).isSome

namespace Access

/-- The root has no grandparent: its parent is the sentinel, whose own parent means nothing. -/
def Pre : Access → Base σ → Prop
  | setPayload n _, s => Allocated s n ∧ Options.useExtra s.options = false
  | getGrandparent n, s => Attached s n ∧ n ≠ s.root
  | getNodeFromExtra extra, s =>
    Options.useExtra s.options = true ∧ ∃ n, Attached s n ∧ extra = valueAt s n
  | _, _ => True

def exec : Access → Base.M σ Answer
  | enableMarking => do
    Base.enableMarking
    return .done
  | setPayload n payload => do
    Base.setPayload n payload
    return .done
  | getGrandparent n => do return .node (← Base.getGrandparent n)
  | isRootNode n => do return .flag (← Base.isRootNode n)
  | getNodeFromExtra extra => do return .node (← Base.getNodeFromExtra extra)

/-- What a call makes of an image. -/
def effect : Access → Image σ → Image σ
  | enableMarking, m => ⟨m.env.marking, m.spare, m.tree⟩
  | setPayload (.slot i) payload, m =>
    ⟨m.env, m.spare.map (Entry.setPayload i payload), m.tree.map (Entry.setPayload i payload)⟩
  | _, m => m

end Access

/-! ### The invariant -/

section Options

variable (options : BitVec 32)

/-- The other options stay. -/
theorem marking_and {k : BitVec 32} (hk : 0x8#32 &&& k = 0#32) :
    (options ||| 0x8#32) &&& k = options &&& k := by
  rw [BitVec.and_or_distrib_right, hk, BitVec.or_zero]

theorem useDirty_marking : Options.useDirty (options ||| 0x8#32) = Options.useDirty options := by
  rw [Options.useDirty, marking_and options rfl, Options.useDirty]

theorem useExtra_marking : Options.useExtra (options ||| 0x8#32) = Options.useExtra options := by
  rw [Options.useExtra, marking_and options rfl, Options.useExtra]

theorem allowDuplicates_marking :
    Options.allowDuplicates (options ||| 0x8#32) = Options.allowDuplicates options := by
  rw [Options.allowDuplicates, marking_and options rfl, Options.allowDuplicates]

end Options

theorem Sound.effect {m : Image σ} (h : Sound m) (c : Access) : Sound (c.effect m) := by
  obtain ⟨hb, hd, hF⟩ := h
  cases c with
  | enableMarking =>
    have huse : Options.useDirty m.env.marking.options = Options.useDirty m.env.options :=
      useDirty_marking m.env.options
    refine ⟨hb, ⟨?_, ?_⟩, fun a ha => ?_⟩
    · intro ho
      exact hd.locally (huse ▸ ho)
    · exact hd.proper.mono fun e he ho => he (huse ▸ ho)
    · rw [hF a ha, freshColor, freshColor]
      exact if_congr (by rw [← huse]; rfl) rfl rfl
  | setPayload n payload =>
    cases n with
    | nil => exact ⟨hb, hd, hF⟩
    | slot i =>
      refine ⟨isRedBlack_setPayload hb, dirt_setPayload hd, fun a ha => ?_⟩
      obtain ⟨b, hb, rfl⟩ := Multiset.mem_map.1 ha
      rw [Entry.setPayload_color]
      exact hF b hb
  | getGrandparent n => exact ⟨hb, hd, hF⟩
  | isRootNode n => exact ⟨hb, hd, hF⟩
  | getNodeFromExtra extra => exact ⟨hb, hd, hF⟩

variable [MulleStorage σ] {s s' : Base σ} {m : Image σ} {cb : Callbacks}

theorem access_represents {c : Access} (hs : Represents s m) (hp : c.Pre s) :
    Ensures c.exec s fun _ s' => Represents s' (c.effect m) := by
  obtain ⟨⟨z, hr⟩, hm⟩ := id hs
  refine Ensures.mono (P := fun _ s' => Shows s' (c.effect m)) ?_ fun _ s' h => ⟨h, hm.effect c⟩
  cases c with
  | enableMarking => exact (Base.enableMarking_spec hr).bind fun _ _ h => .pure ⟨z, h⟩
  | setPayload n payload =>
    obtain ⟨⟨hn, halloc⟩, -⟩ := hp
    cases n with
    | nil => exact absurd rfl hn
    | slot i => exact (Base.setPayload_spec hr halloc payload).bind fun _ _ h => .pure ⟨z, h⟩
  | getGrandparent n =>
    obtain ⟨c, e, l, r, hT, rfl⟩ := hr.exists_of_attached hp.1
    rw [hT] at hr
    cases c with
    | nil => exact absurd (Holds.root hr).symm hp.2
    | cons f c =>
      refine .bind_eq (Base.getGrandparent_spec (t := node e l r) hr (by simp)) (.pure ?_)
      rw [← hT] at hr
      exact ⟨z, hr⟩
  | isRootNode n => exact .bind_eq (bind_eq hr.getRoot) (.pure ⟨z, hr⟩)
  | getNodeFromExtra extra =>
    obtain ⟨ho, n, hn, rfl⟩ := hp
    obtain ⟨e, he, rfl⟩ := hr.exists_mem_of_attached hn
    have hoptions : s.options = m.env.options := Holds.options_eq hr
    rw [hoptions] at ho
    have hnode := Base.getNodeFromExtra_value hr ho e
    rw [← hr.valueAt_eq he] at hnode
    exact .bind_eq hnode (.pure ⟨z, hr⟩)

/-- The accessors, as an interface. -/
def accesses (σ : Type) : Interface (Base σ) Fault Access Answer := ⟨Access.Pre, Access.exec⟩

/-- Both headers, with the accessors. -/
def headers (σ : Type) [MulleStorage σ] (cb : Callbacks) :
    Interface (Base σ) Fault ((Call ⊕ Op) ⊕ Access) ((Answer ⊕ Result) ⊕ Answer) :=
  (everything σ cb).sum (accesses σ)

theorem headers_keeps (c : (Call ⊕ Op) ⊕ Access) (s : Base σ)
    (hs : ∃ m : Image σ, Represents s m) (hp : (headers σ cb).Pre c s) :
    Ensures ((headers σ cb).exec c) s fun _ s' => ∃ m : Image σ, Represents s' m :=
  Interface.sum_ensures everything_keeps
    (fun _ _ ⟨_, hs⟩ hp => (access_represents hs hp).mono fun _ _ h => ⟨_, h⟩) c s hs hp

/-! ### What the calls find -/

/-- The payload of the node `n` becomes `p`, and nothing else happens. -/
structure Replaces (s s' : Base σ) (n : Ref) (p : VoidPtr) : Prop where
  value : valueAt s' n = p
  others : ∀ x, x ≠ n → valueAt s' x = valueAt s x
  order : ∀ ns, InOrder s ns → InOrder s' ns
  rest : ∀ x, (s'.mem x).map (fun c => { c with payload := p }) =
    (s.mem x).map fun c => { c with payload := p }

/-- What the accessors find in a state. -/
structure Accessible (s : Base σ) : Prop where
  setPayload : Options.useExtra s.options = false → ∀ n p, Allocated s n →
    ∃ s', Base.setPayload n p s = .ok ((), s') ∧ Replaces s s' n p
  /-- two links down, and up again -/
  getGrandparent : ∀ n c d p c' d', Attached s n → s.mem n = some c → c.child d = p →
    s.mem p = some c' → p ≠ .nil → c'.child d' ≠ .nil →
    Base.getGrandparent (c'.child d') s = .ok (n, s)
  isRootNode : ∀ n, Attached s n →
    (Base.isRootNode n s = .ok (true, s) ↔ Base.getParent n s = .ok (.nil, s))
  getNodeFromExtra : Options.useExtra s.options = true → ∀ n, Attached s n →
    Base.getNodeFromExtra (valueAt s n) s = .ok (n, s)

omit [MulleStorage σ] in
/-- The links determine the tree, whatever the nodes hold. -/
theorem Linked.of_links {par n : Ref} {t : BinaryTree Ref} (h : Linked s par n t)
    (hmem : ∀ m c, s.mem m = some c → ∃ c', s'.mem m = some c' ∧ c'.parent = c.parent ∧
      c'.left = c.left ∧ c'.right = c.right) : Linked s' par n t := by
  induction t generalizing par n with
  | nil => exact h
  | node m l r ihl ihr =>
    obtain ⟨rfl, hm, c, hc, rfl, hl, hr⟩ := h
    obtain ⟨c', hc', hparent, hleft, hright⟩ := hmem n c hc
    exact ⟨rfl, hm, c', hc', hparent, hleft ▸ ihl hl, hright ▸ ihr hr⟩

omit [MulleStorage σ] in
theorem setPayload_replaces {n : Ref} (hn : Allocated s n)
    (ho : Options.useExtra s.options = false) (p : VoidPtr) :
    ∃ s', Base.setPayload n p s = .ok ((), s') ∧ Replaces s s' n p := by
  obtain ⟨hne, hsome⟩ := hn
  obtain ⟨c, hc⟩ := Option.isSome_iff_exists.1 hsome
  have hself : Function.update s.mem n (some { c with payload := p }) n =
      some { c with payload := p } := Function.update_self _ _ _
  have hother : ∀ x, x ≠ n → Function.update s.mem n (some { c with payload := p }) x = s.mem x :=
    fun x hx => Function.update_of_ne hx _ _
  refine ⟨{ s with mem := Function.update s.mem n (some { c with payload := p }) }, ?_, ?_, ?_, ?_, ?_⟩
  · unfold Base.setPayload Base.update
    rw [hc]
  · cases n with
    | nil => exact absurd rfl hne
    | slot i =>
      rw [valueAt_slot]
      show Option.elim (Function.update s.mem _ _ _) _ _ = _
      rw [hself, Option.elim_some]
      exact if_neg (by simp [ho])
  · intro x hx
    cases x with
    | nil => rfl
    | slot j => exact valueAt_congr (hother _ hx) rfl
  · rintro ns ⟨t, ht, rfl⟩
    refine ⟨t, ht.of_links fun m c' hc' => ?_, rfl⟩
    by_cases hm : m = n
    · subst hm
      obtain rfl : c = c' := by simpa [hc] using hc'
      exact ⟨_, hself, rfl, rfl, rfl⟩
    · exact ⟨c', (hother m hm).trans hc', rfl, rfl, rfl⟩
  · intro x
    by_cases hx : x = n
    · subst hx
      show Option.map _ (Function.update s.mem _ _ _) = _
      rw [hself, hc]
      rfl
    · exact congrArg _ (hother x hx)

/-- A link down is one of the tree. -/
theorem Repr.child_of_mem {E : Env σ} {z : Sentinel} {K : Multiset Cell} {q : Path Entry} {d : Side}
    {e : Entry} {x y : ETree} (h : Repr s E z K (plug q (join d e x y))) {c : Rbnode}
    (hc : s.mem (.slot e.slot) = some c) : c.child d = treeRef x := by
  obtain ⟨H, hH, hmem⟩ := h.mem_join
  have hcell := hH.owns.read hmem
  rw [hc, Option.some.injEq] at hcell
  rw [hcell, Entry.cell_child]

theorem Repr.exists_child {E : Env σ} {z : Sentinel} {K : Multiset Cell} {T : ETree}
    (h : Repr s E z K T) (d : Side) {n : Ref} {c : Rbnode} (hn : Attached s n)
    (hc : s.mem n = some c) : ∃ q e x y, T = plug q (join d e x y) ∧ n = .slot e.slot ∧
      c.child d = treeRef x := by
  obtain ⟨q, e, l, r, rfl, rfl⟩ := h.exists_of_attached hn
  obtain ⟨a, x, y, hjoin⟩ := exists_join d (t := node e l r) (by simp)
  have hslot : Ref.slot e.slot = .slot a.slot := by
    have href := congrArg treeRef hjoin
    rwa [treeRef_node, treeRef_join] at href
  rw [hslot] at hc
  rw [hjoin] at h ⊢
  exact ⟨q, a, x, y, rfl, hslot, h.child_of_mem hc⟩

/-- A node of the tree is one of the pool. -/
theorem Repr.allocated {E : Env σ} {z : Sentinel} {K : Multiset Cell} {T : ETree}
    (h : Repr s E z K T) {n : Ref} (hn : Attached s n) : Allocated s n := by
  obtain ⟨q, e, l, r, rfl, rfl⟩ := h.exists_of_attached hn
  exact ⟨Ref.slot_ne_nil, Option.isSome_iff_exists.2 ⟨_, h.mem_node⟩⟩

theorem Represents.accessible (hs : Represents s m) : Accessible s := by
  obtain ⟨⟨z, hr⟩, -⟩ := hs
  refine ⟨fun ho n p hn => setPayload_replaces hn ho p, ?_, ?_, ?_⟩
  · rintro n c d p c' d' hn hc rfl hc' hp hne
    obtain ⟨q, e, x, y, hT, rfl, hx⟩ := hr.exists_child d hn hc
    rw [hx] at hc' hp
    have hne' : x ≠ nil := fun e => hp (by rw [e, treeRef_nil])
    have hplug : m.tree = plug (⟨d, e, y⟩ :: q) x := hT
    obtain ⟨a, u, v, rfl⟩ := exists_join d' hne'
    rw [treeRef_join] at hc'
    have hu : c'.child d' = treeRef u := by
      rw [hplug] at hr
      exact hr.child_of_mem hc'
    rw [hu] at hne ⊢
    have hu' : u ≠ nil := fun e => hne (by rw [e, treeRef_nil])
    have hplug' : m.tree = plug (⟨d', a, v⟩ :: ⟨d, e, y⟩ :: q) u := hplug
    rw [hplug'] at hr
    exact Base.getGrandparent_spec hr hu'
  · intro n hn
    obtain ⟨q, e, l, r, hT, rfl⟩ := hr.exists_of_attached hn
    have hroot : Base.isRootNode (.slot e.slot) s = .ok (decide (treeRef m.tree = .slot e.slot), s) :=
      bind_eq hr.getRoot
    have hparent : Base.getParent (.slot e.slot) s = .ok (parentRef q, s) := by
      rw [hT] at hr
      exact hr.getParent (t := node e l r) fun e => absurd e (by simp)
    rw [hroot]
    constructor
    · intro htrue
      have heq : treeRef m.tree = .slot e.slot := by simpa using htrue
      have hne : m.tree ≠ nil := by
        rw [hT]
        exact plug_ne_nil (.inr (by simp))
      rw [← heq]
      exact hr.getParent (c := []) fun e => absurd e hne
    · intro hnil
      rw [hparent] at hnil
      cases q with
      | nil =>
        rw [hT]
        simp
      | cons f q => simp at hnil
  · intro ho n hn
    obtain ⟨e, he, rfl⟩ := hr.exists_mem_of_attached hn
    have hoptions : s.options = m.env.options := Holds.options_eq hr
    rw [hr.valueAt_eq he]
    exact Base.getNodeFromExtra_value hr (hoptions ▸ ho) e

/-- After any calls, whatever payloads have been replaced and whenever markers have been switched
on, the tree is valid, the accessors find what they should, and no call that is then allowed faults
or leaves an invalid tree. -/
theorem access_of_run (config : Config) (cb : Callbacks)
    {h : List (((Call ⊕ Op) ⊕ Access) × ((Answer ⊕ Result) ⊕ Answer))}
    (hrun : (headers σ cb).Run (Base.initWithConfig config) h s) :
    ValidTree s ∧ Accessible s ∧ ∀ c, (headers σ cb).Pre c s →
      ∃ r s', (headers σ cb).exec c s = .ok (r, s') ∧ ValidTree s' := by
  have hs : ∃ m : Image σ, Represents s m :=
    hrun.keeps headers_keeps ⟨_, shows_init config, sound_init config⟩
  obtain ⟨m, hm⟩ := id hs
  refine ⟨hm.valid, hm.accessible, fun c hp => ?_⟩
  obtain ⟨r, s', he, m', hm'⟩ := headers_keeps c s hs hp
  exact ⟨r, s', he, hm'.valid⟩

theorem access_of_run_enableMarking :
    (∃ s t : Base SlotPool, InOrder s [.slot 0, .slot 1, .slot 2] ∧
      Base.enableMarking s = .ok ((), t) ∧ ValidTree t ∧ Accessible t ∧
      ∀ c, (headers SlotPool lengthCallbacks).Pre c t →
        ∃ r t', (headers SlotPool lengthCallbacks).exec c t = .ok (r, t') ∧ ValidTree t') ∧
    ∃ t : Base SlotPool, InOrder t [.slot 0, .slot 2] ∧ Accessible t ∧
      Base.getNodeFromExtra (valueAt t (.slot 2)) t = .ok (.slot 2, t) := by
  constructor
  · obtain ⟨s, hrun, hin, -⟩ := exists_run
    have hreach : (headers SlotPool lengthCallbacks).Run _ _ s := hrun.inl.inl
    have hone : (headers SlotPool lengthCallbacks).Run s [(.inr .enableMarking, .inr .done)]
        { s with options := s.options ||| 0x8#32 } := .cons trivial rfl (.nil _)
    exact ⟨s, _, hin, rfl, access_of_run _ lengthCallbacks (hreach.append hone)⟩
  · -- records of eight bytes, in nodes that hold them
    obtain ⟨t, hrun, ⟨m, hm⟩, ht⟩ := exists_run_of_operations (σ := SlotPool) ⟨8, 0x2#32, 0⟩
      firstByteCallbacks (fiveOps (ofByte 1) (ofByte 2) (ofByte 3)) fiveResults
      (fun s => (nodesOf s, Options.useExtra s.options)) ([.slot 0, .slot 2], true)
      (by decide +kernel)
    obtain ⟨hnodes, hextra⟩ := Prod.mk.inj ht
    have hin : InOrder t [.slot 0, .slot 2] := hnodes ▸ hm.inOrder
    have haccess : Accessible t := (access_of_run _ firstByteCallbacks hrun.inr.inl).2.1
    exact ⟨t, hin, haccess, haccess.getNodeFromExtra hextra _ (hin.mem_iff.1 (by simp))⟩

end MulleRbtree
