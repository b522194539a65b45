import MulleRbtree.Runs.Asserts
import MulleRbtree.Runs.Valid

/-!
# All traversals follow one order

* `Visits`: the calls of a callback that does not answer 0;
* `GoesThrough`: a walk calls its callback along a list of nodes, until it answers 0;
* `Traverses s ns`: the steps, the walks and the enumerators in both directions go through the nodes
  `ns`, which are the attached ones;
* `traverses_of_run`: so they all do after any calls, `ns` being the order that the links define.
-/

namespace MulleRbtree

open BinaryTree Cells Program

variable {σ : Type}

/-! ### Callbacks -/

section Callback

variable {υ : Type} {callback : Ref → υ → ℤ × υ}

/-- The callback is called along `v`, which takes its `userinfo` from `u` to `u'`, and does not
answer 0. -/
inductive Visits (callback : Ref → υ → ℤ × υ) : υ → List Ref → υ → Prop
  | nil (u : υ) : Visits callback u [] u
  | cons {n : Ref} {v : List Ref} {u u₁ u' : υ} {k : ℤ} : callback n u = (k, u₁) → k ≠ 0 →
      Visits callback u₁ v u' → Visits callback u (n :: v) u'

theorem Visits.visit {v : List Ref} {u u' : υ} (h : Visits callback u v u') :
    Base.visit callback v u = (v, u') := by
  induction h with
  | nil u => rfl
  | cons hcall hk _ ih => simp only [Base.visit, hcall, if_neg hk, ih]

/-- The first answer 0 is the last call. -/
theorem Visits.visit_stop {v w : List Ref} {n : Ref} {u u₁ u₂ : υ} (h : Visits callback u v u₁)
    (hn : callback n u₁ = (0, u₂)) : Base.visit callback (v ++ n :: w) u = (v ++ [n], u₂) := by
  induction h with
  | nil u => simp [Base.visit, hn]
  | cons hcall hk _ ih => simp only [List.cons_append, Base.visit, hcall, if_neg hk, ih hn]

/-- A walk calls its callback along `ns`, to the end or until the callback answers 0. -/
structure GoesThrough (walk : υ → Base.M σ (List Ref × υ)) (callback : Ref → υ → ℤ × υ)
    (s : Base σ) (ns : List Ref) : Prop where
  all : ∀ u u', Visits callback u ns u' → walk u s = .ok ((ns, u'), s)
  stop : ∀ v n w u u₁ u₂, ns = v ++ n :: w → Visits callback u v u₁ → callback n u₁ = (0, u₂) →
    walk u s = .ok ((v ++ [n], u₂), s)

theorem goesThrough_of_visit {walk : υ → Base.M σ (List Ref × υ)} {s : Base σ} {ns : List Ref}
    (h : ∀ u, walk u s = .ok (Base.visit callback ns u, s)) : GoesThrough walk callback s ns := by
  refine ⟨fun u u' hv => ?_, fun v n w u u₁ u₂ hns hv hn => ?_⟩
  · rw [h, hv.visit]
  · rw [h, hns, hv.visit_stop hn]

end Callback

variable [MulleStorage σ]

/-! ### Traversals -/

/-- An enumerator hands out the values of `ns`, and nothing when it is called again. -/
def HandsOut (enumerate : Base.M σ Ref) (next : Ref → Base.M σ (Option VoidPtr × Ref))
    (s : Base σ) (ns : List Ref) : Prop :=
  ∀ k, (do Rbtree.takeItems next k (← enumerate)) s =
    .ok (((ns.take k).map (fun n => some (valueAt s n)) ++ List.replicate (k - ns.length) none,
      (ns.drop k).headD .nil), s)

/-- All traversals go through the nodes `ns`. -/
structure Traverses (s : Base σ) (ns : List Ref) : Prop where
  attached : ∀ n, n ∈ ns ↔ Attached s n
  nodup : ns.Nodup
  next : ∀ u n v, ns = u ++ n :: v → Base.nextNode n s = .ok (v.headD .nil, s)
  previous : ∀ u n v, ns = u ++ n :: v → Base.previousNode n s = .ok (u.reverse.headD .nil, s)
  walk : ∀ (υ : Type) (callback : Ref → υ → ℤ × υ), GoesThrough (Base.walk callback) callback s ns
  walkReverse : ∀ (υ : Type) (callback : Ref → υ → ℤ × υ),
    GoesThrough (Base.walkReverse callback) callback s ns.reverse
  walkValues : ∀ (υ : Type) (callback : VoidPtr → υ → ℤ × υ),
    GoesThrough (Rbtree.walk callback) (fun n => callback (valueAt s n)) s ns
  enumeration : HandsOut Rbtree.enumerate Rbtree.enumeratorNext s ns
  reverseenumeration : HandsOut Rbtree.reverseenumerate Rbtree.reverseenumeratorNext s ns.reverse

section Repr

variable {s : Base σ} {E : Env σ} {z : Sentinel} {K : Multiset Cell} {T : ETree}

theorem labelRef_head? (v : List Entry) : labelRef v.head? = (v.map Entry.ref).headD .nil := by
  cases v <;> rfl

/-- A place in the list of pointers is a place in the tree. -/
theorem exists_of_map_ref {L : List Entry} {u v : List Ref} {n : Ref}
    (h : L.map Entry.ref = u ++ n :: v) : ∃ p e q, L = p ++ e :: q ∧ u = p.map Entry.ref ∧
      n = e.ref ∧ v = q.map Entry.ref := by
  obtain ⟨p, q', rfl, rfl, hq⟩ := List.map_eq_append_iff.1 h
  obtain ⟨e, q, rfl, rfl, rfl⟩ := List.map_eq_cons_iff.1 hq
  exact ⟨p, e, q, rfl, rfl, rfl, rfl⟩

omit [MulleStorage σ] in
theorem handsOut_of_steps {L : List Entry} {enumerate : Base.M σ Ref}
    {next : Ref → Base.M σ (Option VoidPtr × Ref)} (hfirst : enumerate s = .ok (labelRef L.head?, s))
    (hnext : ∀ u e v, L = u ++ e :: v →
      next e.ref s = .ok ((some (valueAt s e.ref), labelRef v.head?), s))
    (hend : next .nil s = .ok ((none, .nil), s)) : HandsOut enumerate next s (L.map Entry.ref) := by
  intro k
  rw [bind_eq hfirst, Rbtree.takeItems_spec hnext hend k, labelRef_head?]
  simp only [← List.map_take, ← List.map_drop, List.map_map, List.length_map]
  rfl

theorem Repr.traverses (h : Repr s E z K T) : Traverses s (T.inorder.map Entry.ref) := by
  refine ⟨fun n => ?_, ?_, fun u n v hns => ?_, fun u n v hns => ?_, fun υ callback => ?_,
    fun υ callback => ?_, fun υ callback => ?_, ?_, ?_⟩
  · rw [← inorder_map]
    exact h.mem_refs n
  · rw [← inorder_map]
    exact h.nodup_refs
  · obtain ⟨p, e, q, hT, -, rfl, rfl⟩ := exists_of_map_ref hns
    rw [Base.nextNode_of_inorder h hT, labelRef_head?]
  · obtain ⟨p, e, q, hT, rfl, rfl, -⟩ := exists_of_map_ref hns
    have hrev : T.inorder.reverse = q.reverse ++ e :: p.reverse := by
      rw [hT]
      simp
    rw [Base.previousNode_of_inorder h hrev, labelRef_head?, List.map_reverse]
  · exact goesThrough_of_visit (Base.walk_spec h callback)
  · exact goesThrough_of_visit (Base.walkReverse_spec h callback)
  · exact goesThrough_of_visit (Rbtree.walk_spec h callback)
  · have hfirst : Rbtree.enumerate s = .ok (labelRef T.inorder.head?, s) := by
      rw [Rbtree.enumerate, bind_eq h.getRoot, Base.findLeftmostNode_root h]
    exact handsOut_of_steps hfirst (fun _ _ _ => Rbtree.enumeratorNext_of_inorder h) rfl
  · have hfirst : Rbtree.reverseenumerate s = .ok (labelRef T.inorder.reverse.head?, s) := by
      rw [Rbtree.reverseenumerate, bind_eq h.getRoot, Base.findRightmostNode_root h]
    rw [← List.map_reverse]
    exact handsOut_of_steps hfirst (fun _ _ _ => Rbtree.reverseenumeratorNext_of_inorder h) rfl

end Repr

/-- A step forth and a step back. -/
theorem Traverses.inverse {s : Base σ} {ns : List Ref} (h : Traverses s ns) {n m : Ref}
    (hn : Attached s n) (hm : Attached s m) :
    Base.nextNode n s = .ok (m, s) ↔ Base.previousNode m s = .ok (n, s) := by
  constructor
  · intro hnext
    obtain ⟨u, v, hns⟩ := List.append_of_mem ((h.attached n).2 hn)
    rw [h.next u n v hns, Except.ok.injEq, Prod.mk.injEq] at hnext
    cases v with
    | nil => exact absurd hnext.1.symm hm.ne_nil
    | cons x v =>
      obtain rfl : x = m := hnext.1
      rw [h.previous (u ++ [n]) x v (by simpa using hns)]
      simp
  · intro hprevious
    obtain ⟨u, v, hns⟩ := List.append_of_mem ((h.attached m).2 hm)
    rw [h.previous u m v hns, Except.ok.injEq, Prod.mk.injEq] at hprevious
    cases u using List.reverseRecOn with
    | nil => exact absurd hprevious.1.symm hn.ne_nil
    | append_singleton u x _ =>
      obtain rfl : x = n := by simpa using hprevious.1
      rw [h.next u x (m :: v) (by simpa using hns)]
      rfl

/-- After any calls, all traversals go through the attached nodes in the order that the links
define, and steps in the two directions undo each other. -/
theorem traverses_of_run (config : Config) (cb : Callbacks) {s : Base σ}
    {h : List ((Call ⊕ Op) × (Answer ⊕ Result))}
    (hrun : (everything σ cb).Run (Base.initWithConfig config) h s) :
    ∃ ns, InOrder s ns ∧ Traverses s ns ∧ ∀ n m, Attached s n → Attached s m →
      (Base.nextNode n s = .ok (m, s) ↔ Base.previousNode m s = .ok (n, s)) := by
  obtain ⟨m, ⟨z, hr⟩, -⟩ : ∃ m : Image σ, Represents s m :=
    hrun.keeps everything_keeps ⟨_, shows_init config, sound_init config⟩
  exact ⟨_, hr.inOrder, Repr.traverses hr, fun _ _ hn hm => (Repr.traverses hr).inverse hn hm⟩

theorem traverses_of_run_three : ∃ s : Base SlotPool, InOrder s [.slot 0, .slot 1, .slot 2] ∧
    Traverses s [.slot 0, .slot 1, .slot 2] ∧ ∀ n m, Attached s n → Attached s m →
      (Base.nextNode n s = .ok (m, s) ↔ Base.previousNode m s = .ok (n, s)) := by
  obtain ⟨s, hrun, hin, -⟩ := exists_run
  obtain ⟨ns, hns, htraverses⟩ := traverses_of_run _ lengthCallbacks hrun.inl
  obtain rfl := hns.unique hin
  exact ⟨s, hin, htraverses⟩

end MulleRbtree
