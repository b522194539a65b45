import MulleRbtree.Runs.Amortized
import MulleRbtree.Runs.Order

/-!
# Searching with any comparison

The searches take a comparison with each call, and it need not be the one that has placed the nodes:
a coarser one, or one for keys of another kind, will do, as long as its outcomes fall along the
tree.

* `lesser`, `equal`, `greater`: the nodes below the key, the matches, and the nodes above the key;
* `Finds s comp key ns`: the matches stand together, and the searches find one if there is any;
* `finds_of_run`: it is so in every state that calls lead to.
-/

namespace MulleRbtree

open BinaryTree Cells Program

variable {σ : Type}

section Blocks

variable (s : Base σ) (comp : VoidPtr → VoidPtr → ℤ) (key : VoidPtr) (ns : List Ref)

def lesser : List Ref := ns.filter fun n => 0 < comp key (valueAt s n)
def equal : List Ref := ns.filter fun n => comp key (valueAt s n) = 0
def greater : List Ref := ns.filter fun n => comp key (valueAt s n) < 0

/-- What the searches for a key answer, if the nodes in order are `ns`; they change nothing. -/
structure Finds [MulleStorage σ] : Prop where
  blocks : ns = lesser s comp key ns ++ (equal s comp key ns ++ greater s comp key ns)
  findNode : ∃ r s', Base.findNode key comp s = .ok (r, s') ∧ Untouched s s' ∧
    (r ∈ equal s comp key ns ∨ equal s comp key ns = [] ∧ r = .nil)
  findNodeEqualOrGreater : ∃ r s', Base.findNodeEqualOrGreater key comp s = .ok (r, s') ∧
    Untouched s s' ∧ (r ∈ equal s comp key ns ∨
      equal s comp key ns = [] ∧ r = (greater s comp key ns).head?.getD .nil)

end Blocks

variable [MulleStorage σ] {s : Base σ} {E : Env σ} {z : Sentinel} {K : Multiset Cell} {T : ETree}
  {comp : VoidPtr → VoidPtr → ℤ} {key : VoidPtr}

theorem Repr.filter_ref (h : Repr s E z K T) (p : ℤ → Bool) :
    (T.inorder.map Entry.ref).filter (fun n => p (comp key (valueAt s n))) =
      (T.inorder.filter fun e => p (matching E.options comp key e)).map Entry.ref := by
  rw [List.filter_map]
  refine congrArg _ (List.filter_congr fun e he => ?_)
  show p (comp key (valueAt s e.ref)) = _
  rw [h.valueAt_eq he, matching]

theorem Repr.finds (h : Repr s E z K T)
    (hcut : Cut (fun n => comp key (valueAt s n)) (T.inorder.map Entry.ref)) :
    Finds s comp key (T.inorder.map Entry.ref) := by
  have hequal : equal s comp key (T.inorder.map Entry.ref) =
      (T.inorder.filter fun e => matching E.options comp key e = 0).map Entry.ref :=
    h.filter_ref fun k => k = 0
  have hgreater : greater s comp key (T.inorder.map Entry.ref) =
      (T.inorder.filter fun e => matching E.options comp key e < 0).map Entry.ref :=
    h.filter_ref fun k => k < 0
  have hcut' : Cut (matching E.options comp key) T.inorder := by
    refine List.Pairwise.imp_of_mem ?_ (List.pairwise_map.1 hcut)
    intro e e' he he' hpair
    dsimp only at hpair
    rwa [h.valueAt_eq he, h.valueAt_eq he'] at hpair
  refine ⟨hcut.blocks, ?_, ?_⟩
  · obtain ⟨r, s', he, rfl, h'⟩ := Base.findNode_spec h key comp
    refine ⟨_, s', he, h.untouched h' rfl, ?_⟩
    rw [hequal]
    rcases lookup_matches hcut' with ⟨a, ha, hx⟩ | ⟨hnone, hx⟩
    · rw [hx]
      exact .inl (List.mem_map_of_mem ha)
    · rw [hx, hnone]
      exact .inr ⟨rfl, rfl⟩
  · obtain ⟨r, s', he, rfl, h'⟩ := Base.findNodeEqualOrGreater_spec h key comp
    refine ⟨_, s', he, h.untouched h' rfl, ?_⟩
    rw [hequal, hgreater]
    rcases ceiling_matches hcut' with ⟨a, ha, hx⟩ | ⟨hnone, hx⟩
    · rw [hx]
      exact .inl (List.mem_map_of_mem ha)
    · rw [hx, hnone, List.head?_map]
      refine .inr ⟨rfl, ?_⟩
      cases (T.inorder.filter fun e => matching E.options comp key e < 0).head? <;> rfl

/-- In every state that calls lead to, and for every comparison whose outcomes fall along the tree,
the searches find a match if there is one. -/
theorem finds_of_run (config : Config) (cb : Callbacks)
    {h : List ((Call ⊕ Op) × (Answer ⊕ Result))}
    (hrun : (everything σ cb).Run (Base.initWithConfig config) h s) :
    ∃ ns, InOrder s ns ∧ ns.Nodup ∧
      ∀ key comp, Cut (fun n => comp key (valueAt s n)) ns → Finds s comp key ns := by
  obtain ⟨m, ⟨z, hr⟩, -⟩ := hrun.keeps everything_keeps ⟨_, shows_init config, sound_init config⟩
  have hnodup := hr.nodup_refs
  rw [inorder_map] at hnodup
  exact ⟨_, hr.inOrder, hnodup, fun key comp hcut => hr.finds hcut⟩

/-- A key that belongs between the second and the third node. -/
theorem finds_of_run_three : ∃ s : Base SlotPool, InOrder s [.slot 0, .slot 1, .slot 2] ∧
    lesser s byLength (ofLength 3) [.slot 0, .slot 1, .slot 2] = [.slot 0, .slot 1] ∧
    equal s byLength (ofLength 3) [.slot 0, .slot 1, .slot 2] = [] ∧
    greater s byLength (ofLength 3) [.slot 0, .slot 1, .slot 2] = [.slot 2] ∧
    Finds s byLength (ofLength 3) [.slot 0, .slot 1, .slot 2] := by
  obtain ⟨s, hrun, hin, -, -, -, hvalues⟩ := exists_run
  obtain ⟨h₀, h₁, h₂, -⟩ : valueAt s (.slot 0) = ofLength 0 ∧ valueAt s (.slot 1) = ofLength 2 ∧
      valueAt s (.slot 2) = ofLength 4 ∧ valueAt s (.slot 3) = ofLength 3 := by
    simpa using hvalues
  obtain ⟨ns, hns, -, hfinds⟩ := finds_of_run _ lengthCallbacks hrun.inl
  obtain rfl := hns.unique hin
  have hcut : Cut (fun n => byLength (ofLength 3) (valueAt s n)) [.slot 0, .slot 1, .slot 2] := by
    simp [Cut, h₀, h₁, h₂, byLength, ofLength]
  refine ⟨s, hin, ?_, ?_, ?_, hfinds _ _ hcut⟩
  · simp [lesser, h₀, h₁, h₂, byLength, ofLength]
  · simp [equal, h₀, h₁, h₂, byLength, ofLength]
  · simp [greater, h₀, h₁, h₂, byLength, ofLength]

end MulleRbtree
