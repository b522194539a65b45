import MulleRbtree.Runs.Calls

/-!
# Every call leaves a valid tree

* `ValidTree s`: the red-black properties, read off the memory: the links from `_root` on form a
  finite tree without sharing and with right parents, balanced and with a black root, and the
  sentinel is a black leaf;
* `Represents.valid`: the states that show an image are valid;
* `valid_of_run`: so after any run of calls, in any order and with any comparison, the tree is
  valid, and the next call returns and leaves a valid tree.
-/

namespace MulleRbtree

open BinaryTree Cells Program

variable {σ : Type} [MulleStorage σ]

/-- A valid red-black tree. -/
structure ValidTree (s : Base σ) : Prop where
  tree : ∃ t : BinaryTree Ref, Linked s .nil s.root t ∧ t.inorder.Nodup ∧
    (∀ n, n ∈ t.inorder ↔ Attached s n) ∧ IsRedBlack (redAt s) t
  sentinel : ∃ c, s.mem .nil = some c ∧ c.left = .nil ∧ c.right = .nil ∧ c.color.isRed = false

theorem Repr.mem_refs {s : Base σ} {E : Env σ} {z : Sentinel} {K : Multiset Cell} {T : ETree}
    (h : Repr s E z K T) (n : Ref) : n ∈ (T.map Entry.ref).inorder ↔ Attached s n := by
  rw [inorder_map_ref, h.attached_iff, List.mem_map]
  exact ⟨fun ⟨i, hi, e⟩ => ⟨i, hi, e.symm⟩, fun ⟨i, hi, e⟩ => ⟨i, hi, e.symm⟩⟩

theorem Repr.valid {s : Base σ} {E : Env σ} {z : Sentinel} {K : Multiset Cell} {T : ETree}
    (h : Repr s E z K T) (hb : IsRedBlack Entry.isRed T) : ValidTree s := by
  refine ⟨⟨T.map Entry.ref, h.linked, h.nodup_refs, h.mem_refs, ?_⟩, _, h.mem_sentinel, rfl, rfl,
    Color.isRed_black⟩
  exact (isRedBlack_map fun e he => h.redAt_eq he).2 hb

theorem Represents.valid {s : Base σ} {m : Image σ} (h : Represents s m) : ValidTree s := by
  obtain ⟨⟨z, hr⟩, hm⟩ := h
  exact hr.valid hm.redBlack

/-- After any run the tree is valid, and every call that is then allowed returns and leaves a valid
tree. -/
theorem valid_of_run (config : Config) {s : Base σ} {h : List (Call × Answer)}
    (hrun : (calls σ).Run (Base.initWithConfig config) h s) :
    ValidTree s ∧ ∀ c : Call, c.Pre s → ∃ r s', c.exec s = .ok (r, s') ∧ ValidTree s' := by
  obtain ⟨m, -, hs⟩ := run_evolves hrun ⟨shows_init config, sound_init config⟩
  refine ⟨hs.valid, fun c hp => ?_⟩
  obtain ⟨r, s', he, m', -, hs'⟩ := exec_represents hs hp
  exact ⟨r, s', he, hs'.valid⟩

theorem valid_of_run_three : ∃ s : Base SlotPool, InOrder s [.slot 0, .slot 1, .slot 2] ∧
    s.rotations = 1 ∧ ValidTree s ∧
    ∀ c : Call, c.Pre s → ∃ r s', c.exec s = .ok (r, s') ∧ ValidTree s' := by
  obtain ⟨s, hrun, hin, -, -, hrotations, -⟩ := exists_run
  exact ⟨s, hin, hrotations, valid_of_run _ hrun⟩

end MulleRbtree
