import MulleRbtree.Layout.Attached

/-!
# Trees with consistent links

* `Consistent s t`: from `_root` on the links of `s` form the tree `t`, without sharing and with
  right parents, and the memory is that of the pool.  Nothing is asked of colours, flags and values;
* `Consistent.repr`: such a memory is laid out as a tree of entries;
* `Repr.consistent`: and the other way round.
-/

namespace MulleRbtree

open BinaryTree Cells

variable {σ : Type}

/-! ### The entries of a memory -/

/-- A node without its links. -/
def Rbnode.entry (c : Rbnode) (i : ℕ) : Entry := ⟨i, c.color, c.payload, c.extra, c.relinked⟩

def Ref.index : Ref → ℕ
  | .nil => 0
  | .slot i => i

def Base.entryAt (s : Base σ) (n : Ref) : Entry := ((s.mem n).getD default).entry n.index

/-- The tree of the entries, and its cells. -/
theorem Linked.entries {s : Base σ} {par n : Ref} {t : BinaryTree Ref} (h : Linked s par n t) :
    treeRef (t.map s.entryAt) = n ∧ (t.map s.entryAt).map Entry.ref = t ∧
      ∀ p ∈ below par (t.map s.entryAt), s.mem p.1 = some p.2 := by
  induction t generalizing par n with
  | nil => exact ⟨h.symm, rfl, by simp [map]⟩
  | node m l r ihl ihr =>
    obtain ⟨rfl, hne, c, hc, rfl, hl, hr⟩ := h
    obtain ⟨hl₁, hl₂, hl₃⟩ := ihl hl
    obtain ⟨hr₁, hr₂, hr₃⟩ := ihr hr
    cases n with
    | nil => exact absurd rfl hne
    | slot i =>
      have he : s.entryAt (.slot i) = c.entry i := by rw [Base.entryAt, hc]; rfl
      rw [map, he]
      refine ⟨rfl, by rw [map, hl₂, hr₂]; rfl, fun p hp => ?_⟩
      rw [below, Multiset.mem_add, Multiset.mem_add, Multiset.mem_singleton, hl₁, hr₁] at hp
      rcases hp with rfl | hp | hp
      · exact hc
      · exact hl₃ p hp
      · exact hr₃ p hp

/-! ### Consistent memories -/

variable [MulleStorage σ]

/-- The links of `s` are those of the tree `t`. -/
structure Consistent (s : Base σ) (t : BinaryTree Ref) : Prop where
  linked : Linked s .nil s.root t
  nodup : t.inorder.Nodup
  sentinel : ∃ p k, s.mem .nil = some (Base.nilNode p k)
  pool : ∀ i, (s.mem (.slot i)).isSome ↔ i ∈ MulleStorage.live s.nodes

/-- The cells of the pool that are not in the tree. -/
def Base.spareCells (s : Base σ) (T : ETree) : Multiset Cell :=
  (MulleStorage.live s.nodes \ (slots T).toFinset).val.map fun i =>
    (.slot i, (s.mem (.slot i)).getD default)

theorem mem_spareCells {s : Base σ} {T : ETree} {n : Ref} {c : Rbnode}
    (hpool : ∀ i, (s.mem (.slot i)).isSome ↔ i ∈ MulleStorage.live s.nodes) :
    (n, c) ∈ s.spareCells T ↔ s.mem n = some c ∧ ∃ i, n = .slot i ∧ i ∉ slots T := by
  rw [Base.spareCells, Multiset.mem_map]
  constructor
  · rintro ⟨i, hi, e⟩
    obtain ⟨rfl, rfl⟩ := Prod.mk.inj e
    rw [Finset.mem_val, Finset.mem_sdiff, ← hpool, List.mem_toFinset] at hi
    obtain ⟨c, hc⟩ := Option.isSome_iff_exists.1 hi.1
    exact ⟨by rw [hc]; rfl, i, rfl, hi.2⟩
  · rintro ⟨hc, i, rfl, hi⟩
    refine ⟨i, ?_, by rw [hc]; rfl⟩
    rw [Finset.mem_val, Finset.mem_sdiff, ← hpool, List.mem_toFinset, hc]
    exact ⟨rfl, hi⟩

theorem map_fst_spareCells {s : Base σ} {T : ETree} : (s.spareCells T).map Prod.fst =
    (MulleStorage.live s.nodes \ (slots T).toFinset).val.map Ref.slot := by
  rw [Base.spareCells, Multiset.map_map]
  rfl

/-- A memory with consistent links is laid out as a tree. -/
theorem Consistent.repr {s : Base σ} {t : BinaryTree Ref} (h : Consistent s t) :
    ∃ z K T, Repr s s.env z K T ∧ T.map Entry.ref = t := by
  obtain ⟨hlinked, hnodup, ⟨p, k, hnil⟩, hpool⟩ := h
  obtain ⟨hroot, href, hbelow⟩ := hlinked.entries
  generalize t.map s.entryAt = T at hroot href hbelow
  refine ⟨⟨p, k⟩, s.spareCells T, T, ⟨rfl, hroot.symm, ⟨?_, fun n c => ?_⟩, fun i => ?_⟩, href⟩
  · have hslots : (slots T).Nodup := by
      rw [← href, inorder_map_ref] at hnodup
      exact hnodup.of_map _
    rw [Multiset.map_add, Multiset.map_add, map_fst_below, map_fst_spareCells]
    have hkeys : ((MulleStorage.live s.nodes \ (slots T).toFinset).val +
        (slots T : Multiset ℕ)).Nodup := by
      refine Multiset.nodup_add.2 ⟨Finset.nodup _, Multiset.coe_nodup.2 hslots, ?_⟩
      rw [Multiset.disjoint_left]
      intro i hi hi'
      rw [Finset.mem_val, Finset.mem_sdiff, List.mem_toFinset] at hi
      exact hi.2 (Multiset.mem_coe.1 hi')
    have hmap := hkeys.map (f := Ref.slot) fun _ _ e => Ref.slot.inj e
    rw [Multiset.map_add, Multiset.map_coe] at hmap
    rw [Multiset.map_singleton, Multiset.singleton_add, Multiset.nodup_cons]
    exact ⟨by simp [Sentinel.cell], hmap⟩
  · rw [Multiset.mem_add, Multiset.mem_add, Multiset.mem_singleton, mem_spareCells hpool]
    constructor
    · intro hc
      cases n with
      | nil =>
        rw [hnil] at hc
        cases hc
        exact .inl rfl
      | slot i =>
        refine .inr ?_
        by_cases hi : i ∈ slots T
        · obtain ⟨c', hc'⟩ := exists_mem_below .nil hi
          have hread := hbelow _ hc'
          rw [hc] at hread
          cases hread
          exact .inr hc'
        · exact .inl ⟨hc, i, rfl, hi⟩
    · rintro (e | ⟨hc, -⟩ | hc)
      · cases e
        exact hnil
      · exact hc
      · exact hbelow _ hc
  · have hsub : i ∈ slots T → i ∈ MulleStorage.live s.nodes := fun hi => by
      obtain ⟨c, hc⟩ := exists_mem_below .nil hi
      rw [← hpool, hbelow _ hc]
      rfl
    rw [Multiset.map_add, Multiset.map_add, map_fst_below, map_fst_spareCells]
    change i ∈ MulleStorage.live s.nodes ↔ _
    by_cases hi : i ∈ slots T
    · simp [hi, hsub hi]
    · have hspare : Ref.slot i ∈ (MulleStorage.live s.nodes \ (slots T).toFinset).val.map Ref.slot ↔
          i ∈ MulleStorage.live s.nodes := by
        rw [Multiset.mem_map]
        constructor
        · rintro ⟨j, hj, e⟩
          rw [Finset.mem_val, Finset.mem_sdiff] at hj
          exact Ref.slot.inj e ▸ hj.1
        · intro hlive
          refine ⟨i, ?_, rfl⟩
          rw [Finset.mem_val, Finset.mem_sdiff, List.mem_toFinset]
          exact ⟨hlive, hi⟩
      rw [Multiset.mem_add, Multiset.mem_add, hspare]
      simp [Sentinel.cell, hi]

/-- What is laid out as a tree has consistent links. -/
theorem Repr.consistent {s : Base σ} {E : Env σ} {z : Sentinel} {K : Multiset Cell} {T : ETree}
    (h : Repr s E z K T) : Consistent s (T.map Entry.ref) := by
  refine ⟨h.linked, h.nodup_refs, ⟨_, _, h.mem_sentinel⟩, fun i => ?_⟩
  rw [(Holds.owns h).isSome_iff, Holds.nodes_eq h, Holds.live h]

end MulleRbtree
