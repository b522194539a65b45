import MulleRbtree.Runs.Asserts

/-!
# Left and right

* `Base.mirror`: the same memory with `_left` and `_right` exchanged in every node;
* `Repr.mirror`: it holds the mirror image of the tree;
* `detachNode`: `_mulle__rbtree_remove_node` up to its fixup;
* `mirror_of_run`: whatever calls have led to a tree, inserting after a node in the mirror image is
  the mirror image of inserting before it, and the fixup of a removal does the same to the mirror
  image.
-/

namespace MulleRbtree

open BinaryTree Cells Program

variable {σ : Type} [MulleStorage σ]

/-! ### The mirror image of a memory -/

def Rbnode.mirror (node : Rbnode) : Rbnode := { node with left := node.right, right := node.left }

def Base.mirror (s : Base σ) : Base σ := { s with mem := fun n => (s.mem n).map Rbnode.mirror }

/-- The same links, colour words and values everywhere. -/
structure SameTree (s t : Base σ) : Prop where
  root : s.root = t.root
  mem : s.mem = t.mem

/-- The mirror image of a cell. -/
def mirrorCell (p : Cell) : Cell := (p.1, p.2.mirror)

@[simp] theorem mirrorCell_sentinel (z : Sentinel) : mirrorCell z.cell = z.cell := rfl

@[simp] theorem mirrorCell_loose (a : Entry) : mirrorCell (looseCell a) = looseCell a := rfl

theorem treeRef_mirror (t : ETree) : treeRef t.mirror = treeRef t := by
  cases t <;> rfl

theorem map_mirrorCell_below (par : Ref) (t : ETree) :
    (below par t).map mirrorCell = below par t.mirror := by
  induction t generalizing par with
  | nil => rfl
  | node e l r ihl ihr =>
    have hcell : mirrorCell (.slot e.slot, e.cell par (treeRef l) (treeRef r) .left) =
        (.slot e.slot, e.cell par (treeRef l.mirror) (treeRef r.mirror) .right) := by
      rw [treeRef_mirror, treeRef_mirror]
      rfl
    change (_ + (below _ l + below _ r)).map mirrorCell = below par (join .right e l.mirror r.mirror)
    rw [below_join, ← ihl, ← ihr, Multiset.map_add, Multiset.map_add, Multiset.map_singleton, hcell]

theorem Repr.mirror {s : Base σ} {E : Env σ} {z : Sentinel} {K : Multiset Cell} {T : ETree}
    (h : Repr s E z K T) : Repr s.mirror E z (K.map mirrorCell) T.mirror := by
  obtain ⟨henv, hroot, howns, hlive⟩ : Holds s E (treeRef T) _ := h
  have howns' : Owns s.mirror.mem (({z.cell} + (K + below .nil T) : Multiset Cell).map mirrorCell) :=
    howns.map Rbnode.mirror
  refine ⟨henv, hroot.trans (treeRef_mirror T).symm, ?_, fun i => ?_⟩
  · rwa [Multiset.map_add, Multiset.map_add, Multiset.map_singleton, map_mirrorCell_below] at howns'
  · have hkeys : ∀ H : Multiset Cell, (H.map mirrorCell).map Prod.fst = H.map Prod.fst := fun H => by
      rw [Multiset.map_map]
      rfl
    rw [hlive, ← map_mirrorCell_below]
    simp only [Multiset.map_add, hkeys]

/-- What lies outside of a tree has no children to exchange. -/
theorem map_mirrorCell_spare (F : Multiset Entry) :
    (F.map looseCell).map mirrorCell = F.map looseCell := by
  rw [Multiset.map_map]
  rfl

theorem Repr.sameTree {s t : Base σ} {E G : Env σ} {z : Sentinel} {K : Multiset Cell} {T : ETree}
    (h : Repr s E z K T) (h' : Repr t G z K T) : SameTree s t :=
  ⟨(Holds.root h).trans (Holds.root h').symm, (Holds.owns h).unique (Holds.owns h')⟩

/-! ### The mirror image of a tree -/

theorem isRedBlack_mirror {T : ETree} (h : IsRedBlack Entry.isRed T) :
    IsRedBlack Entry.isRed T.mirror := (isRedBlack_image fun _ => rfl).2 h

theorem dirt_mirror {options : BitVec 32} {T : ETree} (h : Dirt options T) :
    Dirt options T.mirror :=
  ⟨fun ho => locally_mirror (fun _ _ _ hup => hup.imp_right And.symm) (h.locally ho),
    (everywhere_image fun _ => Iff.rfl).2 h.proper⟩

theorem deficit_mirror {c : Path Entry} {x : ETree} {n : ℕ} (h : Deficit c x n) :
    Deficit (Path.image true id c) x.mirror n := by
  obtain ⟨hc, hx⟩ := h
  have hid : ∀ e : Entry, Entry.isRed (id e) = e.isRed := fun _ => rfl
  refine ⟨(hole_image hid).2 hc, ?_⟩
  rw [rootHas_image hid]
  split_ifs at hx ⊢
  · rw [mirror, ← image_blacken (respects_id ⟨0, 0⟩).follows]
    exact (balanced_image hid).2 hx
  · exact (balanced_image hid).2 hx

/-! ### Inserting -/

/-- Inserting on the other side, in the mirror image. -/
theorem insertBeside_mirror {s : Base σ} {m : Image σ} (hs : Represents s m) (d : Side) {a n : Ref}
    (ha : Unattached s a) (hn : Attached s n) : ∃ s' t',
    Base.insertBeside d a n s = .ok ((), s') ∧
      Base.insertBeside d.other a n s.mirror = .ok ((), t') ∧ SameTree t' s'.mirror := by
  obtain ⟨E, F, T⟩ := m
  obtain ⟨⟨z, h⟩, hb, -, hF⟩ := hs
  obtain ⟨a, F, rfl, rfl, hred, h⟩ := h.exists_fresh hF ha
  obtain ⟨c, e, l, r, rfl, rfl⟩ := h.exists_of_attached hn
  obtain ⟨x, y, hjoin⟩ : ∃ x y, node e l r = join d e x y := by
    cases d with
    | left => exact ⟨l, r, rfl⟩
    | right => exact ⟨r, l, rfl⟩
  dsimp only at h hb
  rw [hjoin] at h hb
  have hm : Repr s.mirror E z ({looseCell a} + F.map looseCell)
      (plug (Path.image true id c) (join d.other e x.mirror y.mirror)) := by
    have h' := h.mirror
    rw [mirror, image_plug, image_join, Multiset.map_add, map_mirrorCell_spare] at h'
    exact h'
  have hbm := isRedBlack_mirror hb
  rw [mirror, image_plug, image_join] at hbm
  obtain ⟨_, s', hs', k, -, h₁⟩ := Base.insertBeside_spec h hb hred
  obtain ⟨_, t', ht', k', -, h₂⟩ := Base.insertBeside_spec hm hbm hred
  refine ⟨s', t', hs', ht', h₂.sameTree (G := E.advanced.turnedBy k) ?_⟩
  have hattach : (attach E.stamp a (Base.beside d c e x y)).image true id = _ :=
    image_attach (respects_id E.stamp) (respects_id E.stamp.next) fun t =>
      image_soilTo (respects_id E.stamp.next).follows fun _ => rfl
  have h₁' := h₁.mirror
  rw [mirror, hattach, Base.image_beside, map_mirrorCell_spare] at h₁'
  exact h₁'

/-! ### Removing -/

namespace Base

/-- `_mulle__rbtree_remove_node` before its fixup: what is at the place where a node went missing,
whether that node was black, and the former children. -/
def detachNode (a_node : Ref) : M σ (Ref × Bool × Ref × Ref) := do
  write fun s => { s with epoch := s.epoch + 1 }
  let q ← unlinkNode a_node
  freeNode a_node
  return q

theorem removeNode_eq (a_node : Ref) : (removeNode a_node : M σ Unit) = (do
    let (x, fixup, orig_left, orig_right) ← detachNode a_node
    when fixup (blackBlackFixup x)
    assertDirtyFlagPropagation x
    assertDirtyFlagPropagation orig_left
    assertDirtyFlagPropagation orig_right) := by
  simp only [removeNode, detachNode, bind_assoc, pure_bind]

/-- Removing `n` from `s` enters the fixup at `x` in the state `u`. -/
def EntersFixup (s : Base σ) (n x : Ref) (u : Base σ) : Prop :=
  ∃ orig_left orig_right, detachNode n s = .ok ((x, true, orig_left, orig_right), u)

theorem detachNode_spec {s : Base σ} {E : Env σ} {z : Sentinel} {K : Multiset Cell}
    {c : Path Entry} {a : Entry} {l r : ETree} (h : Repr s E z K (plug c (node a l r))) :
    Ensures (detachNode (.slot a.slot)) s fun q s' =>
      q = (treeRef (unlink E.stamp.next c a l r).2.1, (unlink E.stamp.next c a l r).2.2, treeRef l,
        treeRef r) ∧
      ∃ z', Repr s' (E.advanced.freed a.slot) z' K
        (plug (unlink E.stamp.next c a l r).1 (unlink E.stamp.next c a l r).2.1) ∧
        ((unlink E.stamp.next c a l r).2.1 = nil →
          z' = ⟨parentRef (unlink E.stamp.next c a l r).1, E.epoch + 1⟩) := by
  refine (Holds.advance h).bind fun _ s₁ h₁ => (unlinkNode_spec h₁).bind ?_
  rintro q s₂ ⟨rfl, z', v, h₂, hz⟩
  exact h₂.loose.freeNode.bind fun _ s₃ h₃ => .pure ⟨rfl, z', h₃, hz⟩

end Base

/-- The fixup of a removal, in the mirror image. -/
theorem blackBlackFixup_mirror {s u : Base σ} {m : Image σ} (hs : Represents s m) {n x : Ref}
    (hn : Attached s n) (hu : Base.EntersFixup s n x u) : ∃ s' t',
    Base.blackBlackFixup x u = .ok ((), s') ∧ Base.blackBlackFixup x u.mirror = .ok ((), t') ∧
      SameTree t' s'.mirror := by
  obtain ⟨E, F, T⟩ := m
  obtain ⟨⟨z, h⟩, hb, hd, -⟩ := hs
  obtain ⟨c, a, l, r, rfl, rfl⟩ := h.exists_of_attached hn
  obtain ⟨orig_left, orig_right, he⟩ := hu
  obtain ⟨hq, z', h₁, hz⟩ := (Base.detachNode_spec h).elim he
  obtain ⟨rfl, hblack⟩ : x = _ ∧ true = _ :=
    ⟨congrArg Prod.fst hq, congrArg (fun q => q.2.1) hq⟩
  obtain ⟨k, hdef⟩ := unlink_deficit hb hblack.symm
  have hd₁ := kept_unlink (o := E.stamp.next) tolerant_up hd
  revert h₁ hz hdef hd₁
  generalize unlink E.stamp.next c a l r = q
  obtain ⟨g, y, b⟩ := q
  intro h₁ hz hdef hd₁
  dsimp only at h₁ hz hdef hd₁ ⊢
  -- the mirror image is in the same situation
  have hm := h₁.mirror
  have hdm := dirt_mirror hd₁
  rw [mirror, image_plug, map_mirrorCell_spare] at hm
  rw [mirror, image_plug] at hdm
  have hzp : y = nil → z'.parent = parentRef g := fun hy => by rw [hz hy]
  have hzm : y.mirror = nil → z'.parent = parentRef (Path.image true id g) := fun hy => by
    rw [hz (image_eq_nil.1 hy)]
    cases g <;> rfl
  obtain ⟨_, s', hs', j, -, h₂⟩ := Base.blackBlackFixup_spec h₁ hzp hdef hd₁
  obtain ⟨_, t', ht', j', -, h₃⟩ := Base.blackBlackFixup_spec hm hzm (deficit_mirror hdef) hdm
  rw [treeRef_mirror] at ht'
  refine ⟨s', t', hs', ht', h₃.sameTree (G := (E.advanced.freed a.slot).turnedBy j) ?_⟩
  have h₂' := h₂.mirror
  rw [mirror, image_fixBlackBlack (respects_id _).follows, map_mirrorCell_spare] at h₂'
  exact h₂'

/-! ### Runs -/

/-- Inserting and the fixup of a removal treat left and right alike, in every tree that any calls
have led to. -/
theorem mirror_of_run (config : Config) (cb : Callbacks) {s : Base σ}
    {h : List ((Call ⊕ Op) × (Answer ⊕ Result))}
    (hrun : (everything σ cb).Run (Base.initWithConfig config) h s) :
    (∀ a n, Unattached s a → Attached s n → ∃ s' t',
      Base.insertNodeBeforeNode a n s = .ok ((), s') ∧
        Base.insertNodeAfterNode a n s.mirror = .ok ((), t') ∧ SameTree t' s'.mirror) ∧
    ∀ n x u, Attached s n → Base.EntersFixup s n x u → ∃ s' t',
      Base.blackBlackFixup x u = .ok ((), s') ∧ Base.blackBlackFixup x u.mirror = .ok ((), t') ∧
        SameTree t' s'.mirror := by
  obtain ⟨m, hs⟩ : ∃ m : Image σ, Represents s m :=
    hrun.keeps everything_keeps ⟨_, shows_init config, sound_init config⟩
  exact ⟨fun a n ha hn => insertBeside_mirror hs .left ha hn,
    fun n x u hn hu => blackBlackFixup_mirror hs hn hu⟩

/-- Four nodes, of which the first is removed: the fixup begins at the sentinel. -/
theorem mirror_of_run_four : ∃ s u : Base SlotPool,
    InOrder s [.slot 0, .slot 1, .slot 3, .slot 2] ∧ Unattached s (.slot 4) ∧
    Base.EntersFixup s (.slot 0) .nil u ∧
    (∃ s' t', Base.insertNodeBeforeNode (.slot 4) (.slot 3) s = .ok ((), s') ∧
      Base.insertNodeAfterNode (.slot 4) (.slot 3) s.mirror = .ok ((), t') ∧
        SameTree t' s'.mirror) ∧
    ∃ s' t', Base.blackBlackFixup .nil u = .ok ((), s') ∧
      Base.blackBlackFixup .nil u.mirror = .ok ((), t') ∧ SameTree t' s'.mirror := by
  obtain ⟨s, hrun, ⟨m, hm⟩, hs⟩ := exists_run_of_calls (σ := SlotPool) ⟨0, 0x4#32, 0⟩
    (threeCalls ++ [.insertNode (.slot 3) byLength, .newNode (ofLength 1)])
    (threeAnswers ++ [.code 0, .node (.slot 4)])
    (fun s => (nodesOf s, isLoose s (.slot 4),
      (Base.detachNode (.slot 0) s).toOption.map fun q => (q.1.1, q.1.2.1)))
    ([.slot 0, .slot 1, .slot 3, .slot 2], true, some (.nil, true)) (by decide +kernel)
  obtain ⟨hnodes, hs⟩ := Prod.mk.inj hs
  obtain ⟨hloose, hs⟩ := Prod.mk.inj hs
  obtain ⟨⟨⟨x, b, l, r⟩, u⟩, hu, hx⟩ := exists_of_toOption hs
  obtain ⟨rfl, rfl⟩ := Prod.mk.inj hx
  have henters : Base.EntersFixup s (.slot 0) .nil u := ⟨l, r, hu⟩
  have hattached : ∀ n ∈ [Ref.slot 0, .slot 1, .slot 3, .slot 2], Attached s n :=
    fun n hn => hm.mem_nodesOf.1 (hnodes ▸ hn)
  obtain ⟨hinsert, hfix⟩ := mirror_of_run _ lengthCallbacks hrun.inl
  exact ⟨s, u, hnodes ▸ hm.inOrder, hm.unattached hloose, henters,
    hinsert _ _ (hm.unattached hloose) (hattached _ (by simp)),
    hfix _ _ _ (hattached _ (by simp)) henters⟩

end MulleRbtree
