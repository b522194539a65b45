import MulleRbtree.Layout.Nodes

/-!
# Nodes in a tree and nodes outside

What a reader of the memory sees, and that it is the tree of the layout.

* `Attached s n`: the node is reached from `_root` through `_left` and `_right`;
* `Unattached s n`: the node is allocated but not attached;
* `Linked s par n t`: the links from `n` on form the tree `t`, with all parents right;
* `InOrder s ns`: the nodes of that tree, in order;
* `redAt`, `dirtyAt`, `valueAt`: what the node at a pointer is and holds;
* `Repr.attached_iff`, `Repr.unattached_iff`, `Repr.linked`, `Repr.redAt_eq`, …: all of these for
  the tree of the layout.
-/

namespace MulleRbtree

open BinaryTree Cells Program

variable {σ : Type}

/-- Reached from the root. -/
inductive Attached (s : Base σ) : Ref → Prop
  | root : s.root ≠ .nil → Attached s s.root
  | child {n : Ref} {node : Rbnode} (d : Side) : Attached s n → s.mem n = some node →
      node.child d ≠ .nil → Attached s (node.child d)

theorem Attached.ne_nil {s : Base σ} {n : Ref} (h : Attached s n) : n ≠ .nil := by
  cases h with
  | root hne => exact hne
  | child d _ _ hne => exact hne

/-- A node of the pool that is not in the tree, such as a new one. -/
def Unattached (s : Base σ) (n : Ref) : Prop := n ≠ .nil ∧ (s.mem n).isSome ∧ ¬ Attached s n

/-- The tree that begins at `n`, below `par`, as the links have it. -/
def Linked (s : Base σ) : Ref → Ref → BinaryTree Ref → Prop
  | _, n, nil => n = .nil
  | par, n, node m l r => n = m ∧ m ≠ .nil ∧ ∃ c : Rbnode, s.mem m = some c ∧ c.parent = par ∧
      Linked s m c.left l ∧ Linked s m c.right r

/-- There is at most one such tree. -/
theorem Linked.unique {s : Base σ} {par n : Ref} {t t' : BinaryTree Ref} (h : Linked s par n t)
    (h' : Linked s par n t') : t = t' := by
  induction t generalizing par n t' with
  | nil =>
    obtain rfl : n = .nil := h
    cases t' with
    | nil => rfl
    | node m l r => exact absurd h'.1.symm h'.2.1
  | node m l r ihl ihr =>
    obtain ⟨rfl, hm, c, hc, -, hl, hr⟩ := h
    cases t' with
    | nil => exact absurd h' hm
    | node m' l' r' =>
      obtain ⟨rfl, -, c', hc', -, hl', hr'⟩ := h'
      obtain rfl : c = c' := by simpa [hc] using hc'
      rw [ihl hl hl', ihr hr hr']

/-- Every node of such a tree is the root of a subtree. -/
theorem Linked.sub {s : Base σ} {par m n : Ref} {t : BinaryTree Ref} (h : Linked s par m t)
    (hn : n ∈ t.inorder) : ∃ par' l r, Linked s par' n (node n l r) ∧
      ∀ x ∈ (node n l r).inorder, x ∈ t.inorder := by
  induction t generalizing par m with
  | nil => simp at hn
  | node a l r ihl ihr =>
    obtain ⟨rfl, hne, c, hc, hpar, hl, hr⟩ := h
    rcases List.mem_append.1 hn with hn | hn
    · obtain ⟨par', l', r', hsub, hin⟩ := ihl hl hn
      exact ⟨par', l', r', hsub, fun x hx => List.mem_append_left _ (hin x hx)⟩
    · rcases List.mem_cons.1 hn with rfl | hn
      · exact ⟨par, l, r, ⟨rfl, hne, c, hc, hpar, hl, hr⟩, fun x hx => hx⟩
      · obtain ⟨par', l', r', hsub, hin⟩ := ihr hr hn
        exact ⟨par', l', r', hsub, fun x hx =>
          List.mem_append_right _ (List.mem_cons_of_mem _ (hin x hx))⟩

/-- All attached nodes are in it. -/
theorem Linked.mem_of_attached {s : Base σ} {t : BinaryTree Ref} (h : Linked s .nil s.root t)
    {n : Ref} (hn : Attached s n) : n ∈ t.inorder := by
  have hroot : ∀ {par m : Ref} {u : BinaryTree Ref}, Linked s par m u → m ≠ .nil →
      m ∈ u.inorder := by
    intro par m u hu hm
    cases u with
    | nil => exact absurd hu hm
    | node a l r => simp [hu.1]
  induction hn with
  | root hne => exact hroot h hne
  | @child m node d _ hmem hne ih =>
    obtain ⟨par', l, r, ⟨-, -, c, hc, -, hl, hr⟩, hin⟩ := h.sub ih
    obtain rfl : c = node := by simpa [hmem, eq_comm] using hc
    cases d with
    | left => exact hin _ (by simp [hroot hl hne, Rbnode.child])
    | right => exact hin _ (by simp [hroot hr hne, Rbnode.child])

/-- Where the root of such a tree is attached, so are all its nodes. -/
theorem Linked.attached {s : Base σ} {par m n : Ref} {t : BinaryTree Ref} (h : Linked s par m t)
    (hm : m ≠ .nil → Attached s m) (hn : n ∈ t.inorder) : Attached s n := by
  induction t generalizing par m with
  | nil => simp at hn
  | node a l r ihl ihr =>
    obtain ⟨rfl, hne, c, hc, -, hl, hr⟩ := h
    rcases List.mem_append.1 hn with hn | hn
    · exact ihl hl (fun hne' => .child .left (hm hne) hc hne') hn
    · rcases List.mem_cons.1 hn with rfl | hn
      · exact hm hne
      · exact ihr hr (fun hne' => .child .right (hm hne) hc hne') hn

/-- The attached nodes in order, as the links have it. -/
def InOrder (s : Base σ) (ns : List Ref) : Prop :=
  ∃ t, Linked s .nil s.root t ∧ t.inorder = ns

theorem InOrder.unique {s : Base σ} {ns ns' : List Ref} (h : InOrder s ns) (h' : InOrder s ns') :
    ns = ns' := by
  obtain ⟨t, ht, rfl⟩ := h
  obtain ⟨t', ht', rfl⟩ := h'
  rw [ht.unique ht']

theorem InOrder.mem_iff {s : Base σ} {ns : List Ref} (h : InOrder s ns) {n : Ref} :
    n ∈ ns ↔ Attached s n := by
  obtain ⟨t, ht, rfl⟩ := h
  exact ⟨ht.attached .root, ht.mem_of_attached⟩

/-- Whether the node is red. -/
def redAt (s : Base σ) (n : Ref) : Bool := ((s.mem n).map fun c => c.color.isRed).getD false

/-- Whether the node is dirty. -/
def dirtyAt (s : Base σ) (n : Ref) : Bool := ((s.mem n).map fun c => c.color.isDirty).getD false

/-- What `_mulle__rbtree_get_node_value` answers. -/
def valueAt (s : Base σ) (n : Ref) : VoidPtr :=
  match Base.getNodeValue n s with
  | .ok (value, _) => value
  | .error _ => null

/-- The pointer to a node. -/
def Entry.ref (e : Entry) : Ref := .slot e.slot

theorem inorder_map_ref (T : ETree) : (T.map Entry.ref).inorder = (slots T).map Ref.slot := by
  rw [inorder_map, slots, List.map_map]
  rfl

variable [MulleStorage σ]

namespace Repr

variable {s : Base σ} {E : Env σ} {z : Sentinel} {K : Multiset Cell} {T t l r : ETree}
  {c : Path Entry} {e : Entry} {d : Side} {n : Ref}

/-- The memory at a node of the tree. -/
theorem mem_node (h : Repr s E z K (plug c (node e l r))) :
    s.mem (.slot e.slot) = some (e.cell (parentRef c) (treeRef l) (treeRef r) .left) := by
  obtain ⟨H, hH, hn⟩ := Repr.mem_join (d := .left) h
  exact hH.owns.read hn

/-- The memory at the sentinel. -/
theorem mem_sentinel (h : Repr s E z K T) : s.mem .nil = some (Base.nilNode z.parent z.relinked) := by
  obtain ⟨H, hH, hn⟩ := h.mem_nil
  exact hH.owns.read hn

/-- The links are those of the tree. -/
theorem linked_plug (h : Repr s E z K (plug c t)) :
    Linked s (parentRef c) (treeRef t) (t.map Entry.ref) := by
  induction t generalizing c with
  | nil => rfl
  | node e l r ihl ihr =>
    exact ⟨rfl, nofun, _, h.mem_node, Entry.cell_parent, ihl (c := ⟨.left, e, r⟩ :: c) h,
      ihr (c := ⟨.right, e, l⟩ :: c) h⟩

theorem linked (h : Repr s E z K T) : Linked s .nil s.root (T.map Entry.ref) := by
  have hroot : s.root = treeRef T := Holds.root h
  rw [hroot]
  exact linked_plug (c := []) h

theorem inOrder (h : Repr s E z K T) : InOrder s (T.inorder.map Entry.ref) :=
  ⟨_, h.linked, inorder_map _ T⟩

theorem inOrder_iff (h : Repr s E z K T) {ns : List Ref} :
    InOrder s ns ↔ ns = T.inorder.map Entry.ref :=
  ⟨fun h' => h'.unique h.inOrder, fun e => e ▸ h.inOrder⟩

theorem nodup_refs (h : Repr s E z K T) : (T.map Entry.ref).inorder.Nodup := by
  rw [inorder_map_ref]
  exact h.nodup_slots.map fun _ _ e => Ref.slot.inj e

/-! #### Reading at a node -/

/-- What a node holds besides its links. -/
theorem mem_of_mem (h : Repr s E z K T) (he : e ∈ T.inorder) : ∃ c : Rbnode,
    s.mem e.ref = some c ∧ c.color = e.color ∧ c.payload = e.payload ∧ c.extra = e.extra ∧
      c.relinked = e.relinked := by
  obtain ⟨c, l, r, rfl⟩ := exists_plug_of_mem he
  exact ⟨_, h.mem_node, rfl, rfl, rfl, rfl⟩

theorem redAt_eq (h : Repr s E z K T) (he : e ∈ T.inorder) : redAt s e.ref = e.isRed := by
  obtain ⟨c, l, r, rfl⟩ := exists_plug_of_mem he
  rw [redAt, Entry.ref, h.mem_node]
  rfl

theorem dirtyAt_eq (h : Repr s E z K T) (he : e ∈ T.inorder) : dirtyAt s e.ref = e.isDirty := by
  obtain ⟨c, l, r, rfl⟩ := exists_plug_of_mem he
  rw [dirtyAt, Entry.ref, h.mem_node]
  rfl

theorem valueAt_treeRef (h : Repr s E z K (plug c t)) :
    valueAt s (treeRef t) = valueOf E.options t.label? := by
  rw [valueAt, Base.getNodeValue_spec h]

theorem valueAt_eq (h : Repr s E z K T) (he : e ∈ T.inorder) :
    valueAt s e.ref = e.value E.options := by
  obtain ⟨c, l, r, rfl⟩ := exists_plug_of_mem he
  exact h.valueAt_treeRef (t := node e l r)

/-! #### Attached nodes -/

theorem exists_plug_of_slot {i : ℕ} (hi : i ∈ slots T) :
    ∃ c e l r, T = plug c (node e l r) ∧ e.slot = i := by
  obtain ⟨e, he, rfl⟩ := List.mem_map.1 hi
  obtain ⟨c, l, r, hT⟩ := exists_plug_of_mem he
  exact ⟨c, e, l, r, hT, rfl⟩

theorem mem_slots_plug {i : ℕ} (hi : i ∈ slots t) (c : Path Entry) : i ∈ slots (plug c t) := by
  rw [slots, inorder_plug]
  simp only [List.map_append, List.mem_append]
  exact .inr (.inl hi)

theorem attached_of_plug (h : Repr s E z K (plug c t)) (ht : t ≠ nil) :
    Attached s (treeRef t) := by
  induction c generalizing t with
  | nil =>
    have hroot : s.root = treeRef t := Holds.root h
    have hne : s.root ≠ .nil := by rw [hroot]; exact Base.treeRef_ne_nil ht
    exact hroot ▸ Attached.root hne
  | cons f c ih =>
    have hparent := ih (t := f.fill t) h (by simp)
    obtain ⟨d, b, u⟩ := f
    obtain ⟨H, hH, hn⟩ := Repr.mem_join (c := c) (d := d) (e := b) (x := t) (y := u) h
    have hchild := Attached.child d hparent (hH.owns.read (by rwa [treeRef_fill]))
    rw [Entry.cell_child] at hchild
    exact hchild (Base.treeRef_ne_nil ht)

/-- The attached nodes are those of the tree. -/
theorem attached_iff (h : Repr s E z K T) : Attached s n ↔ ∃ i ∈ slots T, n = .slot i := by
  have hslot : ∀ {u : ETree}, treeRef u ≠ .nil → (∀ i ∈ slots u, i ∈ slots T) →
      ∃ i ∈ slots T, treeRef u = .slot i := by
    intro u hu hsub
    cases u with
    | nil => exact absurd rfl hu
    | node e l r => exact ⟨e.slot, hsub _ (by simp), rfl⟩
  constructor
  · intro hn
    induction hn with
    | root hne =>
      have hroot : s.root = treeRef T := Holds.root h
      rw [hroot] at hne ⊢
      exact hslot hne fun _ hi => hi
    | @child n node d _ hmem hne ih =>
      obtain ⟨i, hi, rfl⟩ := ih
      obtain ⟨c, e, l, r, rfl, rfl⟩ := exists_plug_of_slot hi
      rw [h.mem_node, Option.some.injEq] at hmem
      subst hmem
      cases d with
      | left =>
        exact hslot hne fun i hi => mem_slots_plug (by simp [hi]) c
      | right =>
        exact hslot hne fun i hi => mem_slots_plug (by simp [hi]) c
  · rintro ⟨i, hi, rfl⟩
    obtain ⟨c, e, l, r, rfl, rfl⟩ := exists_plug_of_slot hi
    exact h.attached_of_plug (t := node e l r) (by simp)

theorem attached_ref (h : Repr s E z K T) (he : e ∈ T.inorder) : Attached s e.ref :=
  h.attached_iff.2 ⟨e.slot, List.mem_map_of_mem he, rfl⟩

/-- An attached node is a node of the tree. -/
theorem exists_mem_of_attached (h : Repr s E z K T) (hn : Attached s n) :
    ∃ e ∈ T.inorder, n = e.ref := by
  obtain ⟨i, hi, rfl⟩ := h.attached_iff.1 hn
  obtain ⟨e, he, rfl⟩ := List.mem_map.1 hi
  exact ⟨e, he, rfl⟩

/-- A node of the tree, with the place it is at. -/
theorem exists_of_attached (h : Repr s E z K T) (hn : Attached s n) :
    ∃ c e l r, T = plug c (node e l r) ∧ n = .slot e.slot := by
  obtain ⟨i, hi, rfl⟩ := h.attached_iff.1 hn
  obtain ⟨c, e, l, r, hT, rfl⟩ := exists_plug_of_slot hi
  exact ⟨c, e, l, r, hT, rfl⟩

/-- The other nodes of the pool are the loose ones. -/
theorem unattached_iff {F : Multiset Entry} (h : Repr s E z (F.map looseCell) T) :
    Unattached s n ↔ ∃ a ∈ F, n = .slot a.slot := by
  have halloc : (s.mem n).isSome ↔ n = .nil ∨ (∃ a ∈ F, n = .slot a.slot) ∨
      ∃ i ∈ slots T, n = .slot i := by
    rw [Holds.owns h |>.isSome_iff, Multiset.map_add, Multiset.map_add, map_fst_below]
    simp [Sentinel.cell, looseCell, eq_comm]
  constructor
  · rintro ⟨hne, hsome, hn⟩
    rw [h.attached_iff] at hn
    exact ((halloc.1 hsome).resolve_left hne).resolve_right hn
  · rintro ⟨a, ha, rfl⟩
    refine ⟨Ref.slot_ne_nil, halloc.2 (.inr (.inl ⟨a, ha, rfl⟩)), fun hn => ?_⟩
    obtain ⟨i, hi, e⟩ := h.attached_iff.1 hn
    obtain ⟨F', rfl⟩ := Multiset.exists_cons_of_mem ha
    rw [Multiset.map_cons, ← Multiset.singleton_add] at h
    exact Base.loose_notMem h (Ref.slot.inj e ▸ hi)

end Repr
end MulleRbtree
