import MulleRbtree.Runs.Operations

/-!
# The node pool over whole runs

Which slots of the pool are in use, and when a slot is given back.

* `removeUpToFree`, `addUpToFree`: the two operations that give a slot back, up to that call;
* `additions`, `removals`: what a history adds up to;
* `PoolExact s n`: the slots in use are those of the `n` attached nodes, what is not in use is not
  linked to, and a node that is given back is out of the tree before that;
* `pool_of_run`: so it is after every run of operations.
-/

namespace MulleRbtree

open BinaryTree Cells Program

variable {σ : Type} [MulleStorage σ]

/-! ### Up to `_mulle__rbtree_free_node` -/

namespace Rbtree

open Base

/-- `_mulle_rbtree_remove_node`, up to the call of `_mulle__rbtree_free_node`. -/
def removeUpToFree (node : Ref) : M σ (Ref × Bool × Ref × Ref) := do
  assert (node ≠ .nil)
  let value ← getNodeValue node
  release value
  when (Options.useDirty (← getOptions)) (markNodeAsDirty node)
  write fun s => { s with epoch := s.epoch + 1 }
  unlinkNode node

/-- `_mulle_rbtree_remove_node`, from the call of `_mulle__rbtree_free_node` on. -/
def removeFromFree (node : Ref) : Ref × Bool × Ref × Ref → M σ Unit :=
  fun (x, fixup, orig_left, orig_right) => do
    freeNode node
    when fixup (blackBlackFixup x)
    assertDirtyFlagPropagation x
    assertDirtyFlagPropagation orig_left
    assertDirtyFlagPropagation orig_right
    when (Options.useDirty (← getOptions)) walkDirty

theorem removeNode_eq (node : Ref) :
    (removeNode node : M σ Unit) = (do removeFromFree node (← removeUpToFree node)) := by
  simp only [removeNode, Base.removeNode, removeUpToFree, removeFromFree, bind_assoc]

/-- `_mulle_rbtree_add`, up to the point where a refused node is freed. -/
def addUpToFree (cb : Callbacks) (value : VoidPtr) : M σ (VoidPtr × Ref × ℤ) := do
  let value ← retain cb value
  let node ← newNode value
  let rval ← insertNode node cb.comparison
  return (value, node, rval)

/-- `_mulle_rbtree_add`, from there on. -/
def addFromFree : VoidPtr × Ref × ℤ → M σ ℤ :=
  fun (value, a_node, rval) => do
    when (rval ≠ 0) do
      release value
      freeNode a_node
    when (Options.useDirty (← getOptions)) walkDirty
    return rval

theorem add_eq (cb : Callbacks) (value : VoidPtr) :
    (add cb value : M σ ℤ) = (do addFromFree (← addUpToFree cb value)) := by
  simp only [add, addUpToFree, addFromFree, bind_assoc, pure_bind]

end Rbtree

/-! ### Histories -/

/-- Whether the call has put a node into the tree. -/
def isAddition : Op × Result → Bool
  | (.add _, .code k) => k = 0
  | _ => false

/-- Whether the call has taken a node out of the tree. -/
def isRemoval : Op × Result → Bool
  | (.remove _, .code k) => k = 0
  | (.removeNode _, _) => true
  | _ => false

/-- The accepted calls of `mulle_rbtree_add`. -/
def additions (h : List (Op × Result)) : ℕ := h.countP isAddition

/-- The successful removals. -/
def removals (h : List (Op × Result)) : ℕ := h.countP isRemoval

theorem length_items (T : ETree) : (items T).length = T.numNodes := by
  rw [items_eq, List.length_map, length_inorder]

theorem Performs.numNodes {cb : Callbacks} {m m' : Image σ} {op : Op} {r : Result}
    (h : Performs cb m op r m') : m'.tree.numNodes + removals [(op, r)] =
      m.tree.numNodes + additions [(op, r)] := by
  simp only [← length_items]
  cases h with
  | @added E F T v g k hplace ha hk =>
    obtain ⟨h₁, h₂⟩ := items_attach_split (o := E.stamp) (a := E.newcomer cb v) (c := g)
    have hT : plug g nil = T := (plug_seek hplace).1
    dsimp only
    rw [items_wash, h₂, ← hT, h₁]
    simp [additions, removals, isAddition, isRemoval]
    omega
  | rejected =>
    dsimp only
    rw [items_wash]
    rfl
  | @removed E F key c a l r k hfind hk =>
    obtain ⟨u, v, h₁, h₂⟩ := items_unstore_split E.stamp c a l r
    dsimp only
    rw [items_wash, h₁, h₂]
    simp [additions, removals, isAddition, isRemoval]
    omega
  | @removedNode E F c a l r k hk =>
    obtain ⟨u, v, h₁, h₂⟩ := items_unstore_split E.stamp c a l r
    dsimp only
    rw [items_wash, h₁, h₂]
    simp [additions, removals, isAddition, isRemoval]
    omega
  | missing => rfl
  | found => rfl
  | reached => rfl
  | isEmpty => rfl
  | enumerated => rfl

/-- What is in the tree has been added and not been removed. -/
theorem Performs.steps_numNodes {cb : Callbacks} {m m' : Image σ} {h : List (Op × Result)}
    (hrun : Steps (Performs cb) m h m') :
    m'.tree.numNodes + removals h = m.tree.numNodes + additions h := by
  induction hrun with
  | nil => rfl
  | @cons m m₁ m' op r h hs _ ih =>
    have hstep := hs.numNodes
    have hr : removals ((op, r) :: h) = removals [(op, r)] + removals h := by
      rw [removals, ← List.singleton_append, List.countP_append]
      rfl
    have ha : additions ((op, r) :: h) = additions [(op, r)] + additions h := by
      rw [additions, ← List.singleton_append, List.countP_append]
      rfl
    omega

/-! ### The pool -/

/-- The pool of a tree with `n` nodes. -/
structure PoolExact (cb : Callbacks) (s : Base σ) (n : ℕ) : Prop where
  live : ∀ i, i ∈ MulleStorage.live s.nodes ↔ Attached s (.slot i)
  /-- an access to a slot that is not in use, or its release, would be a fault -/
  freed : ∀ i, i ∉ MulleStorage.live s.nodes → s.mem (.slot i) = none
  links : ∀ m c k, Attached s m → s.mem m = some c → k ∈ [c.parent, c.left, c.right] →
    k = .nil ∨ Attached s k
  returns : ∀ op : Op, op.Pre s → ∃ r s', op.exec cb s = .ok (r, s')
  removed : ∀ m, Attached s m →
    ∃ q s₁, Rbtree.removeUpToFree m s = .ok (q, s₁) ∧ ¬ Attached s₁ m
  refused : ∀ v, ∃ kept m r s₁, Rbtree.addUpToFree cb v s = .ok ((kept, m, r), s₁) ∧
    (r ≠ 0 → ¬ Attached s₁ m)
  poolCount : MulleStorage.getCount s.nodes = n
  count : Base.getCount s = .ok (n, s)
  enumeration : ∃ u, Rbtree.enumerateAll s = .ok (u, s) ∧ u.length = n

namespace Repr

variable {s : Base σ} {E : Env σ} {z : Sentinel} {K : Multiset Cell} {T t : ETree}
  {c : Path Entry}

/-- A loose node is not attached. -/
theorem not_attached {i : ℕ} {v : Rbnode} (h : Repr s E z ({(.slot i, v)} + K) T) :
    ¬ Attached s (.slot i) := by
  rw [h.attached_iff]
  rintro ⟨j, hj, e⟩
  obtain rfl := Ref.slot.inj e
  exact Base.loose_notMem h hj

/-- The links of a node lead to nodes. -/
theorem attached_of_link {m k : Ref} {n : Rbnode} (h : Repr s E z K T) (hm : Attached s m)
    (hn : s.mem m = some n) (hk : k ∈ [n.parent, n.left, n.right]) : k = .nil ∨ Attached s k := by
  obtain ⟨c, e, l, r, rfl, rfl⟩ := h.exists_of_attached hm
  rw [h.mem_node, Option.some.injEq] at hn
  subst hn
  have htree : ∀ {c : Path Entry} {t : ETree}, Repr s E z K (plug c t) →
      treeRef t = .nil ∨ Attached s (treeRef t) := by
    intro c t h
    by_cases ht : t = nil
    · exact .inl (treeRef_eq_nil.2 ht)
    · exact .inr (h.attached_of_plug ht)
  rw [Entry.cell_parent] at hk
  simp only [List.mem_cons, List.not_mem_nil, or_false] at hk
  rcases hk with rfl | rfl | rfl
  · cases c with
    | nil => exact .inl rfl
    | cons f c =>
      right
      rw [parentRef_cons, ← treeRef_fill f (node e l r)]
      exact h.attached_of_plug (c := c) (by simp)
  · exact htree (c := ⟨.left, e, r⟩ :: c) h
  · exact htree (c := ⟨.right, e, l⟩ :: c) h

theorem mem_live_iff (h : Repr s E z 0 T) (i : ℕ) :
    i ∈ MulleStorage.live s.nodes ↔ i ∈ slots T := by
  rw [Holds.nodes_eq h, Holds.live h i, Multiset.map_add, Multiset.map_add, map_fst_below]
  simp [Sentinel.cell]

theorem removeUpToFree_spec {e : Entry} {l r : ETree} (h : Repr s E z K (plug c (node e l r))) :
    ∃ q s₁, Rbtree.removeUpToFree e.ref s = .ok (q, s₁) ∧ ¬ Attached s₁ e.ref := by
  have hvalue : Base.getNodeValue (.slot e.slot) s = .ok (e.value E.options, s) :=
    Base.getNodeValue_spec (t := node e l r) h
  refine Ensures.bind_eq (Base.assert_eq nofun) (.bind_eq hvalue
    ((Holds.emit h _).bind fun _ s₁ h₁ => ?_))
  have h₁ : Repr s₁ (E.traced [.release (e.value E.options)]) z K (plug c (node e l r)) := h₁
  refine .bind_eq h₁.getOptions ((markNodeAsDirty_when h₁).bind fun _ s₂ h₂ =>
    (Holds.advance h₂).bind fun _ s₃ h₃ => ?_)
  refine (Base.unlinkNode_spec (a := e.soil _) h₃).mono ?_
  rintro _ s₄ ⟨-, z', v, h₄, -⟩
  exact h₄.not_attached

theorem addUpToFree_spec (cb : Callbacks) (h : Repr s E z K T) (hb : IsRedBlack Entry.isRed T)
    (v : VoidPtr) : ∃ kept m r s₁, Rbtree.addUpToFree cb v s = .ok ((kept, m, r), s₁) ∧
      (r ≠ 0 → ¬ Attached s₁ m) := by
  obtain ⟨_, s₁, he₁, rfl, h₁⟩ : Ensures (Rbtree.retain cb v) s _ := retain_spec h v
  obtain ⟨_, s₂, he₂, rfl, h₂⟩ := Base.newNode_spec h₁ (E.kept cb v)
  obtain ⟨r, s₃, he₃, h₃⟩ := offer_spec (E := E) h₂ hb
  refine ⟨E.kept cb v, .slot (E.newcomer cb v).slot, r, s₃, ?_, fun hne => ?_⟩
  · rw [Rbtree.addUpToFree, bind_eq he₁, bind_eq he₂]
    exact bind_eq he₃
  · cases hplace : E.place cb T v with
    | none =>
      rw [hplace] at h₃
      exact not_attached h₃.2
    | some g =>
      rw [hplace] at h₃
      exact absurd h₃.1 hne

end Repr

theorem Represents.poolExact (cb : Callbacks) {s : Base σ} {m : Image σ} (h : Represents s m)
    (hm : Settled m) : PoolExact cb s m.tree.numNodes := by
  obtain ⟨E, F, T⟩ := m
  obtain rfl : F = 0 := hm.spare
  obtain ⟨⟨z, hr⟩, hsound⟩ := id h
  have hr : Repr s E z 0 T := hr
  have hlive : ∀ i, i ∈ MulleStorage.live s.nodes ↔ Attached s (.slot i) := fun i => by
    rw [hr.mem_live_iff, hr.attached_iff]
    simp
  refine ⟨hlive, fun i hi => ?_, fun m c k hm hc hk => hr.attached_of_link hm hc hk,
    fun op hop => ?_, fun m hm => ?_, fun v => hr.addUpToFree_spec cb hsound.redBlack v, ?_,
    Base.getCount_spec hr, _, Rbtree.enumerateAll_spec hr, ?_⟩
  · have hsome := Holds.live hr i
    rw [← Holds.nodes_eq hr, ← Owns.isSome_iff (Holds.owns hr)] at hsome
    rw [hsome] at hi
    simpa using hi
  · obtain ⟨r, s', he, -⟩ : Ensures (op.exec cb) s _ := op_represents h hop
    exact ⟨r, s', he⟩
  · obtain ⟨c, e, l, r, rfl, rfl⟩ := hr.exists_of_attached hm
    exact hr.removeUpToFree_spec
  · have hset : MulleStorage.live s.nodes = (slots T).toFinset := by
      ext i
      rw [hr.mem_live_iff, List.mem_toFinset]
    rw [MulleStorage.getCount, hset, List.toFinset_card_of_nodup hr.nodup_slots, slots,
      List.length_map, length_inorder]
  · rw [values_eq, List.length_map, length_inorder]

/-- After every run of operations the slots in use are those of the attached nodes, and their number
is what the history adds up to. -/
theorem pool_of_run (config : Config) (cb : Callbacks) {s : Base σ} {h : List (Op × Result)}
    (hrun : (operations σ cb).Run (Base.initWithConfig config) h s) :
    ∃ n, PoolExact cb s n ∧ n + removals h = additions h := by
  obtain ⟨m, hsteps, hs⟩ := run_performs hrun ⟨shows_init config, sound_init config⟩
  refine ⟨m.tree.numNodes, hs.poolExact cb (Performs.steps_settled hsteps (settled_init config)), ?_⟩
  have hcount := Performs.steps_numNodes hsteps
  simpa [Image.init] using hcount

/-- Three values are added and one is removed again. -/
theorem pool_of_run_five : ∃ s : Base SlotPool,
    InOrder s [.slot 0, .slot 2] ∧ PoolExact lengthCallbacks s 2 ∧
    2 + removals ((fiveOps (ofLength 0) (ofLength 2) (ofLength 4)).zip fiveResults) =
      additions ((fiveOps (ofLength 0) (ofLength 2) (ofLength 4)).zip fiveResults) := by
  obtain ⟨s, hrun, hin, -⟩ := exists_five
  obtain ⟨n, hpool, hn⟩ := pool_of_run _ lengthCallbacks hrun
  have hcount : n + 1 = 3 := hn
  obtain rfl : n = 2 := by omega
  exact ⟨s, hin, hpool, hn⟩

end MulleRbtree
