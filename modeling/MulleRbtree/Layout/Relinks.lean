import MulleRbtree.Layout.BlackBlack
import MulleRbtree.Layout.RedRed

/-!
# Links are written in the current epoch

The history variable `relinked` of a node can be relied on: whatever the functions of a removal or
an insertion do, a node whose links they change has the current epoch afterwards.

* `Relinks s s'`: the epoch is the same, and every node has the links it had, or was relinked in
  this epoch, or is freed;
* `relinks_unlinkNode`, `relinks_blackBlackFixup`, …: all functions called by a removal;
* `Continues`: one program does what another does and then goes on (`continues_attachNode`).
-/

namespace MulleRbtree

open BinaryTree Program

variable {σ : Type}

/-- The links of a node and when the last one was written. -/
def Rbnode.linkage (c : Rbnode) : Ref × Ref × Ref × ℕ := (c.parent, c.left, c.right, c.relinked)

/-- Links are written in the current epoch only. -/
def Relinks (s s' : Base σ) : Prop :=
  s'.epoch = s.epoch ∧ ∀ n c, s'.mem n = some c →
    c.relinked = s.epoch ∨ (s.mem n).map Rbnode.linkage = some c.linkage

instance : Std.Refl (Relinks (σ := σ)) where
  refl s := ⟨rfl, fun n c hc => .inr (by rw [hc]; rfl)⟩

instance : IsTrans (Base σ) Relinks where
  trans s s' s'' h h' := by
    obtain ⟨he, h⟩ := h
    obtain ⟨he', h'⟩ := h'
    refine ⟨he'.trans he, fun n c hc => ?_⟩
    rcases h' n c hc with hr | hlink
    · exact .inl (hr.trans he)
    · obtain ⟨c', hc', hl⟩ := Option.map_eq_some_iff.1 hlink
      rcases h n c' hc' with hr | hlink'
      · have hrel : c'.relinked = c.relinked := congrArg (fun q => q.2.2.2) hl
        exact .inl (hrel.symm.trans hr)
      · exact .inr (hlink'.trans (congrArg some hl))

namespace Base

variable {α β : Type} {n : Ref}

/-! ### Accesses -/

theorem relinks_read {f : Base σ → α} : Guarantees Relinks (read f) := by
  rintro s a _ ⟨⟩
  exact refl_of _ s

theorem relinks_deref : Guarantees Relinks (deref n : M σ Rbnode) := by
  intro s a s' h
  obtain rfl := guarantees_deref s a s' h
  exact refl_of _ s

theorem relinks_assert {p : Prop} [Decidable p] : Guarantees Relinks (assert p : M σ Unit) :=
  .ite (fun _ => .pure ()) fun _ => .throw _

/-- What is neither a node nor the epoch. -/
theorem relinks_write {f : Base σ → Base σ} (he : ∀ s, (f s).epoch = s.epoch)
    (hm : ∀ s, (f s).mem = s.mem) : Guarantees Relinks (write f) := by
  rintro s a _ ⟨⟩
  exact ⟨he s, fun n c hc => .inr (by rw [← hm, hc]; rfl)⟩

/-- A node is changed, but for its links, or in the current epoch. -/
theorem relinks_update {f : Rbnode → Rbnode} {s s' : Base σ}
    (hf : ∀ c, (f c).relinked = s.epoch ∨ (f c).linkage = c.linkage)
    (h : update n f s = .ok ((), s')) : Relinks s s' := by
  unfold update at h
  cases hn : s.mem n with
  | none =>
    rw [hn] at h
    cases h
  | some c₀ =>
    rw [hn] at h
    cases h
    refine ⟨rfl, fun m c (hc : Function.update s.mem n (some (f c₀)) m = some c) => ?_⟩
    by_cases hm : m = n
    · subst hm
      rw [Function.update_self, Option.some.injEq] at hc
      rw [← hc, hn]
      exact (hf c₀).imp id fun h => congrArg some h.symm
    · rw [Function.update_of_ne hm] at hc
      exact .inr (by rw [hc]; rfl)

theorem relinks_recolor {f : Color → Color} : Guarantees Relinks (recolor n f : M σ Unit) := by
  refine relinks_deref.bind fun c => .bind ?_ fun _ => relinks_write (fun _ => rfl) fun _ => rfl
  exact fun _ _ _ h => relinks_update (n := n) (f := fun node => { node with color := f c.color })
    (fun _ => .inr rfl) h

theorem relinks_putParent {v : Ref} : Guarantees Relinks (putParent n v : M σ Unit) :=
  fun s _ _ h => relinks_update (n := n)
    (f := fun c => { c with parent := v, relinked := s.epoch }) (fun _ => .inl rfl) h

theorem relinks_putChild {d : Side} {v : Ref} :
    Guarantees Relinks (putChild d n v : M σ Unit) := by
  intro s _ _ h
  refine relinks_update (n := n) (f := Rbnode.setChild d v s.epoch) (fun _ => .inl ?_) h
  cases d <;> rfl

theorem relinks_putLeft {v : Ref} : Guarantees Relinks (putLeft n v : M σ Unit) :=
  relinks_putChild (d := .left)

theorem relinks_putRight {v : Ref} : Guarantees Relinks (putRight n v : M σ Unit) :=
  relinks_putChild (d := .right)

theorem relinks_setRoot {v : Ref} : Guarantees Relinks (setRoot v : M σ Unit) :=
  relinks_write (fun _ => rfl) fun _ => rfl

theorem relinks_get {f : Rbnode → α} :
    Guarantees Relinks (do return f (← deref n) : M σ α) := relinks_deref.bind fun _ => .pure _

theorem relinks_setColor {k : Color} : Guarantees Relinks (setColor n k : M σ Unit) :=
  relinks_assert.bind fun _ => relinks_recolor

theorem relinks_setNodeBlack : Guarantees Relinks (setNodeBlack n : M σ Unit) := relinks_setColor

theorem relinks_setNodeRed : Guarantees Relinks (setNodeRed n : M σ Unit) :=
  relinks_assert.bind fun _ => relinks_setColor

theorem relinks_setNodeMarked : Guarantees Relinks (setNodeMarked n : M σ Unit) :=
  relinks_read.bind fun _ => .ite (fun _ => .ite (fun _ => relinks_recolor) fun _ => .pure ())
    fun _ => .pure ()

/-! ### Rotations -/

theorem relinks_nodeReparent {p t : Ref} : Guarantees Relinks (nodeReparent p t : M σ Unit) := by
  refine relinks_get.bind fun q => relinks_putParent.bind fun _ =>
    relinks_setNodeMarked.bind fun _ => relinks_get.bind fun q =>
    .ite (fun _ => relinks_setRoot) fun _ => ?_
  refine relinks_get.bind fun q => relinks_get.bind fun r => .bind (.ite (fun _ => ?_) fun _ => ?_)
    fun _ => relinks_get.bind fun q => relinks_setNodeMarked
  · exact relinks_get.bind fun q => relinks_putRight
  · exact relinks_get.bind fun q => relinks_putLeft

variable [MulleStorage σ]

theorem relinks_loop {step : α → M σ (α ⊕ β)} (h : ∀ a, Guarantees Relinks (step a)) (a : α) :
    Guarantees Relinks (loop step a) := relinks_read.bind fun _ => .iterate h _ a

theorem relinks_whileLoop {cond : α → M σ Bool} {body : α → M σ α}
    (hc : ∀ a, Guarantees Relinks (cond a)) (hb : ∀ a, Guarantees Relinks (body a)) (a : α) :
    Guarantees Relinks (whileLoop cond body a) :=
  relinks_loop (fun a => (hc a).bind fun _ => .ite (fun _ => (hb a).bind fun _ => .pure _)
    fun _ => .pure _) a

theorem relinks_assertDirtyFlagPropagation :
    Guarantees Relinks (assertDirtyFlagPropagation n : M σ Unit) := by
  intro s a s' h
  obtain rfl := guarantees_assertDirtyFlagPropagation s a s' h
  exact refl_of _ s

theorem relinks_markNodeAsDirty : Guarantees Relinks (markNodeAsDirty n : M σ Unit) := by
  refine relinks_read.bind fun _ => relinks_assert.bind fun _ =>
    .bind (relinks_whileLoop (fun _ => .pure _) (fun _ => ?_) n) fun _ => .pure _
  exact relinks_recolor.bind fun _ => relinks_get

theorem relinks_rotateNode {d : Side} {p : Ref} : Guarantees Relinks (rotateNode d p : M σ Unit) := by
  refine .bind (relinks_write (fun _ => rfl) fun _ => rfl) fun _ => ?_
  refine relinks_setNodeMarked.bind fun _ => relinks_get.bind fun t =>
    relinks_setNodeMarked.bind fun _ => relinks_assert.bind fun _ => relinks_assert.bind fun _ =>
    relinks_get.bind fun b => .bind ?_ fun _ => relinks_get.bind fun b =>
    relinks_setNodeMarked.bind fun _ => relinks_nodeReparent.bind fun _ =>
    relinks_putChild.bind fun _ => relinks_putParent.bind fun _ => relinks_get.bind fun q =>
    relinks_setNodeMarked.bind fun _ => relinks_read.bind fun _ => .ite (fun _ => ?_) fun _ => .pure ()
  · exact .bind (.ite (fun _ => relinks_putParent) fun _ => .pure ()) fun _ => relinks_putChild
  · exact relinks_markNodeAsDirty.bind fun _ => relinks_assertDirtyFlagPropagation.bind fun _ =>
      relinks_assertDirtyFlagPropagation

/-! ### Fixups -/

omit [MulleStorage σ] in
theorem relinks_andAlso {b₁ b₂ : M σ Bool} (h₁ : Guarantees Relinks b₁)
    (h₂ : Guarantees Relinks b₂) : Guarantees Relinks (andAlso b₁ b₂) :=
  h₁.bind fun _ => .ite (fun _ => h₂) fun _ => .pure _

theorem relinks_redRedSide {d : Side} {x : Ref} : Guarantees Relinks (redRedSide d x : M σ Ref) := by
  unfold redRedSide redRedTurnNode
  repeat' first
    | exact .pure _
    | exact relinks_get
    | exact relinks_setNodeBlack
    | exact relinks_setNodeRed
    | exact relinks_rotateNode
    | refine .bind ?_ fun _ => ?_
    | refine .ite (fun _ => ?_) fun _ => ?_

theorem relinks_redRedFixup {x : Ref} : Guarantees Relinks (redRedFixup x : M σ Unit) := by
  have hside : ∀ (d : Side) (x : Ref), Guarantees Relinks (redRedSide d x : M σ Ref) :=
    fun _ _ => relinks_redRedSide
  refine .bind (relinks_whileLoop (fun x => ?_) (fun x => ?_) x) fun _ =>
    relinks_read.bind fun r => relinks_setNodeBlack
  · exact relinks_andAlso (relinks_read.bind fun r => .pure _) (relinks_get.bind fun p => relinks_get)
  · exact relinks_get.bind fun p => relinks_get.bind fun q => relinks_get.bind fun g =>
      relinks_get.bind fun l => .ite (fun _ => hside .left x) fun _ => hside .right x

theorem relinks_blackBlackSide {d : Side} {x : Ref} :
    Guarantees Relinks (blackBlackSide d x : M σ (Ref × Ref)) := by
  unfold blackBlackSide repairNode blackBlackTurnNode
  repeat' first
    | exact .pure _
    | exact relinks_get
    | exact relinks_read
    | exact relinks_recolor
    | exact relinks_setColor
    | exact relinks_rotateNode
    | refine relinks_andAlso ?_ ?_
    | refine .bind ?_ fun _ => ?_
    | refine .ite (fun _ => ?_) fun _ => ?_

theorem relinks_blackBlackFixup {x : Ref} : Guarantees Relinks (blackBlackFixup x : M σ Unit) := by
  have hside : ∀ (d : Side) (x : Ref), Guarantees Relinks (blackBlackSide d x : M σ (Ref × Ref)) :=
    fun _ _ => relinks_blackBlackSide
  refine .bind (relinks_whileLoop (fun x => ?_) (fun x => ?_) x) fun _ =>
    relinks_recolor.bind fun _ => relinks_read.bind fun r => relinks_setNodeBlack
  · exact relinks_andAlso (relinks_read.bind fun r => .pure _) relinks_get
  · exact relinks_get.bind fun p => relinks_get.bind fun l => .bind
      (.ite (fun _ => hside .left x) fun _ => hside .right x) fun _ =>
      relinks_assertDirtyFlagPropagation.bind fun _ =>
        relinks_assertDirtyFlagPropagation.bind fun _ => .pure _

/-! ### Removing -/

theorem relinks_findLeftmostNode : Guarantees Relinks (findLeftmostNode n : M σ Ref) :=
  relinks_whileLoop (fun _ => relinks_get.bind fun _ => .pure _) (fun _ => relinks_get) n

theorem relinks_nextNode : Guarantees Relinks (nextNode n : M σ Ref) := by
  refine relinks_get.bind fun r => .ite (fun _ => relinks_get.bind fun r => relinks_findLeftmostNode)
    fun _ => relinks_loop (fun n => ?_) n
  exact relinks_get.bind fun p => .bind (relinks_andAlso (.pure _)
    (relinks_get.bind fun r => .pure _)) fun _ => .ite (fun _ => .pure _) fun _ => .pure _

omit [MulleStorage σ] in
theorem relinks_cutOut {y x : Ref} : Guarantees Relinks (cutOut y x : M σ Unit) := by
  unfold cutOut
  repeat' first
    | exact relinks_get
    | exact relinks_putParent
    | exact relinks_putLeft
    | exact relinks_putRight
    | exact relinks_setRoot
    | exact relinks_setNodeMarked
    | refine .bind ?_ fun _ => ?_
    | refine .ite (fun _ => ?_) fun _ => ?_

omit [MulleStorage σ] in
theorem relinks_takePlace {a_node y x l r : Ref} :
    Guarantees Relinks (takePlace a_node y x l r : M σ Unit) := by
  unfold takePlace setNodeColor
  repeat' first
    | exact relinks_get
    | exact relinks_assert
    | exact relinks_setColor
    | exact relinks_putParent
    | exact relinks_putLeft
    | exact relinks_putRight
    | exact relinks_setRoot
    | exact relinks_setNodeMarked
    | refine .bind ?_ fun _ => ?_
    | refine .ite (fun _ => ?_) fun _ => ?_

theorem relinks_markRemoved {a_node y x p : Ref} :
    Guarantees Relinks (markRemoved a_node y x p : M σ Unit) := by
  unfold markRemoved when
  repeat' first
    | exact .pure _
    | exact relinks_get
    | exact relinks_markNodeAsDirty
    | refine .bind ?_ fun _ => ?_
    | refine .ite (fun _ => ?_) fun _ => ?_

theorem relinks_unlinkNode : Guarantees Relinks (unlinkNode n : M σ (Ref × Bool × Ref × Ref)) := by
  unfold unlinkNode when
  repeat' first
    | exact .pure _
    | exact relinks_get
    | exact relinks_read
    | exact relinks_assert
    | exact relinks_setNodeMarked
    | exact relinks_nextNode
    | exact relinks_cutOut
    | exact relinks_takePlace
    | exact relinks_markRemoved
    | refine .bind ?_ fun _ => ?_
    | refine .ite (fun _ => ?_) fun _ => ?_

theorem relinks_freeNode : Guarantees Relinks (freeNode n : M σ Unit) := by
  refine relinks_deref.bind fun _ => ?_
  cases n with
  | nil => exact .throw _
  | slot i =>
    rintro s a _ ⟨⟩
    refine ⟨rfl, fun m c (hc : Function.update s.mem (.slot i) none m = some c) => .inr ?_⟩
    have hm : m ≠ .slot i := by
      rintro rfl
      rw [Function.update_self] at hc
      cases hc
    rw [Function.update_of_ne hm] at hc
    rw [hc]
    rfl

/-- `_mulle__rbtree_remove_node`, in the epoch it begins. -/
theorem relinks_removeNode {s s' : Base σ} (h : removeNode n s = .ok ((), s')) :
    Relinks { s with epoch := s.epoch + 1 } s' := by
  obtain ⟨_, _, hadvance, hrest⟩ := exists_of_bind_eq h
  cases hadvance
  exact Guarantees.bind relinks_unlinkNode (fun _ => relinks_freeNode.bind fun _ =>
    .bind (.ite (fun _ => relinks_blackBlackFixup) fun _ => .pure ()) fun _ =>
    relinks_assertDirtyFlagPropagation.bind fun _ => relinks_assertDirtyFlagPropagation.bind fun _ =>
    relinks_assertDirtyFlagPropagation) _ _ _ hrest

/-! ### Inserting -/

/-- The new leaf is hung in, and that is all. -/
def hangLeaf (a_node parent : Ref) (direction : ℤ) : M σ Unit := do
  let _ ← hangNode a_node parent direction

section Attach

variable (attach : Ref → Ref → ℤ → M σ Unit)

/-- `_mulle__rbtree_insert_node`, with another function to attach the node. -/
def insertNodeWith (a_node : Ref) (a_comp : VoidPtr → VoidPtr → ℤ) : M σ ℤ := do
  assert (a_node ≠ .nil)
  let y ← getRoot
  if y ≠ .nil then do
    let a_value ← getNodeValue a_node
    match ← descend a_value a_comp y with
    | none => return EEXIST
    | some (x, c) => do
      attach a_node x c
      return 0
  else do
    attach a_node .nil 0
    return 0

/-- `_mulle__rbtree_insert_node_before_node`, with another function to attach the node. -/
def insertNodeBeforeNodeWith (a_node successor : Ref) : M σ Unit := do
  assert (a_node ≠ .nil)
  assert (a_node ≠ successor)
  assert (successor ≠ .nil)
  let y ← getLeft successor
  if y = .nil then
    attach a_node successor (-1)
  else do
    let x ← loop (fun y => do
      let x := y
      let y ← getRight y
      if y ≠ .nil then return .inl y else return .inr x) y
    attach a_node x 1

/-- `_mulle__rbtree_insert_node_after_node`, with another function to attach the node. -/
def insertNodeAfterNodeWith (a_node predecessor : Ref) : M σ Unit := do
  assert (a_node ≠ .nil)
  assert (a_node ≠ predecessor)
  assert (predecessor ≠ .nil)
  let y ← getRight predecessor
  if y = .nil then
    attach a_node predecessor 1
  else do
    let x ← loop (fun y => do
      let x := y
      let y ← getLeft y
      if y ≠ .nil then return .inl y else return .inr x) y
    attach a_node x (-1)

theorem insertNodeWith_attachNode :
    (insertNodeWith attachNode : Ref → _ → M σ ℤ) = insertNode := rfl
theorem insertNodeBeforeNodeWith_attachNode :
    (insertNodeBeforeNodeWith attachNode : Ref → Ref → M σ Unit) = insertNodeBeforeNode := rfl
theorem insertNodeAfterNodeWith_attachNode :
    (insertNodeAfterNodeWith attachNode : Ref → Ref → M σ Unit) = insertNodeAfterNode := rfl

end Attach

/-- After `s` links are written in a later epoch only. -/
def Moves (s s' : Base σ) : Prop :=
  ∀ n c, s'.mem n = some c → s.epoch < c.relinked ∨ (s.mem n).map Rbnode.linkage = some c.linkage

instance : Std.Refl (Moves (σ := σ)) where
  refl s := fun n c hc => .inr (by rw [hc]; rfl)

/-- What follows upon the hanging in of the leaf is in the next epoch. -/
theorem continues_attachNode {a_node parent : Ref} {direction : ℤ} :
    Continues Moves (hangLeaf a_node parent direction : M σ Unit)
      (attachNode a_node parent direction) := by
  intro s u t ht
  obtain ⟨b, s₁, hhang, hrest⟩ := exists_of_bind_eq ht
  refine ⟨s₁, bind_eq hhang, ?_⟩
  have hrelinks : Guarantees Relinks (do
      when b (redRedFixup a_node)
      assert ((← getRoot) ≠ .nil)
      when (Options.useDirty (← getOptions)) (markNodeAsDirty a_node) : M σ Unit) :=
    .bind (.ite (fun _ => relinks_redRedFixup) fun _ => .pure ()) fun _ =>
      relinks_read.bind fun r => relinks_assert.bind fun _ => relinks_read.bind fun o =>
      .ite (fun _ => relinks_markNodeAsDirty) fun _ => .pure ()
  obtain ⟨-, hmem⟩ := hrelinks { s₁ with epoch := s₁.epoch + 1 } u t hrest
  refine fun n c hc => (hmem n c hc).imp (fun hr => ?_) id
  rw [hr]
  exact Nat.lt_succ_self _

theorem continues_insertNode {a_node : Ref} {comp : VoidPtr → VoidPtr → ℤ} :
    Continues Moves (insertNodeWith hangLeaf a_node comp : M σ ℤ) (insertNode a_node comp) := by
  refine .bind fun _ => .bind fun y => .ite (.bind fun v => .bind fun r => ?_) ?_
  · cases r with
    | none => exact .refl _
    | some q => exact continues_attachNode.answer 0
  · exact continues_attachNode.answer 0

theorem continues_insertNodeBeforeNode {a_node successor : Ref} :
    Continues Moves (insertNodeBeforeNodeWith hangLeaf a_node successor : M σ Unit)
      (insertNodeBeforeNode a_node successor) :=
  .bind fun _ => .bind fun _ => .bind fun _ => .bind fun _ =>
    .ite continues_attachNode (.bind fun _ => continues_attachNode)

theorem continues_insertNodeAfterNode {a_node predecessor : Ref} :
    Continues Moves (insertNodeAfterNodeWith hangLeaf a_node predecessor : M σ Unit)
      (insertNodeAfterNode a_node predecessor) :=
  .bind fun _ => .bind fun _ => .bind fun _ => .bind fun _ =>
    .ite continues_attachNode (.bind fun _ => continues_attachNode)

/-! The leaf itself is hung in in the epoch of the call. -/

omit [MulleStorage σ] in
theorem relinks_getNodeValue : Guarantees Relinks (getNodeValue n : M σ VoidPtr) :=
  .ite (fun _ => .pure _) fun _ => relinks_read.bind fun _ =>
    .ite (fun _ => relinks_get) fun _ => relinks_get

theorem relinks_descend {v : VoidPtr} {comp : VoidPtr → VoidPtr → ℤ} {y : Ref} :
    Guarantees Relinks (descend v comp y : M σ (Option (Ref × ℤ))) := by
  refine relinks_loop (fun y => relinks_getNodeValue.bind fun w => .bind ?_ fun k =>
    relinks_read.bind fun o => .ite (fun _ => .pure _) fun _ => .bind
      (.ite (fun _ => relinks_get) fun _ => relinks_get) fun y =>
      .ite (fun _ => .pure _) fun _ => .pure _) y
  exact .bind (relinks_write (fun _ => rfl) fun _ => rfl) fun _ => .pure _

omit [MulleStorage σ] in
theorem relinks_hangLeaf {a_node parent : Ref} {direction : ℤ} :
    Guarantees Relinks (hangLeaf a_node parent direction : M σ Unit) := by
  unfold hangLeaf hangNode
  repeat' first
    | exact .pure _
    | exact relinks_get
    | exact relinks_read
    | exact relinks_assert
    | exact relinks_putParent
    | exact relinks_putLeft
    | exact relinks_putRight
    | exact relinks_setRoot
    | exact relinks_setNodeBlack
    | refine .bind ?_ fun _ => ?_
    | refine .ite (fun _ => ?_) fun _ => ?_

theorem relinks_insertNodeWith {a_node : Ref} {comp : VoidPtr → VoidPtr → ℤ} :
    Guarantees Relinks (insertNodeWith hangLeaf a_node comp : M σ ℤ) := by
  refine relinks_assert.bind fun _ => relinks_read.bind fun y => .ite (fun _ =>
    relinks_getNodeValue.bind fun v => relinks_descend.bind fun r => ?_) fun _ =>
    relinks_hangLeaf.bind fun _ => .pure _
  cases r with
  | none => exact .pure _
  | some q => exact relinks_hangLeaf.bind fun _ => .pure _

theorem relinks_insertNodeBeforeNodeWith {a_node successor : Ref} :
    Guarantees Relinks (insertNodeBeforeNodeWith hangLeaf a_node successor : M σ Unit) := by
  refine relinks_assert.bind fun _ => relinks_assert.bind fun _ => relinks_assert.bind fun _ =>
    relinks_get.bind fun y => .ite (fun _ => relinks_hangLeaf) fun _ =>
    .bind (relinks_loop (fun y => ?_) y) fun _ => relinks_hangLeaf
  exact relinks_get.bind fun y => .ite (fun _ => .pure _) fun _ => .pure _

theorem relinks_insertNodeAfterNodeWith {a_node predecessor : Ref} :
    Guarantees Relinks (insertNodeAfterNodeWith hangLeaf a_node predecessor : M σ Unit) := by
  refine relinks_assert.bind fun _ => relinks_assert.bind fun _ => relinks_assert.bind fun _ =>
    relinks_get.bind fun y => .ite (fun _ => relinks_hangLeaf) fun _ =>
    .bind (relinks_loop (fun y => ?_) y) fun _ => relinks_hangLeaf
  exact relinks_get.bind fun y => .ite (fun _ => .pure _) fun _ => .pure _

end Base
end MulleRbtree
