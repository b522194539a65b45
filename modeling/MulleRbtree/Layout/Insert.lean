import MulleRbtree.Layout.Search
import MulleRbtree.Tree.Image

/-!
# The three inserts

* `insertNode_spec`: the new node is attached where the descent ends, unless a match is in the way;
* `beside d c e x y`: the empty place next to a node, on side `d`;
* `insertNodeBeforeNode_spec`, `insertNodeAfterNode_spec`: the new node is attached there.
-/

namespace MulleRbtree

open BinaryTree Cells Program

namespace Base

variable {σ : Type} [MulleStorage σ] {s : Base σ} {E : Env σ} {z : Sentinel} {K : Multiset Cell}
  {T t l r x y : ETree} {c : Path Entry} {a e : Entry} {n : ℕ} {d : Side}

/-! ### `_mulle__rbtree_insert_node` -/

/-- What `_mulle__rbtree_insert_node` answers, and the tree it leaves. -/
def Inserted (E : Env σ) (z : Sentinel) (K : Multiset Cell) (a : Entry) (T : ETree)
    (g : Option (Path Entry)) (r : ℤ) (s : Base σ) : Prop :=
  match g with
  | none => r = EEXIST ∧ Repr s E z ({looseCell a} + K) T
  | some g => r = 0 ∧ ∃ k ≤ 2, Repr s (E.advanced.turnedBy k) z K (attach E.stamp a g)

theorem Inserted.trace_eq {g : Option (Path Entry)} {r : ℤ} (h : Inserted E z K a T g r s) :
    s.trace = E.trace := by
  cases g with
  | none => exact Holds.trace_eq h.2
  | some g =>
    obtain ⟨-, k, -, h⟩ := h
    rw [Holds.trace_eq h]
    rfl

theorem insertNode_spec (h : Repr s E z ({looseCell a} + K) T) (hb : IsRedBlack Entry.isRed T)
    (ha : a.isRed = true) (comp : VoidPtr → VoidPtr → ℤ) :
    Ensures (insertNode (.slot a.slot) comp) s fun r s' =>
      Inserted (E.traced (compareEvents E.options (a.value E.options)
        (visits (matching E.options comp (a.value E.options)) (halts E.options) T))) z K a T
        (seek (matching E.options comp (a.value E.options)) (halts E.options) [] T) r s' := by
  refine .bind_eq (assert_eq nofun) (.bind_eq h.getRoot ?_)
  by_cases hT : T = nil
  · subst hT
    rw [if_neg (by simp)]
    refine Ensures.bind (attachNode_spec (c := []) h hb ha trivial) fun _ s' h' => .pure ⟨rfl, ?_⟩
    obtain ⟨k, hk, h'⟩ := h'
    rw [visits, compareEvents_nil, Env.traced_nil]
    exact ⟨k, hk, h'⟩
  · rw [if_pos (treeRef_ne_nil hT)]
    refine .bind_eq (getNodeValue_loose h) ((descend_spec (c := []) h hT).bind ?_)
    rintro r s₁ ⟨hr, h₁⟩
    rw [plug_nil] at h₁
    cases hseek : seek (matching E.options comp (a.value E.options)) (halts E.options) [] T with
    | none =>
      rw [hseek] at hr
      obtain rfl : r = none := hr
      exact .pure ⟨rfl, h₁⟩
    | some g =>
      rw [hseek] at hr
      obtain ⟨k, rfl, hk⟩ := hr
      have hplug : T = plug g nil := (plug_seek hseek).1.symm
      have hattach := attachNode_spec (h₁.cast hplug) (hplug ▸ hb) ha hk
      exact hattach.bind fun _ s' h' => .pure ⟨rfl, h'⟩

/-! ### `_mulle__rbtree_insert_node_before_node`, `_mulle__rbtree_insert_node_after_node` -/

/-- The empty place next to a node on side `d`: below the node itself, or below the last node of
the subtree on that side. -/
def beside (d : Side) (c : Path Entry) (e : Entry) (x y : ETree) : Path Entry :=
  match pop d.other (⟨d, e, y⟩ :: c) x with
  | none => ⟨d, e, y⟩ :: c
  | some (g, b, u) => ⟨d.other, b, u⟩ :: g

/-- The direction that stands for a side. -/
def directionOf : Side → ℤ
  | .left => -1
  | .right => 1

/-- Down to one side, as far as possible. -/
def lastNode (d : Side) (y : Ref) : M σ Ref :=
  loop (fun y => do
    let x := y
    let y ← getChild d y
    if y ≠ .nil then return .inl y else return .inr x) y

/-- The two positional inserts as one. -/
def insertBeside (d : Side) (a_node node : Ref) : M σ Unit := do
  assert (a_node ≠ .nil)
  assert (a_node ≠ node)
  assert (node ≠ .nil)
  let y ← getChild d node
  if y = .nil then
    attachNode a_node node (directionOf d)
  else do
    let x ← lastNode d.other y
    attachNode a_node x (directionOf d.other)

theorem insertNodeBeforeNode_eq (a_node successor : Ref) :
    (insertNodeBeforeNode a_node successor : M σ Unit) = insertBeside .left a_node successor := rfl
theorem insertNodeAfterNode_eq (a_node predecessor : Ref) :
    (insertNodeAfterNode a_node predecessor : M σ Unit) = insertBeside .right a_node predecessor :=
  rfl

theorem plug_beside (d : Side) (c : Path Entry) (e : Entry) (x y : ETree) :
    plug (beside d c e x y) nil = plug c (join d e x y) := by
  unfold beside
  cases hp : pop d.other (⟨d, e, y⟩ :: c) x with
  | none =>
    by_cases hx : x = nil
    · rw [hx]
      rfl
    · obtain ⟨g, b, u, e'⟩ := exists_pop d.other (⟨d, e, y⟩ :: c) hx
      rw [hp] at e'
      cases e'
  | some q =>
    obtain ⟨g, b, u⟩ := q
    have h := plug_pop hp
    exact h

theorem image_beside {f : Entry → Entry} {swap : Bool} (d : Side) (c : Path Entry) (e : Entry)
    (x y : ETree) : Path.image swap f (beside d c e x y) =
      beside (d.flip swap) (Path.image swap f c) (f e) (x.image swap f) (y.image swap f) := by
  have hpop : pop (d.flip swap).other (Path.image swap f (⟨d, e, y⟩ :: c)) (x.image swap f) = _ :=
    Side.flip_other ▸ pop_image
  rw [Path.image_cons] at hpop
  unfold beside
  change _ = match pop (d.flip swap).other ((Frame.mk d e y).image swap f :: Path.image swap f c)
    (x.image swap f) with
    | none => (Frame.mk d e y).image swap f :: Path.image swap f c
    | some (g, b, u) => ⟨(d.flip swap).other, b, u⟩ :: g
  rw [hpop]
  cases pop d.other (⟨d, e, y⟩ :: c) x with
  | none => rfl
  | some q => simp [Frame.image]

/-- The place is below the node and reached by going to the other side. -/
theorem exists_beside (d : Side) (c : Path Entry) (e : Entry) (x y : ETree) :
    ∃ g, beside d c e x y = g ++ ⟨d, e, y⟩ :: c ∧ ∀ f ∈ g, f.side = d.other := by
  unfold beside
  cases hp : pop d.other (⟨d, e, y⟩ :: c) x with
  | none => exact ⟨[], rfl, by simp⟩
  | some q =>
    obtain ⟨g, b, u⟩ := q
    obtain ⟨g, rfl, hg⟩ := side_of_pop hp
    exact ⟨⟨d.other, b, u⟩ :: g, rfl, by simpa using hg⟩

theorem after_beside_left : after (beside .left c e l r) = e :: (r.inorder ++ after c) := by
  obtain ⟨g, hg, hside⟩ := exists_beside .left c e l r
  rw [hg, after_append, after_of_side hside]
  rfl

theorem before_beside_left : before (beside .left c e l r) = before c ++ l.inorder := by
  have hplug := congrArg inorder (plug_beside .left c e l r)
  rw [inorder_plug, inorder_plug, after_beside_left, inorder_nil, List.nil_append, join_left,
    inorder_node, List.append_assoc, List.cons_append, ← List.append_assoc (before c)] at hplug
  exact List.append_cancel_right hplug

theorem before_beside_right : before (beside .right c e r l) = before c ++ (l.inorder ++ [e]) := by
  obtain ⟨g, hg, hside⟩ := exists_beside .right c e r l
  rw [hg, before_append, before_of_side hside]
  simp [before]

theorem lastNode_spec (h : Repr s E z K (plug c t)) (ht : t ≠ nil) :
    lastNode d (treeRef t) s = .ok (labelRef (outermost d t), s) := by
  refine Ensures.eq (Holds.loop h ?_)
  have hlt := height_bound h
  revert hlt
  generalize MulleStorage.getCount E.nodes + 2 = n
  intro hlt
  induction n generalizing c t with
  | zero => omega
  | succ n ih =>
    obtain ⟨e, x, y, rfl⟩ := exists_join d ht
    rw [treeRef_join, outermost_join]
    refine .iterate_succ (.bind_eq h.getChild ?_)
    by_cases hx : x = nil
    · subst hx
      rw [if_neg (by simp)]
      exact .pure ⟨rfl, rfl⟩
    · rw [if_pos (treeRef_ne_nil hx)]
      have hsize := height_join (d := d) (e := e) (x := x) (y := y)
      refine .pure ((ih (c := ⟨d, e, y⟩ :: c) h hx (by omega)).mono fun p s' hp => ?_)
      obtain ⟨g, b, u, hpop⟩ := exists_pop d [] hx
      rw [outermost_pop hpop] at hp ⊢
      exact hp

theorem directs_directionOf (d : Side) (e : Entry) (y : ETree) (c : Path Entry) :
    Directs (directionOf d) (⟨d, e, y⟩ :: c) := by
  cases d <;> rfl

theorem insertBeside_spec (h : Repr s E z ({looseCell a} + K) (plug c (join d e x y)))
    (hb : IsRedBlack Entry.isRed (plug c (join d e x y))) (ha : a.isRed = true) :
    Ensures (insertBeside d (.slot a.slot) (.slot e.slot)) s fun _ s' => ∃ k ≤ 2,
      Repr s' (E.advanced.turnedBy k) z K (attach E.stamp a (beside d c e x y)) := by
  have hne : a.slot ≠ e.slot := fun e' => loose_notMem h (by
    rw [e', slots, inorder_plug]
    cases d <;> simp [join])
  have hplace := plug_beside d c e x y
  rw [← hplace] at hb
  have h' : Repr s E z ({looseCell a} + K) (plug (beside d c e x y) nil) := h.cast hplace.symm
  refine .bind_eq (assert_eq Ref.slot_ne_nil) (.bind_eq (assert_eq fun e => hne (Ref.slot.inj e))
    (.bind_eq (assert_eq Ref.slot_ne_nil) (.bind_eq h.getChild ?_)))
  unfold beside at h' hb ⊢
  by_cases hx : x = nil
  · subst hx
    rw [if_pos (by simp)]
    simp only [pop_nil] at h' hb ⊢
    have hattach := attachNode_spec h' hb ha (directs_directionOf d e y c)
    rwa [parentRef_cons] at hattach
  · obtain ⟨g, b, u, hpop⟩ := exists_pop d.other (⟨d, e, y⟩ :: c) hx
    have hlast := lastNode_spec (d := d.other) (c := ⟨d, e, y⟩ :: c) h hx
    rw [outermost_pop hpop, labelRef_some] at hlast
    simp only [hpop] at h' hb ⊢
    rw [if_neg (treeRef_ne_nil hx)]
    have hattach := attachNode_spec h' hb ha (directs_directionOf d.other b u g)
    rw [parentRef_cons] at hattach
    exact .bind_eq hlast hattach

theorem insertNodeBeforeNode_spec (h : Repr s E z ({looseCell a} + K) (plug c (node e l r)))
    (hb : IsRedBlack Entry.isRed (plug c (node e l r))) (ha : a.isRed = true) :
    Ensures (insertNodeBeforeNode (.slot a.slot) (.slot e.slot)) s fun _ s' => ∃ k ≤ 2,
      Repr s' (E.advanced.turnedBy k) z K (attach E.stamp a (beside .left c e l r)) :=
  insertBeside_spec (d := .left) h hb ha

theorem insertNodeAfterNode_spec (h : Repr s E z ({looseCell a} + K) (plug c (node e l r)))
    (hb : IsRedBlack Entry.isRed (plug c (node e l r))) (ha : a.isRed = true) :
    Ensures (insertNodeAfterNode (.slot a.slot) (.slot e.slot)) s fun _ s' => ∃ k ≤ 2,
      Repr s' (E.advanced.turnedBy k) z K (attach E.stamp a (beside .right c e r l)) :=
  insertBeside_spec (d := .right) h hb ha

end Base
end MulleRbtree
