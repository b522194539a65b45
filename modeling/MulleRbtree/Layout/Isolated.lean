import MulleRbtree.Layout.BlackBlack
import MulleRbtree.Layout.Consistent
import MulleRbtree.Layout.RedRed

/-!
# Rotations and fixups on their own

What the rotations and the two fixups do to any tree with consistent links, whether or not a call
could have led to it.

* `rotations_turnBack`: a rotation keeps order and colours, and the opposite one undoes it;
* `redRedFixup_repairs`: the fixup of an insertion repairs a tree with a red node below a red one;
* `blackBlackFixup_repairs`: the fixup of a removal repairs a tree that lacks a black node
  somewhere.
-/

namespace MulleRbtree

open BinaryTree Cells Program

variable {σ : Type}

/-! ### Links -/

/-- `_parent`, `_left` and `_right` of a node. -/
def linksAt (s : Base σ) (n : Ref) : Option (Ref × Ref × Ref) :=
  (s.mem n).map fun c => (c.parent, c.left, c.right)

/-- A tree has one root. -/
theorem Linked.root_unique {s s' : Base σ} {par par' m n : Ref} {t : BinaryTree Ref}
    (h : Linked s par m t) (h' : Linked s' par' n t) : m = n := by
  cases t with
  | nil => exact Eq.trans h (Eq.symm h')
  | node a l r => exact h.1.trans h'.1.symm

/-- The tree determines the links of its nodes. -/
theorem Linked.linksAt_eq {s s' : Base σ} {par m n : Ref} {t : BinaryTree Ref}
    (h : Linked s par m t) (h' : Linked s' par m t) (hn : n ∈ t.inorder) :
    linksAt s' n = linksAt s n := by
  induction t generalizing par m with
  | nil => simp at hn
  | node a l r ihl ihr =>
    obtain ⟨rfl, -, c, hc, hp, hl, hr⟩ := h
    obtain ⟨-, -, c', hc', hp', hl', hr'⟩ := h'
    have hleft := hl.root_unique hl'
    have hright := hr.root_unique hr'
    rw [← hleft] at hl'
    rw [← hright] at hr'
    rcases List.mem_append.1 hn with hn | hn
    · exact ihl hl hl' hn
    · rcases List.mem_cons.1 hn with rfl | hn
      · rw [linksAt, linksAt, hc, hc', Option.map_some, Option.map_some, hp, hp', hleft, hright]
      · exact ihr hr hr' hn

variable [MulleStorage σ] {s s' : Base σ} {E E' : Env σ} {z : Sentinel} {K : Multiset Cell}
  {T T' : ETree}

namespace Repr

/-- Beside the tree nothing changes. -/
theorem mem_beside (h : Repr s E z K T) (h' : Repr s' E' z K T')
    (hT : (slots T').Perm (slots T)) {n : Ref} (hn : ∀ i ∈ slots T, n ≠ .slot i) :
    s'.mem n = s.mem n := by
  have hnot : ∀ {U : ETree} {c : Rbnode}, (slots U).Perm (slots T) → (n, c) ∉ below .nil U := by
    intro U c hU hc
    have hkey : n ∈ (below .nil U).map Prod.fst := Multiset.mem_map_of_mem Prod.fst hc
    rw [map_fst_below, Multiset.mem_coe] at hkey
    obtain ⟨i, hi, rfl⟩ := List.mem_map.1 hkey
    exact hn i (hU.mem_iff.1 hi) rfl
  refine Option.ext fun c => ?_
  rw [(Holds.owns h).2, (Holds.owns h').2]
  simp only [Multiset.mem_add, hnot hT, hnot (List.Perm.refl _), or_false]

/-- Trees of the same nodes in the same places have the same links. -/
theorem linksAt_eq (h : Repr s E z K T) (h' : Repr s' E' z K T')
    (hT : T'.map Entry.ref = T.map Entry.ref) (n : Ref) : linksAt s' n = linksAt s n := by
  have hslots : (slots T').map Ref.slot = (slots T).map Ref.slot := by
    rw [← inorder_map_ref, ← inorder_map_ref, hT]
  have hlinked := h'.linked
  by_cases hn : ∃ i ∈ slots T, n = .slot i
  · have hroot : s'.root = s.root := by
      rw [hT] at hlinked
      exact hlinked.root_unique h.linked
    rw [hT, hroot] at hlinked
    refine h.linked.linksAt_eq hlinked ?_
    rw [inorder_map_ref]
    obtain ⟨i, hi, rfl⟩ := hn
    exact List.mem_map_of_mem hi
  · push Not at hn
    have hperm : slots T' = slots T := List.map_injective_iff.2 (fun _ _ => Ref.slot.inj) hslots
    rw [linksAt, linksAt, h.mem_beside h' (hperm ▸ List.Perm.refl _) hn]

/-- A tree of the same nodes in the same colours. -/
theorem redAt_congr (h : Repr s E z K T) (h' : Repr s' E' z K T')
    (hT : T'.inorder.map (fun e => (e.slot, e.isRed)) = T.inorder.map fun e => (e.slot, e.isRed))
    (n : Ref) : redAt s' n = redAt s n := by
  have hslots : slots T' = slots T := by
    have hfst := congrArg (List.map Prod.fst) hT
    rwa [List.map_map, List.map_map] at hfst
  by_cases hn : ∃ i ∈ slots T, n = .slot i
  · obtain ⟨i, hi, rfl⟩ := hn
    obtain ⟨e, he, rfl⟩ := List.mem_map.1 hi
    have hmem : (e.slot, e.isRed) ∈ T'.inorder.map fun e => (e.slot, e.isRed) := by
      rw [hT]
      exact List.mem_map_of_mem (f := fun e : Entry => (e.slot, e.isRed)) he
    obtain ⟨e', he', heq⟩ := List.mem_map.1 hmem
    obtain ⟨hslot, hred⟩ := Prod.mk.inj heq
    have hread := h'.redAt_eq he'
    rw [Entry.ref, hslot] at hread
    rw [hread, hred, ← h.redAt_eq he]
    rfl
  · push Not at hn
    rw [redAt, redAt, h.mem_beside h' (hslots ▸ List.Perm.refl _) hn]

end Repr

/-! ### Rotations -/

section Turn

variable {β : Type} {k : Entry → β} {o : Stamp} {c : Path Entry} {d : Side} {p t : Entry}
  {a b e : ETree}

theorem Entry.ref_touch (e : Entry) : (e.touch o).ref = e.ref := rfl
theorem Entry.ref_soil (e : Entry) : (e.soil o).ref = e.ref := rfl

theorem map_ref_turnPath (c : Path Entry) :
    List.map (Frame.map Entry.ref) (turnPath o c) = List.map (Frame.map Entry.ref) c := by
  rw [turnPath, map_mapLabels Entry.ref_soil, map_mapHead Entry.ref_touch]

/-- The root above a place with ancestors. -/
theorem topRef_turnPath (hc : c ≠ []) (i j : Ref) : topRef (turnPath o c) i = topRef c j := by
  have htop : ∀ {c c' : Path Entry}, List.map (Frame.map Entry.ref) c' =
      List.map (Frame.map Entry.ref) c → ∀ i, topRef c' i = topRef c i := by
    intro c
    induction c with
    | nil =>
      intro c' h i
      rw [List.map_eq_nil_iff.1 h]
    | cons f c ih =>
      intro c' h i
      cases c' with
      | nil => simp at h
      | cons f' c' =>
        obtain ⟨hf, hc⟩ := List.cons.inj h
        have hlabel : f'.label.ref = f.label.ref := congrArg Frame.label hf
        rw [topRef_cons, topRef_cons, ih hc]
        exact congrArg _ hlabel
  rw [htop (map_ref_turnPath c)]
  cases c with
  | nil => exact absurd rfl hc
  | cons f c => rfl

/-- A rotation keeps the order of all that stamps do not change. -/
theorem map_inorder_turn (ht : ∀ e, k (e.touch o) = k e) (hs : ∀ e, k (e.soil o) = k e) :
    (plug (turnPath o c) (turn o d p a t b e)).inorder.map k =
      (plug c (join d p a (join d t b e))).inorder.map k := by
  have hturn : ((turn o d p a t b e).map k).inorder =
      ((join d p a (join d t b e)).map k).inorder := by
    have h := inorder_rotate d (k p) (k t) (a.map k) (b.map k) (e.map k)
    rw [join_other] at h
    simpa [turn, map_mapRoot ht, hs, ht] using h
  rw [← inorder_map, ← inorder_map, map_plug, map_plug, inorder_plug, inorder_plug, hturn, turnPath,
    map_mapLabels hs, map_mapHead ht]

end Turn

/-- `rotate` at `p`, whose child is `u`, keeps the links of the tree `t` consistent, its order, its
colours and the sentinel; `back` at `u` restores all links. -/
def TurnsBack (rotate back : Ref → Base.M σ Unit) (s : Base σ) (t : BinaryTree Ref) (p u : Ref) :
    Prop :=
  ∃ s' s'' t', rotate p s = .ok ((), s') ∧ back u s' = .ok ((), s'') ∧
    Consistent s' t' ∧ t'.inorder = t.inorder ∧ (∀ n, redAt s' n = redAt s n) ∧
    s'.mem .nil = s.mem .nil ∧ (s'.root ≠ s.root ↔ p = s.root) ∧
    s''.root = s.root ∧ ∀ n, linksAt s'' n = linksAt s n

theorem rotateNode_turnsBack {t : BinaryTree Ref} (hs : Consistent s t) {d : Side} {p u : Ref}
    (hp : p ∈ t.inorder) (hu : u ≠ .nil) (hchild : Base.getChild d.other p s = .ok (u, s)) :
    TurnsBack (Base.rotateNode d) (Base.rotateNode d.other) s t p u := by
  obtain ⟨z, K, T, h, rfl⟩ := hs.repr
  rw [inorder_map] at hp
  obtain ⟨e, he, rfl⟩ := List.mem_map.1 hp
  obtain ⟨c, l, r, rfl⟩ := exists_plug_of_mem he
  obtain ⟨a, b, hjoin⟩ : ∃ a b, node e l r = join d e a b := by
    cases d with
    | left => exact ⟨l, r, rfl⟩
    | right => exact ⟨r, l, rfl⟩
  rw [hjoin] at h ⊢
  -- the child on the other side is a node
  have hfar := h.getChild_other
  rw [← Entry.ref, hchild, Except.ok.injEq, Prod.mk.injEq] at hfar
  obtain ⟨v, b, f, rfl⟩ := exists_join d (t := b) (by
    rintro rfl
    exact hu hfar.1)
  obtain rfl : u = .slot v.slot := by rw [hfar.1, treeRef_join]
  obtain ⟨_, s', hs', h₁⟩ := Base.rotateNode_spec h
  have h₁ : Repr s' s.env.turned z K (plug (turnPath s.env.stamp c) (turn s.env.stamp d e a v b f)) :=
    h₁
  have h₁' : Repr s' s.env.turned z K (plug (turnPath s.env.stamp c) (join d.other
      ((v.touch s.env.stamp).soil s.env.stamp) f (join d.other
        ((e.touch s.env.stamp).soil s.env.stamp) (b.mapRoot (Entry.touch s.env.stamp)) a))) :=
    h₁.cast (by rw [turn, join_other, join_other])
  obtain ⟨_, s'', hs'', h₂⟩ := Base.rotateNode_spec h₁'
  have hrefs : (plug (turnPath s.env.stamp (turnPath s.env.stamp c)) (turn s.env.stamp d.other
      ((v.touch s.env.stamp).soil s.env.stamp) f ((e.touch s.env.stamp).soil s.env.stamp)
        (b.mapRoot (Entry.touch s.env.stamp)) a)).map Entry.ref =
      (plug c (join d e a (join d v b f))).map Entry.ref := by
    rw [map_plug, map_plug, map_ref_turnPath, map_ref_turnPath]
    have htouch : ∀ o (u : ETree), (u.mapRoot (Entry.touch o)).map Entry.ref = u.map Entry.ref :=
      fun o u => map_mapRoot (fun e => Entry.ref_touch e) u
    simp only [turn, map_join, htouch, join_other]
    rfl
  have hroot : s''.root = s.root := by
    have hlinked := h₂.linked
    rw [Env.stamp_turned, hrefs] at hlinked
    exact hlinked.root_unique h.linked
  refine ⟨s', s'', _, hs', hs'', h₁.consistent, ?_, h.redAt_congr h₁ ?_, ?_, ?_, hroot,
    h.linksAt_eq h₂ hrefs⟩
  · rw [inorder_map, inorder_map]
    exact map_inorder_turn (fun e => rfl) fun e => rfl
  · exact map_inorder_turn (fun e => by simp) fun e => by simp
  · rw [h₁.mem_sentinel, h.mem_sentinel]
  · have hr : s.root = treeRef (plug c (join d e a (join d v b f))) := Holds.root h
    have hr' : s'.root = treeRef (plug (turnPath s.env.stamp c) (turn s.env.stamp d e a v b f)) :=
      Holds.root h₁
    have htop := h.treeRef_eq_root
    rw [treeRef_join] at htop
    rw [hr, hr', Entry.ref, htop]
    by_cases hc : c = []
    · subst hc
      have hne := Repr.treeRef_eq_top (c := []) (g := [⟨d.other, e, a⟩]) (t := join d v b f)
        (h.cast (by simp [plug_cons, Frame.fill]))
      simp only [treeRef_join, plug_cons, plug_nil, treeRef_fill, List.cons_ne_nil, iff_false] at hne
      simpa [turnPath, turn] using hne
    · rw [treeRef_plug, treeRef_plug, topRef_turnPath hc _ (treeRef (join d e a (join d v b f)))]
      simp [hc]

/-- A black root in slot 0 and below it, on the right, a node in slot 1; the sentinel is being used
for the empty place on the left. -/
def rootAndRight (k : Color) : Base SlotPool where
  root := .slot 0
  nodes := ⟨{0, 1}, sizeofRbnode⟩
  options := 0x4#32
  mem
    | .nil => some (Base.nilNode (.slot 0) 0)
    | .slot 0 => some ⟨.nil, .nil, .slot 1, Color.black, null, [], 0⟩
    | .slot 1 => some ⟨.slot 0, .nil, .nil, k, null, [], 0⟩
    | .slot _ => none
  trace := []
  repaints := []
  rotations := 0
  epoch := 0

theorem consistent_rootAndRight (k : Color) :
    Consistent (rootAndRight k) (node (.slot 0) nil (node (.slot 1) nil nil)) := by
  refine ⟨⟨rfl, nofun, _, rfl, rfl, rfl, rfl, nofun, _, rfl, rfl, rfl, rfl⟩, by simp,
    ⟨_, _, rfl⟩, fun i => ?_⟩
  rw [show MulleStorage.live (rootAndRight k).nodes = {0, 1} from rfl]
  match i with
  | 0 => simp [rootAndRight]
  | 1 => simp [rootAndRight]
  | i + 2 => simp [rootAndRight]

/-- Left and right rotations undo each other, and keep everything but the links they turn. -/
theorem rotations_turnBack {t : BinaryTree Ref} (hs : Consistent s t) {p u : Ref}
    (hp : p ∈ t.inorder) (hu : u ≠ .nil) :
    (Base.getRight p s = .ok (u, s) →
      TurnsBack Base.leftRotateNode Base.rightRotateNode s t p u) ∧
    (Base.getLeft p s = .ok (u, s) →
      TurnsBack Base.rightRotateNode Base.leftRotateNode s t p u) :=
  ⟨rotateNode_turnsBack (d := .left) hs hp hu, rotateNode_turnsBack (d := .right) hs hp hu⟩

theorem rotations_turnBack_pair : TurnsBack Base.leftRotateNode Base.rightRotateNode
    (rootAndRight .red) (node (.slot 0) nil (node (.slot 1) nil nil)) (.slot 0) (.slot 1) :=
  (rotations_turnBack (p := .slot 0) (u := .slot 1) (consistent_rootAndRight .red) (by simp)
    nofun).1 rfl

/-! ### Places and colours -/

namespace Repr

variable {C : Path Entry} {X : ETree} {n : ℕ}

theorem balanced_at (h : Repr s E z K (plug C X)) :
    Balanced (redAt s) (X.map Entry.ref) n ↔ Balanced Entry.isRed X n :=
  balanced_map fun _ he => h.redAt_eq (mem_inorder_plug.2 (.inr (.inl he)))

theorem hole_at (h : Repr s E z K (plug C X)) :
    Hole (redAt s) (List.map (Frame.map Entry.ref) C) n ↔ Hole Entry.isRed C n := by
  have hred : Everywhere (fun e : Entry => redAt s e.ref = e.isRed) (plug C X) :=
    fun _ he => h.redAt_eq he
  exact hole_map_of_mem (everywhere_plug.1 hred).2

theorem isRedBlack_at (h : Repr s E z K T) :
    IsRedBlack (redAt s) (T.map Entry.ref) ↔ IsRedBlack Entry.isRed T :=
  isRedBlack_map fun _ he => h.redAt_eq he

theorem hasBlackHeight_at (h : Repr s E z K T) :
    HasBlackHeight (redAt s) (T.map Entry.ref) n ↔ HasBlackHeight Entry.isRed T n :=
  hasBlackHeight_map fun _ he => h.redAt_eq he

end Repr

/-! ### The fixup of an insertion -/

namespace Base

/-- `x->_parent->_parent`, which must not be the sentinel. -/
def checkedGrandparent (x : Ref) : M σ Ref := do
  let g ← getParent (← getParent x)
  assert (g ≠ .nil)
  return g

omit [MulleStorage σ] in
theorem checkedGrandparent_restricts (x : Ref) :
    Restricts (checkedGrandparent x : M σ Ref) (grandparent x) := by
  refine .bind (.refl _) fun p => ?_
  have hcheck : Restricts (do
      let g ← getParent p
      assert (g ≠ .nil)
      return g : M σ Ref) (getParent p >>= pure) :=
    .bind (.refl _) fun g => .observe (.ite (fun _ => .pure _) fun _ => .throw _) fun _ => .refl _
  rwa [bind_pure] at hcheck

theorem finds_checkedGrandparent : Finds (checkedGrandparent : Ref → M σ Ref) := by
  intro s E z K f g c x h hx
  have hg := getParent_head (c := c) (f := g) (x := f.fill x) h (by simp)
  rw [treeRef_fill] at hg
  exact (bind_eq (getParent_head h hx)).trans ((bind_eq hg).trans (bind_eq (assert_eq nofun)))

end Base

/-- The tree `t` is red-black except that its red node `x` may hang below a red node or be the
root. -/
def RedBlackAbove (s : Base σ) (t : BinaryTree Ref) (x : Ref) : Prop :=
  ∃ c l r n, t = plug c (node x l r) ∧ redAt s x = true ∧ Balanced (redAt s) (node x l r) n ∧
    Awaits (redAt s) c n

/-- The fixup of an insertion repairs any such tree. -/
theorem redRedFixup_repairs {t : BinaryTree Ref} (hs : Consistent s t) {x : Ref}
    (hx : RedBlackAbove s t x) : ∃ s' t' k n, k ≤ 2 ∧
      Base.redRedFixup x s = .ok ((), s') ∧
      Base.redRedFixupWith Base.checkedGrandparent x s = .ok ((), s') ∧
      s'.rotations = s.rotations + k ∧ Consistent s' t' ∧ t'.inorder = t.inorder ∧
      HasBlackHeight (redAt s) t n ∧
      (HasBlackHeight (redAt s') t' n ∨ HasBlackHeight (redAt s') t' (n + 1)) ∧
      IsRedBlack (redAt s') t' := by
  obtain ⟨c, l, r, n, rfl, hred, hb, hc⟩ := hx
  obtain ⟨z, K, T, h, hT⟩ := hs.repr
  obtain ⟨C, X, rfl, rfl, hX⟩ := exists_plug_of_map hT
  rw [← hX, h.balanced_at] at hb
  replace hc := h.hole_at.1 hc.hole
  have hne : X ≠ nil := by
    rintro rfl
    cases hX
  have hxr : treeRef X = x ∧ rootHas Entry.isRed X = true := by
    cases X with
    | nil => exact absurd rfl hne
    | node e a b =>
      obtain ⟨rfl, -, -⟩ := BinaryTree.node.inj hX
      rw [h.redAt_eq (mem_inorder_plug.2 (.inr (.inl (by simp))))] at hred
      exact ⟨rfl, hred⟩
  obtain ⟨rfl, hxr⟩ := hxr
  obtain ⟨m, hm⟩ := hc.hasBlackHeight hb.hasBlackHeight
  obtain ⟨_, s', hs', k, hk, h'⟩ :=
    Base.redRedFixupWith_spec Base.finds_checkedGrandparent h hne hc
  refine ⟨s', _, k, m, hk, ?_, hs', ?_, h'.consistent, ?_, ?_, ?_, ?_⟩
  · exact (Base.redRedFixupWith_restricts Base.checkedGrandparent_restricts _).eq_of_ok hs'
  · exact congrArg Env.rotations (Holds.env h')
  · rw [← hT, inorder_map_ref, inorder_map_ref, slots_eq, slots_eq, items_fixRedRed]
  · rw [← hT]
    exact h.hasBlackHeight_at.2 hm
  · rw [h'.hasBlackHeight_at, h'.hasBlackHeight_at]
    exact hasBlackHeight_fixRedRed hc hxr hm
  · exact h'.isRedBlack_at.2 (fixRedRed_isRedBlack hc hb hxr)

theorem redRedFixup_repairs_pair : ∃ s' t' k n, k ≤ 2 ∧
    Base.redRedFixup (.slot 1) (rootAndRight Color.red) = .ok ((), s') ∧
    Base.redRedFixupWith Base.checkedGrandparent (.slot 1) (rootAndRight Color.red) =
      .ok ((), s') ∧
    s'.rotations = (rootAndRight Color.red).rotations + k ∧ Consistent s' t' ∧
    t'.inorder = (node (Ref.slot 0) nil (node (.slot 1) nil nil)).inorder ∧
    HasBlackHeight (redAt (rootAndRight Color.red)) (node (.slot 0) nil (node (.slot 1) nil nil)) n ∧
    (HasBlackHeight (redAt s') t' n ∨ HasBlackHeight (redAt s') t' (n + 1)) ∧
    IsRedBlack (redAt s') t' := by
  refine redRedFixup_repairs (consistent_rootAndRight _) ⟨[⟨.right, .slot 0, nil⟩], nil, nil, 0, rfl,
    rfl, ?_, nil, rfl, rfl, rfl, 1, ?_⟩
  · exact (balanced_red (d := .left) rfl).2 ⟨rfl, rfl, rfl, rfl⟩
  · exact (balanced_black (d := .left) rfl).2 ⟨0, rfl, rfl, rfl⟩

/-! ### The fixup of a removal -/

namespace Base

theorem blackBlackFixup_restricts (x : Ref) :
    Restricts (blackBlackFixup x : M σ Unit) (blackBlackFixupNdebug x) := by
  unfold blackBlackFixup blackBlackFixupNdebug whileLoop loop
  refine .bind (.bind (.refl _) fun k => Restricts.iterate (fun x => ?_) _ x) fun _ => .refl _
  refine .bind (.refl _) fun b => .ite (.bind ?_ fun _ => .refl _) (.refl _)
  refine .bind (.refl _) fun p => .bind (.refl _) fun l => .bind (.refl _) fun r => ?_
  exact .observe guarantees_assertDirtyFlagPropagation fun _ =>
    .observe guarantees_assertDirtyFlagPropagation fun _ => .refl _

end Base

/-- `x` is the root of the subtree at the end of the path `c`; where the subtree is empty, `x` is
the sentinel and its `_parent` says so. -/
def StandsAt (s : Base σ) (x : Ref) (c : Path Ref) : BinaryTree Ref → Prop
  | nil => x = .nil ∧
      (s.mem .nil).map Rbnode.parent = some ((c.head?.map Frame.label).getD .nil)
  | node n _ _ => x = n

/-- The tree `t` would be red-black if `x` counted for one black node more. -/
def RedBlackShort (s : Base σ) (t : BinaryTree Ref) (x : Ref) : Prop :=
  ∃ c u n, t = plug c u ∧ StandsAt s x c u ∧ Awaits (redAt s) c n ∧ CountsMore (redAt s) u n

/-- The dirty flags are in order: the parent of a dirty node is dirty, and no node is where they
are not used. -/
def FlagsInOrder (s : Base σ) (t : BinaryTree Ref) : Prop :=
  Locally (fun a u v => dirtyAt s a = true ∨
    (∀ b ∈ u, dirtyAt s b = false) ∧ ∀ b ∈ v, dirtyAt s b = false) t ∧
  (Options.useDirty s.options = false → ∀ n ∈ t.inorder, dirtyAt s n = false)

theorem Repr.dirt_of_flagsInOrder (h : Repr s s.env z K T) (hf : FlagsInOrder s (T.map Entry.ref)) :
    Dirt s.options T := by
  obtain ⟨hup, hoff⟩ := hf
  refine ⟨fun _ => ((locally_map _ _).1 hup).mono_on fun e he u v hu hv hR => ?_, fun e he ho => ?_⟩
  · rw [h.dirtyAt_eq he] at hR
    exact hR.imp id fun ⟨hl, hr⟩ =>
      ⟨fun b hb => (h.dirtyAt_eq (hu b hb)).symm.trans (hl _ (Option.mem_map_of_mem _ hb)),
        fun b hb => (h.dirtyAt_eq (hv b hb)).symm.trans (hr _ (Option.mem_map_of_mem _ hb))⟩
  · refine (h.dirtyAt_eq he).symm.trans (hoff ho _ ?_)
    rw [inorder_map]
    exact List.mem_map_of_mem he

/-- The fixup of a removal repairs any such tree; with assertions it does the same if the dirty
flags are in order. -/
theorem blackBlackFixup_repairs {t : BinaryTree Ref} (hs : Consistent s t) {x : Ref}
    (hx : RedBlackShort s t x) : ∃ s' t' k, k ≤ 3 ∧
      Base.blackBlackFixupNdebug x s = .ok ((), s') ∧
      (FlagsInOrder s t → Base.blackBlackFixup x s = .ok ((), s')) ∧
      s'.rotations = s.rotations + k ∧ Consistent s' t' ∧ t'.inorder = t.inorder ∧
      IsRedBlack (redAt s') t' := by
  obtain ⟨c, u, n, rfl, hat, hc, hu⟩ := hx
  obtain ⟨z, K, T, h, hT⟩ := hs.repr
  obtain ⟨C, X, rfl, rfl, rfl⟩ := exists_plug_of_map hT
  obtain ⟨hxr, hz⟩ : treeRef X = x ∧ (X = nil → z.parent = parentRef C) := by
    cases X with
    | nil =>
      obtain ⟨rfl, hp⟩ := hat
      rw [h.mem_sentinel, Option.map_some, Option.some.injEq] at hp
      refine ⟨rfl, fun _ => hp.trans ?_⟩
      cases C <;> rfl
    | node e l r => exact ⟨hat.symm, nofun⟩
  subst hxr
  have hmore : CountsMore Entry.isRed X n :=
    (countsMore_map fun _ he => h.redAt_eq (mem_inorder_plug.2 (.inr (.inl he)))).1 hu
  obtain ⟨m, hdef⟩ := deficit_of_countsMore (h.hole_at.1 hc.hole) hmore
  obtain ⟨_, s', hs', k, hk, h'⟩ := Base.blackBlackFixupNdebug_spec h hz hdef
  refine ⟨s', _, k, hk, hs', fun hf => ?_, congrArg Env.rotations (Holds.env h'), h'.consistent,
    ?_, h'.isRedBlack_at.2 (fixBlackBlack_isRedBlack hdef)⟩
  · obtain ⟨_, s'', hs'', -⟩ := Base.blackBlackFixup_spec h hz hdef (h.dirt_of_flagsInOrder (hT ▸ hf))
    have hsame := (Base.blackBlackFixup_restricts _).eq_of_ok hs''
    rw [hs', Except.ok.injEq] at hsame
    rw [hs'', hsame]
  · rw [← hT, inorder_map_ref, inorder_map_ref, slots_eq, slots_eq, items_fixBlackBlack]

theorem blackBlackFixup_repairs_pair : ∃ s' t' k, k ≤ 3 ∧
    Base.blackBlackFixupNdebug .nil (rootAndRight Color.black) = .ok ((), s') ∧
    (FlagsInOrder (rootAndRight Color.black) (node (.slot 0) nil (node (.slot 1) nil nil)) →
      Base.blackBlackFixup .nil (rootAndRight Color.black) = .ok ((), s')) ∧
    s'.rotations = (rootAndRight Color.black).rotations + k ∧ Consistent s' t' ∧
    t'.inorder = (node (Ref.slot 0) nil (node (.slot 1) nil nil)).inorder ∧
    IsRedBlack (redAt s') t' := by
  have hleaf : Balanced (redAt (rootAndRight Color.black)) (node (.slot 1) nil nil) 1 :=
    (balanced_black (d := .left) rfl).2 ⟨0, rfl, rfl, rfl⟩
  refine blackBlackFixup_repairs (consistent_rootAndRight _)
    ⟨[⟨.left, .slot 0, node (.slot 1) nil nil⟩],
    nil, 1, rfl, ⟨rfl, rfl⟩, ⟨node (.slot 1) nil nil, rfl, hleaf, rfl, 2, ?_⟩, rfl⟩
  exact (balanced_black (d := .left) rfl).2 ⟨1, rfl, hleaf, hleaf⟩

end MulleRbtree
