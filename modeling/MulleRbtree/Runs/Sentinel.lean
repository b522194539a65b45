import MulleRbtree.Runs.Determined
import MulleRbtree.Runs.Mirror

/-!
# The stale parent of the sentinel

`_mulle__rbtree_remove_node` leaves a pointer in `_nil._parent`, maybe to the node it has freed.

* `Base.tellNil p k`: the same tree, with `p` written to `_nil._parent` in the epoch `k`;
* `exec_same`: whatever is written there, every call returns the same and leaves trees behind that
  are the same but for `_nil._parent`;
* `checkedParent`: a read of a parent with a check that, at the sentinel, it reads what was written
  in the same call and that this is the parent of the empty place;
* `blackBlackFixup_checked`: the fixup of a removal passes all checks;
* `sentinel_of_run`: this is so in every tree that any calls have led to.
-/

namespace MulleRbtree

open BinaryTree Cells Program

variable {σ : Type}

/-! ### Reads that are checked -/

namespace Base

/-- `n->_parent`.  The sentinel is to be asked only if the place `(p, d)` is being fixed; then what
is read has been written in the same call, `p` is what is read, and its `d` child is missing. -/
def checkedParent (place : Option (Ref × Side)) (n : Ref) : M σ Ref := do
  let node ← deref n
  if n = .nil then
    match place with
    | none => throw .assertion
    | some (p, d) => do
      assert (node.relinked = (← read Base.epoch))
      assert (node.parent = p)
      assert ((← getChild d p) = .nil)
      return node.parent
  else return node.parent

variable {place : Option (Ref × Side)} {n : Ref}

theorem checkedParent_of_ne (hn : n ≠ .nil) :
    (checkedParent place n : M σ Ref) = getParent n := by
  unfold checkedParent getParent
  simp only [if_neg hn]

theorem guarantees_getChild {d : Side} : Guarantees Eq (getChild d n : M σ Ref) :=
  guarantees_deref.bind fun _ => .pure _

theorem checkedParent_restricts : Restricts (checkedParent place n : M σ Ref) (getParent n) := by
  by_cases hn : n = .nil
  · subst hn
    unfold checkedParent getParent
    refine (Restricts.refl _).bind fun node => ?_
    rw [if_pos rfl]
    cases place with
    | none => exact .throw _ _
    | some q =>
      refine .observe guarantees_read fun k => .observe guarantees_assert fun _ =>
        .observe guarantees_assert fun _ => .observe guarantees_getChild fun c =>
          .observe guarantees_assert fun _ => .refl _
  · rw [checkedParent_of_ne hn]
    exact .refl _

end Base

/-! ### Another parent for the sentinel -/

namespace Base

/-- The same tree, with `p` written to `_nil._parent` in the epoch `k`. -/
def tellNil (p : Ref) (k : ℕ) (s : Base σ) : Base σ :=
  { s with
    mem := Function.update s.mem .nil
      ((s.mem .nil).map fun node => { node with parent := p, relinked := k }) }

/-- The same tree but for `_nil._parent`. -/
structure SameButNil (s t : Base σ) : Prop where
  root : s.root = t.root
  nodes : s.nodes = t.nodes
  options : s.options = t.options
  trace : s.trace = t.trace
  epoch : s.epoch = t.epoch
  mem : ∀ n, n ≠ .nil → s.mem n = t.mem n
  nil : ∃ p k q j, s.mem .nil = some (nilNode p k) ∧ t.mem .nil = some (nilNode q j)

end Base

/-- The value of a node, read off the memory. -/
theorem valueAt_slot (s : Base σ) (i : ℕ) : valueAt s (.slot i) =
    (s.mem (.slot i)).elim null fun c =>
      if Options.useExtra s.options then ⟨.area i, c.extra⟩ else c.payload := by
  have hread : Base.getNodeValue (.slot i) s = if Options.useExtra s.options then
      Base.getExtra (.slot i) s else Base.getPayload (.slot i) s := by
    rw [Base.getNodeValue, if_neg Ref.slot_ne_nil]
    show (if Options.useExtra s.options then Base.getExtra (.slot i)
      else Base.getPayload (.slot i) : Base.M σ VoidPtr) s = _
    split_ifs <;> rfl
  unfold valueAt
  rw [hread]
  unfold Base.getExtra Base.getPayload Base.deref
  cases hc : s.mem (.slot i) with
  | none =>
    split_ifs
    all_goals
      simp only [bind, StateT.bind, hc]
      rfl
  | some c =>
    rw [Option.elim_some]
    split_ifs
    all_goals
      simp only [bind, StateT.bind, hc]
      rfl

/-- It depends on the node's own cell and the options. -/
theorem valueAt_congr {s t : Base σ} {i : ℕ} (hmem : s.mem (.slot i) = t.mem (.slot i))
    (hoptions : s.options = t.options) : valueAt s (.slot i) = valueAt t (.slot i) := by
  rw [valueAt_slot, valueAt_slot, hmem, hoptions]

theorem valueAt_tellNil {s : Base σ} {p : Ref} {k : ℕ} : valueAt (s.tellNil p k) = valueAt s := by
  funext n
  cases n with
  | nil => rfl
  | slot i =>
    have hne : Ref.slot i ≠ .nil := by simp
    have hmem : Function.update s.mem .nil ((s.mem .nil).map fun c =>
        { c with parent := p, relinked := k }) (.slot i) = s.mem (.slot i) :=
      Function.update_of_ne hne _ _
    exact valueAt_congr hmem rfl

variable [MulleStorage σ]

theorem Repr.tellNil {s : Base σ} {E : Env σ} {z : Sentinel} {K : Multiset Cell} {T : ETree}
    (h : Repr s E z K T) (p : Ref) (k : ℕ) : Repr (s.tellNil p k) E ⟨p, k⟩ K T := by
  obtain ⟨henv, hroot, howns, hlive⟩ : Holds s E (treeRef T) _ := h
  have hnil : s.mem .nil = some (Base.nilNode z.parent z.relinked) := howns.read mem_front
  refine ⟨henv, hroot, ?_, fun i => ?_⟩
  · have hwrite := howns.write (Base.nilNode p k)
    change Owns (Function.update s.mem .nil _) _
    rw [hnil]
    exact hwrite
  · rw [hlive]
    simp [Sentinel.cell]

theorem Shows.tellNil {s : Base σ} {m : Image σ} (h : Shows s m) (p : Ref) (k : ℕ) :
    Shows (s.tellNil p k) m := by
  obtain ⟨z, h⟩ := h
  exact ⟨_, h.tellNil p k⟩

/-- What a memory shows leaves open what is written to the sentinel, and nothing else. -/
theorem Shows.sameButNil {s t : Base σ} {m m' : Image σ} (h : Shows s m) (h' : Shows t m')
    (hm : m.still = m'.still) : Base.SameButNil s t := by
  obtain ⟨⟨nodes, options, trace, k, epoch⟩, F, T⟩ := m
  obtain ⟨⟨nodes', options', trace', k', epoch'⟩, F', T'⟩ := m'
  obtain ⟨z, h⟩ := h
  obtain ⟨z', h'⟩ := h'
  obtain ⟨he, rfl, rfl⟩ := Image.mk.inj hm
  obtain ⟨rfl, rfl, rfl, -, rfl⟩ := Env.mk.inj he
  exact
    { root := (Holds.root h).trans (Holds.root h').symm
      nodes := (Holds.nodes_eq h).trans (Holds.nodes_eq h').symm
      options := (Holds.options_eq h).trans (Holds.options_eq h').symm
      trace := (Holds.trace_eq h).trans (Holds.trace_eq h').symm
      epoch := (Holds.epoch_eq h).trans (Holds.epoch_eq h').symm
      mem := fun n hn => (Holds.owns h).agree (Holds.owns h') hn
      nil := ⟨_, _, _, _, (Holds.owns h).read mem_front, (Holds.owns h').read mem_front⟩ }

/-! ### Calls do not see it -/

section Pre

variable {s t : Base σ} {m : Image σ} {n : Ref}

theorem Shows.attached_iff (h : Shows s m) (h' : Shows t m) : Attached s n ↔ Attached t n := by
  obtain ⟨z, h⟩ := h
  obtain ⟨z', h'⟩ := h'
  rw [Repr.attached_iff h, Repr.attached_iff h']

theorem Shows.unattached_iff (h : Shows s m) (h' : Shows t m) :
    Unattached s n ↔ Unattached t n := by
  obtain ⟨z, h⟩ := h
  obtain ⟨z', h'⟩ := h'
  rw [Repr.unattached_iff h, Repr.unattached_iff h']

/-- Preconditions are about what the memory shows. -/
theorem Shows.pre (h : Shows s m) (h' : Shows t m) {cb : Callbacks} {c : Call ⊕ Op}
    (hp : (everything σ cb).Pre c s) : (everything σ cb).Pre c t := by
  have ha : ∀ {n}, Attached s n → Attached t n := (h.attached_iff h').1
  have hu : ∀ {n}, Unattached s n → Unattached t n := (h.unattached_iff h').1
  cases c with
  | inl c =>
    cases c with
    | freeNode n => exact hu hp
    | insertNode n comp => exact hu hp
    | insertNodeBeforeNode n successor => exact ⟨hu hp.1, ha hp.2⟩
    | insertNodeAfterNode n predecessor => exact ⟨hu hp.1, ha hp.2⟩
    | removeNode n => exact ha hp
    | markNodeAsDirty n =>
      refine ⟨ha hp.1, ?_⟩
      obtain ⟨z, h⟩ := h
      obtain ⟨z', h'⟩ := h'
      rw [Holds.options_eq h', ← Holds.options_eq h]
      exact hp.2
    | nextNode n => exact ha hp
    | previousNode n => exact ha hp
    | _ => exact hp
  | inr op =>
    cases op with
    | removeNode n => exact ha hp
    | _ => exact hp

end Pre

/-- Calls that start with the same image return the same and end with the same image. -/
theorem exec_same {s t : Base σ} {m : Image σ} (hs : Represents s m) (ht : Shows t m)
    {cb : Callbacks} {c : Call ⊕ Op} (hp : (everything σ cb).Pre c s) : ∃ r s' t',
      (everything σ cb).exec c s = .ok (r, s') ∧ (everything σ cb).exec c t = .ok (r, t') ∧
        Base.SameButNil s' t' := by
  have hp' := hs.1.pre ht hp
  have hd := hs.1.distinct
  cases c with
  | inl c =>
    obtain ⟨r, s', he, m₁, h₁, hs'⟩ : Ensures c.exec s _ := exec_evolves hs.1 hs.2 hp
    obtain ⟨r', t', he', m₂, h₂, ht'⟩ : Ensures c.exec t _ := exec_evolves ht hs.2 hp'
    obtain ⟨rfl, hm⟩ := Evolves.determined hd h₁ h₂
    refine ⟨.inl r, s', t', ?_, ?_, hs'.sameButNil ht' hm⟩
    all_goals
      change (Sum.inl <$> c.exec) _ = _
      rw [← bind_pure_comp]
    · exact bind_eq he
    · exact bind_eq he'
  | inr op =>
    obtain ⟨r, s', he, m₁, h₁, hs'⟩ : Ensures (op.exec cb) s _ := exec_performs hs.1 hs.2 hp
    obtain ⟨r', t', he', m₂, h₂, ht'⟩ : Ensures (op.exec cb) t _ := exec_performs ht hs.2 hp'
    obtain ⟨rfl, hm⟩ := Performs.determined hd h₁ h₂
    refine ⟨.inr r, s', t', ?_, ?_, hs'.sameButNil ht' hm⟩
    all_goals
      change (Sum.inr <$> op.exec cb) _ = _
      rw [← bind_pure_comp]
    · exact bind_eq he
    · exact bind_eq he'

/-! ### The empty place -/

/-- Removing `n` empties the place at the side `d` of `p`. -/
inductive Vacates (s : Base σ) (n : Ref) : Ref → Side → Prop
  /-- A node with a free side leaves its own place. -/
  | self {p : Ref} {d d' : Side} (hfree : Base.getChild d' n s = .ok (.nil, s))
      (hplace : Base.getChild d p s = .ok (n, s)) : Vacates s n p d
  /-- The successor of any other node leaves its place. -/
  | successor {y q : Ref} {d : Side} (hfull : ∀ d', Base.getChild d' n s ≠ .ok (.nil, s))
      (hnext : Base.nextNode n s = .ok (y, s)) (hright : Base.getRight n s ≠ .ok (y, s))
      (hplace : Base.getChild d q s = .ok (y, s)) : Vacates s n q d
  /-- If that is the right child, it takes the empty place along. -/
  | child {y : Ref} (hfull : ∀ d', Base.getChild d' n s ≠ .ok (.nil, s))
      (hnext : Base.nextNode n s = .ok (y, s)) (hright : Base.getRight n s = .ok (y, s)) :
      Vacates s n y .right

/-- The parent and the side of the place at the end of a path, unless that is the root. -/
def placeOf : Path Entry → Option (Ref × Side)
  | [] => none
  | f :: _ => some (.slot f.label.slot, f.side)

@[simp] theorem placeOf_nil : placeOf [] = none := rfl
@[simp] theorem placeOf_cons (f : Frame Entry) (c : Path Entry) :
    placeOf (f :: c) = some (.slot f.label.slot, f.side) := rfl

@[simp] theorem placeOf_mapLabels {g : Entry → Entry} (hg : ∀ e, (g e).slot = e.slot)
    (c : Path Entry) : placeOf (Path.mapLabels g c) = placeOf c := by
  cases c with
  | nil => rfl
  | cons f c => simp [Frame.mapLabel, hg]

theorem placeOf_mapHead {g : Entry → Entry} (hg : ∀ e, (g e).slot = e.slot) (c : Path Entry) :
    placeOf (Path.mapHead g c) = placeOf c := by
  cases c with
  | nil => rfl
  | cons f c => simp [Frame.mapLabel, hg]

theorem placeOf_mapLast {g : Entry → Entry} (hg : ∀ e, (g e).slot = e.slot) (c : Path Entry) :
    placeOf (Path.mapLast g c) = placeOf c := by
  cases c with
  | nil => rfl
  | cons f c =>
    cases c with
    | nil => simp [Path.mapLast, Frame.mapLabel, hg]
    | cons f' c => rfl

/-- Marks do not change which node comes next. -/
theorem pop_mark {o : Stamp} {r x : ETree} {g : Path Entry} {y : Entry}
    (h : pop .left [] (r.mapRoot (Entry.mark o)) = some (g, y, x)) : ∃ g' y' x',
      pop .left [] r = some (g', y', x') ∧ y'.slot = y.slot ∧ placeOf g' = placeOf g := by
  have hr : r ≠ nil := by
    rintro rfl
    simp at h
  obtain ⟨g', y', x', h'⟩ := exists_pop .left [] hr
  rw [pop_mapRoot _ h', Option.some.injEq, Prod.mk.injEq, Prod.mk.injEq] at h
  obtain ⟨rfl, rfl, rfl⟩ := h
  refine ⟨g', y', x', h', ?_, (placeOf_mapLast (Entry.mark_slot o) g').symm⟩
  split_ifs
  · rfl
  · rfl

section Vacated

variable {s : Base σ} {E : Env σ} {z : Sentinel} {K : Multiset Cell} {c : Path Entry} {a : Entry}
  {l r : ETree}

theorem Repr.vacates_self (h : Repr s E z K (plug c (node a l r))) {d : Side}
    (hfree : Base.getChild d (.slot a.slot) s = .ok (.nil, s)) :
    ∀ q ∈ placeOf c, Vacates s (.slot a.slot) q.1 q.2 := by
  intro q hq
  cases c with
  | nil => cases hq
  | cons f c =>
    cases hq
    refine .self hfree ?_
    have hplace := h.headChild f.side
    rwa [if_pos rfl] at hplace

/-- The successor leaves its own place, or takes it along as the right child. -/
theorem Repr.vacates_successor (h : Repr s E z K (plug c (node a l r))) (hl : l ≠ nil)
    {g : Path Entry} {y : Entry} {x : ETree} (hpop : pop .left [] r = some (g, y, x)) :
    (g = [] → Vacates s (.slot a.slot) (.slot y.slot) .right) ∧
      ∀ q ∈ placeOf g, Vacates s (.slot a.slot) q.1 q.2 := by
  have hr : r ≠ nil := by
    rintro rfl
    simp at hpop
  have hleft : Base.getChild .left (.slot a.slot) s = .ok (treeRef l, s) :=
    Repr.getChild (d := .left) h
  have hright : Base.getChild .right (.slot a.slot) s = .ok (treeRef r, s) :=
    Repr.getChild_other (d := .left) h
  have hfull : ∀ d', Base.getChild d' (.slot a.slot) s ≠ .ok (.nil, s) := by
    intro d' hfree
    cases d' with
    | left =>
      rw [hleft, Except.ok.injEq, Prod.mk.injEq, treeRef_eq_nil] at hfree
      exact hl hfree.1
    | right =>
      rw [hright, Except.ok.injEq, Prod.mk.injEq, treeRef_eq_nil] at hfree
      exact hr hfree.1
  have hnext : Base.nextNode (.slot a.slot) s = .ok (.slot y.slot, s) := by
    have hstep := Base.stepNode_spec (d := .right) (x := r) (y := l) h
    rw [Side.other_right, outermost_pop hpop] at hstep
    exact hstep
  have hplug : plug g (join .right y x nil) = r := plug_pop hpop
  have hfocus : Repr s E z K (plug (g ++ ⟨.right, a, l⟩ :: c) (join .right y x nil)) :=
    h.cast (plug_successor hpop).symm
  have htop : Repr s E z K (plug (⟨.right, a, l⟩ :: c) (plug g (join .right y x nil))) :=
    hfocus.cast (plug_append _ _ _)
  have hiff : Ref.slot y.slot = treeRef r ↔ g = [] := by
    rw [← htop.treeRef_eq_top, treeRef_join, hplug]
  constructor
  · intro hg
    refine .child hfull hnext ?_
    rw [Base.getRight_eq, hright, ← hiff.2 hg]
  · cases g with
    | nil =>
      intro q hq
      cases hq
    | cons f g =>
      rintro _ ⟨⟩
      refine .successor hfull hnext ?_ ?_
      · rw [Base.getRight_eq, hright]
        intro heq
        rw [Except.ok.injEq, Prod.mk.injEq] at heq
        exact absurd (hiff.1 heq.1.symm) (List.cons_ne_nil _ _)
      · have hplace := hfocus.headChild f.side
        rwa [if_pos rfl, treeRef_join] at hplace

theorem Repr.vacates (h : Repr s E z K (plug c (node a l r))) (o : Stamp) :
    ∀ q ∈ placeOf (unlink o c a l r).1, Vacates s (.slot a.slot) q.1 q.2 := by
  obtain ⟨rfl, e⟩ | ⟨-, rfl, e⟩ | ⟨hl, g, y, x, hpop, e⟩ := unlink_cases o c a l r
  · rw [e, placeOf_mapLabels (Entry.soil_slot o), placeOf_mapHead (Entry.touch_slot o)]
    exact h.vacates_self (Repr.getChild (d := .left) h)
  · rw [e, placeOf_mapLabels (Entry.soil_slot o), placeOf_mapHead (Entry.touch_slot o)]
    exact h.vacates_self (Repr.getChild_other (d := .left) h)
  · obtain ⟨g', y', x', hpop', hy, hg⟩ := pop_mark hpop
    obtain ⟨hchild, hplace⟩ := h.vacates_successor hl hpop'
    rw [e, placeOf_mapLabels (Entry.soil_slot o)]
    cases g with
    | nil =>
      -- the successor is the right child
      have hg' : g' = [] := by
        cases g' with
        | nil => rfl
        | cons => cases hg
      rintro _ ⟨⟩
      have hvacates := hchild hg'
      rwa [hy] at hvacates
    | cons f g =>
      have hhead : placeOf (Path.mapLast (Entry.touch o) (Path.mapHead (Entry.touch o) (f :: g)) ++
          ⟨.right, promote o a y, l.mapRoot (Entry.touch o)⟩ :: Path.mapHead (Entry.touch o) c) =
          placeOf g' := by
        rw [hg]
        cases g <;> rfl
      rw [hhead]
      exact hplace

end Vacated

/-! ### The fixup of a removal -/

namespace Base

/-- The empty place passes the checks. -/
theorem tells_checkedParent {epoch i : ℕ} {d : Side} :
    Tells (checkedParent (some (.slot i, d)) : Ref → M σ Ref) ⟨.slot i, epoch⟩ epoch i d nil := by
  intro s E K f c h hi hd hE
  subst hi hd hE
  obtain ⟨H, hH, hn⟩ := h.mem_nil
  have hchild := h.headChild f.side
  rw [if_pos rfl, treeRef_nil] at hchild
  rw [treeRef_nil, checkedParent, bind_eq (hH.deref hn), if_pos rfl]
  exact (bind_eq hH.readEpoch).trans ((bind_eq (assert_eq rfl)).trans ((bind_eq (assert_eq rfl)).trans
    ((bind_eq hchild).trans (bind_eq (assert_eq rfl)))))

/-- The fixup that a removal enters reads the parent of the sentinel only if the place that it fixes
is empty; every such read is of what the removal itself has written, and that is the parent of the
place. -/
theorem blackBlackFixup_checked {s t u : Base σ} {m : Image σ} (hs : Represents s m)
    (ht : Shows t m) {x : Ref} (hn : Attached s n) (hu : EntersFixup t n x u) :
    u.epoch = t.epoch + 1 ∧ ∃ place s', (∀ q ∈ place, x = .nil ∧ Vacates s n q.1 q.2) ∧
      blackBlackFixup x u = .ok ((), s') ∧
      blackBlackFixupWith (checkedParent place) x u = .ok ((), s') := by
  obtain ⟨E, F, T⟩ := m
  obtain ⟨⟨z₀, h₀⟩, hb, hd, -⟩ := hs
  obtain ⟨z, h⟩ := ht
  obtain ⟨c, a, l, r, rfl, rfl⟩ := h₀.exists_of_attached hn
  have hplace := h₀.vacates E.stamp.next
  obtain ⟨orig_left, orig_right, he⟩ := hu
  obtain ⟨hq, z', h₁, hz⟩ := (detachNode_spec h).elim he
  obtain ⟨rfl, hblack⟩ : x = _ ∧ true = _ :=
    ⟨congrArg Prod.fst hq, congrArg (fun q => q.2.1) hq⟩
  obtain ⟨k, hdef⟩ := unlink_deficit hb hblack.symm
  have hd₁ := kept_unlink (o := E.stamp.next) tolerant_up hd
  refine ⟨?_, ?_⟩
  · rw [Holds.epoch_eq h₁, Holds.epoch_eq h]
    rfl
  revert h₁ hz hdef hd₁ hplace
  generalize unlink E.stamp.next c a l r = q
  obtain ⟨g, y, b⟩ := q
  intro hplace h₁ hz hdef hd₁
  dsimp only at h₁ hz hdef hd₁ hplace ⊢
  have hoff : ∀ (place : Option (Ref × Side)) (n : Ref), n ≠ .nil →
      (checkedParent place n : M σ Ref) = getParent n := fun _ _ => checkedParent_of_ne
  have hrestricts := fun place => blackBlackFixupWith_restricts (hoff place)
    (fun _ => checkedParent_restricts) (treeRef y)
  by_cases hy : y = nil
  · subst hy
    obtain rfl := hz rfl
    have ht : ∀ f c', g = f :: c' → Tells (checkedParent (placeOf g) : Ref → M σ Ref)
        ⟨parentRef g, E.epoch + 1⟩ (E.epoch + 1) f.label.slot f.side nil := by
      rintro f c' rfl
      exact tells_checkedParent
    obtain ⟨_, s', hs', -⟩ := blackBlackFixupWith_spec (hoff _) h₁ ht hdef hd₁
    exact ⟨placeOf g, s', fun q hq => ⟨rfl, hplace q hq⟩, (hrestricts _).eq_of_ok hs', hs'⟩
  · obtain ⟨_, s', hs', -⟩ := blackBlackFixupWith_spec (hoff none) h₁
      (fun f c' _ => tells_of_ne (hoff none) hy) hdef hd₁
    exact ⟨none, s', nofun, (hrestricts _).eq_of_ok hs', hs'⟩

end Base

/-! ### Runs -/

/-- What is left behind in `_nil._parent` does not matter. -/
structure NilUnseen (cb : Callbacks) (s : Base σ) : Prop where
  /-- Whichever two pointers are there, a call returns the same and leaves the same tree. -/
  exec : ∀ p j q k c, (everything σ cb).Pre c s → ∃ r s' t',
    (everything σ cb).exec c (s.tellNil p j) = .ok (r, s') ∧
      (everything σ cb).exec c (s.tellNil q k) = .ok (r, t') ∧ Base.SameButNil s' t'
  walk : ∀ {υ : Type} (callback : Ref → υ → ℤ × υ) (userinfo : υ), ∃ r, ∀ p k,
    Base.walk callback userinfo (s.tellNil p k) = .ok (r, s.tellNil p k)
  walkReverse : ∀ {υ : Type} (callback : Ref → υ → ℤ × υ) (userinfo : υ), ∃ r, ∀ p k,
    Base.walkReverse callback userinfo (s.tellNil p k) = .ok (r, s.tellNil p k)
  walkValues : ∀ {υ : Type} (callback : VoidPtr → υ → ℤ × υ) (userinfo : υ), ∃ r, ∀ p k,
    Rbtree.walk callback userinfo (s.tellNil p k) = .ok (r, s.tellNil p k)
  /-- The fixup of a removal asks the sentinel for its parent only while it fixes an empty place,
  and is told what the removal has written, the parent of that place. -/
  fixup : ∀ p k n x u, Attached s n → Base.EntersFixup (s.tellNil p k) n x u →
    u.epoch = s.epoch + 1 ∧ ∃ place s', (∀ q ∈ place, x = .nil ∧ Vacates s n q.1 q.2) ∧
      Base.blackBlackFixup x u = .ok ((), s') ∧
      Base.blackBlackFixupWith (Base.checkedParent place) x u = .ok ((), s')

theorem Represents.nilUnseen {s : Base σ} {m : Image σ} (hs : Represents s m) (cb : Callbacks) :
    NilUnseen cb s := by
  have htell : ∀ p k, Represents (s.tellNil p k) m := fun p k => ⟨hs.1.tellNil p k, hs.2⟩
  obtain ⟨z, h⟩ := id hs.1
  exact
    { exec := fun p j q k c hp => exec_same (htell p j) (htell q k).1 (hs.1.pre (htell p j).1 hp)
      walk := fun callback userinfo => ⟨_, fun p k => Base.walk_spec (h.tellNil p k) callback userinfo⟩
      walkReverse := fun callback userinfo =>
        ⟨_, fun p k => Base.walkReverse_spec (h.tellNil p k) callback userinfo⟩
      walkValues := fun callback userinfo => ⟨_, fun p k => by
        rw [Rbtree.walk_spec (h.tellNil p k) callback userinfo, valueAt_tellNil]⟩
      fixup := fun p k n x u hn hu => Base.blackBlackFixup_checked hs (htell p k).1 hn hu }

/-- Nothing depends on the stale parent of the sentinel, in every tree that any calls have led
to. -/
theorem sentinel_of_run (config : Config) (cb : Callbacks) {s : Base σ}
    {h : List ((Call ⊕ Op) × (Answer ⊕ Result))}
    (hrun : (everything σ cb).Run (Base.initWithConfig config) h s) : NilUnseen cb s := by
  obtain ⟨m, hs⟩ : ∃ m : Image σ, Represents s m :=
    hrun.keeps everything_keeps ⟨_, shows_init config, sound_init config⟩
  exact hs.nilUnseen cb

theorem sentinel_of_run_three : ∃ s : Base SlotPool, InOrder s [.slot 0, .slot 1, .slot 2] ∧
    NilUnseen lengthCallbacks s := by
  obtain ⟨s, hrun, hin, -⟩ := exists_run
  exact ⟨s, hin, sentinel_of_run _ lengthCallbacks hrun.inl⟩

end MulleRbtree
