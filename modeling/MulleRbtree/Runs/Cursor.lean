import MulleRbtree.Library.Cursor
import MulleRbtree.Runs.Asserts
import MulleRbtree.Runs.Sorted
import MulleRbtree.Runs.Traversals

/-!
# Enumerators in a tree that changes

An enumerator holds the node whose value it hands out next: `_mulle_rbtreeenumerator_next` advances
`_node` before it returns.  So a tree may change under an enumerator as long as this one node stays.

* `Rbtree.roverOf`, `Rbtree.nextItem`: the enumerators of both directions;
* `Removes`: the calls that take a given node out of the tree;
* `enumeration σ cb d`: all calls on a tree and the steps of one enumerator, in any order, with the
  condition that no call takes out the node of the enumerator;
* `EditedBy`: what a call makes of the sequence of nodes;
* `enumeration_survives`: the nodes that stay in the tree are handed out once each, in order;
* `nextItem_faults_iff`: the condition is needed.
-/

namespace MulleRbtree

open BinaryTree Cells Program

variable {σ : Type}

/-! ### Both directions -/

/-- A sequence from left to right, or from right to left. -/
def along {α : Type} : Side → List α → List α
  | .left, L => L
  | .right, L => L.reverse

section Along

variable {α β : Type} {d : Side} {L : List α}

theorem map_along (f : α → β) : (along d L).map f = along d (L.map f) := by
  cases d with
  | left => rfl
  | right => exact List.map_reverse

@[simp] theorem mem_along {a : α} : a ∈ along d L ↔ a ∈ L := by
  cases d with
  | left => exact Iff.rfl
  | right => exact List.mem_reverse

theorem nodup_along : (along d L).Nodup ↔ L.Nodup := by
  cases d with
  | left => exact Iff.rfl
  | right => exact List.nodup_reverse

theorem edits_along {L' : List α} {e : Edit α} (h : Edits L e L') :
    Edits (along d L) e (along d L') := by
  cases d with
  | left => exact h
  | right => exact h.reverse

end Along

namespace Rbtree

variable [MulleStorage σ]

/-- `mulle_rbtree_enumerate`, `mulle_rbtree_reverseenumerate` -/
def roverOf : Side → Base.M σ Ref
  | .left => enumerate
  | .right => reverseenumerate

/-- `_mulle_rbtreeenumerator_next`, `_mulle_rbtreereverseenumerator_next` -/
def nextItem : Side → Ref → Base.M σ (Option VoidPtr × Ref)
  | .left => enumeratorNext
  | .right => reverseenumeratorNext

variable {s : Base σ} {E : Env σ} {z : Sentinel} {K : Multiset Cell} {T : ETree}

theorem roverOf_spec (h : Repr s E z K T) (d : Side) :
    roverOf d s = .ok (labelRef (along d T.inorder).head?, s) := by
  cases d with
  | left => exact .trans (bind_eq h.getRoot) (Base.findLeftmostNode_root h)
  | right => exact .trans (bind_eq h.getRoot) (Base.findRightmostNode_root h)

theorem nextItem_of_along (h : Repr s E z K T) {d : Side} {e : Entry} {u v : List Entry}
    (hT : along d T.inorder = u ++ e :: v) :
    nextItem d e.ref s = .ok ((some (e.value E.options), labelRef v.head?), s) := by
  have he : e ∈ T.inorder := by
    rw [← mem_along (d := d), hT]
    simp
  rw [← h.valueAt_eq he]
  cases d with
  | left => exact enumeratorNext_of_inorder h hT
  | right => exact reverseenumeratorNext_of_inorder h hT

theorem nextItem_nil (d : Side) (s : Base σ) : nextItem d .nil s = .ok ((none, .nil), s) := by
  cases d <;> rfl

end Rbtree

/-! ### What calls make of the sequence of nodes -/

/-- The nodes of a tree with their values. -/
def held (options : BitVec 32) (T : ETree) : List (Ref × VoidPtr) :=
  T.inorder.map fun e => (e.ref, e.value options)

section Held

variable {options : BitVec 32} {T : ETree} {o : Stamp} {a : Entry} {c g : Path Entry} {l r : ETree}

/-- A node with its value. -/
def Item.held (options : BitVec 32) (a : Item) : Ref × VoidPtr := (a.ref, a.value options)

theorem held_eq (T : ETree) : held options T = (items T).map (Item.held options) := by
  rw [items_eq, List.map_map]
  rfl

theorem map_fst_held (T : ETree) : (held options T).map Prod.fst = T.inorder.map Entry.ref := by
  rw [held, List.map_map]
  rfl

theorem edits_attach (options : BitVec 32) (o : Stamp) (ha : a.slot ∉ slots (plug g nil)) :
    Edits (held options (plug g nil)) (.insert (a.ref, a.value options))
      (held options (attach o a g)) := by
  obtain ⟨h₁, h₂⟩ := items_attach_split (o := o) (a := a) (c := g)
  have hnew : (a.ref, a.value options) ∉ held options (plug g nil) := by
    intro hin
    obtain ⟨e, he, heq⟩ := List.mem_map.1 hin
    exact ha (Ref.slot.inj (congrArg Prod.fst heq) ▸ List.mem_map_of_mem he)
  rw [held_eq, h₁, List.map_append] at hnew ⊢
  rw [held_eq, h₂, List.map_append, List.map_cons]
  exact .insert hnew

theorem edits_removeAt (options : BitVec 32) (o : Stamp) (c : Path Entry) (a : Entry) (l r : ETree) :
    Edits (held options (plug c (node a l r))) (.erase (a.ref, a.value options))
      (held options (removeAt o c a l r)) := by
  obtain ⟨u, v, h₁, h₂⟩ := items_removeAt_split o c a l r
  rw [held_eq, held_eq, h₁, h₂, List.map_append, List.map_append, List.map_cons]
  exact .erase _ _ _

theorem edits_unstore (options : BitVec 32) (o : Stamp) (c : Path Entry) (a : Entry) (l r : ETree) :
    Edits (held options (plug c (node a l r))) (.erase (a.ref, a.value options))
      (held options (unstore o c a l r)) := by
  obtain ⟨u, v, h₁, h₂⟩ := items_unstore_split o c a l r
  rw [held_eq, held_eq, h₁, h₂, List.map_append, List.map_append, List.map_cons]
  exact .erase _ _ _

@[simp] theorem held_wash (T : ETree) : held options (wash T) = held options T := by
  rw [held_eq, held_eq, items_wash]

@[simp] theorem held_soilTo (i : ℕ) (T : ETree) : held options (soilTo o i T) = held options T := by
  rw [held_eq, held_eq, items_soilTo]

end Held

variable [MulleStorage σ] {cb : Callbacks}

/-- The calls that take the node out of the tree. -/
def Removes (cb : Callbacks) (n : Ref) : Call ⊕ Op → Base σ → Prop
  | .inl (.removeNode m), _ => m = n
  | .inr (.removeNode m), _ => m = n
  | .inr (.remove key), s => n ≠ .nil ∧ ∃ s', Base.findNode key cb.comparison s = .ok (n, s')
  | _, _ => False

section Edits

variable {s s' : Base σ} {m m' : Image σ} {c : Call ⊕ Op}

/-- An edit of the sequence that takes out the node that the call removes. -/
structure EditedBy (cb : Callbacks) (c : Call ⊕ Op) (s : Base σ) (m m' : Image σ)
    (e : Edit (Ref × VoidPtr)) : Prop where
  options : m'.env.options = m.env.options
  edits : Edits (held m.env.options m.tree) e (held m.env.options m'.tree)
  removes : ∀ n, Removes cb n c s ↔ ∃ v, e = .erase (n, v)
  spare : ∀ a, e = .erase a → m'.spare = m.spare

/-- The call edits the sequence. -/
def Edited (cb : Callbacks) (c : Call ⊕ Op) (s : Base σ) (m m' : Image σ) : Prop :=
  ∃ e, EditedBy cb c s m m' e

theorem Edited.of_keep (ho : m'.env.options = m.env.options)
    (he : held m.env.options m'.tree = held m.env.options m.tree)
    (hc : ∀ n, ¬ Removes cb n c s) : Edited cb c s m m' := by
  refine ⟨.keep, ho, he ▸ .keep _, fun n => ⟨fun h => (hc n h).elim, ?_⟩, ?_⟩
  · rintro ⟨v, ⟨⟩⟩
  · rintro a ⟨⟩

theorem Edited.of_insert {a : Ref × VoidPtr} (ho : m'.env.options = m.env.options)
    (he : Edits (held m.env.options m.tree) (.insert a) (held m.env.options m'.tree))
    (hc : ∀ n, ¬ Removes cb n c s) : Edited cb c s m m' := by
  refine ⟨.insert a, ho, he, fun n => ⟨fun h => (hc n h).elim, ?_⟩, ?_⟩
  · rintro ⟨v, ⟨⟩⟩
  · rintro a ⟨⟩

theorem Edited.of_erase {a : Ref × VoidPtr} (ho : m'.env.options = m.env.options)
    (he : Edits (held m.env.options m.tree) (.erase a) (held m.env.options m'.tree))
    (hspare : m'.spare = m.spare) (hc : ∀ n, Removes cb n c s ↔ a.1 = n) :
    Edited cb c s m m' := by
  refine ⟨.erase a, ho, he, fun n => (hc n).trans ⟨?_, ?_⟩, fun _ _ => hspare⟩
  · rintro rfl
    exact ⟨a.2, rfl⟩
  · rintro ⟨v, ⟨⟩⟩
    rfl

theorem Evolves.edited {c : Call} {r : Answer} (h : Evolves m c r m') :
    Edited cb (.inl c) s m m' := by
  cases h with
  | newNode => exact .of_keep rfl rfl fun _ => id
  | freeNode => exact .of_keep rfl rfl fun _ => id
  | rejected => exact .of_keep rfl rfl fun _ => id
  | inserted hseek ha =>
    obtain rfl := (plug_seek hseek).1
    exact .of_insert rfl (edits_attach _ _ ha) fun _ => id
  | @before E a e F c l r k ha =>
    have hplace : plug (Base.beside .left c e l r) nil = plug c (node e l r) :=
      Base.plug_beside .left c e l r
    rw [← hplace] at ha ⊢
    exact .of_insert rfl (edits_attach _ _ ha) fun _ => id
  | @after E a e F c l r k ha =>
    have hplace : plug (Base.beside .right c e r l) nil = plug c (node e l r) :=
      Base.plug_beside .right c e r l
    rw [← hplace] at ha ⊢
    exact .of_insert rfl (edits_attach _ _ ha) fun _ => id
  | removed => exact .of_erase rfl (edits_removeAt _ _ _ _ _ _) rfl fun _ => Iff.rfl
  | marked hi => exact .of_keep rfl (held_soilTo _ _) fun _ => id
  | walked => exact .of_keep rfl (held_wash _) fun _ => id
  | found => exact .of_keep rfl rfl fun _ => id
  | reached => exact .of_keep rfl rfl fun _ => id
  | next => exact .of_keep rfl rfl fun _ => id
  | previous => exact .of_keep rfl rfl fun _ => id
  | isDirty => exact .of_keep rfl rfl fun _ => id
  | counted => exact .of_keep rfl rfl fun _ => id

/-- `_mulle_rbtree_remove` removes what it finds. -/
theorem removes_iff (hs : Shows s m) {key : VoidPtr} {n : Ref} :
    Removes cb n (.inr (.remove key)) s ↔ n ≠ .nil ∧
      labelRef (lookup (matching m.env.options cb.comparison key) m.tree) = n := by
  obtain ⟨z, hr⟩ := hs
  obtain ⟨_, s', he, rfl, -⟩ := Base.findNode_spec hr key cb.comparison
  refine and_congr_right fun _ => ⟨?_, ?_⟩
  · rintro ⟨t, ht⟩
    rw [he] at ht
    cases ht
    rfl
  · rintro rfl
    exact ⟨s', he⟩

theorem Performs.edited {op : Op} {r : Result} (h : Performs cb m op r m') (hs : Shows s m) :
    Edited cb (.inr op) s m m' := by
  cases h with
  | @added E F T v g k hplace ha =>
    obtain rfl : plug g nil = T := (plug_seek hplace).1
    have hedit := edits_attach E.options E.stamp ha
    rw [← held_wash (attach _ _ _)] at hedit
    exact .of_insert rfl hedit fun _ => id
  | rejected => exact .of_keep rfl (held_wash _) fun _ => id
  | @removed E F key c a l r k hfind =>
    have hedit := edits_unstore E.options E.stamp c a l r
    rw [← held_wash (unstore _ _ _ _ _)] at hedit
    refine .of_erase rfl hedit rfl fun n => ?_
    rw [removes_iff hs, hfind]
    refine and_iff_right_of_imp ?_
    rintro rfl
    exact Ref.slot_ne_nil
  | @removedNode E F c a l r k =>
    have hedit := edits_unstore E.options E.stamp c a l r
    rw [← held_wash (unstore _ _ _ _ _)] at hedit
    exact .of_erase rfl hedit rfl fun _ => Iff.rfl
  | missing hfind =>
    refine .of_keep rfl rfl fun n hn => ?_
    rw [removes_iff hs, hfind] at hn
    exact hn.1 hn.2.symm
  | found => exact .of_keep rfl rfl fun _ => id
  | reached => exact .of_keep rfl rfl fun _ => id
  | isEmpty => exact .of_keep rfl rfl fun _ => id
  | enumerated => exact .of_keep rfl rfl fun _ => id

/-- What a call of either header makes of the sequence. -/
theorem everything_edited {c : Call ⊕ Op} (hs : Represents s m) (hp : (everything σ cb).Pre c s) :
    Ensures ((everything σ cb).exec c) s fun _ s' => ∃ m', Represents s' m' ∧
      Edited cb c s m m' := by
  cases c with
  | inl c => exact Ensures.map ((exec_represents hs hp).mono fun _ _ ⟨m', he, hs'⟩ =>
      ⟨m', hs', he.edited⟩)
  | inr op => exact Ensures.map ((op_represents hs hp).mono fun _ _ ⟨m', he, hs'⟩ =>
      ⟨m', hs', he.edited hs.1⟩)

end Edits

/-! ### An enumeration and the calls in between -/

/-- What happens while a tree is enumerated. -/
inductive Turn
  | call (c : Call ⊕ Op)
  | next

/-- What comes of it; `item n v` is the value `v` of the node `n`. -/
inductive Outcome
  | answer (r : Answer ⊕ Result)
  | item (n : Ref) (v : VoidPtr)
  | exhausted
  deriving DecidableEq

/-- What is handed out. -/
def Outcome.item? : Outcome → Option (Ref × VoidPtr)
  | .item n v => some (n, v)
  | _ => none

/-- The reply of the enumerator at the node `rover`. -/
def Outcome.ofItem (rover : Ref) : Option VoidPtr → Outcome
  | none => .exhausted
  | some v => .item rover v

namespace Turn

/-- What the caller has to see to: the node of the enumerator is not removed. -/
def Pre (cb : Callbacks) : Turn → Base σ × Ref → Prop
  | call c, (s, rover) => (everything σ cb).Pre c s ∧ ¬ Removes cb rover c s
  | next, _ => True

def exec (cb : Callbacks) (d : Side) : Turn → StateT (Base σ × Ref) (Except Fault) Outcome
  | call c => fun (s, rover) => do
    let (r, s) ← (everything σ cb).exec c s
    return (.answer r, s, rover)
  | next => fun (s, rover) => do
    let ((item, rest), s) ← Rbtree.nextItem d rover s
    return (.ofItem rover item, s, rest)

end Turn

/-- A tree with an enumerator. -/
def enumeration (σ : Type) [MulleStorage σ] (cb : Callbacks) (d : Side) :
    Interface (Base σ × Ref) Fault Turn Outcome := ⟨Turn.Pre cb, Turn.exec cb d⟩

/-- The nodes that are handed out, with their values. -/
def handedOut (h : List (Turn × Outcome)) : List (Ref × VoidPtr) := h.filterMap fun q => q.2.item?

/-- The memory and the enumerator are where the cursor is. -/
def Stands (d : Side) (options : BitVec 32) (x : Base σ × Ref) (m : Cursor (Ref × VoidPtr)) : Prop :=
  ∃ im : Image σ, Represents x.1 im ∧ im.env.options = options ∧
    m.list = along d (held options im.tree) ∧ x.2 = (m.ahead.map Prod.fst).headD .nil

section Stands

variable {s s' : Base σ} {E E' : Env σ} {z z' : Sentinel} {K K' : Multiset Cell} {T T' : ETree}
  {options : BitVec 32} {d : Side}

theorem Repr.mem_held (options : BitVec 32) (h : Repr s E z K T) {n : Ref} :
    Attached s n ↔ n ∈ (held options T).map Prod.fst := by
  rw [map_fst_held]
  exact (h.traverses.attached n).symm

theorem Repr.nodup_fst_held (options : BitVec 32) (h : Repr s E z K T) :
    ((held options T).map Prod.fst).Nodup := by
  rw [map_fst_held]
  exact h.traverses.nodup

/-- A node that is put into the sequence was not attached before. -/
theorem Repr.not_attached_of_insert (h : Repr s E z K T) (h' : Repr s' E' z' K' T')
    {a : Ref × VoidPtr} (he : Edits (held options T) (.insert a) (held options T')) :
    ¬ Attached s a.1 := by
  have hn := h'.nodup_fst_held options
  rw [h.mem_held options]
  generalize held options T = L, held options T' = L' at he hn
  cases he with
  | insert hnew =>
    rw [List.map_append, List.map_cons] at hn
    rw [List.map_append]
    exact (List.nodup_cons.1 (List.nodup_middle.1 hn)).1

/-- A node that is taken out of the sequence is no longer attached. -/
theorem Repr.not_attached_of_erase (h : Repr s E z K T) (h' : Repr s' E' z' K' T')
    {a : Ref × VoidPtr} (he : Edits (held options T) (.erase a) (held options T')) :
    ¬ Attached s' a.1 := by
  have hn := h.nodup_fst_held options
  rw [h'.mem_held options]
  generalize held options T = L, held options T' = L' at he hn
  cases he with
  | erase u v =>
    rw [List.map_append, List.map_cons] at hn
    rw [List.map_append]
    exact (List.nodup_cons.1 (List.nodup_middle.1 hn)).1

/-- The item of an enumerator that is not at its end. -/
theorem Repr.nextItem_held (h : Repr s E z K T) {u v : List (Ref × VoidPtr)} {a : Ref × VoidPtr}
    (hT : u ++ a :: v = along d (held E.options T)) :
    Rbtree.nextItem d a.1 s = .ok ((some a.2, (v.map Prod.fst).headD .nil), s) := by
  rw [held, ← map_along, eq_comm] at hT
  obtain ⟨u, v', hd, rfl, hv⟩ := List.map_eq_append_iff.1 hT
  obtain ⟨e, v, rfl, rfl, rfl⟩ := List.map_eq_cons_iff.1 hv
  rw [Rbtree.nextItem_of_along h hd, labelRef_head?, List.map_map]
  rfl

end Stands

variable {d : Side} {options : BitVec 32}

/-- A call moves the cursor. -/
theorem turn_moves (c : Turn) (x : Base σ × Ref) (m : Cursor (Ref × VoidPtr))
    (hx : Stands d options x m) (hp : (enumeration σ cb d).Pre c x) :
    Ensures ((enumeration σ cb d).exec c) x fun r x' =>
      ∃ k m', m.Moves k r.item? m' ∧ Stands d options x' m' ∧
        (∀ a, k = .edit (.insert a) → ¬ Attached x.1 a.1) ∧
        ∀ a, k = .edit (.erase a) → ¬ Attached x'.1 a.1 := by
  obtain ⟨s, rover⟩ := x
  obtain ⟨im, hs, rfl, hlist, rfl⟩ := hx
  obtain ⟨⟨z, hr⟩, -⟩ := id hs
  cases c with
  | call c =>
    obtain ⟨hpre, hkeep⟩ := hp
    obtain ⟨r, s', he, im', hs', e, ho, hedit, hremoves, -⟩ := everything_edited hs hpre
    obtain ⟨⟨z', hr'⟩, -⟩ := id hs'
    have hm : Edits m.list e (along d (held im.env.options im'.tree)) := hlist ▸ edits_along hedit
    have hpending : ∀ a, e = .erase a → m.pending ≠ some a := by
      intro a hea hpend
      obtain ⟨v, hv⟩ := List.head?_eq_some_iff.1 hpend
      rw [hv] at hkeep
      exact hkeep ((hremoves a.1).2 ⟨a.2, hea⟩)
    obtain ⟨m', hfollows, hlist'⟩ := hm.exists_follows hpending
    have hrover : (m'.ahead.map Prod.fst).headD .nil = (m.ahead.map Prod.fst).headD .nil := by
      have hpend : m'.ahead.head? = m.ahead.head? := hfollows.pending_eq
      simp only [List.headD_eq_head?_getD, List.head?_map, hpend]
    have hexec : (enumeration σ cb d).exec (.call c) (s, (m.ahead.map Prod.fst).headD .nil) =
        .ok (.answer r, s', (m.ahead.map Prod.fst).headD .nil) := by
      show ((everything σ cb).exec c s >>= fun _ => _) = _
      rw [he]
      rfl
    refine .of_eq hexec ⟨_, m', .edit hfollows, ⟨im', hs', ho, hlist', hrover.symm⟩, ?_, ?_⟩
    · rintro a ⟨⟩
      exact hr.not_attached_of_insert hr' hedit
    · rintro a ⟨⟩
      exact hr.not_attached_of_erase hr' hedit
  | next =>
    obtain ⟨u, v⟩ := m
    have hlist : u ++ v = along d (held im.env.options im.tree) := hlist
    cases v with
    | nil =>
      have hexec : (enumeration σ cb d).exec .next (s, .nil) = .ok (.exhausted, s, .nil) := by
        show (Rbtree.nextItem d .nil s >>= fun _ => _) = _
        rw [Rbtree.nextItem_nil]
        rfl
      exact .of_eq hexec ⟨.next, _, .exhausted u, ⟨im, hs, rfl, hlist, rfl⟩, nofun, nofun⟩
    | cons a v =>
      have hexec : (enumeration σ cb d).exec .next (s, a.1) =
          .ok (.item a.1 a.2, s, (v.map Prod.fst).headD .nil) := by
        show (Rbtree.nextItem d a.1 s >>= fun _ => _) = _
        rw [hr.nextItem_held hlist]
        rfl
      have hlist' : u ++ [a] ++ v = along d (held im.env.options im.tree) := by simpa using hlist
      exact .of_eq hexec ⟨.next, _, .next u v a, ⟨im, hs, rfl, hlist', rfl⟩, nofun, nofun⟩

/-! ### What an enumeration hands out -/

/-- The node is attached from the beginning of the enumeration to its end. -/
def Stays (cb : Callbacks) (d : Side) (x : Base σ × Ref) (h : List (Turn × Outcome)) (n : Ref) : Prop :=
  ∀ y ∈ (enumeration σ cb d).states x (h.map Prod.fst), Attached y.1 n

/-- A node with its value. -/
def withValue (s : Base σ) (n : Ref) : Ref × VoidPtr := (n, valueAt s n)

theorem Repr.map_withValue {s : Base σ} {E : Env σ} {z : Sentinel} {K : Multiset Cell} {T : ETree}
    (h : Repr s E z K T) : (T.inorder.map Entry.ref).map (withValue s) = held E.options T := by
  rw [List.map_map]
  exact List.map_congr_left fun e he => Prod.ext rfl (h.valueAt_eq he)

theorem exists_stands {s : Base σ} (hs : ∃ im : Image σ, Represents s im) {ns u v : List Ref}
    (hns : InOrder s ns) (hcut : along d ns = u ++ v) : ∃ options,
      Stands d options (s, v.headD .nil) ⟨u.map (withValue s), v.map (withValue s)⟩ := by
  obtain ⟨im, hs⟩ := hs
  obtain ⟨⟨z, hr⟩, -⟩ := id hs
  refine ⟨_, im, hs, rfl, ?_, ?_⟩
  · rw [← hr.map_withValue, ← map_along, ← hr.inOrder_iff.1 hns, hcut, List.map_append]
    rfl
  · rw [List.map_map]
    exact congrArg (List.headD · Ref.nil) (List.map_id v).symm

theorem Stands.exists_cut {s : Base σ} {rover : Ref} {m : Cursor (Ref × VoidPtr)}
    (h : Stands d options (s, rover) m) : ∃ ns u v, InOrder s ns ∧ along d ns = u ++ v ∧
      rover = v.headD .nil ∧ m.ahead = v.map (withValue s) := by
  obtain ⟨im, ⟨⟨z, hr⟩, -⟩, rfl, hlist, rfl⟩ := h
  rw [← hr.map_withValue, ← map_along, Cursor.list, eq_comm] at hlist
  obtain ⟨u, v, hcut, -, hv⟩ := List.map_eq_append_iff.1 hlist
  refine ⟨_, u, v, hr.inOrder, hcut, ?_, hv.symm⟩
  rw [← hv, List.map_map]
  exact congrArg (List.headD · Ref.nil) (List.map_id v)

open Classical in
/-- What has become of an enumeration that began at `s` with the nodes `v` ahead: those of them that
stay have been handed out or are still ahead, and it can go on. -/
structure Enumerates (cb : Callbacks) (d : Side) (s : Base σ) (v : List Ref)
    (h : List (Turn × Outcome)) (t : Base σ) (rover : Ref) : Prop where
  handed : ∃ ns u' v', InOrder t ns ∧ along d ns = u' ++ v' ∧ rover = v'.headD .nil ∧
    (handedOut h).filter (fun a => Stays cb d (s, v.headD .nil) h a.1) ++
        (v'.map (withValue t)).filter (fun a => Stays cb d (s, v.headD .nil) h a.1) =
      (v.map (withValue s)).filter fun a => Stays cb d (s, v.headD .nil) h a.1
  proceeds : ∀ c, (enumeration σ cb d).Pre c (t, rover) →
    ∃ r y, (enumeration σ cb d).exec c (t, rover) = .ok (r, y)

theorem enumerates {s t : Base σ} {h : List (Turn × Outcome)} {ns u v : List Ref} {rover : Ref}
    (hs : ∃ im : Image σ, Represents s im) (hns : InOrder s ns) (hcut : along d ns = u ++ v)
    (hrun : (enumeration σ cb d).Run (s, v.headD .nil) h (t, rover)) :
    Enumerates cb d s v h t rover := by
  classical
  obtain ⟨options, hstands⟩ := exists_stands hs hns hcut
  have hstays : ∀ a : Ref × VoidPtr, decide (Stays cb d (s, v.headD .nil) h a.1) = true →
      Stays cb d (s, v.headD .nil) h a.1 := fun a ha => of_decide_eq_true ha
  obtain ⟨m, hend, hhanded⟩ := hrun.handed turn_moves hstands hstays
  obtain ⟨ns', u', v', hns', hcut', hrover, hahead⟩ := hend.exists_cut
  refine ⟨⟨ns', u', v', hns', hcut', hrover, ?_⟩, fun c hp => ?_⟩
  · rw [← hahead]
    exact hhanded
  · obtain ⟨r, y, he, -⟩ := turn_moves c _ m hend hp
    exact ⟨r, y, he⟩

/-- Whatever calls come between the steps of an enumerator, in either direction, as long as none of
them removes the node that it holds: it hands out the nodes that stay in the tree once each, in
order and with their values, and no call faults. -/
theorem enumeration_survives (config : Config) (cb : Callbacks) (d : Side) {s t : Base σ}
    {h₀ : List ((Call ⊕ Op) × (Answer ⊕ Result))} {h : List (Turn × Outcome)} {ns u v : List Ref}
    {rover : Ref} (hreach : (everything σ cb).Run (Base.initWithConfig config) h₀ s)
    (hns : InOrder s ns) (hcut : along d ns = u ++ v)
    (hrun : (enumeration σ cb d).Run (s, v.headD .nil) h (t, rover)) :
    Rbtree.roverOf d s = .ok ((along d ns).headD .nil, s) ∧ Enumerates cb d s v h t rover := by
  have hs : ∃ im : Image σ, Represents s im :=
    hreach.keeps everything_keeps ⟨_, shows_init config, sound_init config⟩
  refine ⟨?_, enumerates hs hns hcut hrun⟩
  obtain ⟨im, ⟨z, hr⟩, -⟩ := hs
  rw [hr.inOrder_iff.1 hns, ← map_along, Rbtree.roverOf_spec hr, labelRef_head?]

/-- The node that a low-level call takes out of the tree. -/
def Call.removed? : Call → Option Ref
  | .removeNode n => some n
  | _ => none

theorem removes_inl_iff {c : Call} {n : Ref} {s : Base σ} :
    Removes cb n (.inl c) s ↔ c.removed? = some n := by
  cases c <;> simp [Removes, Call.removed?]

/-- May it happen? -/
def Turn.check : Turn → Base σ × Ref → Bool
  | call (.inl c), (s, rover) => c.check s && c.removed? ≠ some rover
  | call (.inr _), _ => false
  | next, _ => true

theorem Turn.pre_of_check {c : Turn} {x : Base σ × Ref} (hx : ∃ im : Image σ, Represents x.1 im)
    (h : c.check x = true) : c.Pre cb x := by
  obtain ⟨s, rover⟩ := x
  cases c with
  | next => trivial
  | call c =>
    cases c with
    | inr op => cases h
    | inl c =>
      obtain ⟨hc, hne⟩ := (Bool.and_eq_true _ _).mp h
      exact ⟨Call.pre_of_check hx hc, removes_inl_iff.not.2 (of_decide_eq_true hne)⟩

/-- A node is put in between the steps, one behind the enumerator is removed, and one ahead of
it. -/
def sevenTurns : List Turn :=
  [.next, .call (.inl (.insertNode (.slot 3) byLength)), .call (.inl (.removeNode (.slot 0))), .next,
    .call (.inl (.removeNode (.slot 2))), .next, .next]

def sevenOutcomes : List Outcome :=
  [.item (.slot 0) (ofLength 0), .answer (.inl (.code 0)), .answer (.inl .done),
    .item (.slot 1) (ofLength 2), .answer (.inl .done), .item (.slot 3) (ofLength 3), .exhausted]

theorem enumeration_survives_seven : ∃ s t : Base SlotPool, InOrder s [.slot 0, .slot 1, .slot 2] ∧
    Rbtree.roverOf .left s = .ok (.slot 0, s) ∧ InOrder t [.slot 1, .slot 3] ∧
    handedOut (sevenTurns.zip sevenOutcomes) =
      [(.slot 0, ofLength 0), (.slot 1, ofLength 2), (.slot 3, ofLength 3)] ∧
    Enumerates lengthCallbacks .left s [.slot 0, .slot 1, .slot 2] (sevenTurns.zip sevenOutcomes) t
      .nil := by
  obtain ⟨s, hrun, hin, -⟩ := exists_run
  obtain ⟨s', hrun', hs, hturns⟩ := exists_run_of_calls (σ := SlotPool) ⟨0, 0x4#32, 0⟩ threeCalls
    threeAnswers (fun s => ((enumeration SlotPool lengthCallbacks .left).follow Turn.check
      sevenTurns (s, .slot 0)).map (Prod.map id fun y => (nodesOf y.1, y.2)))
    (some (sevenOutcomes, [.slot 1, .slot 3], .nil)) (by decide +kernel)
  obtain rfl := hrun.unique hrun'
  obtain ⟨options, hstands⟩ := exists_stands (d := .left) (u := [])
    (v := [.slot 0, .slot 1, .slot 2]) hs hin rfl
  obtain ⟨⟨t, rover⟩, hturned, ⟨_, im, him, -⟩, ht⟩ := Interface.exists_run_of_follow
    (I := fun y => ∃ m, Stands .left options y m)
    (fun _ _ ⟨_, im, him, _⟩ => Turn.pre_of_check ⟨im, him⟩)
    (fun c y ⟨m, hy⟩ hp => (turn_moves c y m hy hp).mono fun _ _ ⟨_, m', _, hm', _⟩ => ⟨m', hm'⟩)
    ⟨_, hstands⟩ hturns
  obtain ⟨hnodes, rfl⟩ := Prod.mk.inj ht
  obtain ⟨hrover, hall⟩ := enumeration_survives _ lengthCallbacks .left hrun.inl hin (u := []) rfl
    hturned
  exact ⟨s, t, hin, hrover, hnodes ▸ him.inOrder, rfl, hall⟩

/-! ### The node of an enumerator must stay -/

/-- A node that a call removes is not allocated afterwards. -/
theorem EditedBy.mem_eq_none {c : Call ⊕ Op} {s s' : Base σ} {m m' : Image σ}
    {e : Edit (Ref × VoidPtr)} (h : EditedBy cb c s m m' e) (hs : Represents s m)
    (hs' : Represents s' m') {n : Ref} (hn : Attached s n) (hc : Removes cb n c s) :
    s'.mem n = none := by
  obtain ⟨⟨z, hr⟩, -⟩ := hs
  obtain ⟨⟨z', hr'⟩, -⟩ := hs'
  obtain ⟨v, rfl⟩ := (h.removes n).1 hc
  rw [Option.eq_none_iff_forall_ne_some]
  intro node hnode
  have hout : Unattached s' n :=
    ⟨hn.ne_nil, Option.isSome_iff_exists.2 ⟨node, hnode⟩, hr.not_attached_of_erase hr' h.edits⟩
  obtain ⟨a, ha, rfl⟩ := hr'.unattached_iff.1 hout
  rw [h.spare _ rfl] at ha
  exact (hr.unattached_iff.2 ⟨a, ha, rfl⟩).2.2 hn

theorem Rbtree.nextItem_dangling {s : Base σ} {n : Ref} (hn : n ≠ .nil) (h : s.mem n = none) :
    Rbtree.nextItem d n s = .error (.dangling n) := by
  have hderef : Base.deref n s = .error (.dangling n) := by
    rw [Base.deref, h]
  have hvalue : Base.getNodeValue n s = .error (.dangling n) := by
    rw [Base.getNodeValue, if_neg hn]
    show (if Options.useExtra s.options = true then Base.getExtra n else Base.getPayload n) s = _
    split_ifs
    · show (Base.deref n s >>= fun _ => _) = _
      rw [hderef]
      rfl
    · show (Base.deref n s >>= fun _ => _) = _
      rw [hderef]
      rfl
  cases d with
  | left =>
    rw [Rbtree.nextItem, Rbtree.enumeratorNext, if_neg hn]
    show (Base.getNodeValue n s >>= fun _ => _) = _
    rw [hvalue]
    rfl
  | right =>
    rw [Rbtree.nextItem, Rbtree.reverseenumeratorNext, if_neg hn]
    show (Base.getNodeValue n s >>= fun _ => _) = _
    rw [hvalue]
    rfl

/-- The step of an enumerator after a call reads freed memory just if the call has removed the node
that the enumerator holds. -/
theorem nextItem_faults_iff (config : Config) (cb : Callbacks) (d : Side) {s s' : Base σ}
    {h₀ : List ((Call ⊕ Op) × (Answer ⊕ Result))} {n : Ref} {c : Call ⊕ Op} {r : Answer ⊕ Result}
    (hreach : (everything σ cb).Run (Base.initWithConfig config) h₀ s) (hn : Attached s n)
    (hp : (everything σ cb).Pre c s) (he : (everything σ cb).exec c s = .ok (r, s')) :
    (Removes cb n c s ↔ Rbtree.nextItem d n s' = .error (.dangling n)) ∧
      (¬ Removes cb n c s ↔ ∃ item rest, Rbtree.nextItem d n s' = .ok ((some item, rest), s')) := by
  obtain ⟨m, hs⟩ : ∃ im : Image σ, Represents s im :=
    hreach.keeps everything_keeps ⟨_, shows_init config, sound_init config⟩
  obtain ⟨m', hs', e, hedit⟩ := (everything_edited hs hp).elim he
  have hfault : Removes cb n c s → Rbtree.nextItem d n s' = .error (.dangling n) := fun hc =>
    Rbtree.nextItem_dangling hn.ne_nil (hedit.mem_eq_none hs hs' hn hc)
  have hitem : ¬ Removes cb n c s →
      ∃ item rest, Rbtree.nextItem d n s' = .ok ((some item, rest), s') := by
    intro hc
    obtain ⟨⟨z, hr⟩, -⟩ := hs
    obtain ⟨⟨z', hr'⟩, -⟩ := hs'
    rw [hr.mem_held m.env.options, List.mem_map] at hn
    obtain ⟨a, ha, rfl⟩ := hn
    have ha' : a ∈ held m'.env.options m'.tree := by
      rw [hedit.options]
      exact hedit.edits.mem ha fun hea => hc ((hedit.removes a.1).2 ⟨a.2, hea⟩)
    obtain ⟨u, v, hcut⟩ := List.append_of_mem (mem_along (d := d).2 ha')
    exact ⟨_, _, hr'.nextItem_held hcut.symm⟩
  refine ⟨⟨hfault, fun hf => ?_⟩, hitem, fun hi hc => ?_⟩
  · by_contra hc
    obtain ⟨item, rest, hok⟩ := hitem hc
    rw [hf] at hok
    cases hok
  · obtain ⟨item, rest, hok⟩ := hi
    rw [hfault hc] at hok
    cases hok

/-- Held is the second of three nodes; in one case it is removed, in the other one its successor. -/
theorem nextItem_faults_iff_second : ∃ s s' s'' : Base SlotPool,
    InOrder s [.slot 0, .slot 1, .slot 2] ∧
    ((everything SlotPool lengthCallbacks).exec (.inl (.removeNode (.slot 1))) s =
        .ok (.inl .done, s') ∧
      Rbtree.nextItem .left (.slot 1) s' = .error (.dangling (.slot 1))) ∧
    (everything SlotPool lengthCallbacks).exec (.inl (.removeNode (.slot 2))) s =
        .ok (.inl .done, s'') ∧
      ∃ item rest, Rbtree.nextItem .left (.slot 1) s'' = .ok ((some item, rest), s'') := by
  obtain ⟨s, hrun, hin, -⟩ := exists_run
  obtain ⟨s₀, hrun₀, -, hs⟩ := exists_run_of_calls (σ := SlotPool) ⟨0, 0x4#32, 0⟩ threeCalls
    threeAnswers (fun s =>
      (((everything SlotPool lengthCallbacks).exec (.inl (.removeNode (.slot 1))) s).toOption.map
        Prod.fst,
      ((everything SlotPool lengthCallbacks).exec (.inl (.removeNode (.slot 2))) s).toOption.map
        Prod.fst))
    (some (.inl .done), some (.inl .done)) (by decide +kernel)
  obtain rfl := hrun.unique hrun₀
  obtain ⟨h₁, h₂⟩ := Prod.mk.inj hs
  obtain ⟨⟨_, s'⟩, he, rfl⟩ := exists_of_toOption h₁
  obtain ⟨⟨_, s''⟩, he', rfl⟩ := exists_of_toOption h₂
  have hattached : ∀ n ∈ [Ref.slot 0, .slot 1, .slot 2], Attached s n := fun n => hin.mem_iff.1
  have hn : Attached s (.slot 1) := hattached _ (by simp)
  obtain ⟨⟨hfaults, -⟩, -⟩ := nextItem_faults_iff _ lengthCallbacks .left hrun.inl hn
    (c := .inl (.removeNode _)) hn he
  obtain ⟨-, hproceeds, -⟩ := nextItem_faults_iff _ lengthCallbacks .left hrun.inl hn
    (c := .inl (.removeNode _)) (hattached (.slot 2) (by simp)) he'
  have hkept : Ref.slot 2 ≠ .slot 1 := by decide
  exact ⟨s, s', s'', hin, ⟨he, hfaults rfl⟩, he', hproceeds hkept⟩

end MulleRbtree
