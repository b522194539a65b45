import MulleRbtree.Runs.Operations
import MulleRbtree.Runs.Valid

/-!
# Dirty flags as an index

* `Ancestor s a n`: going up from `n` by the parents one meets `a`;
* `washRefs T`: the dirty nodes of a tree, children before parents;
* `DirtyIndex s`: what the dirty flags of a state are good for: they reach up to the root, so one
  look at the root tells whether there is any, and the dirty walk calls the callback once for each,
  descendants first, and cleans them;
* `dirtyIndex_of_run`: every run of calls leads to such a state, and after every operation no node
  is dirty.
-/

namespace MulleRbtree

open BinaryTree Cells Program

variable {σ : Type}

/-- `a` is above `n`. -/
inductive Ancestor (s : Base σ) (a : Ref) : Ref → Prop
  | parent {n : Ref} {c : Rbnode} : s.mem n = some c → c.parent = a → a ≠ .nil → Ancestor s a n
  | up {n : Ref} {c : Rbnode} : s.mem n = some c → c.parent ≠ .nil → Ancestor s a c.parent →
      Ancestor s a n

/-- The call of the callback for a node, with the values of its children. -/
def dirtyEvent (s : Base σ) (n : Ref) : Event :=
  .dirty (valueAt s n) (valueAt s (((s.mem n).map Rbnode.left).getD .nil))
    (valueAt s (((s.mem n).map Rbnode.right).getD .nil))

/-- The dirty nodes that a dirty walk reaches, children before parents. -/
def washRefs : ETree → List Ref
  | nil => []
  | node e l r => if e.isDirty then washRefs l ++ washRefs r ++ [e.ref] else []

theorem filter_isDirty_of_clean {T : ETree} (h : Clean T) :
    T.inorder.filter Entry.isDirty = [] :=
  List.filter_eq_nil_iff.2 fun e he => by rw [h e he]; simp

/-- It reaches all of them, each once. -/
theorem washRefs_perm {T : ETree} (h : Locally Up T) :
    (washRefs T).Perm ((T.inorder.filter Entry.isDirty).map Entry.ref) := by
  induction T with
  | nil => exact List.Perm.nil
  | node e l r ihl ihr =>
    unfold washRefs
    cases he : e.isDirty with
    | false =>
      rw [if_neg (by simp), filter_isDirty_of_clean (clean_of_root h he)]
      exact List.Perm.nil
    | true =>
      rw [if_pos rfl, inorder_node, List.filter_append, List.filter_cons_of_pos he,
        List.map_append, List.map_cons, List.append_assoc]
      refine (ihl h.2.1).append (List.Perm.trans ?_ (List.perm_append_singleton _ _))
      exact (ihr h.2.2).append_right _

variable [MulleStorage σ] {s : Base σ} {E : Env σ} {z : Sentinel} {K : Multiset Cell}
  {T t : ETree} {c : Path Entry}

namespace Repr

theorem dirtyEvent_eq {e : Entry} {l r : ETree} (h : Repr s E z K (plug c (node e l r))) :
    dirtyEvent s e.ref =
      .dirty (e.value E.options) (valueOf E.options l.label?) (valueOf E.options r.label?) := by
  have hl := valueAt_treeRef (c := ⟨.left, e, r⟩ :: c) (t := l) h
  have hr := valueAt_treeRef (c := ⟨.right, e, l⟩ :: c) (t := r) h
  have he : valueAt s e.ref = e.value E.options := h.valueAt_treeRef
  rw [dirtyEvent, he, ← hl, ← hr, Entry.ref, h.mem_node]
  rfl

theorem washEvents_eq (h : Repr s E z K (plug c t)) :
    washEvents E.options t = (washRefs t).map (dirtyEvent s) := by
  induction t generalizing c with
  | nil => rfl
  | node e l r ihl ihr =>
    unfold washEvents washRefs
    split_ifs
    · rw [ihl (c := ⟨.left, e, r⟩ :: c) h, ihr (c := ⟨.right, e, l⟩ :: c) h]
      simp [h.dirtyEvent_eq]
    · rfl

/-! ### Ancestors -/

theorem parent_eq {n : Rbnode} (h : Repr s E z K (plug c t)) (ht : t ≠ nil)
    (hn : s.mem (treeRef t) = some n) : n.parent = parentRef c := by
  cases t with
  | nil => exact absurd rfl ht
  | node e l r =>
    rw [treeRef_node, h.mem_node, Option.some.injEq] at hn
    rw [← hn, Entry.cell_parent]

/-- The ancestors of a node are on its path. -/
theorem ancestor_mem {a : Ref} (h : Repr s E z K (plug c t)) (ht : t ≠ nil)
    (ha : Ancestor s a (treeRef t)) : ∃ f ∈ c, a = f.label.ref := by
  induction c generalizing t with
  | nil =>
    cases ha with
    | parent hn he hne => exact absurd (he.symm.trans (parent_eq h ht hn)) hne
    | up hn hne => exact absurd (parent_eq h ht hn) hne
  | cons f c ih =>
    cases ha with
    | parent hn he => exact ⟨f, by simp, he.symm.trans (parent_eq h ht hn)⟩
    | up hn _ ha =>
      rw [parent_eq h ht hn, parentRef_cons, ← treeRef_fill f t] at ha
      obtain ⟨g, hg, e⟩ := ih (t := f.fill t) h (by simp) ha
      exact ⟨g, by simp [hg], e⟩

/-- What is outside of a place has other slots. -/
theorem ref_ne_of_outside {e b : Entry} (h : Repr s E z K (plug c t)) (he : e ∈ t.inorder)
    (hb : b ∈ before c ∨ b ∈ after c) : e.ref ≠ b.ref := by
  have hn := h.nodup_slots
  rw [slots, inorder_plug, List.map_append, List.map_append, List.nodup_append,
    List.nodup_append] at hn
  obtain ⟨-, ⟨-, -, hafter⟩, hbefore⟩ := hn
  have hes := List.mem_map_of_mem (f := Entry.slot) he
  intro e'
  have e' : e.slot = b.slot := Ref.slot.inj e'
  rcases hb with hb | hb
  · exact hbefore _ (List.mem_map_of_mem hb) _ (List.mem_append_left _ hes) e'.symm
  · exact hafter _ hes _ (List.mem_map_of_mem hb) e'

theorem mem_washRefs {n : Ref} (hn : n ∈ washRefs t) : ∃ e ∈ t.inorder, n = e.ref := by
  induction t with
  | nil => simp [washRefs] at hn
  | node e l r ihl ihr =>
    unfold washRefs at hn
    split_ifs at hn
    · simp only [List.mem_append, List.mem_singleton] at hn
      rcases hn with (hn | hn) | rfl
      · obtain ⟨b, hb, rfl⟩ := ihl hn
        exact ⟨b, by simp [hb], rfl⟩
      · obtain ⟨b, hb, rfl⟩ := ihr hn
        exact ⟨b, by simp [hb], rfl⟩
      · exact ⟨e, by simp, rfl⟩
    · simp at hn

/-- No node comes after an ancestor. -/
theorem washRefs_pairwise (h : Repr s E z K (plug c t)) :
    (washRefs t).Pairwise fun a b => ¬ Ancestor s a b := by
  induction t generalizing c with
  | nil => exact List.Pairwise.nil
  | node e l r ihl ihr =>
    have hleft : Repr s E z K (plug (⟨.left, e, r⟩ :: c) l) := h
    have hright : Repr s E z K (plug (⟨.right, e, l⟩ :: c) r) := h
    unfold washRefs
    split_ifs
    · refine List.pairwise_append.2 ⟨List.pairwise_append.2 ⟨ihl hleft, ihr hright, ?_⟩,
        List.pairwise_singleton _ _, ?_⟩
      · intro a ha b hb hab
        obtain ⟨ea, hea, rfl⟩ := mem_washRefs ha
        obtain ⟨eb, heb, rfl⟩ := mem_washRefs hb
        obtain ⟨c', x, y, rfl⟩ := exists_plug_of_mem heb
        rw [← plug_append] at hright
        obtain ⟨f, hf, e'⟩ := ancestor_mem (t := node eb x y) hright (by simp) hab
        refine ref_ne_of_outside hleft hea ?_ e'
        rcases List.mem_append.1 hf with hf | hf
        · have hr := mem_before_or_after hf
          simp only [after, inorder_plug, List.mem_cons, List.mem_append]
          tauto
        · rcases List.mem_cons.1 hf with rfl | hf
          · simp [after]
          · have hc := mem_before_or_after hf
            simp only [before, after, List.mem_cons, List.mem_append]
            tauto
      · intro a ha b hb hab
        obtain rfl : b = e.ref := by simpa using hb
        obtain ⟨f, hf, e'⟩ := ancestor_mem (t := node e l r) h (by simp) hab
        have hin : ∃ ea ∈ (node e l r).inorder, a = ea.ref := by
          rcases List.mem_append.1 ha with ha | ha
          · obtain ⟨ea, hea, rfl⟩ := mem_washRefs ha
            exact ⟨ea, by simp [hea], rfl⟩
          · obtain ⟨ea, hea, rfl⟩ := mem_washRefs ha
            exact ⟨ea, by simp [hea], rfl⟩
        obtain ⟨ea, hea, rfl⟩ := hin
        exact ref_ne_of_outside h hea (mem_before_or_after hf) e'
    · exact List.Pairwise.nil

theorem mem_nil_washed {s' : Base σ} {E' : Env σ} (h : Repr s E z K T)
    (h' : Repr s' E' z K (wash T)) : s'.mem .nil = s.mem .nil := by
  rw [h.mem_sentinel, h'.mem_sentinel]

/-- The walk changes nothing but the flag. -/
theorem mem_washed {s' : Base σ} {E' : Env σ} {e : Entry} (h : Repr s E z K T)
    (h' : Repr s' E' z K (wash T)) (hd : Locally Up T) (he : e ∈ T.inorder) :
    s'.mem e.ref = (s.mem e.ref).map fun c => { c with color := c.color.clearDirty } := by
  obtain ⟨c, l, r, rfl⟩ := exists_plug_of_mem he
  have href : ∀ u : ETree, treeRef (u.map Entry.clean) = treeRef u := by
    intro u; cases u <;> rfl
  have hparent : parentRef (List.map (Frame.map Entry.clean) c) = parentRef c := by
    cases c <;> rfl
  rw [wash_eq_map hd, map_plug, map] at h'
  have hn := h'.mem_node
  rw [href, href, hparent] at hn
  rw [Entry.ref, h.mem_node]
  exact hn

end Repr

/-! ### The index -/

/-- What the dirty flags of a state are good for. -/
structure DirtyIndex (s : Base σ) : Prop where
  /-- the ancestors of a dirty node are dirty -/
  up : ∀ n a, Attached s n → dirtyAt s n = true → Ancestor s a n → dirtyAt s a = true
  sentinel : dirtyAt s .nil = false
  /-- `_mulle__rbtree_is_dirty` -/
  isDirty : ∃ b, Base.treeIsDirty s = .ok (b, s) ∧
    (b = true ↔ ∃ n, Attached s n ∧ dirtyAt s n = true)
  /-- `_mulle__rbtree_walk_dirty` calls the callback for the nodes `ns` -/
  walk : ∃ (s' : Base σ) (ns : List Ref), Base.walkDirty s = .ok ((), s') ∧
    s'.trace = s.trace ++ ns.map (dirtyEvent s) ∧ ns.Nodup ∧
    (∀ n, n ∈ ns ↔ Attached s n ∧ dirtyAt s n = true) ∧
    (ns.Pairwise fun a b => ¬ Ancestor s a b) ∧ s'.root = s.root ∧ s'.mem .nil = s.mem .nil ∧
    ∀ n, Attached s n → s'.mem n = (s.mem n).map fun c => { c with color := c.color.clearDirty }

theorem mem_washRefs_iff (h : Repr s E z K T) (hd : Locally Up T) (n : Ref) :
    n ∈ washRefs T ↔ Attached s n ∧ dirtyAt s n = true := by
  rw [(washRefs_perm hd).mem_iff, List.mem_map]
  constructor
  · rintro ⟨e, he, rfl⟩
    rw [List.mem_filter] at he
    exact ⟨h.attached_ref he.1, (h.dirtyAt_eq he.1).trans he.2⟩
  · rintro ⟨hn, hdirty⟩
    obtain ⟨e, he, rfl⟩ := h.exists_mem_of_attached hn
    exact ⟨e, List.mem_filter.2 ⟨he, (h.dirtyAt_eq he).symm.trans hdirty⟩, rfl⟩

theorem nodup_washRefs (h : Repr s E z K T) (hd : Locally Up T) : (washRefs T).Nodup := by
  have hn := h.nodup_refs
  rw [inorder_map] at hn
  rw [(washRefs_perm hd).nodup_iff]
  exact hn.sublist ((List.filter_sublist).map _)

theorem Repr.dirtyIndex (h : Repr s E z K T) (hd : Dirt E.options T) : DirtyIndex s := by
  refine ⟨fun n a hn hdirty ha => ?_, ?_, ?_, ?_⟩
  · obtain ⟨e, he, rfl⟩ := h.exists_mem_of_attached hn
    rw [h.dirtyAt_eq he] at hdirty
    obtain ⟨c, l, r, rfl⟩ := exists_plug_of_mem he
    obtain ⟨f, hf, rfl⟩ := h.ancestor_mem (t := node e l r) (by simp) ha
    rw [h.dirtyAt_eq]
    · exact hd.ancestors (x := node e l r) hdirty f hf
    · have := mem_before_or_after hf
      rw [mem_inorder_plug]
      tauto
  · rw [dirtyAt, h.mem_sentinel, Option.map_some, Option.getD_some, Base.nilNode,
      Color.isDirty_black]
  · refine ⟨rootHas Entry.isDirty T, ?_, ?_⟩
    · rw [Base.treeIsDirty, bind_eq h.getRoot]
      exact Repr.isDirty (c := []) h
    · constructor
      · intro hroot
        obtain ⟨e, l, r, rfl⟩ := exists_join .left (ne_nil_of_rootHas hroot)
        exact ⟨e.ref, h.attached_of_plug (c := []) (t := node e l r) (by simp),
          (h.dirtyAt_eq (by simp [join])).trans hroot⟩
      · rintro ⟨n, hn, hdirty⟩
        obtain ⟨e, he, rfl⟩ := h.exists_mem_of_attached hn
        rw [h.dirtyAt_eq he] at hdirty
        by_contra hroot
        rw [clean_of_root hd.up (by simpa using hroot) e he] at hdirty
        cases hdirty
  · obtain ⟨_, s', hw, h'⟩ := Base.walkDirty_spec h hd
    refine ⟨s', washRefs T, hw, ?_, nodup_washRefs h hd.up, mem_washRefs_iff h hd.up,
      h.washRefs_pairwise (c := []), ?_, h.mem_nil_washed h', fun n hn => ?_⟩
    · have htrace : s'.trace = E.trace ++ washEvents E.options T := congrArg Env.trace (Holds.env h')
      have htrace₀ : s.trace = E.trace := congrArg Env.trace (Holds.env h)
      rw [htrace, htrace₀, h.washEvents_eq (c := [])]
    · have hroot : s.root = treeRef T := Holds.root h
      have hroot' : s'.root = treeRef (wash T) := Holds.root h'
      rw [hroot, hroot', wash_eq_map hd.up]
      cases T <;> rfl
    · obtain ⟨e, he, rfl⟩ := h.exists_mem_of_attached hn
      exact h.mem_washed h' hd.up he

/-- The dirty flags are an index in every state that calls lead to, and after every run of
operations no node is dirty. -/
theorem dirtyIndex_of_run (config : Config) :
    (∀ (s : Base σ) (h : List (Call × Answer)),
      (calls σ).Run (Base.initWithConfig config) h s → DirtyIndex s) ∧
    ∀ (cb : Callbacks) (s : Base σ) (h : List (Op × Result)),
      (operations σ cb).Run (Base.initWithConfig config) h s →
        DirtyIndex s ∧ ∀ n, Attached s n → dirtyAt s n = false := by
  refine ⟨fun s h hrun => ?_, fun cb s h hrun => ?_⟩
  · obtain ⟨m, -, ⟨z, hr⟩, hm⟩ := run_evolves hrun ⟨shows_init config, sound_init config⟩
    exact hr.dirtyIndex hm.dirt
  · obtain ⟨m, hsteps, ⟨z, hr⟩, hm⟩ := run_performs hrun ⟨shows_init config, sound_init config⟩
    refine ⟨hr.dirtyIndex hm.dirt, fun n hn => ?_⟩
    obtain ⟨e, he, rfl⟩ := hr.exists_mem_of_attached hn
    exact (hr.dirtyAt_eq he).trans
      ((Performs.steps_settled hsteps (settled_init config)).clean e he)

/-- A fourth node, new and so dirty, below two of three clean ones; and a tree after five
operations. -/
theorem dirtyIndex_of_run_four : ∃ s t : Base SlotPool,
    InOrder s [.slot 0, .slot 1, .slot 3, .slot 2] ∧
    [Ref.slot 0, .slot 1, .slot 3, .slot 2].map (dirtyAt s) = [false, true, true, true] ∧
    Ancestor s (.slot 2) (.slot 3) ∧ DirtyIndex s ∧ InOrder t [.slot 0, .slot 2] ∧ DirtyIndex t ∧
    ∀ n, Attached t n → dirtyAt t n = false := by
  obtain ⟨s, hrun, ⟨m, hm⟩, hs⟩ := exists_run_of_calls (σ := SlotPool) ⟨0, 0x4#32, 0⟩
    (threeCalls ++ [.walkDirty, .insertNode (.slot 3) byLength]) (threeAnswers ++ [.done, .code 0])
    (fun s => (nodesOf s, [Ref.slot 0, .slot 1, .slot 3, .slot 2].map (dirtyAt s),
      (s.mem (.slot 3)).map Rbnode.parent))
    ([.slot 0, .slot 1, .slot 3, .slot 2], [false, true, true, true], some (.slot 2))
    (by decide +kernel)
  obtain ⟨hnodes, hs⟩ := Prod.mk.inj hs
  obtain ⟨hdirty, hparent⟩ := Prod.mk.inj hs
  obtain ⟨c, hc, hpar⟩ := Option.map_eq_some_iff.1 hparent
  obtain ⟨t, hops, hin, -⟩ := exists_five
  obtain ⟨hcalls, hoperations⟩ := dirtyIndex_of_run (σ := SlotPool) ⟨0, 0x4#32, 0⟩
  exact ⟨s, t, hnodes ▸ hm.inOrder, hdirty, .parent hc hpar Ref.slot_ne_nil, hcalls s _ hrun, hin,
    hoperations _ t _ hops⟩

end MulleRbtree
