import MulleRbtree.Layout.Attached
import MulleRbtree.Layout.Navigation
import MulleRbtree.Source.Rbtree

/-!
# Loops over all nodes

* `findLeftmostNode_root`, `nextNode_of_inorder`: the first node in order, and the next one;
* `walk_spec`, `walkReverse_spec`: the walks call the callback along the tree, `visit` says how;
* `enumerateAll_spec`: the enumerator hands out the values of the tree in order;
* `takeItems_spec`: what a sequence of calls of an enumerator hands out;
* `nodesFrom_spec`: `_mulle__rbtree_next_node`, called again and again, goes through the rest of the
  tree;
* `done_spec`: the end of a tree.
-/

namespace MulleRbtree

open BinaryTree Cells Program

variable {σ : Type} [MulleStorage σ] {s : Base σ} {E : Env σ} {z : Sentinel} {K : Multiset Cell}
  {T : ETree} {e : Entry} {u v : List Entry}

namespace Base

theorem findLeftmostNode_root (h : Repr s E z K T) :
    findLeftmostNode (treeRef T) s = .ok (labelRef T.inorder.head?, s) := by
  have hleft := findOutermost_spec (d := .left) (c := []) h
  rwa [outermost_left] at hleft

theorem nextNode_of_inorder (h : Repr s E z K T) (hT : T.inorder = u ++ e :: v) :
    nextNode e.ref s = .ok (labelRef v.head?, s) := by
  obtain ⟨c, l, r, rfl, -, rfl⟩ := exists_plug_of_inorder hT
  exact nextNode_spec h

theorem getNodeValue_of_mem_tree (h : Repr s E z K T) (he : e ∈ T.inorder) :
    getNodeValue e.ref s = .ok (e.value E.options, s) := by
  obtain ⟨c, l, r, rfl⟩ := exists_plug_of_mem he
  exact getNodeValue_spec (t := node e l r) h

/-- There is time to visit all nodes. -/
theorem length_inorder_lt (h : Repr s E z K T) (hT : T.inorder = u ++ v) :
    v.length < MulleStorage.getCount E.nodes + 2 := by
  have hlen := h.numNodes_le
  rw [← length_inorder, hT, List.length_append] at hlen
  omega

/-! ### The range iteration of the header -/

/-- The nodes from `node` on, by `_mulle__rbtree_next_node`. -/
def nodesFrom (node : Ref) : M σ (List Ref) :=
  loop (fun ((nodes, node) : List Ref × Ref) => do
    if node = .nil then return .inr nodes
    else return .inl (nodes ++ [node], ← nextNode node)) ([], node)

theorem nodesFrom_spec (h : Repr s E z K T) (hT : T.inorder = u ++ v) :
    nodesFrom (labelRef v.head?) s = .ok (v.map Entry.ref, s) := by
  refine Ensures.eq (h.loop (Ensures.iterate_list (L := T.inorder)
    (I := fun u' v' q s' => (∃ w, u' = u ++ w ∧ q = (w.map Entry.ref, labelRef v'.head?)) ∧ s = s')
    ?_ ?_ hT (length_inorder_lt h hT) ⟨⟨[], by simp, rfl⟩, rfl⟩))
  · rintro _ e v' _ _ hT' ⟨⟨w, rfl, rfl⟩, rfl⟩
    have hnext := nextNode_of_inorder h hT'
    dsimp only [List.head?_cons, labelRef_some]
    rw [if_neg Ref.slot_ne_nil]
    exact .bind_eq hnext (.pure ⟨_, rfl, ⟨w ++ [e], by simp, by simp [Entry.ref]⟩, rfl⟩)
  · rintro _ _ ⟨⟨w, hw, rfl⟩, rfl⟩
    obtain rfl : w = v := List.append_cancel_left (hw.symm.trans hT)
    exact .pure ⟨_, rfl, rfl, rfl⟩

theorem findRightmostNode_root (h : Repr s E z K T) :
    findRightmostNode (treeRef T) s = .ok (labelRef T.inorder.reverse.head?, s) := by
  have hright := findOutermost_spec (d := .right) (c := []) h
  rwa [outermost_right, ← List.head?_reverse] at hright

theorem previousNode_of_inorder (h : Repr s E z K T) (hT : T.inorder.reverse = u ++ e :: v) :
    previousNode e.ref s = .ok (labelRef v.head?, s) := by
  have hT' : T.inorder = v.reverse ++ e :: u.reverse := by
    rw [← List.reverse_reverse T.inorder, hT]
    simp
  obtain ⟨c, l, r, rfl, hbefore, -⟩ := exists_plug_of_inorder hT'
  rw [Entry.ref, previousNode_spec h, ← hbefore, ← List.head?_reverse, List.reverse_reverse]

/-! ### Walks -/

/-- The calls of a callback along a list of nodes, until it answers 0: the nodes it is called with,
and what becomes of its `userinfo`. -/
def visit {υ : Type} (callback : Ref → υ → ℤ × υ) : List Ref → υ → List Ref × υ
  | [], userinfo => ([], userinfo)
  | n :: ns, userinfo =>
    let (rval, userinfo) := callback n userinfo
    if rval = 0 then ([n], userinfo)
    else
      let (visited, userinfo) := visit callback ns userinfo
      (n :: visited, userinfo)

omit [MulleStorage σ] in
/-- A loop that calls the callback at the nodes of `L`, one after the other, until it answers 0. -/
theorem iterate_visit {υ : Type} {f : Ref → υ → ℤ × υ} {L : List Entry}
    {step : List Ref × υ × Ref → M σ ((List Ref × υ × Ref) ⊕ (List Ref × υ))}
    (hend : ∀ visited userinfo, step (visited, userinfo, .nil) s = .ok (.inr (visited, userinfo), s))
    (hstop : ∀ visited userinfo, ∀ e ∈ L, (f e.ref userinfo).1 = 0 →
      step (visited, userinfo, e.ref) s = .ok (.inr (visited ++ [e.ref], (f e.ref userinfo).2), s))
    (hnext : ∀ visited userinfo u e v, L = u ++ e :: v → (f e.ref userinfo).1 ≠ 0 →
      step (visited, userinfo, e.ref) s =
        .ok (.inl (visited ++ [e.ref], (f e.ref userinfo).2, labelRef v.head?), s))
    {u v : List Entry} {visited : List Ref} {userinfo : υ} {n : ℕ} (hL : L = u ++ v)
    (hn : v.length < n) :
    Ensures (iterate .endless step n (visited, userinfo, labelRef v.head?)) s fun r s' =>
      r = (visited ++ (visit f (v.map Entry.ref) userinfo).1,
        (visit f (v.map Entry.ref) userinfo).2) ∧ s' = s := by
  -- the nodes `u` have been visited, the nodes `v` are to come
  induction v generalizing u visited userinfo n with
  | nil =>
    obtain ⟨n, rfl⟩ : ∃ m, n = m + 1 := ⟨n - 1, by simp at hn; omega⟩
    refine .iterate_succ (.of_eq (hend visited userinfo) ⟨?_, rfl⟩)
    simp [visit]
  | cons e v ih =>
    obtain ⟨n, rfl⟩ : ∃ m, n = m + 1 := ⟨n - 1, by omega⟩
    by_cases hr : (f e.ref userinfo).1 = 0
    · refine .iterate_succ (.of_eq (hstop visited userinfo e (by simp [hL]) hr) ⟨?_, rfl⟩)
      simp [visit, hr]
    · refine .iterate_succ (.of_eq (hnext visited userinfo u e v hL hr) ?_)
      show Ensures (iterate .endless step n (visited ++ [e.ref], (f e.ref userinfo).2,
        labelRef v.head?)) s _
      refine (ih (u := u ++ [e]) (by simpa using hL) (by simpa using hn)).mono ?_
      rintro _ _ ⟨rfl, rfl⟩
      simp [visit, hr]

/-- A walk along the nodes `L`. -/
theorem walkNodes_spec {α υ : Type} {argument : Ref → M σ α} {next : Ref → M σ Ref} {k : Ref → α}
    {L : List Entry} (h : Repr s E z K T) (hlen : L.length = T.inorder.length)
    (hnext : ∀ u e v, L = u ++ e :: v → next e.ref s = .ok (labelRef v.head?, s))
    (harg : ∀ e ∈ L, argument e.ref s = .ok (k e.ref, s)) (callback : α → υ → ℤ × υ)
    (userinfo : υ) :
    walkNodes argument next callback (labelRef L.head?) userinfo s =
      .ok (visit (fun n => callback (k n)) (L.map Entry.ref) userinfo, s) := by
  have hlt : L.length < MulleStorage.getCount E.nodes + 2 :=
    hlen ▸ length_inorder_lt (u := []) h rfl
  have hne : ∀ e : Entry, e.ref ≠ .nil := fun e => Ref.slot_ne_nil
  refine Ensures.eq (h.loop (iterate_visit (L := L) (u := []) ?_ ?_ ?_ rfl hlt))
  · exact fun _ _ => rfl
  · intro visited userinfo e he hr
    show (if e.ref = .nil then _ else _ : M σ _) s = _
    rw [if_neg (hne e), bind_eq (harg e he)]
    show (if (callback (k e.ref) userinfo).1 = 0 then _ else _ : M σ _) s = _
    rw [if_pos hr]
    rfl
  · intro visited userinfo u e v hL hr
    show (if e.ref = .nil then _ else _ : M σ _) s = _
    rw [if_neg (hne e), bind_eq (harg e (by simp [hL]))]
    show (if (callback (k e.ref) userinfo).1 = 0 then _ else _ : M σ _) s = _
    rw [if_neg hr, bind_eq (hnext u e v hL)]
    rfl

theorem walk_spec {υ : Type} (h : Repr s E z K T) (callback : Ref → υ → ℤ × υ) (userinfo : υ) :
    walk callback userinfo s = .ok (visit callback (T.inorder.map Entry.ref) userinfo, s) := by
  rw [walk, bind_eq h.getRoot, bind_eq (findLeftmostNode_root h)]
  exact walkNodes_spec h rfl (fun _ _ _ => nextNode_of_inorder h) (fun _ _ => rfl) callback userinfo

theorem walkReverse_spec {υ : Type} (h : Repr s E z K T) (callback : Ref → υ → ℤ × υ)
    (userinfo : υ) : walkReverse callback userinfo s =
      .ok (visit callback (T.inorder.map Entry.ref).reverse userinfo, s) := by
  rw [walkReverse, bind_eq h.getRoot, bind_eq (findRightmostNode_root h), ← List.map_reverse]
  exact walkNodes_spec h (by simp) (fun _ _ _ => previousNode_of_inorder h) (fun _ _ => rfl)
    callback userinfo

end Base

namespace Rbtree

open Base

/-! ### `mulle_rbtree_walk` -/

theorem walk_spec {υ : Type} (h : Repr s E z K T) (callback : VoidPtr → υ → ℤ × υ)
    (userinfo : υ) : Rbtree.walk callback userinfo s =
      .ok (visit (fun n => callback (valueAt s n)) (T.inorder.map Entry.ref) userinfo, s) := by
  rw [Rbtree.walk, bind_eq h.getRoot, bind_eq (findLeftmostNode_root h)]
  refine walkNodes_spec h rfl (fun _ _ _ => nextNode_of_inorder h) (fun e he => ?_) callback
    userinfo
  rw [h.valueAt_eq he]
  exact getNodeValue_of_mem_tree h he

/-! ### Enumerators -/

/-- `n` calls of `next`, and where the enumerator is then. -/
def takeItems (next : Ref → M σ (Option VoidPtr × Ref)) :
    ℕ → Ref → M σ (List (Option VoidPtr) × Ref)
  | 0, rover => return ([], rover)
  | n + 1, rover => do
    let (item, rover) ← next rover
    let (items, rover) ← takeItems next n rover
    return (item :: items, rover)

omit [MulleStorage σ] in
/-- An enumerator that hands out the values of the nodes `L`. -/
theorem takeItems_spec {next : Ref → M σ (Option VoidPtr × Ref)} {L : List Entry}
    (hnext : ∀ u e v, L = u ++ e :: v →
      next e.ref s = .ok ((some (valueAt s e.ref), labelRef v.head?), s))
    (hend : next .nil s = .ok ((none, .nil), s)) (n : ℕ) :
    takeItems next n (labelRef L.head?) s =
      .ok (((L.take n).map (fun e => some (valueAt s e.ref)) ++
        List.replicate (n - L.length) none, labelRef (L.drop n).head?), s) := by
  suffices hall : ∀ (n : ℕ) (u v : List Entry), L = u ++ v →
      takeItems next n (labelRef v.head?) s =
        .ok (((v.take n).map (fun e => some (valueAt s e.ref)) ++
          List.replicate (n - v.length) none, labelRef (v.drop n).head?), s) from hall n [] L rfl
  intro n
  induction n with
  | zero =>
    intro u v _
    simp [takeItems]
    rfl
  | succ n ih =>
    intro u v hL
    cases v with
    | nil =>
      have hrest := ih u [] hL
      simp only [List.head?_nil, labelRef_none, List.take_nil, List.map_nil, List.nil_append,
        List.length_nil, Nat.sub_zero, List.drop_nil] at hrest
      refine (bind_eq hend).trans ((bind_eq hrest).trans ?_)
      simp [List.replicate_succ]
      rfl
    | cons e v =>
      have hrest := ih (u ++ [e]) v (by simpa using hL)
      refine (bind_eq (hnext u e v hL)).trans ((bind_eq hrest).trans ?_)
      simp
      rfl

theorem enumeratorNext_of_inorder (h : Repr s E z K T) (hT : T.inorder = u ++ e :: v) :
    enumeratorNext e.ref s = .ok ((some (valueAt s e.ref), labelRef v.head?), s) := by
  have he : e ∈ T.inorder := by simp [hT]
  rw [enumeratorNext, if_neg nofun, bind_eq (getNodeValue_of_mem_tree h he),
    bind_eq (nextNode_of_inorder h hT), h.valueAt_eq he]
  rfl

theorem reverseenumeratorNext_of_inorder (h : Repr s E z K T)
    (hT : T.inorder.reverse = u ++ e :: v) :
    reverseenumeratorNext e.ref s = .ok ((some (valueAt s e.ref), labelRef v.head?), s) := by
  have he : e ∈ T.inorder := by
    rw [← List.mem_reverse, hT]
    simp
  rw [reverseenumeratorNext, if_neg nofun, bind_eq (getNodeValue_of_mem_tree h he),
    bind_eq (previousNode_of_inorder h hT), h.valueAt_eq he]
  rfl


/-! ### `mulle_rbtree_for` -/

theorem enumerateAll_spec (h : Repr s E z K T) :
    enumerateAll s = .ok (values E.options T, s) := by
  have hfirst := findLeftmostNode_root h
  refine Ensures.eq (.bind_eq (.trans (bind_eq h.getRoot) hfirst) (h.loop
    (Ensures.iterate_list (L := T.inorder) (u := []) (I := fun u' v' q s' =>
      q = (u'.map (Entry.value E.options), labelRef v'.head?) ∧ s = s')
    ?_ ?_ rfl (length_inorder_lt (u := []) h rfl) ⟨rfl, rfl⟩)))
  · rintro u' e v' _ _ hT ⟨rfl, rfl⟩
    have hvalue := getNodeValue_of_mem_tree h (e := e) (by simp [hT])
    have hnext := nextNode_of_inorder h hT
    have hrover : enumeratorNext (labelRef (e :: v').head?) s =
        .ok ((some (e.value E.options), labelRef v'.head?), s) := by
      rw [enumeratorNext, List.head?_cons, labelRef_some, if_neg nofun]
      exact .trans (bind_eq hvalue) (bind_eq hnext)
    exact .bind_eq hrover (.pure ⟨_, rfl, by simp, rfl⟩)
  · rintro _ _ ⟨rfl, rfl⟩
    have hrover : enumeratorNext (labelRef ([] : List Entry).head?) s = .ok ((none, .nil), s) := rfl
    refine .bind_eq hrover (.pure ⟨_, rfl, ?_, rfl⟩)
    rw [values_eq]

/-! ### `mulle_rbtree_done` -/

/-- The calls of `release`. -/
def releaseEvents (options : BitVec 32) (T : ETree) : List Event :=
  T.inorder.map fun e => .release (e.value options)

theorem releaseAll_spec (h : Repr s E z K T) :
    Ensures (whileLoop (fun node => return node ≠ .nil)
      (fun node => do
        release (← getNodeValue node)
        nextNode node) (labelRef T.inorder.head?)) s fun _ s' =>
      Repr s' (E.traced (releaseEvents E.options T)) z K T := by
  refine whileLoop_spec h (Ensures.iterate_list (L := T.inorder) (u := [])
    (I := fun u' v' n s' => n = labelRef v'.head? ∧
      Repr s' (E.traced (u'.map fun e => .release (e.value E.options))) z K T)
    ?_ ?_ rfl (length_inorder_lt (u := []) h rfl) ⟨rfl, by simpa using h⟩)
  · rintro u' e v' _ s' hT ⟨rfl, h'⟩
    have hcond : (return labelRef (e :: v').head? ≠ .nil : M σ Bool) s' = .ok (true, s') := rfl
    have hvalue := getNodeValue_of_mem_tree h' (e := e) (by simp [hT])
    refine .bind_eq hcond (Ensures.bind (P := fun n s'' => n = labelRef v'.head? ∧
      Repr s'' (E.traced ((u' ++ [e]).map fun e => .release (e.value E.options))) z K T)
      (.bind_eq hvalue ((Holds.emit h' _).bind fun _ s'' h'' => ?_)) ?_)
    · have h'' : Repr s'' _ z K T := h''
      rw [Env.traced_traced] at h''
      rw [List.map_append]
      exact .of_eq (nextNode_of_inorder h'' hT) ⟨rfl, h''⟩
    · rintro _ s'' ⟨rfl, h''⟩
      exact .pure ⟨_, rfl, rfl, h''⟩
  · rintro _ s' ⟨rfl, h'⟩
    have hcond : (return labelRef ([] : List Entry).head? ≠ .nil : M σ Bool) s' =
      .ok (false, s') := rfl
    exact .bind_eq hcond (.pure ⟨_, rfl, h'⟩)

theorem done_spec (cb : Callbacks) (h : Repr s E z K T) :
    Ensures (done cb) s fun _ s' =>
      s'.trace = E.trace ++ (if cb.releases then releaseEvents E.options T else []) ∧
      ∀ i, s'.mem (.slot i) = none := by
  have hall : Ensures (when cb.releases do
      let node ← findLeftmostNode (← getRoot)
      let _ ← whileLoop (fun node => return node ≠ .nil)
        (fun node => do
          release (← getNodeValue node)
          nextNode node) node) s fun _ s' => Repr s' (E.traced (if cb.releases then
            releaseEvents E.options T else [])) z K T := by
    cases cb.releases with
    | false =>
      refine .pure ?_
      rwa [if_neg nofun, Env.traced_nil]
    | true =>
      rw [if_pos rfl, when_true]
      exact .bind_eq h.getRoot (.bind_eq (findLeftmostNode_root h)
        ((releaseAll_spec h).bind fun _ s' h' => .pure h'))
  refine hall.bind fun _ s' h' => .of_eq rfl ⟨?_, fun i => rfl⟩
  exact congrArg Env.trace (Holds.env h')

end Rbtree
end MulleRbtree
