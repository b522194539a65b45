import MulleRbtree.Library.Zipper

/-!
# Steps along the order of a tree

The next node on side `d` is the outermost one of the subtree on that side, or else the nearest
ancestor there.  A single step may lead through the whole height of the tree, but steps in a row do
not: each lasts 2 links, up to the change in the number of bends on the way from the root.

* `orderTo d t`: the labels in the order that leads to side `d`; `ahead d c`: those still to come
  when the subtree at the end of `c` is done with;
* `bends d c`: how often the way from the root bends to side `d`;
* `stride d c x`: the number of links to the next node, from the node at the end of `c` that has `x`
  on side `d`;
* `exists_stride`: where a step leads, and what it makes of the bends.
-/

namespace BinaryTree

variable {α : Type}

/-! ### Orders -/

/-- The labels in the order that leads to one side. -/
def orderTo (d : Side) (t : BinaryTree α) : List α :=
  match d with
  | .left => t.inorder.reverse
  | .right => t.inorder

/-- What comes after a subtree at the end of the path, in the order that leads to one side. -/
def ahead (d : Side) (c : Path α) : List α :=
  match d with
  | .left => (before c).reverse
  | .right => after c

@[simp] theorem orderTo_nil (d : Side) : orderTo d (nil : BinaryTree α) = [] := by cases d <;> rfl

@[simp] theorem ahead_nil (d : Side) : ahead d ([] : Path α) = [] := by cases d <;> rfl

theorem orderTo_join (d : Side) (a : α) (x y : BinaryTree α) :
    orderTo d (join d a x y) = orderTo d y ++ a :: orderTo d x := by
  cases d <;> simp [orderTo, join]

theorem length_orderTo (d : Side) (t : BinaryTree α) : (orderTo d t).length = t.numNodes := by
  cases d <;> simp [orderTo, length_inorder]

/-- An ancestor comes after a subtree on its other side. -/
theorem ahead_cons (d : Side) (f : Frame α) (c : Path α) :
    ahead d (f :: c) =
      if f.side = d then ahead d c else f.label :: (orderTo d f.sibling ++ ahead d c) := by
  obtain ⟨d', a, u⟩ := f
  cases d <;> cases d' <;> simp [ahead, orderTo, before, after]

/-- Every place in the order is a place in the tree. -/
theorem exists_plug_of_orderTo {d : Side} {a : α} {u v : List α} {t : BinaryTree α}
    (h : orderTo d t = u ++ a :: v) :
    ∃ c x y, t = plug c (join d a x y) ∧ v = orderTo d x ++ ahead d c := by
  cases d with
  | left =>
    have hrev : t.inorder = v.reverse ++ a :: u.reverse := by
      have hr := congrArg List.reverse h
      rwa [orderTo, List.reverse_reverse, List.reverse_append, List.reverse_cons,
        List.append_assoc] at hr
    obtain ⟨c, l, r, ht, hv, -⟩ := exists_plug_of_inorder hrev
    refine ⟨c, l, r, ht, ?_⟩
    rw [← List.reverse_reverse v, hv, List.reverse_append]
    rfl
  | right =>
    obtain ⟨c, l, r, ht, -, hv⟩ := exists_plug_of_inorder h
    exact ⟨c, r, l, ht, hv⟩

/-- What comes next after a node. -/
theorem head?_orderTo_ahead (d : Side) (c : Path α) (x : BinaryTree α) :
    (orderTo d x ++ ahead d c).head? = (outermost d.other x).or (climb d c) := by
  cases d with
  | left => simp [orderTo, ahead, outermost_right, climb_left, List.head?_append, List.head?_reverse]
  | right => simp [orderTo, ahead, outermost_left, climb_right, List.head?_append]

/-! ### Turns -/

/-- How often the way from the root bends to side `d`. -/
def bends (d : Side) (c : Path α) : ℕ := List.countP (fun f => f.side = d) c

@[simp] theorem bends_nil (d : Side) : bends d ([] : Path α) = 0 := rfl

theorem bends_append (d : Side) (c e : Path α) : bends d (c ++ e) = bends d c + bends d e :=
  List.countP_append

theorem bends_cons (d : Side) (f : Frame α) (c : Path α) :
    bends d (f :: c) = bends d c + if f.side = d then 1 else 0 := by
  simp [bends, List.countP_cons]

theorem bends_le (d : Side) (c : Path α) : bends d c ≤ c.length := List.countP_le_length

theorem bends_eq_length {d : Side} {e : Path α} (he : ∀ f ∈ e, f.side = d) :
    bends d e = e.length :=
  List.countP_eq_length.2 fun f hf => decide_eq_true (he f hf)

theorem bends_eq_zero {d d' : Side} (hd : d' ≠ d) {e : Path α} (he : ∀ f ∈ e, f.side = d') :
    bends d e = 0 := by
  refine List.countP_eq_zero.2 fun f hf => ?_
  rw [he f hf]
  simpa using hd

/-! ### Steps -/

/-- How many ancestors on the way up have the place on side `d`, before the first one that has
not. -/
def rise (d : Side) : Path α → ℕ
  | [] => 0
  | f :: c => if f.side = d then rise d c + 1 else 0

/-- The number of links from the root to the outermost node. -/
def spine (d : Side) (t : BinaryTree α) : ℕ := (pop d [] t).elim 0 fun p => p.1.length

/-- The number of links to the next node on side `d`; where there is none they lead out of the
tree. -/
def stride (d : Side) (c : Path α) : BinaryTree α → ℕ
  | nil => rise d c + 1
  | node a l r => spine d.other (node a l r) + 1

theorem stride_of_ne {d : Side} {c : Path α} {x : BinaryTree α} (hx : x ≠ nil) :
    stride d c x = spine d.other x + 1 := by
  cases x with
  | nil => exact absurd rfl hx
  | node a l r => rfl

@[simp] theorem spine_nil (d : Side) : spine d (nil : BinaryTree α) = 0 := by
  rw [spine, pop_nil]
  rfl

theorem spine_pop {d : Side} {c e : Path α} {t r : BinaryTree α} {a : α}
    (h : pop d c t = some (e ++ c, a, r)) : spine d t = e.length := by
  obtain ⟨e', he, hpop⟩ := pop_of_pop h
  obtain rfl := List.append_cancel_right he
  rw [spine, hpop []]
  simp

/-- One link further down. -/
theorem spine_join (d : Side) (a : α) {x : BinaryTree α} (y : BinaryTree α) (hx : x ≠ nil) :
    spine d (join d a x y) = spine d x + 1 := by
  obtain ⟨g, b, r, hpop⟩ := exists_pop d [⟨d, a, y⟩] hx
  obtain ⟨e, rfl, -⟩ := side_of_pop hpop
  have hjoin : pop d [] (join d a x y) = some ((e ++ [⟨d, a, y⟩]) ++ [], b, r) := by
    rw [pop_join, hpop, List.append_nil]
    rfl
  rw [spine_pop hpop, spine_pop hjoin, List.length_append]
  rfl

theorem spine_join_nil (d : Side) (a : α) (y : BinaryTree α) : spine d (join d a nil y) = 0 := by
  rw [spine, pop_join, pop_nil]
  rfl

/-- The outermost node of a subtree is the first one of it in the other order. -/
theorem orderTo_pop {d : Side} {c g : Path α} {t r : BinaryTree α} {a : α}
    (h : pop d.other c t = some (g, a, r)) :
    orderTo d t ++ ahead d c = a :: (orderTo d r ++ ahead d g) := by
  refine pop_induction
    (motive := fun c t => orderTo d t ++ ahead d c = a :: (orderTo d r ++ ahead d g))
    ?_ ?_ h
  · rw [join_other, orderTo_join]
    simp
  · intro c b x y _ ih
    rw [ahead_cons, if_neg d.other_ne] at ih
    rw [join_other, orderTo_join, List.append_assoc]
    exact ih

/-- The way up passes children of side `d` only. -/
theorem exists_of_climb (d : Side) (c : Path α) :
    (ahead d c = [] ∧ (∀ f ∈ c, f.side = d) ∧ rise d c = c.length) ∨
    ∃ e f c', c = e ++ f :: c' ∧ (∀ f ∈ e, f.side = d) ∧ f.side = d.other ∧
      rise d c = e.length ∧ ahead d c = f.label :: (orderTo d f.sibling ++ ahead d c') := by
  induction c with
  | nil => exact .inl ⟨ahead_nil d, by simp, rfl⟩
  | cons f c ih =>
    rw [ahead_cons, rise]
    by_cases hf : f.side = d
    · rw [if_pos hf, if_pos hf]
      rcases ih with ⟨hnil, hside, hrise⟩ | ⟨e, f', c', rfl, hside, hf', hrise, hahead⟩
      · exact .inl ⟨hnil, List.forall_mem_cons.2 ⟨hf, hside⟩, by rw [hrise]; rfl⟩
      · exact .inr ⟨f :: e, f', c', rfl, List.forall_mem_cons.2 ⟨hf, hside⟩, hf',
          by rw [hrise]; rfl, hahead⟩
    · rw [if_neg hf, if_neg hf]
      exact .inr ⟨[], f, c, rfl, by simp, Side.eq_other hf, rfl, rfl⟩

/-- The next node, if there is one: how many links away it is, up to how the bends change. -/
theorem exists_stride (d : Side) (c : Path α) (a : α) (x y : BinaryTree α) :
    (orderTo d x ++ ahead d c = [] ∧ stride d c x + bends d.other c = bends d c + 1) ∨
    ∃ c' b x' y', orderTo d x ++ ahead d c = b :: (orderTo d x' ++ ahead d c') ∧
      plug c (join d a x y) = plug c' (join d b x' y') ∧
      stride d c x + bends d c' + bends d.other c = bends d c + bends d.other c' + 2 := by
  by_cases hx : x = nil
  · subst hx
    rw [orderTo_nil, List.nil_append]
    show _ ∧ rise d c + 1 + _ = _ ∨ ∃ c' b x' y', _ ∧ _ ∧ rise d c + 1 + _ + _ = _
    rcases exists_of_climb d c with ⟨hnil, hside, hrise⟩ | ⟨e, f, c', rfl, hside, hf, hrise, hahead⟩
    · refine .inl ⟨hnil, ?_⟩
      rw [hrise, bends_eq_length hside, bends_eq_zero d.other_ne.symm hside]
    · -- up to the ancestor `f`, on whose other side the place lies
      refine .inr ⟨c', f.label, f.sibling, plug e (join d a nil y), hahead, ?_, ?_⟩
      · rw [plug_append, plug_cons, Frame.fill, hf, join_other]
      · rw [hrise, bends_append, bends_append, bends_cons, bends_cons, bends_eq_length hside,
          bends_eq_zero d.other_ne.symm hside, hf, if_neg d.other_ne, if_pos rfl]
        omega
  · -- down, after one bend to side `d`
    obtain ⟨g, b, r, hpop⟩ := exists_pop d.other (⟨d, a, y⟩ :: c) hx
    obtain ⟨e, rfl, hside⟩ := side_of_pop hpop
    have hahead := orderTo_pop hpop
    rw [ahead_cons, if_pos rfl] at hahead
    refine .inr ⟨_, b, r, nil, hahead, ?_, ?_⟩
    · have hplug := plug_pop hpop
      rw [join_other] at hplug
      exact hplug.symm
    · rw [stride_of_ne hx, spine_pop hpop, bends_append, bends_append, bends_cons, bends_cons,
        bends_eq_length hside, bends_eq_zero d.other_ne hside, if_pos rfl,
        if_neg (show d ≠ d.other from d.other_ne.symm)]
      omega

/-- The first node of the whole order. -/
theorem exists_first (d : Side) {t : BinaryTree α} (ht : t ≠ nil) :
    ∃ c a x, t = plug c (join d a x nil) ∧ orderTo d t = a :: (orderTo d x ++ ahead d c) ∧
      outermost d.other t = some a ∧ bends d c = 0 ∧ bends d.other c = spine d.other t := by
  obtain ⟨g, a, r, hpop⟩ := exists_pop d.other [] ht
  obtain ⟨e, rfl, hside⟩ := side_of_pop hpop
  have hplug := plug_pop hpop
  rw [join_other] at hplug
  have horder := orderTo_pop hpop
  rw [ahead_nil, List.append_nil] at horder
  refine ⟨e ++ [], a, r, hplug.symm, horder, outermost_pop hpop, ?_, ?_⟩
  · rw [List.append_nil, bends_eq_zero d.other_ne hside]
  · rw [spine_pop hpop, List.append_nil, bends_eq_length hside]

end BinaryTree
