import MulleRbtree.Library.Zipper

/-!
# How the nodes of a tree are wired

What a node knows of the tree is its parent and its two children.  A rotation changes this for four
nodes at most, wherever it takes place, and taking a node out changes it for at most six.

* `wires p t`: every label of `t` with the labels of its parent and its children;
* `outer c a`: the same around a place whose subtree has the root `a`;
* `rewired t t'`: how many nodes of `t'` are not wired as in `t`;
* `Rotates k t t'`: from `t` to `t'` by `k` rotations (`Rotates.rewired_le`);
* `rewired_leaf`, `rewired_splice`, `rewired_replace`: a leaf more, and a node less.
-/

namespace BinaryTree

variable {α : Type}

/-- A label with the labels of the parent, the left and the right child. -/
abbrev Wire (α : Type) : Type := α × Option α × Option α × Option α

/-- The wire of a node whose children have the labels `x`, on side `d`, and `y`. -/
def wire (p : Option α) (d : Side) (a : α) (x y : Option α) : Wire α :=
  match d with
  | .left => (a, p, x, y)
  | .right => (a, p, y, x)

def wires (p : Option α) : BinaryTree α → Multiset (Wire α)
  | nil => 0
  | node a l r => wire p .left a l.label? r.label? ::ₘ (wires (some a) l + wires (some a) r)

/-- The nearest ancestor. -/
def Path.parent : Path α → Option α
  | [] => none
  | f :: _ => some f.label

def outer : Path α → Option α → Multiset (Wire α)
  | [], _ => 0
  | f :: c, a => wire (Path.parent c) f.side f.label a f.sibling.label? ::ₘ
      (wires (some f.label) f.sibling + outer c (some f.label))

@[simp] theorem wires_nil (p : Option α) : wires p nil = 0 := rfl

theorem wires_join (p : Option α) (d : Side) (a : α) (x y : BinaryTree α) : wires p (join d a x y) =
    wire p d a x.label? y.label? ::ₘ (wires (some a) x + wires (some a) y) := by
  cases d with
  | left => rfl
  | right =>
    rw [join_right, wires, add_comm (wires _ y)]
    rfl

/-- The wires of a tree are those around a place and those of the subtree there. -/
theorem wires_plug (c : Path α) (t : BinaryTree α) :
    wires none (plug c t) = wires c.parent t + outer c t.label? := by
  induction c generalizing t with
  | nil => exact (add_zero _).symm
  | cons f c ih =>
    rw [plug_cons, ih, Frame.fill, wires_join, label?_join, outer, Path.parent]
    simp only [← Multiset.singleton_add]
    abel

/-- A wire belongs to a node at some place. -/
theorem exists_plug_of_wire {w : Wire α} {c : Path α} {t : BinaryTree α}
    (hw : w ∈ wires c.parent t) : ∃ e a l r, plug c t = plug e (node a l r) ∧
      w = (a, e.parent, l.label?, r.label?) := by
  induction t generalizing c with
  | nil => exact absurd hw (Multiset.notMem_zero w)
  | node a l r ihl ihr =>
    rw [wires, Multiset.mem_cons, Multiset.mem_add] at hw
    rcases hw with rfl | hw | hw
    · exact ⟨c, a, l, r, rfl, rfl⟩
    · exact ihl (c := ⟨.left, a, r⟩ :: c) hw
    · exact ihr (c := ⟨.right, a, l⟩ :: c) hw

variable [DecidableEq α]

/-! ### Differences -/

section Differences

variable {p q a b : Option α} {w w' : Wire α} {A A' B B' : Multiset (Wire α)} {m n : ℕ}

theorem card_self_sub (A : Multiset (Wire α)) : (A - A).card = 0 := by
  rw [tsub_self]
  rfl

theorem card_add_sub_le (h : (A - A').card ≤ m) (h' : (B - B').card ≤ n) :
    (A + B - (A' + B')).card ≤ m + n := by
  have hle : A + B - (A' + B') ≤ A - A' + (B - B') := add_tsub_add_le_tsub_add_tsub
  have hcard := Multiset.card_le_card hle
  rw [Multiset.card_add] at hcard
  omega

theorem card_cons_sub_le (h : (A - A').card ≤ n) : (w ::ₘ A - w' ::ₘ A').card ≤ n + 1 := by
  have hone : ({w} - {w'} : Multiset (Wire α)).card ≤ 1 :=
    Multiset.card_le_card (tsub_le_self (a := ({w} : Multiset (Wire α))))
  have h' := card_add_sub_le hone h
  rw [Multiset.singleton_add, Multiset.singleton_add] at h'
  omega

/-- The parent of a subtree is known to its root only. -/
theorem card_wires_sub_le (p q : Option α) (t : BinaryTree α) :
    (wires p t - wires q t).card ≤ 1 := by
  cases t with
  | nil => simp
  | node a l r => exact card_cons_sub_le (card_self_sub _).le

/-- The root of a subtree is known to its parent only. -/
theorem card_outer_sub_le (c : Path α) (a b : Option α) : (outer c a - outer c b).card ≤ 1 := by
  cases c with
  | nil => simp [outer]
  | cons f c => exact card_cons_sub_le (card_self_sub _).le

end Differences

/-! ### Wires that change -/

/-- How many nodes of `t'` are not wired as in `t`. -/
def rewired (t t' : BinaryTree α) : ℕ := (wires none t' - wires none t).card

variable {t t' t'' x y b e : BinaryTree α} {c g : Path α} {d : Side} {a p : α} {k m n : ℕ}

theorem rewired_self (t : BinaryTree α) : rewired t t = 0 := card_self_sub _

theorem rewired_triangle (t t' t'' : BinaryTree α) :
    rewired t t'' ≤ rewired t t' + rewired t' t'' := by
  have hle : wires none t'' - wires none t ≤
      wires none t'' - wires none t' + (wires none t' - wires none t) := tsub_le_tsub_add_tsub
  have hcard := Multiset.card_le_card hle
  rw [Multiset.card_add] at hcard
  unfold rewired
  omega

/-- What changes at a place is at most one more than what changes in the subtree. -/
theorem rewired_plug_le (h : (wires c.parent t' - wires c.parent t).card ≤ n) :
    rewired (plug c t) (plug c t') ≤ n + 1 := by
  rw [rewired, wires_plug, wires_plug]
  exact card_add_sub_le h (card_outer_sub_le c _ _)

/-! ### Rotations -/

/-- One rotation: `p` goes down on side `d`, its child `a` goes up. -/
inductive Rotated : BinaryTree α → BinaryTree α → Prop
  | turn (c : Path α) (d : Side) (p a : α) (x b e : BinaryTree α) :
      Rotated (plug c (join d p x (join d a b e))) (plug c (join d a (join d p x b) e))

omit [DecidableEq α] in
theorem Rotated.inorder (h : Rotated t t') : t'.inorder = t.inorder := by
  cases h with
  | turn c d p a x b e => rw [inorder_plug, inorder_plug, inorder_rotate, join_other]

theorem Rotated.rewired_le (h : Rotated t t') : rewired t t' ≤ 4 := by
  cases h with
  | turn c d p a x b e =>
    apply rewired_plug_le
    -- apart from the two nodes, only the root of the subtree that changes sides is concerned
    have hbefore : wires c.parent (join d p x (join d a b e)) =
        wire c.parent d p x.label? (some a) ::ₘ wire (some p) d a b.label? e.label? ::ₘ
          (wires (some a) b + (wires (some p) x + wires (some a) e)) := by
      rw [wires_join, wires_join, label?_join]
      simp only [← Multiset.singleton_add]
      abel
    have hafter : wires c.parent (join d a (join d p x b) e) =
        wire c.parent d a (some p) e.label? ::ₘ wire (some a) d p x.label? b.label? ::ₘ
          (wires (some p) b + (wires (some p) x + wires (some a) e)) := by
      rw [wires_join, wires_join, label?_join]
      simp only [← Multiset.singleton_add]
      abel
    rw [hbefore, hafter]
    apply card_cons_sub_le
    apply card_cons_sub_le
    exact card_add_sub_le (card_wires_sub_le _ _ b) (card_self_sub _).le

/-- `k` rotations, one after the other. -/
inductive Rotates : ℕ → BinaryTree α → BinaryTree α → Prop
  | refl (t : BinaryTree α) : Rotates 0 t t
  | step {t t' t'' : BinaryTree α} {k : ℕ} : Rotated t t' → Rotates k t' t'' → Rotates (k + 1) t t''

omit [DecidableEq α] in
theorem Rotated.rotates (h : Rotated t t') : Rotates 1 t t' := .step h (.refl t')

omit [DecidableEq α] in
theorem Rotates.inorder (h : Rotates k t t') : t'.inorder = t.inorder := by
  induction h with
  | refl t => rfl
  | step h _ ih => rw [ih, h.inorder]

theorem Rotates.rewired_le (h : Rotates k t t') : rewired t t' ≤ 4 * k := by
  induction h with
  | refl t => rw [rewired_self]
  | @step t t' t'' k h _ ih =>
    have hstep := h.rewired_le
    have htri := rewired_triangle t t' t''
    omega

/-! ### A node more, a node less -/

theorem rewired_leaf (c : Path α) (a : α) : rewired (plug c nil) (plug c (node a nil nil)) ≤ 2 := by
  apply rewired_plug_le
  exact Multiset.card_le_card (tsub_le_self (a := wires c.parent (node a nil nil)))

/-- A subtree moves up to the place of its parent. -/
theorem card_wires_join_sub_le (p q : Option α) (d : Side) (a : α) (x : BinaryTree α) :
    (wires p x - wires q (join d a x nil)).card ≤ 1 := by
  have hle : wires p x - wires q (join d a x nil) ≤ wires p x - wires (some a) x := by
    apply tsub_le_tsub_left
    rw [wires_join]
    exact (Multiset.le_add_right _ _).trans (Multiset.le_cons_self _ _)
  exact (Multiset.card_le_card hle).trans (card_wires_sub_le _ _ x)

/-- A node with one child is taken out. -/
theorem rewired_splice (c : Path α) (d : Side) (a : α) (x : BinaryTree α) :
    rewired (plug c (join d a x nil)) (plug c x) ≤ 2 :=
  rewired_plug_le (card_wires_join_sub_le _ _ d a x)

/-- One ancestor has got another label. -/
theorem card_outer_relabel_le (g c : Path α) (d : Side) (a a' : α) (l : BinaryTree α)
    (b : Option α) : (outer (g ++ ⟨d, a', l⟩ :: c) b - outer (g ++ ⟨d, a, l⟩ :: c) b).card ≤ 4 := by
  have hhead : ∀ b, (outer (⟨d, a', l⟩ :: c) b - outer (⟨d, a, l⟩ :: c) b).card ≤ 3 := by
    intro b
    apply card_cons_sub_le
    exact card_add_sub_le (card_wires_sub_le _ _ l) (card_outer_sub_le c _ _)
  induction g generalizing b with
  | nil => exact (hhead b).trans (by decide)
  | cons f g ih =>
    have hsib := (card_self_sub (wires (some f.label) f.sibling)).le
    cases g with
    | nil =>
      -- its parent is the relabelled one
      apply card_cons_sub_le
      exact (card_add_sub_le hsib (hhead _)).trans (by decide)
    | cons f' g =>
      have hsame := card_self_sub {wire (some f'.label) f.side f.label b f.sibling.label?}
      have h := card_add_sub_le hsame.le (card_add_sub_le hsib (ih (some f.label)))
      rw [Multiset.singleton_add, Multiset.singleton_add] at h
      exact h.trans (by decide)

/-- A node is taken out, and its label given to an ancestor. -/
theorem rewired_replace (g c : Path α) (d d' : Side) (a y : α) (l x : BinaryTree α) :
    rewired (plug (g ++ ⟨d, a, l⟩ :: c) (join d' y x nil)) (plug (g ++ ⟨d, y, l⟩ :: c) x) ≤ 6 := by
  have houter : (outer (g ++ ⟨d, y, l⟩ :: c) x.label? -
      outer (g ++ ⟨d, a, l⟩ :: c) (some y)).card ≤ 5 := by
    have h₁ := card_outer_sub_le (g ++ ⟨d, y, l⟩ :: c) x.label? (some y)
    have h₂ := card_outer_relabel_le g c d a y l (some y)
    have htri : outer (g ++ ⟨d, y, l⟩ :: c) x.label? - outer (g ++ ⟨d, a, l⟩ :: c) (some y) ≤
        (outer (g ++ ⟨d, y, l⟩ :: c) x.label? - outer (g ++ ⟨d, y, l⟩ :: c) (some y)) +
          (outer (g ++ ⟨d, y, l⟩ :: c) (some y) - outer (g ++ ⟨d, a, l⟩ :: c) (some y)) :=
      tsub_le_tsub_add_tsub
    have hcard := Multiset.card_le_card htri
    rw [Multiset.card_add] at hcard
    omega
  rw [rewired, wires_plug, wires_plug, label?_join]
  exact card_add_sub_le (card_wires_join_sub_le _ _ d' y x) houter

end BinaryTree
