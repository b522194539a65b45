import MulleRbtree.Library.RedBlack

/-!
# Credit in the colours of a tree

Repairing a red-black tree may recolour nodes all the way up to the root, but not often: what is
recoloured is paid for by credit that earlier changes have left in the tree.  Here a tree is its
colours, with `true` for red.

* `changes`: in how many places two lists differ;
* `weight`, `credit`: a black node with two red children holds two units, one with two black
  children a single one;
* `around c b`: the credit of what surrounds a place, for a subtree there with the root colour `b`;
* `Charged k t t'`: the changes that lead from `t` to `t'` are paid for by `k`, where a unit of
  credit pays for three changes.
-/

namespace BinaryTree

/-! ### Changes -/

/-- In how many places two lists differ. -/
def changes : List Bool → List Bool → ℕ
  | a :: u, b :: v => (if a = b then 0 else 1) + changes u v
  | _, _ => 0

@[simp] theorem changes_cons (a b : Bool) (u v : List Bool) :
    changes (a :: u) (b :: v) = (if a = b then 0 else 1) + changes u v := rfl

@[simp] theorem changes_self (u : List Bool) : changes u u = 0 := by
  induction u with
  | nil => rfl
  | cons a u ih => simp [ih]

theorem changes_append {u u' : List Bool} (h : u.length = u'.length) (v v' : List Bool) :
    changes (u ++ v) (u' ++ v') = changes u u' + changes v v' := by
  induction u generalizing u' with
  | nil =>
    obtain rfl : u' = [] := List.length_eq_zero_iff.1 h.symm
    simp
  | cons a u ih =>
    cases u' with
    | nil => simp at h
    | cons b u' =>
      have hlen : u.length = u'.length := by simpa using h
      simp only [List.cons_append, changes_cons, ih hlen]
      omega

@[simp] theorem changes_append_left (u v v' : List Bool) :
    changes (u ++ v) (u ++ v') = changes v v' := by
  rw [changes_append rfl, changes_self, Nat.zero_add]

/-- An element less is a change less, at most. -/
theorem changes_erase_le {u u' : List Bool} (h : u.length = u'.length) (a b : Bool)
    (v v' : List Bool) : changes (u ++ v) (u' ++ v') ≤ changes (u ++ a :: v) (u' ++ b :: v') := by
  rw [changes_append h, changes_append h, changes_cons]
  omega

theorem changes_triangle {u v w : List Bool} (huv : u.length = v.length)
    (hvw : v.length = w.length) : changes u w ≤ changes u v + changes v w := by
  induction u generalizing v w with
  | nil => simp [changes]
  | cons a u ih =>
    cases v with
    | nil => simp at huv
    | cons b v =>
      cases w with
      | nil => simp at hvw
      | cons c w =>
        have hrest := ih (v := v) (w := w) (by simpa using huv) (by simpa using hvw)
        have hhead : (if a = c then 0 else 1) ≤
            (if a = b then 0 else 1) + (if b = c then 0 else 1) := by
          cases a <;> cases b <;> cases c <;> decide
        simp only [changes_cons]
        omega

/-- The places where two colourings of a list differ. -/
theorem ncard_ne_le {β : Type} (f g : β → Bool) (N : List β) :
    {n | n ∈ N ∧ f n ≠ g n}.ncard ≤ changes (N.map f) (N.map g) := by
  induction N with
  | nil => simp
  | cons a N ih =>
    have hfinite : {n | n ∈ N ∧ f n ≠ g n}.Finite :=
      (List.finite_toSet N).subset fun n hn => hn.1
    rw [List.map_cons, List.map_cons, changes_cons]
    by_cases ha : f a = g a
    · have hset : {n | n ∈ a :: N ∧ f n ≠ g n} ⊆ {n | n ∈ N ∧ f n ≠ g n} := by
        rintro n ⟨hn, hne⟩
        rcases List.mem_cons.1 hn with rfl | hn
        · exact absurd ha hne
        · exact ⟨hn, hne⟩
      have := Set.ncard_le_ncard hset hfinite
      omega
    · have hset : {n | n ∈ a :: N ∧ f n ≠ g n} ⊆ insert a {n | n ∈ N ∧ f n ≠ g n} := by
        rintro n ⟨hn, hne⟩
        rcases List.mem_cons.1 hn with rfl | hn
        · exact Set.mem_insert _ _
        · exact Set.mem_insert_of_mem _ ⟨hn, hne⟩
      have hle := Set.ncard_le_ncard hset (hfinite.insert a)
      have hinsert := Set.ncard_insert_le a {n | n ∈ N ∧ f n ≠ g n}
      rw [if_neg ha]
      omega

/-! ### Credit -/

variable {t t' t'' x x' y y' : BinaryTree Bool} {c : Path Bool} {f : Frame Bool} {k k' m n : ℕ}

/-- Whether the root is red. -/
def root (t : BinaryTree Bool) : Bool := rootHas id t

@[simp] theorem root_nil : root nil = false := rfl
@[simp] theorem root_join (d : Side) (a : Bool) (x y : BinaryTree Bool) :
    root (join d a x y) = a := rootHas_join id d a x y

/-- The credit that a node of colour `a` holds whose children have the colours `b` and `b'`. -/
def weight : Bool → Bool → Bool → ℕ
  | true, _, _ => 0
  | false, true, true => 2
  | false, false, false => 1
  | false, _, _ => 0

theorem weight_comm (a b b' : Bool) : weight a b b' = weight a b' b := by
  cases a <;> cases b <;> cases b' <;> rfl

theorem weight_le (a b b' : Bool) : weight a b b' ≤ 2 := by
  cases a <;> cases b <;> cases b' <;> decide

def credit : BinaryTree Bool → ℕ
  | nil => 0
  | node a l r => weight a (root l) (root r) + credit l + credit r

@[simp] theorem credit_nil : credit nil = 0 := rfl

@[simp] theorem credit_join (d : Side) (a : Bool) (x y : BinaryTree Bool) :
    credit (join d a x y) = weight a (root x) (root y) + credit x + credit y := by
  cases d with
  | left => rfl
  | right =>
    rw [join_right, credit, weight_comm]
    omega

/-- The credit of what surrounds a place, if the subtree there has a root of the given colour. -/
def around : Path Bool → Bool → ℕ
  | [], _ => 0
  | f :: c, b => weight f.label b (root f.sibling) + credit f.sibling + around c f.label

@[simp] theorem around_nil (b : Bool) : around [] b = 0 := rfl

theorem credit_plug (c : Path Bool) (t : BinaryTree Bool) :
    credit (plug c t) = credit t + around c (root t) := by
  induction c generalizing t with
  | nil => rfl
  | cons f c ih =>
    rw [plug_cons, ih, Frame.fill, credit_join, root_join, around]
    omega

/-- Below a red node the colour of a place does not matter. -/
theorem around_red (hf : f.label = true) (b b' : Bool) : around (f :: c) b = around (f :: c) b' := by
  rw [around, around, hf]
  rfl

theorem around_true_le (c : Path Bool) : around c true ≤ around c false + 2 := by
  cases c with
  | nil => simp
  | cons f c =>
    have := weight_le f.label true (root f.sibling)
    rw [around, around]
    omega

theorem around_false_le (c : Path Bool) : around c false ≤ around c true + 1 := by
  cases c with
  | nil => simp
  | cons f c =>
    have hle : ∀ a b, weight a false b ≤ weight a true b + 1 := by decide
    have := hle f.label (root f.sibling)
    rw [around, around]
    omega

/-! ### Trees that differ in some places -/

/-- Equally long, and different in at most `n` places. -/
structure Differ (n : ℕ) (t t' : BinaryTree Bool) : Prop where
  length : t.inorder.length = t'.inorder.length
  changes : changes t.inorder t'.inorder ≤ n

namespace Differ

theorem refl (t : BinaryTree Bool) : Differ 0 t t := ⟨rfl, (changes_self _).le⟩

theorem mono (h : Differ m t t') (hm : m ≤ n) : Differ n t t' := ⟨h.length, h.changes.trans hm⟩

theorem trans (h : Differ m t t') (h' : Differ n t' t'') : Differ (m + n) t t'' :=
  ⟨h.length.trans h'.length,
    (changes_triangle h.length h'.length).trans (Nat.add_le_add h.changes h'.changes)⟩

/-- A change of the shape is none of the order. -/
theorem reshape (h : Differ n t t') (e : t''.inorder = t'.inorder) : Differ n t t'' := by
  obtain ⟨hlen, hn⟩ := h
  rw [← e] at hlen hn
  exact ⟨hlen, hn⟩

theorem join (d : Side) (a b : Bool) (hx : Differ m x x') (hy : Differ n y y') :
    Differ ((if a = b then 0 else 1) + m + n) (join d a x y) (BinaryTree.join d b x' y') := by
  have hxl := hx.length
  have hyl := hy.length
  have hxn := hx.changes
  have hyn := hy.changes
  cases d with
  | left =>
    refine ⟨by simp [BinaryTree.join, hxl, hyl], ?_⟩
    rw [join_left, join_left, inorder_node, inorder_node, changes_append hxl, changes_cons]
    omega
  | right =>
    refine ⟨by simp [BinaryTree.join, hxl, hyl], ?_⟩
    rw [join_right, join_right, inorder_node, inorder_node, changes_append hyl, changes_cons]
    omega

theorem plug (c : Path Bool) (h : Differ n t t') : Differ n (plug c t) (BinaryTree.plug c t') := by
  refine ⟨?_, ?_⟩
  · simp [inorder_plug, h.length]
  · rw [inorder_plug, inorder_plug, changes_append_left, changes_append h.length, changes_self,
      Nat.add_zero]
    exact h.changes

end Differ

/-- Paint the root black. -/
theorem differ_blacken (t : BinaryTree Bool) : Differ 1 t (t.mapRoot fun _ => false) := by
  cases t with
  | nil => exact (Differ.refl nil).mono (Nat.zero_le 1)
  | node a l r =>
    refine (Differ.join .left a false (.refl l) (.refl r)).mono ?_
    split_ifs <;> omega

theorem credit_blacken_le (t : BinaryTree Bool) :
    credit (t.mapRoot fun _ => false) ≤ credit t + 2 := by
  cases t with
  | nil => simp
  | node a l r =>
    have := weight_le false (root l) (root r)
    rw [mapRoot_node, credit, credit]
    omega

/-! ### Changes that are paid for -/

/-- The changes that lead from `t` to `t'` are paid for by `k` and by credit. -/
structure Charged (k : ℕ) (t t' : BinaryTree Bool) : Prop where
  length : t.inorder.length = t'.inorder.length
  paid : changes t.inorder t'.inorder + 3 * credit t' ≤ 3 * credit t + k

namespace Charged

theorem refl (t : BinaryTree Bool) : Charged 0 t t := ⟨rfl, by simp⟩

theorem mono (h : Charged k t t') (hk : k ≤ k') : Charged k' t t' :=
  ⟨h.length, h.paid.trans (Nat.add_le_add_left hk _)⟩

theorem trans (h : Charged k t t') (h' : Charged k' t' t'') : Charged (k + k') t t'' := by
  refine ⟨h.length.trans h'.length, ?_⟩
  have := changes_triangle h.length h'.length
  have := h.paid
  have := h'.paid
  omega

/-- Some changes first. -/
theorem of_differ_trans (h : Differ n t t') (h' : Charged k t' t'')
    (hn : n + 3 * credit t' + k ≤ 3 * credit t + k') : Charged k' t t'' := by
  refine ⟨h.length.trans h'.length, ?_⟩
  have := changes_triangle h.length h'.length
  have := h.changes
  have := h'.paid
  omega

theorem of_differ (h : Differ n t t') (hn : n + 3 * credit t' ≤ 3 * credit t + k) :
    Charged k t t' := ⟨h.length, (Nat.add_le_add_right h.changes _).trans hn⟩

end Charged

/-! ### Roots -/

/-- Where a subtree is missing, the root of the tree is black. -/
theorem rootHas_plug_of_hole {α : Type} {red : α → Bool} {c : Path α} {t : BinaryTree α}
    (hc : Hole red c n) (ht : c = [] → rootHas red t = false) :
    rootHas red (BinaryTree.plug c t) = false := by
  induction c generalizing t n with
  | nil => exact ht rfl
  | cons f c ih =>
    rw [plug_cons]
    cases hf : red f.label with
    | true =>
      obtain ⟨-, -, hr, hc'⟩ := (hole_red hf).1 hc
      refine ih hc' fun hnil => ?_
      rw [hnil] at hr
      cases hr
    | false => exact ih ((hole_black hf).1 hc).2 fun _ => by rw [Frame.fill, rootHas_join, hf]

end BinaryTree
