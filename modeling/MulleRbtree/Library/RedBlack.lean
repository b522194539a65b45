import MulleRbtree.Library.Zipper
import Mathlib.Analysis.SpecialFunctions.Log.Base

/-!
# Red-black trees

Over any label type with a predicate `red`, for trees and for places in trees.

* `Balanced red t n`: no red node has a red child and every path from the root of `t` to a leaf
  passes `n` black nodes; `IsRedBlack`: balanced, with a black root;
* `Hole red c n`: the surroundings `c` of a place are those of a red-black tree in which a subtree
  of black height `n` is missing at the place; `takesRed c` says whether the subtree may have a red
  root;
* `IsRedBlack.height_le`: such a tree is at most twice as high as it must be;
* `HasBlackHeight red t n`: the second half of `Balanced` on its own;
* `isRedBlack_plug`, `hole_of_isRedBlack`: filling a hole and making one; `Awaits red c n` is the
  same without a definition along the path, and `CountsMore` is for a subtree that lacks a black
  node;
* both notions look at labels only through `red` (`Balanced.mapRoot`, `Hole.mapLabels`, …).
-/

namespace BinaryTree

variable {α β : Type} (red : α → Bool)

/-- No red node has a red child, and all paths to a leaf pass `n` black nodes. -/
def Balanced : BinaryTree α → ℕ → Prop
  | nil, n => n = 0
  | node a l r, n =>
      if red a then rootHas red l = false ∧ rootHas red r = false ∧ Balanced l n ∧ Balanced r n
      else ∃ m, n = m + 1 ∧ Balanced l m ∧ Balanced r m

/-- A red-black tree: balanced, with a black root. -/
def IsRedBlack (t : BinaryTree α) : Prop := rootHas red t = false ∧ ∃ n, Balanced red t n

variable {red}

@[simp] theorem balanced_nil {n : ℕ} : Balanced red (nil : BinaryTree α) n ↔ n = 0 := Iff.rfl

theorem balanced_red {d : Side} {a : α} {x y : BinaryTree α} {n : ℕ} (h : red a = true) :
    Balanced red (join d a x y) n ↔
      rootHas red x = false ∧ rootHas red y = false ∧ Balanced red x n ∧ Balanced red y n := by
  cases d <;> simp only [join, Balanced, h, if_true]
  tauto

theorem balanced_black {d : Side} {a : α} {x y : BinaryTree α} {n : ℕ} (h : red a = false) :
    Balanced red (join d a x y) n ↔ ∃ m, n = m + 1 ∧ Balanced red x m ∧ Balanced red y m := by
  cases d <;> simp only [join, Balanced, h, Bool.false_eq_true, if_false]
  simp only [and_comm (a := Balanced red y _)]

/-- A tree of positive black height, or one with a red root, is not empty. -/
theorem Balanced.ne_nil {t : BinaryTree α} {n : ℕ} (h : Balanced red t (n + 1)) : t ≠ nil := by
  rintro rfl
  simp at h

/-- The black height is determined by the tree. -/
theorem Balanced.unique {t : BinaryTree α} {m n : ℕ} (h : Balanced red t m)
    (h' : Balanced red t n) : m = n := by
  induction t generalizing m n with
  | nil => rw [balanced_nil] at h h'; rw [h, h']
  | node a l r ihl _ =>
    cases ha : red a with
    | true => exact ihl ((balanced_red (d := .left) ha).1 h).2.2.1
                ((balanced_red (d := .left) ha).1 h').2.2.1
    | false =>
      obtain ⟨m', rfl, hl, -⟩ := (balanced_black (d := .left) ha).1 h
      obtain ⟨n', rfl, hl', -⟩ := (balanced_black (d := .left) ha).1 h'
      rw [ihl hl hl']

theorem rootHas_map {q' : β → Bool} {q : α → Bool} {f : α → β} {t : BinaryTree α}
    (hf : ∀ a ∈ t.inorder, q' (f a) = q a) : rootHas q' (t.map f) = rootHas q t := by
  cases t with
  | nil => rfl
  | node a l r => exact hf a (by simp)

/-- Relabelling that keeps the colours. -/
theorem balanced_map {red' : β → Bool} {f : α → β} {t : BinaryTree α} {n : ℕ}
    (hf : ∀ a ∈ t.inorder, red' (f a) = red a) : Balanced red' (t.map f) n ↔ Balanced red t n := by
  induction t generalizing n with
  | nil => rfl
  | node a l r ihl ihr =>
    have hl : ∀ b ∈ l.inorder, red' (f b) = red b := fun b hb => hf b (by simp [hb])
    have hr : ∀ b ∈ r.inorder, red' (f b) = red b := fun b hb => hf b (by simp [hb])
    simp only [map, Balanced, hf a (by simp), rootHas_map hl, rootHas_map hr, ihl hl, ihr hr]

theorem isRedBlack_map {red' : β → Bool} {f : α → β} {t : BinaryTree α}
    (hf : ∀ a ∈ t.inorder, red' (f a) = red a) : IsRedBlack red' (t.map f) ↔ IsRedBlack red t := by
  simp only [IsRedBlack, rootHas_map hf, balanced_map hf]

theorem balanced_mapRoot {f : α → α} (hf : ∀ a, red (f a) = red a) {t : BinaryTree α} {n : ℕ} :
    Balanced red (t.mapRoot f) n ↔ Balanced red t n := by
  cases t <;> simp [Balanced, hf]

/-- Painting the root black never breaks the balance. -/
theorem Balanced.blacken {f : α → α} (hf : ∀ a, red (f a) = false) {t : BinaryTree α} {n : ℕ}
    (h : Balanced red t n) : IsRedBlack red (t.mapRoot f) := by
  cases t with
  | nil => exact ⟨rfl, n, h⟩
  | node a l r =>
    refine ⟨hf a, ?_⟩
    cases ha : red a with
    | true =>
      obtain ⟨-, -, hl, hr⟩ := (balanced_red (d := .left) ha).1 h
      exact ⟨n + 1, (balanced_black (d := .left) (hf a)).2 ⟨n, rfl, hl, hr⟩⟩
    | false =>
      obtain ⟨m, rfl, hl, hr⟩ := (balanced_black (d := .left) ha).1 h
      exact ⟨m + 1, (balanced_black (d := .left) (hf a)).2 ⟨m, rfl, hl, hr⟩⟩

/-! ### Height -/

/-- A tree of black height `n` has at least `2 ^ n - 1` nodes. -/
theorem Balanced.two_pow_le {t : BinaryTree α} {n : ℕ} (h : Balanced red t n) :
    2 ^ n ≤ t.numNodes + 1 := by
  induction t generalizing n with
  | nil => simp [balanced_nil.1 h]
  | node a l r ihl ihr =>
    rw [numNodes]
    cases ha : red a with
    | true =>
      obtain ⟨-, -, hl, -⟩ := (balanced_red (d := .left) ha).1 h
      have := ihl hl
      omega
    | false =>
      obtain ⟨m, rfl, hl, hr⟩ := (balanced_black (d := .left) ha).1 h
      have h₁ := ihl hl
      have h₂ := ihr hr
      rw [pow_succ]
      omega

theorem height_map {β : Type} (f : α → β) (t : BinaryTree α) : (t.map f).height = t.height := by
  induction t with
  | nil => rfl
  | node a l r ihl ihr => rw [map, height, height, ihl, ihr]

theorem height_mapRoot (f : α → α) (t : BinaryTree α) : (t.mapRoot f).height = t.height := by
  cases t <;> rfl

/-- A path is no longer than the tree is high. -/
theorem length_add_height_le (c : Path α) (t : BinaryTree α) :
    c.length + t.height ≤ (plug c t).height := by
  induction c generalizing t with
  | nil => exact (Nat.zero_add _).le
  | cons f c ih =>
    have hfill : t.height + 1 ≤ (f.fill t).height := by
      unfold Frame.fill join
      cases f.side
      · exact Nat.succ_le_succ (Nat.le_max_left _ _)
      · exact Nat.succ_le_succ (Nat.le_max_right _ _)
    have h := ih (f.fill t)
    rw [plug_cons, List.length_cons]
    omega

/-- At most every other node on a path is red. -/
theorem Balanced.height_le {t : BinaryTree α} {n : ℕ} (h : Balanced red t n) :
    t.height ≤ 2 * n + (rootHas red t).toNat := by
  induction t generalizing n with
  | nil => simp [height]
  | node a l r ihl ihr =>
    rw [height, rootHas_node]
    cases ha : red a with
    | true =>
      obtain ⟨hlr, hrr, hl, hr⟩ := (balanced_red (d := .left) ha).1 h
      have h₁ := ihl hl
      have h₂ := ihr hr
      rw [hlr] at h₁
      rw [hrr] at h₂
      simp only [Bool.toNat_false, Bool.toNat_true] at *
      omega
    | false =>
      obtain ⟨m, rfl, hl, hr⟩ := (balanced_black (d := .left) ha).1 h
      have h₁ := (ihl hl).trans (Nat.add_le_add_left (Bool.toNat_le _) _)
      have h₂ := (ihr hr).trans (Nat.add_le_add_left (Bool.toNat_le _) _)
      rw [Bool.toNat_false]
      omega

/-- The height is at most twice the logarithm of the size. -/
theorem IsRedBlack.height_le {t : BinaryTree α} (h : IsRedBlack red t) :
    (t.height : ℝ) ≤ 2 * Real.logb 2 (t.numNodes + 1) := by
  obtain ⟨hr, n, hn⟩ := h
  have hheight : t.height ≤ 2 * n := by simpa [hr] using hn.height_le
  have hsize : (2 : ℝ) ^ (n : ℝ) ≤ t.numNodes + 1 := by
    rw [Real.rpow_natCast]
    exact_mod_cast hn.two_pow_le
  have hlog : (n : ℝ) ≤ Real.logb 2 (t.numNodes + 1) :=
    (Real.le_logb_iff_rpow_le (by norm_num) (by positivity)).2 hsize
  have hcast : (t.height : ℝ) ≤ 2 * n := by exact_mod_cast hheight
  linarith

/-! ### Black height -/

variable (red)

/-- All paths to a leaf pass `n` black nodes; red nodes may be anywhere. -/
def HasBlackHeight : BinaryTree α → ℕ → Prop
  | nil, n => n = 0
  | node a l r, n =>
      if red a then HasBlackHeight l n ∧ HasBlackHeight r n
      else ∃ m, n = m + 1 ∧ HasBlackHeight l m ∧ HasBlackHeight r m

variable {red}

theorem hasBlackHeight_red {d : Side} {a : α} {x y : BinaryTree α} {n : ℕ} (h : red a = true) :
    HasBlackHeight red (join d a x y) n ↔ HasBlackHeight red x n ∧ HasBlackHeight red y n := by
  cases d <;> simp only [join, HasBlackHeight, h, if_true]
  exact and_comm

theorem hasBlackHeight_black {d : Side} {a : α} {x y : BinaryTree α} {n : ℕ}
    (h : red a = false) : HasBlackHeight red (join d a x y) n ↔
      ∃ m, n = m + 1 ∧ HasBlackHeight red x m ∧ HasBlackHeight red y m := by
  cases d <;> simp only [join, HasBlackHeight, h, Bool.false_eq_true, if_false]
  simp only [and_comm (a := HasBlackHeight red y _)]

theorem Balanced.hasBlackHeight {t : BinaryTree α} {n : ℕ} (h : Balanced red t n) :
    HasBlackHeight red t n := by
  induction t generalizing n with
  | nil => exact h
  | node a l r ihl ihr =>
    cases ha : red a with
    | true =>
      obtain ⟨-, -, hl, hr⟩ := (balanced_red (d := .left) ha).1 h
      exact (hasBlackHeight_red (d := .left) ha).2 ⟨ihl hl, ihr hr⟩
    | false =>
      obtain ⟨m, rfl, hl, hr⟩ := (balanced_black (d := .left) ha).1 h
      exact (hasBlackHeight_black (d := .left) ha).2 ⟨m, rfl, ihl hl, ihr hr⟩

theorem hasBlackHeight_map {red' : β → Bool} {f : α → β} {t : BinaryTree α} {n : ℕ}
    (hf : ∀ a ∈ t.inorder, red' (f a) = red a) :
    HasBlackHeight red' (t.map f) n ↔ HasBlackHeight red t n := by
  induction t generalizing n with
  | nil => rfl
  | node a l r ihl ihr =>
    have hl : ∀ b ∈ l.inorder, red' (f b) = red b := fun b hb => hf b (by simp [hb])
    have hr : ∀ b ∈ r.inorder, red' (f b) = red b := fun b hb => hf b (by simp [hb])
    simp only [map, HasBlackHeight, hf a (by simp), ihl hl, ihr hr]

/-- A subtree may be replaced by one of the same black height. -/
theorem HasBlackHeight.plug_mono {c : Path α} {t t' : BinaryTree α} {n : ℕ}
    (ht : ∀ m, HasBlackHeight red t m → HasBlackHeight red t' m)
    (h : HasBlackHeight red (plug c t) n) : HasBlackHeight red (plug c t') n := by
  induction c generalizing t t' with
  | nil => exact ht n h
  | cons f c ih =>
    refine ih (t := f.fill t) (fun m hm => ?_) h
    cases hf : red f.label with
    | true =>
      obtain ⟨hx, hs⟩ := (hasBlackHeight_red hf).1 hm
      exact (hasBlackHeight_red hf).2 ⟨ht m hx, hs⟩
    | false =>
      obtain ⟨k, rfl, hx, hs⟩ := (hasBlackHeight_black hf).1 hm
      exact (hasBlackHeight_black hf).2 ⟨k, rfl, ht k hx, hs⟩

/-- Painting the root black raises the black height by one, or not at all. -/
theorem HasBlackHeight.blacken {f : α → α} (hf : ∀ a, red (f a) = false) {t : BinaryTree α} {n : ℕ}
    (h : HasBlackHeight red t n) :
    HasBlackHeight red (t.mapRoot f) n ∨ HasBlackHeight red (t.mapRoot f) (n + 1) := by
  cases t with
  | nil => exact .inl h
  | node a l r =>
    cases ha : red a with
    | true =>
      obtain ⟨hl, hr⟩ := (hasBlackHeight_red (d := .left) ha).1 h
      exact .inr ((hasBlackHeight_black (d := .left) (hf a)).2 ⟨n, rfl, hl, hr⟩)
    | false =>
      obtain ⟨m, rfl, hl, hr⟩ := (hasBlackHeight_black (d := .left) ha).1 h
      exact .inl ((hasBlackHeight_black (d := .left) (hf a)).2 ⟨m, rfl, hl, hr⟩)

/-- Painting a red root black raises the black height by one. -/
theorem HasBlackHeight.blacken_red {f : α → α} (hf : ∀ a, red (f a) = false) {t : BinaryTree α}
    {n : ℕ} (h : HasBlackHeight red t n) (hr : rootHas red t = true) :
    HasBlackHeight red (t.mapRoot f) (n + 1) := by
  cases t with
  | nil => simp at hr
  | node a l r =>
    have ha : red a = true := hr
    obtain ⟨hl, hr⟩ := (hasBlackHeight_red (d := .left) ha).1 h
    exact (hasBlackHeight_black (d := .left) (hf a)).2 ⟨n, rfl, hl, hr⟩

/-! ### Holes -/

variable (red)

/-- Whether a red node may hang at the end of the path: not at the root, not below a red node. -/
def takesRed : Path α → Bool
  | [] => false
  | f :: _ => !red f.label

/-- The surroundings of a place are those of a red-black tree with a subtree of black height `n`
missing at the place. -/
def Hole : Path α → ℕ → Prop
  | [], _ => True
  | f :: c, n =>
      Balanced red f.sibling n ∧
        if red f.label then
          rootHas red f.sibling = false ∧ takesRed red c = true ∧ Hole c n
        else Hole c (n + 1)

variable {red}

@[simp] theorem hole_nil {n : ℕ} : Hole red ([] : Path α) n := trivial

theorem hole_red {f : Frame α} {c : Path α} {n : ℕ} (h : red f.label = true) :
    Hole red (f :: c) n ↔ Balanced red f.sibling n ∧ rootHas red f.sibling = false ∧
      takesRed red c = true ∧ Hole red c n := by
  simp [Hole, h]

theorem hole_black {f : Frame α} {c : Path α} {n : ℕ} (h : red f.label = false) :
    Hole red (f :: c) n ↔ Balanced red f.sibling n ∧ Hole red c (n + 1) := by
  simp [Hole, h]

theorem Hole.sibling {f : Frame α} {c : Path α} {n : ℕ} (h : Hole red (f :: c) n) :
    Balanced red f.sibling n := h.1

/-- A subtree of the right height and colour closes the hole. -/
theorem isRedBlack_plug {c : Path α} {t : BinaryTree α} {n : ℕ} (hc : Hole red c n)
    (ht : Balanced red t n) (hr : rootHas red t = true → takesRed red c = true) :
    IsRedBlack red (plug c t) := by
  induction c generalizing t n with
  | nil =>
    refine ⟨?_, n, ht⟩
    cases h : rootHas red t
    · exact h
    · exact absurd (hr h) (by simp [takesRed])
  | cons f c ih =>
    rw [plug_cons]
    cases hf : red f.label with
    | true =>
      obtain ⟨hs, hsr, hc', hh⟩ := (hole_red hf).1 hc
      have htr : rootHas red t = false := by
        cases h : rootHas red t
        · rfl
        · simpa [takesRed, hf] using hr h
      exact ih hh ((balanced_red hf).2 ⟨htr, hsr, ht, hs⟩) fun _ => hc'
    | false =>
      obtain ⟨hs, hh⟩ := (hole_black hf).1 hc
      refine ih hh ((balanced_black hf).2 ⟨n, rfl, ht, hs⟩) fun h => ?_
      rw [Frame.fill, rootHas_join, hf] at h
      cases h

/-- Every place of a red-black tree is a hole closed by the subtree there. -/
theorem hole_of_isRedBlack {c : Path α} {t : BinaryTree α} (h : IsRedBlack red (plug c t)) :
    ∃ n, Hole red c n ∧ Balanced red t n ∧ (rootHas red t = true → takesRed red c = true) := by
  induction c generalizing t with
  | nil =>
    obtain ⟨hr, n, hb⟩ := h
    refine ⟨n, trivial, hb, fun ht => ?_⟩
    rw [plug_nil, ht] at hr
    cases hr
  | cons f c ih =>
    obtain ⟨n, hh, hb, hr⟩ := ih h
    rw [Frame.fill, rootHas_join] at hr
    cases hf : red f.label with
    | true =>
      obtain ⟨htr, hsr, ht, hs⟩ := (balanced_red hf).1 hb
      refine ⟨n, (hole_red hf).2 ⟨hs, hsr, hr hf, hh⟩, ht, fun h' => ?_⟩
      rw [htr] at h'
      cases h'
    | false =>
      obtain ⟨m, rfl, ht, hs⟩ := (balanced_black hf).1 hb
      exact ⟨m, (hole_black hf).2 ⟨hs, hh⟩, ht, fun _ => by simp [takesRed, hf]⟩

/-- A subtree of black height `n` with a black root would close the hole. -/
def Awaits (red : α → Bool) (c : Path α) (n : ℕ) : Prop :=
  ∃ u, rootHas red u = false ∧ Balanced red u n ∧ IsRedBlack red (plug c u)

theorem Awaits.hole {c : Path α} {n : ℕ} (h : Awaits red c n) : Hole red c n := by
  obtain ⟨u, -, hu, ht⟩ := h
  obtain ⟨m, hc, hu', -⟩ := hole_of_isRedBlack ht
  rwa [hu.unique hu']

variable (red)

/-- Balanced with `n` black nodes on all paths if the root, of any colour, counts for one more. -/
def CountsMore : BinaryTree α → ℕ → Prop
  | nil, n => n = 1
  | node a l r, n => ∃ m, n = m + (if red a then 1 else 2) ∧ Balanced red l m ∧ Balanced red r m

variable {red}

theorem countsMore_map {red' : β → Bool} {f : α → β} {t : BinaryTree α} {n : ℕ}
    (hf : ∀ a ∈ t.inorder, red' (f a) = red a) :
    CountsMore red' (t.map f) n ↔ CountsMore red t n := by
  cases t with
  | nil => rfl
  | node a l r =>
    have hl : ∀ b ∈ l.inorder, red' (f b) = red b := fun b hb => hf b (by simp [hb])
    have hr : ∀ b ∈ r.inorder, red' (f b) = red b := fun b hb => hf b (by simp [hb])
    simp only [map, CountsMore, hf a (by simp), balanced_map hl, balanced_map hr]

/-- A hole closed by any subtree of the right black height. -/
theorem Hole.hasBlackHeight {c : Path α} {t : BinaryTree α} {n : ℕ} (hc : Hole red c n)
    (ht : HasBlackHeight red t n) : ∃ m, HasBlackHeight red (plug c t) m := by
  induction c generalizing t n with
  | nil => exact ⟨n, ht⟩
  | cons f c ih =>
    cases hf : red f.label with
    | true =>
      obtain ⟨hs, -, -, hc'⟩ := (hole_red hf).1 hc
      exact ih hc' ((hasBlackHeight_red hf).2 ⟨ht, hs.hasBlackHeight⟩)
    | false =>
      obtain ⟨hs, hc'⟩ := (hole_black hf).1 hc
      exact ih hc' ((hasBlackHeight_black hf).2 ⟨n, rfl, ht, hs.hasBlackHeight⟩)

/-- Relabelling that keeps the colours. -/
theorem hole_map_of_mem {red' : β → Bool} {f : α → β} {c : Path α}
    (hf : ∀ g ∈ c, red' (f g.label) = red g.label ∧ ∀ a ∈ g.sibling.inorder, red' (f a) = red a)
    {n : ℕ} : Hole red' (List.map (Frame.map f) c) n ↔ Hole red c n := by
  induction c generalizing n with
  | nil => rfl
  | cons g c ih =>
    obtain ⟨⟨hg, hs⟩, hc⟩ := List.forall_mem_cons.1 hf
    have htakes : takesRed red' (List.map (Frame.map f) c) = takesRed red c := by
      cases c with
      | nil => rfl
      | cons g' c => simp [takesRed, Frame.map, (hc g' (by simp)).1]
    simp only [List.map_cons, Hole, Frame.map, hg, balanced_map hs, rootHas_map hs, htakes, ih hc]

theorem hole_map {red' : β → Bool} {f : α → β} (hf : ∀ a, red' (f a) = red a) {c : Path α}
    {n : ℕ} : Hole red' (List.map (Frame.map f) c) n ↔ Hole red c n :=
  hole_map_of_mem fun g _ => ⟨hf g.label, fun a _ => hf a⟩

theorem takesRed_mapLabels {f : α → α} (hf : ∀ a, red (f a) = red a) (c : Path α) :
    takesRed red (Path.mapLabels f c) = takesRed red c := by
  cases c <;> simp [takesRed, hf]

theorem takesRed_mapHead {f : α → α} (hf : ∀ a, red (f a) = red a) (c : Path α) :
    takesRed red (Path.mapHead f c) = takesRed red c := by
  cases c <;> simp [takesRed, hf]

theorem hole_mapLabels {f : α → α} (hf : ∀ a, red (f a) = red a) {c : Path α} {n : ℕ} :
    Hole red (Path.mapLabels f c) n ↔ Hole red c n := by
  induction c generalizing n with
  | nil => rfl
  | cons g c ih => simp only [Path.mapLabels_cons, Hole, Frame.mapLabel_sibling,
      Frame.mapLabel_label, hf, takesRed_mapLabels hf, ih]

theorem hole_mapHead {f : α → α} (hf : ∀ a, red (f a) = red a) {c : Path α} {n : ℕ} :
    Hole red (Path.mapHead f c) n ↔ Hole red c n := by
  cases c with
  | nil => rfl
  | cons g c => simp only [Path.mapHead_cons, Hole, Frame.mapLabel_sibling, Frame.mapLabel_label,
      hf]

end BinaryTree
