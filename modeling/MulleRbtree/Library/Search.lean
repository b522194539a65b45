import MulleRbtree.Library.Zipper

/-!
# Searching a binary tree with a cut

A search compares a key with the labels it meets; `cmp a` is the outcome for the label `a`,
positive where the key is greater.  What makes a search find its way is that the outcomes fall along
the order of the tree (`Cut`).

* `visits`, `seek`: the labels on the way down, and the empty place where it ends;
* `lookup`, `track`: the first label met that matches, and its place;
* `ceiling`: the first match met, else the nearest label above the key;
* one specification for each: `seek_eq_none`, `seek_spec`, `lookup_spec`, `ceiling_spec`;
* `Cut.blocks`, `lookup_matches`, `ceiling_matches`: the matches stand together, and one is found.
-/

namespace BinaryTree

variable {α β : Type}

/-- The outcomes of the comparisons fall along the list. -/
def Cut (cmp : α → ℤ) (u : List α) : Prop :=
  u.Pairwise fun a b => (0 ≤ cmp b → 0 ≤ cmp a) ∧ (0 < cmp b → 0 < cmp a)

variable {cmp : α → ℤ}

theorem cut_map {k : β → α} {u : List β} : Cut cmp (u.map k) ↔ Cut (cmp ∘ k) u :=
  List.pairwise_map

theorem Cut.of_append {u v : List α} {a : α} (h : Cut cmp (u ++ a :: v)) :
    Cut cmp u ∧ Cut cmp v ∧ (∀ b ∈ u, (0 ≤ cmp a → 0 ≤ cmp b) ∧ (0 < cmp a → 0 < cmp b)) ∧
      ∀ b ∈ v, (cmp a < 0 → cmp b < 0) ∧ (cmp a ≤ 0 → cmp b ≤ 0) := by
  obtain ⟨hu, hv, hab⟩ := List.pairwise_append.1 h
  obtain ⟨ha, hv⟩ := List.pairwise_cons.1 hv
  refine ⟨hu, hv, fun b hb => hab b hb a (by simp), fun b hb => ?_⟩
  obtain ⟨h₁, h₂⟩ := ha b hb
  exact ⟨by omega, by omega⟩

/-- The labels below the key, the matches and the labels above the key follow each other. -/
theorem Cut.blocks {u : List α} (h : Cut cmp u) : u = u.filter (fun a => 0 < cmp a) ++
    (u.filter (fun a => cmp a = 0) ++ u.filter fun a => cmp a < 0) := by
  induction u with
  | nil => rfl
  | cons a u ih =>
    obtain ⟨ha, hu⟩ := List.pairwise_cons.1 h
    have hrest := ih hu
    have hnone : ∀ p : α → Bool, (∀ b ∈ u, p b = false) → u.filter p = [] := fun p hp =>
      List.filter_eq_nil_iff.2 fun b hb => by rw [hp b hb]; exact Bool.false_ne_true
    rcases lt_trichotomy (cmp a) 0 with hlt | heq | hgt
    · -- what follows a label above the key is above it
      have hpos := hnone (fun b => 0 < cmp b) fun b hb => by
        have := (ha b hb).1
        exact decide_eq_false (by omega)
      have hzero := hnone (fun b => cmp b = 0) fun b hb => by
        have := (ha b hb).1
        exact decide_eq_false (by omega)
      rw [hpos, hzero] at hrest
      simp only [List.filter_cons, not_lt.2 hlt.le, hlt.ne, hlt, decide_true, decide_false,
        Bool.false_eq_true, if_true, if_false, hpos, hzero, List.nil_append] at hrest ⊢
      rw [← hrest]
    · have hpos := hnone (fun b => 0 < cmp b) fun b hb => by
        have := (ha b hb).2
        exact decide_eq_false (by omega)
      rw [hpos, List.nil_append] at hrest
      simp only [List.filter_cons, heq, lt_self_iff_false, decide_true, decide_false,
        Bool.false_eq_true, if_true, if_false, hpos, List.nil_append, List.cons_append]
      rw [← hrest]
    · simp only [List.filter_cons, hgt, hgt.ne', not_lt.2 hgt.le, decide_true, decide_false,
        Bool.false_eq_true, if_true, if_false, List.cons_append]
      rw [← hrest]

section Search

variable (cmp) (halt : Bool)

/-- The labels a search compares with; if `halt`, it stops at a match. -/
def visits : BinaryTree α → List α
  | nil => []
  | node a l r =>
    a :: if cmp a = 0 ∧ halt = true then [] else if cmp a < 0 then visits l else visits r

/-- The empty place where a search ends that goes right at a match; if `halt`, a match is in the
way. -/
def seek : Path α → BinaryTree α → Option (Path α)
  | c, nil => some c
  | c, node a l r =>
    if cmp a = 0 ∧ halt = true then none
    else if cmp a < 0 then seek (⟨.left, a, r⟩ :: c) l
    else seek (⟨.right, a, l⟩ :: c) r

/-- The first match. -/
def lookup : BinaryTree α → Option α
  | nil => none
  | node a l r => if cmp a = 0 then some a else if cmp a < 0 then lookup l else lookup r

/-- The first match, else the nearest label above the key, which is `d` if it is not in the tree. -/
def ceiling : BinaryTree α → Option α → Option α
  | nil, d => d
  | node a l r, d =>
    if cmp a = 0 then some a else if cmp a < 0 then ceiling l (some a) else ceiling r d

end Search

variable {halt : Bool}

/-- The side to search on after a comparison. -/
def toward (k : ℤ) : Side := if k < 0 then .left else .right

theorem exists_toward (k : ℤ) (a : α) (l r : BinaryTree α) :
    ∃ x y, node a l r = join (toward k) a x y := by
  unfold toward
  split_ifs
  · exact ⟨l, r, rfl⟩
  · exact ⟨r, l, rfl⟩

section Join

variable {c : Path α} {a : α} {x y : BinaryTree α} {d : Option α}

theorem visits_join (h : ¬ (cmp a = 0 ∧ halt = true)) :
    visits cmp halt (join (toward (cmp a)) a x y) = a :: visits cmp halt x := by
  unfold toward
  split_ifs with hc <;> simp [join, visits, h, hc]

theorem seek_join (h : ¬ (cmp a = 0 ∧ halt = true)) :
    seek cmp halt c (join (toward (cmp a)) a x y) =
      seek cmp halt (⟨toward (cmp a), a, y⟩ :: c) x := by
  unfold toward
  split_ifs with hc <;> simp [join, seek, h, hc]

theorem lookup_join (h : cmp a ≠ 0) :
    lookup cmp (join (toward (cmp a)) a x y) = lookup cmp x := by
  unfold toward
  split_ifs with hc <;> simp [join, lookup, h, hc]

theorem visits_match (d : Side) (h : cmp a = 0 ∧ halt = true) :
    visits cmp halt (join d a x y) = [a] := by
  cases d <;> simp [join, visits, h]

end Join

theorem mem_of_visits {b : α} {t : BinaryTree α} (h : b ∈ visits cmp halt t) : b ∈ t.inorder := by
  induction t with
  | nil => simp [visits] at h
  | node a l r ihl ihr =>
    rw [inorder_node]
    rcases List.mem_cons.1 h with rfl | h
    · simp
    · split_ifs at h
      · simp at h
      · simp [ihl h]
      · simp [ihr h]

/-- A search meets no more labels than the tree is high. -/
theorem length_visits_le (t : BinaryTree α) : (visits cmp halt t).length ≤ t.height := by
  induction t with
  | nil => simp [visits]
  | node a l r ihl ihr =>
    rw [visits, List.length_cons, height]
    split_ifs
    · simp
    · omega
    · omega

/-! ### `seek` -/

theorem seek_eq_none {c : Path α} {t : BinaryTree α} (h : seek cmp halt c t = none) :
    halt = true ∧ ∃ b ∈ t.inorder, cmp b = 0 := by
  induction t generalizing c with
  | nil => simp [seek] at h
  | node a l r ihl ihr =>
    unfold seek at h
    split_ifs at h with h₀ h₁
    · exact ⟨h₀.2, a, by simp, h₀.1⟩
    · obtain ⟨hh, b, hb, e⟩ := ihl h
      exact ⟨hh, b, by simp [hb], e⟩
    · obtain ⟨hh, b, hb, e⟩ := ihr h
      exact ⟨hh, b, by simp [hb], e⟩

/-- The place is empty, and each ancestor was passed on the side the comparison tells. -/
theorem plug_seek {c g : Path α} {t : BinaryTree α} (h : seek cmp halt c t = some g) :
    plug g nil = plug c t ∧ ∃ e, g = e ++ c ∧
      ∀ f ∈ e, f.side = toward (cmp f.label) := by
  induction t generalizing c with
  | nil =>
    obtain rfl : c = g := by simpa [seek] using h
    exact ⟨rfl, [], rfl, by simp⟩
  | node a l r ihl ihr =>
    unfold seek at h
    split_ifs at h with h₀ h₁
    · obtain ⟨hp, e, rfl, he⟩ := ihl h
      refine ⟨hp, e ++ [⟨.left, a, r⟩], by simp, fun f hf => ?_⟩
      rcases List.mem_append.1 hf with hf | hf
      · exact he f hf
      · rw [List.mem_singleton.1 hf, toward, if_pos h₁]
    · obtain ⟨hp, e, rfl, he⟩ := ihr h
      refine ⟨hp, e ++ [⟨.right, a, l⟩], by simp, fun f hf => ?_⟩
      rcases List.mem_append.1 hf with hf | hf
      · exact he f hf
      · rw [List.mem_singleton.1 hf, toward, if_neg h₁]

/-- In a tree with a cut, the labels passed before the place are up to the key, those passed after
it above the key. -/
theorem seek_around {c g : Path α} {t : BinaryTree α} (hcut : Cut cmp t.inorder)
    (h : seek cmp halt c t = some g) :
    ∃ e, g = e ++ c ∧ (∀ b ∈ before e, 0 ≤ cmp b) ∧ ∀ b ∈ after e, cmp b < 0 := by
  induction t generalizing c with
  | nil =>
    obtain rfl : c = g := by simpa [seek] using h
    exact ⟨[], rfl, by simp [before], by simp [after]⟩
  | node a l r ihl ihr =>
    obtain ⟨hl, hr, hbefore, hafter⟩ := hcut.of_append
    unfold seek at h
    split_ifs at h with h₀ h₁
    · obtain ⟨e, rfl, hb, ha⟩ := ihl hl h
      refine ⟨e ++ [⟨.left, a, r⟩], by simp, fun b hm => ?_, fun b hm => ?_⟩
      · rw [before_append] at hm
        exact hb b (by simpa [before] using hm)
      · rw [after_append] at hm
        rcases List.mem_append.1 hm with hm | hm
        · exact ha b hm
        · have hm : b = a ∨ b ∈ r.inorder := by simpa [after] using hm
          rcases hm with rfl | hm
          · exact h₁
          · exact (hafter b hm).1 h₁
    · obtain ⟨e, rfl, hb, ha⟩ := ihr hr h
      refine ⟨e ++ [⟨.right, a, l⟩], by simp, fun b hm => ?_, fun b hm => ?_⟩
      · rw [before_append] at hm
        rcases List.mem_append.1 hm with hm | hm
        · have hm : b ∈ l.inorder ∨ b = a := by simpa [before] using hm
          rcases hm with hm | rfl
          · exact (hbefore b hm).1 (by omega)
          · omega
        · exact hb b hm
      · rw [after_append] at hm
        exact ha b (by simpa [after] using hm)

/-- In a tree with a cut, a search that halts at matches overlooks none. -/
theorem ne_zero_of_seek {c g : Path α} {t : BinaryTree α} (hcut : Cut cmp t.inorder)
    (h : seek cmp true c t = some g) : ∀ b ∈ t.inorder, cmp b ≠ 0 := by
  induction t generalizing c with
  | nil => simp
  | node a l r ihl ihr =>
    obtain ⟨hl, hr, hbefore, hafter⟩ := hcut.of_append
    unfold seek at h
    intro b hm
    rw [inorder_node, List.mem_append, List.mem_cons] at hm
    split_ifs at h with h₀ h₁
    · rcases hm with hm | rfl | hm
      · exact ihl hl h b hm
      · omega
      · have := (hafter b hm).1 h₁
        omega
    · have hne : cmp a ≠ 0 := fun e => h₀ ⟨e, rfl⟩
      rcases hm with hm | rfl | hm
      · have := (hbefore b hm).2 (by omega)
        omega
      · exact hne
      · exact ihr hr h b hm

/-- In a tree with a cut, the place separates the labels up to the key from those above it. -/
theorem seek_spec {g : Path α} {t : BinaryTree α} (hcut : Cut cmp t.inorder)
    (h : seek cmp halt [] t = some g) : t.inorder = before g ++ after g ∧
      (∀ b ∈ before g, 0 ≤ cmp b) ∧ (∀ b ∈ after g, cmp b < 0) ∧
      (halt = true → ∀ b ∈ t.inorder, cmp b ≠ 0) := by
  have hplug : plug g nil = t := (plug_seek h).1
  obtain ⟨e, rfl, hb, ha⟩ := seek_around hcut h
  rw [List.append_nil] at hplug ⊢
  refine ⟨?_, hb, ha, fun hh => ?_⟩
  · rw [← hplug, inorder_plug, inorder_nil, List.nil_append]
  · subst hh
    exact ne_zero_of_seek hcut h

/-! ### `lookup` -/

theorem mem_of_lookup {a : α} {t : BinaryTree α} (h : lookup cmp t = some a) :
    a ∈ t.inorder ∧ cmp a = 0 := by
  induction t with
  | nil => simp [lookup] at h
  | node b l r ihl ihr =>
    unfold lookup at h
    split_ifs at h with h₀ h₁
    · obtain rfl : b = a := by simpa using h
      exact ⟨by simp, h₀⟩
    · exact ⟨by simp [(ihl h).1], (ihl h).2⟩
    · exact ⟨by simp [(ihr h).1], (ihr h).2⟩

/-- The first match with its place. -/
def track (cmp : α → ℤ) : Path α → BinaryTree α →
    Option (Path α × α × BinaryTree α × BinaryTree α)
  | _, nil => none
  | c, node a l r =>
    if cmp a = 0 then some (c, a, l, r)
    else if cmp a < 0 then track cmp (⟨.left, a, r⟩ :: c) l
    else track cmp (⟨.right, a, l⟩ :: c) r

theorem lookup_eq_track (c : Path α) (t : BinaryTree α) :
    lookup cmp t = (track cmp c t).map fun q => q.2.1 := by
  induction t generalizing c with
  | nil => rfl
  | node a l r ihl ihr =>
    unfold lookup track
    split_ifs
    · rfl
    · exact ihl _
    · exact ihr _

theorem plug_track {c g : Path α} {t l r : BinaryTree α} {a : α}
    (h : track cmp c t = some (g, a, l, r)) : plug g (node a l r) = plug c t := by
  induction t generalizing c with
  | nil => simp [track] at h
  | node b x y ihx ihy =>
    unfold track at h
    split_ifs at h
    · cases h
      rfl
    · exact ihx h
    · exact ihy h

/-- In a tree with a cut, no match is overlooked. -/
theorem lookup_spec {t : BinaryTree α} (hcut : Cut cmp t.inorder) (h : lookup cmp t = none) :
    ∀ b ∈ t.inorder, cmp b ≠ 0 := by
  induction t with
  | nil => simp
  | node a l r ihl ihr =>
    obtain ⟨hl, hr, hbefore, hafter⟩ := hcut.of_append
    unfold lookup at h
    split_ifs at h with h₀ h₁
    · intro b hm
      rw [inorder_node, List.mem_append, List.mem_cons] at hm
      rcases hm with hm | rfl | hm
      · exact ihl hl h b hm
      · exact h₀
      · have := (hafter b hm).1 h₁
        omega
    · intro b hm
      rw [inorder_node, List.mem_append, List.mem_cons] at hm
      rcases hm with hm | rfl | hm
      · have := (hbefore b hm).2 (by omega)
        omega
      · exact h₀
      · exact ihr hr h b hm

/-! ### `ceiling` -/

theorem mem_of_ceiling_or {a : α} {d : Option α} {t : BinaryTree α}
    (h : ceiling cmp t d = some a) : a ∈ t.inorder ∨ d = some a := by
  induction t generalizing d with
  | nil => exact .inr h
  | node b l r ihl ihr =>
    unfold ceiling at h
    split_ifs at h
    · obtain rfl : b = a := by simpa using h
      exact .inl (by simp)
    · rcases ihl h with h | h
      · exact .inl (by simp [h])
      · obtain rfl : b = a := by simpa using h
        exact .inl (by simp)
    · rcases ihr h with h | h
      · exact .inl (by simp [h])
      · exact .inr h

theorem mem_of_ceiling {a : α} {t : BinaryTree α} (h : ceiling cmp t none = some a) :
    a ∈ t.inorder := (mem_of_ceiling_or h).resolve_right nofun

/-- In a tree with a cut, everything before the answer is at most the key, and below it if the
answer is not a match. -/
theorem ceiling_spec {t : BinaryTree α} (hcut : Cut cmp t.inorder) (d : Option α) :
    (∃ u a v, t.inorder = u ++ a :: v ∧ ceiling cmp t d = some a ∧ cmp a ≤ 0 ∧
      (∀ b ∈ u, 0 ≤ cmp b) ∧ (cmp a < 0 → ∀ b ∈ u, 0 < cmp b)) ∨
    ((∀ b ∈ t.inorder, 0 < cmp b) ∧ ceiling cmp t d = d) := by
  induction t generalizing d with
  | nil => exact .inr ⟨by simp, rfl⟩
  | node a l r ihl ihr =>
    obtain ⟨hl, hr, hbefore, hafter⟩ := hcut.of_append
    unfold ceiling
    split_ifs with h₀ h₁
    · exact .inl ⟨l.inorder, a, r.inorder, rfl, rfl, by omega,
        fun b hb => (hbefore b hb).1 (by omega), fun h => by omega⟩
    · obtain ⟨u, b, v, e, hb, hle, hu, hu'⟩ | ⟨hall, e⟩ := ihl hl (some a)
      · exact .inl ⟨u, b, v ++ a :: r.inorder, by simp [e], hb, hle, hu, hu'⟩
      · exact .inl ⟨l.inorder, a, r.inorder, rfl, e, by omega, fun b hb => (hall b hb).le,
          fun _ => hall⟩
    · have hpos : 0 < cmp a := by omega
      have hleft : ∀ b ∈ l.inorder, 0 < cmp b := fun b hb => (hbefore b hb).2 hpos
      obtain ⟨u, b, v, e, hb, hle, hu, hu'⟩ | ⟨hall, e⟩ := ihr hr d
      · refine .inl ⟨l.inorder ++ a :: u, b, v, by simp [e], hb, hle, fun x hx => ?_,
          fun h x hx => ?_⟩
        · rcases List.mem_append.1 hx with hx | hx
          · exact (hleft x hx).le
          · rcases List.mem_cons.1 hx with rfl | hx
            · exact hpos.le
            · exact hu x hx
        · rcases List.mem_append.1 hx with hx | hx
          · exact hleft x hx
          · rcases List.mem_cons.1 hx with rfl | hx
            · exact hpos
            · exact hu' h x hx
      · refine .inr ⟨fun x hx => ?_, e⟩
        rw [inorder_node, List.mem_append, List.mem_cons] at hx
        rcases hx with hx | rfl | hx
        · exact hleft x hx
        · exact hpos
        · exact hall x hx

/-! ### Matches -/

theorem lookup_matches {t : BinaryTree α} (hcut : Cut cmp t.inorder) :
    (∃ a ∈ t.inorder.filter (fun b => cmp b = 0), lookup cmp t = some a) ∨
      t.inorder.filter (fun b => cmp b = 0) = [] ∧ lookup cmp t = none := by
  cases h : lookup cmp t with
  | none =>
    refine .inr ⟨List.filter_eq_nil_iff.2 fun b hb => ?_, rfl⟩
    simpa using lookup_spec hcut h b hb
  | some a =>
    obtain ⟨hm, h₀⟩ := mem_of_lookup h
    exact .inl ⟨a, by simp [hm, h₀], rfl⟩

/-- If there is no match, the answer is the first label above the key. -/
theorem ceiling_matches {t : BinaryTree α} (hcut : Cut cmp t.inorder) :
    (∃ a ∈ t.inorder.filter (fun b => cmp b = 0), ceiling cmp t none = some a) ∨
      t.inorder.filter (fun b => cmp b = 0) = [] ∧
        ceiling cmp t none = (t.inorder.filter fun b => cmp b < 0).head? := by
  obtain ⟨u, a, v, ht, hceil, hle, -, hu⟩ | ⟨hall, hceil⟩ := ceiling_spec hcut none
  · rcases hle.lt_or_eq with hlt | h₀
    · rw [ht] at hcut
      obtain ⟨-, -, -, hv⟩ := hcut.of_append
      have hpos := hu hlt
      have hnone : u.filter (fun b => cmp b < 0) = [] := List.filter_eq_nil_iff.2 fun b hb => by
        simpa using (hpos b hb).le
      refine .inr ⟨List.filter_eq_nil_iff.2 fun b hb => ?_, ?_⟩
      · rw [ht, List.mem_append, List.mem_cons] at hb
        rcases hb with hb | rfl | hb
        · simpa using (hpos b hb).ne'
        · simpa using hlt.ne
        · simpa using ((hv b hb).1 hlt).ne
      · rw [hceil, ht, List.filter_append, hnone, List.nil_append,
          List.filter_cons_of_pos (by simpa using hlt), List.head?_cons]
    · refine .inl ⟨a, ?_, hceil⟩
      simp [ht, h₀]
  · refine .inr ⟨List.filter_eq_nil_iff.2 fun b hb => ?_, ?_⟩
    · simpa using (hall b hb).ne'
    · have hnone : t.inorder.filter (fun b => cmp b < 0) = [] :=
        List.filter_eq_nil_iff.2 fun b hb => by simpa using (hall b hb).le
      rw [hceil, hnone, List.head?_nil]

end BinaryTree
