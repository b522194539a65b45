import Mathlib.Tactic
import Mathlib.Data.Tree.Basic

/-!
# Binary trees with a place in focus

Mathlib's `BinaryTree`, read in order and taken apart at a place.

* `Side`: left or right, so that a statement and its mirror image are one statement;
* `join d a x y`: the node with label `a`, `x` on side `d` and `y` on the other one;
* `inorder`: the labels in order;
* `Frame`, `Path`: the way from a place up to the root, nearest ancestor first, each ancestor with
  the subtree that hangs on its other side;
* `plug c t`: the whole tree that has `t` at the end of the path `c`; its order is
  `before c ++ inorder t ++ after c`.
-/

/-- One of the two sides of a node. -/
inductive Side
  | left
  | right
  deriving DecidableEq, Repr

namespace Side

def other : Side → Side
  | left => right
  | right => left

@[simp] theorem other_left : left.other = right := rfl
@[simp] theorem other_right : right.other = left := rfl
@[simp] theorem other_other (d : Side) : d.other.other = d := by cases d <;> rfl
@[simp] theorem other_ne (d : Side) : d.other ≠ d := by cases d <;> simp

theorem eq_other {d d' : Side} (h : d' ≠ d) : d' = d.other := by
  cases d <;> cases d' <;> simp_all

end Side

namespace BinaryTree

variable {α β : Type}

/-- The node with `near` on side `d` and `far` on the other side. -/
def join (d : Side) (a : α) (near far : BinaryTree α) : BinaryTree α :=
  match d with
  | .left => node a near far
  | .right => node a far near

theorem join_left (a : α) (x y : BinaryTree α) : join .left a x y = node a x y := rfl
theorem join_right (a : α) (x y : BinaryTree α) : join .right a x y = node a y x := rfl

@[simp] theorem join_other (d : Side) (a : α) (x y : BinaryTree α) :
    join d.other a x y = join d a y x := by cases d <;> rfl

@[simp] theorem join_ne_nil (d : Side) (a : α) (x y : BinaryTree α) : join d a x y ≠ nil := by
  cases d <;> simp [join]

/-- Every node is a `join`, on whichever side one looks. -/
theorem exists_join (d : Side) {t : BinaryTree α} (h : t ≠ nil) :
    ∃ a x y, t = join d a x y := by
  cases t with
  | nil => exact absurd rfl h
  | node a l r =>
    cases d with
    | left => exact ⟨a, l, r, rfl⟩
    | right => exact ⟨a, r, l, rfl⟩

/-- Take a tree apart at its root, the child on side `d` first. -/
def unjoin (d : Side) : BinaryTree α → Option (α × BinaryTree α × BinaryTree α)
  | nil => none
  | node a l r => match d with
    | .left => some (a, l, r)
    | .right => some (a, r, l)

@[simp] theorem unjoin_nil (d : Side) : (nil : BinaryTree α).unjoin d = none := rfl
@[simp] theorem unjoin_join (d : Side) (a : α) (x y : BinaryTree α) :
    (join d a x y).unjoin d = some (a, x, y) := by cases d <;> rfl
@[simp] theorem unjoin_join_other (d : Side) (a : α) (x y : BinaryTree α) :
    (join d a x y).unjoin d.other = some (a, y, x) := by cases d <;> rfl

theorem unjoin_eq_some {d : Side} {t x y : BinaryTree α} {a : α}
    (h : t.unjoin d = some (a, x, y)) : t = join d a x y := by
  cases t with
  | nil => simp at h
  | node b l r => cases d <;> simp_all [unjoin, join]

theorem unjoin_eq_none {d : Side} {t : BinaryTree α} (h : t.unjoin d = none) : t = nil := by
  cases t with
  | nil => rfl
  | node b l r => cases d <;> simp [unjoin] at h

theorem join_inj {d : Side} {a b : α} {x y x' y' : BinaryTree α} :
    join d a x y = join d b x' y' ↔ a = b ∧ x = x' ∧ y = y' := by
  cases d <;> simp [join, and_comm]

@[simp] theorem map_join (f : α → β) (d : Side) (a : α) (x y : BinaryTree α) :
    (join d a x y).map f = join d (f a) (x.map f) (y.map f) := by cases d <;> rfl

/-- The label of the root. -/
def label? : BinaryTree α → Option α
  | nil => none
  | node a _ _ => some a

@[simp] theorem label?_nil : (nil : BinaryTree α).label? = none := rfl
@[simp] theorem label?_node (a : α) (l r : BinaryTree α) : (node a l r).label? = some a := rfl
@[simp] theorem label?_join (d : Side) (a : α) (x y : BinaryTree α) :
    (join d a x y).label? = some a := by cases d <;> rfl

/-- Whether the root has a flag; an empty tree has not. -/
def rootHas (q : α → Bool) : BinaryTree α → Bool
  | nil => false
  | node a _ _ => q a

@[simp] theorem rootHas_nil (q : α → Bool) : rootHas q (nil : BinaryTree α) = false := rfl
@[simp] theorem rootHas_node (q : α → Bool) (a : α) (l r : BinaryTree α) :
    rootHas q (node a l r) = q a := rfl
@[simp] theorem rootHas_join (q : α → Bool) (d : Side) (a : α) (x y : BinaryTree α) :
    rootHas q (join d a x y) = q a := by cases d <;> rfl

theorem ne_nil_of_rootHas {q : α → Bool} {t : BinaryTree α} (h : rootHas q t = true) :
    t ≠ nil := by
  rintro rfl
  simp at h

/-- Change the label of the root. -/
def mapRoot (f : α → α) : BinaryTree α → BinaryTree α
  | nil => nil
  | node a l r => node (f a) l r

@[simp] theorem mapRoot_nil (f : α → α) : (nil : BinaryTree α).mapRoot f = nil := rfl
@[simp] theorem mapRoot_node (f : α → α) (a : α) (l r : BinaryTree α) :
    (node a l r).mapRoot f = node (f a) l r := rfl
@[simp] theorem mapRoot_join (f : α → α) (d : Side) (a : α) (x y : BinaryTree α) :
    (join d a x y).mapRoot f = join d (f a) x y := by cases d <;> rfl

@[simp] theorem mapRoot_eq_nil {f : α → α} {t : BinaryTree α} : t.mapRoot f = nil ↔ t = nil := by
  cases t <;> simp

theorem rootHas_mapRoot {q : α → Bool} {f : α → α} (hf : ∀ a, q (f a) = q a)
    (t : BinaryTree α) : rootHas q (t.mapRoot f) = rootHas q t := by cases t <;> simp [hf]

/-- A change of the root label that another function does not see. -/
theorem map_mapRoot {f : α → α} {g : α → β} (h : ∀ a, g (f a) = g a) (t : BinaryTree α) :
    (t.mapRoot f).map g = t.map g := by
  cases t <;> simp [map, h]

/-! ### The labels in order -/

/-- The labels from left to right. -/
def inorder : BinaryTree α → List α
  | nil => []
  | node a l r => inorder l ++ a :: inorder r

@[simp] theorem inorder_nil : (nil : BinaryTree α).inorder = [] := rfl
@[simp] theorem inorder_node (a : α) (l r : BinaryTree α) :
    (node a l r).inorder = l.inorder ++ a :: r.inorder := rfl

theorem inorder_map (f : α → β) (t : BinaryTree α) : (t.map f).inorder = t.inorder.map f := by
  induction t with
  | nil => rfl
  | node a l r ihl ihr => simp [map, ihl, ihr]

theorem length_inorder (t : BinaryTree α) : t.inorder.length = t.numNodes := by
  induction t with
  | nil => rfl
  | node a l r ihl ihr => simp [ihl, ihr]; omega

theorem mem_inorder_join {d : Side} {a b : α} {x y : BinaryTree α} :
    b ∈ (join d a x y).inorder ↔ b = a ∨ b ∈ x.inorder ∨ b ∈ y.inorder := by
  cases d <;> simp [join] <;> tauto

/-- A rotation keeps the order: `B` moves from `t` to `p`. -/
theorem inorder_rotate (d : Side) (p t : α) (a b c : BinaryTree α) :
    (join d t (join d p a b) c).inorder = (join d p a (join d.other t c b)).inorder := by
  cases d <;> simp [join]

/-! ### Places -/

/-- An ancestor of a place: on which side of it the place lies, its label, and the subtree on its
other side. -/
structure Frame (α : Type) where
  side : Side
  label : α
  sibling : BinaryTree α
  deriving DecidableEq, Repr

/-- The ancestors of a place, nearest first. -/
abbrev Path (α : Type) := List (Frame α)

def Frame.fill (f : Frame α) (t : BinaryTree α) : BinaryTree α := join f.side f.label t f.sibling

def Frame.map (g : α → β) (f : Frame α) : Frame β := ⟨f.side, g f.label, f.sibling.map g⟩

/-- Change the label of an ancestor, not the subtree beside it. -/
def Frame.mapLabel (g : α → α) (f : Frame α) : Frame α := { f with label := g f.label }

@[simp] theorem Frame.mapLabel_side (g : α → α) (f : Frame α) : (f.mapLabel g).side = f.side := rfl
@[simp] theorem Frame.mapLabel_label (g : α → α) (f : Frame α) :
    (f.mapLabel g).label = g f.label := rfl
@[simp] theorem Frame.mapLabel_sibling (g : α → α) (f : Frame α) :
    (f.mapLabel g).sibling = f.sibling := rfl

/-- The same ancestor, seen from its other child. -/
def Frame.across (f : Frame α) (t : BinaryTree α) : Frame α := ⟨f.side.other, f.label, t⟩

theorem Frame.fill_across (f : Frame α) (t : BinaryTree α) :
    (f.across t).fill f.sibling = f.fill t := join_other f.side f.label f.sibling t

@[simp] theorem Frame.mapRoot_fill (g : α → α) (f : Frame α) (t : BinaryTree α) :
    (f.fill t).mapRoot g = (f.mapLabel g).fill t := mapRoot_join g f.side f.label t f.sibling

@[simp] theorem Frame.fill_ne_nil (f : Frame α) (t : BinaryTree α) : f.fill t ≠ nil :=
  join_ne_nil f.side f.label t f.sibling

/-- The tree with `t` at the end of the path. -/
def plug : Path α → BinaryTree α → BinaryTree α
  | [], t => t
  | f :: c, t => plug c (f.fill t)

@[simp] theorem plug_nil (t : BinaryTree α) : plug [] t = t := rfl
theorem plug_cons (f : Frame α) (c : Path α) (t : BinaryTree α) :
    plug (f :: c) t = plug c (f.fill t) := rfl

theorem plug_append (c e : Path α) (t : BinaryTree α) : plug (c ++ e) t = plug e (plug c t) := by
  induction c generalizing t with
  | nil => rfl
  | cons f c ih => exact ih (f.fill t)

theorem plug_ne_nil {c : Path α} {t : BinaryTree α} (h : c ≠ [] ∨ t ≠ nil) : plug c t ≠ nil := by
  induction c generalizing t with
  | nil => simpa using h
  | cons f c ih => exact ih (Or.inr (f.fill_ne_nil t))

theorem map_plug (g : α → β) (c : Path α) (t : BinaryTree α) :
    (plug c t).map g = plug (List.map (Frame.map g) c) (t.map g) := by
  induction c generalizing t with
  | nil => rfl
  | cons f c ih => simp [plug_cons, ih, Frame.fill, Frame.map]

/-- A place in the image of a tree is the image of a place. -/
theorem exists_plug_of_map {g : α → β} {T : BinaryTree α} {c : Path β} {t : BinaryTree β}
    (h : T.map g = plug c t) : ∃ C X, T = plug C X ∧ List.map (Frame.map g) C = c ∧ X.map g = t := by
  induction c generalizing t with
  | nil => exact ⟨[], T, rfl, rfl, h⟩
  | cons f c ih =>
    obtain ⟨C, Y, rfl, hC, hY⟩ := ih h
    have hne : Y ≠ nil := by
      rintro rfl
      exact f.fill_ne_nil t hY.symm
    obtain ⟨a, x, y, rfl⟩ := exists_join f.side hne
    rw [map_join, Frame.fill] at hY
    obtain ⟨ha, hx, hy⟩ := join_inj.1 hY
    refine ⟨⟨f.side, a, y⟩ :: C, x, rfl, ?_, hx⟩
    rw [List.map_cons, hC, Frame.map, ha, hy]

/-- What lies left of the place, in order. -/
def before : Path α → List α
  | [] => []
  | f :: c => match f.side with
    | .left => before c
    | .right => before c ++ (f.sibling.inorder ++ [f.label])

/-- What lies right of the place, in order. -/
def after : Path α → List α
  | [] => []
  | f :: c => match f.side with
    | .left => f.label :: (f.sibling.inorder ++ after c)
    | .right => after c

theorem before_map (k : α → β) (c : Path α) :
    before (List.map (Frame.map k) c) = (before c).map k := by
  induction c with
  | nil => rfl
  | cons f c ih =>
    obtain ⟨d, a, u⟩ := f
    cases d <;> simp [before, Frame.map, ih, inorder_map]

theorem after_map (k : α → β) (c : Path α) :
    after (List.map (Frame.map k) c) = (after c).map k := by
  induction c with
  | nil => rfl
  | cons f c ih =>
    obtain ⟨d, a, u⟩ := f
    cases d <;> simp [after, Frame.map, ih, inorder_map]

theorem before_append (c e : Path α) : before (c ++ e) = before e ++ before c := by
  induction c with
  | nil => simp [before]
  | cons f c ih =>
    obtain ⟨d, a, u⟩ := f
    cases d <;> simp [before, ih]

theorem after_append (c e : Path α) : after (c ++ e) = after c ++ after e := by
  induction c with
  | nil => rfl
  | cons f c ih =>
    obtain ⟨d, a, u⟩ := f
    cases d <;> simp [after, ih]

theorem inorder_plug (c : Path α) (t : BinaryTree α) :
    (plug c t).inorder = before c ++ (t.inorder ++ after c) := by
  induction c generalizing t with
  | nil => simp [before, after]
  | cons f c ih =>
    obtain ⟨d, a, u⟩ := f
    rw [plug_cons, ih]
    cases d <;> simp [Frame.fill, join, before, after]

theorem mem_inorder_plug {b : α} {c : Path α} {t : BinaryTree α} :
    b ∈ (plug c t).inorder ↔ b ∈ before c ∨ b ∈ t.inorder ∨ b ∈ after c := by
  simp [inorder_plug]

/-- The ancestors of a place are outside of it. -/
theorem mem_before_or_after {f : Frame α} {c : Path α} (hf : f ∈ c) :
    f.label ∈ before c ∨ f.label ∈ after c := by
  induction c with
  | nil => simp at hf
  | cons g c ih =>
    obtain ⟨d, a, u⟩ := g
    rcases List.mem_cons.1 hf with rfl | hf'
    · cases d <;> simp [before, after]
    · cases d <;> rcases ih hf' with h | h <;> simp [before, after, h]

/-- Every position of the order is a place. -/
theorem exists_plug_of_inorder {b : α} {u v : List α} {t : BinaryTree α}
    (h : t.inorder = u ++ b :: v) :
    ∃ c l r, t = plug c (node b l r) ∧ u = before c ++ l.inorder ∧ v = r.inorder ++ after c := by
  induction t generalizing u v with
  | nil => simp at h
  | node a l r ihl ihr =>
    rw [inorder_node] at h
    rcases List.append_eq_append_iff.1 h with ⟨w, rfl, hw⟩ | ⟨w, hw, hv⟩
    · rcases List.append_eq_cons_iff.1 hw.symm with ⟨rfl, e⟩ | ⟨w', rfl, hw'⟩
      · obtain ⟨rfl, rfl⟩ := List.cons.inj e
        exact ⟨[], l, r, rfl, by simp [before], by simp [after]⟩
      · obtain ⟨c, l', r', e, rfl, rfl⟩ := ihr hw'
        refine ⟨c ++ [⟨.right, a, l⟩], l', r', by rw [plug_append, ← e]; rfl, ?_, ?_⟩
        · simp [before_append, before]
        · simp [after_append, after]
    · rcases List.append_eq_cons_iff.1 hv.symm with ⟨rfl, e⟩ | ⟨w', rfl, hw'⟩
      · obtain ⟨rfl, rfl⟩ := List.cons.inj e
        rw [List.append_nil] at hw
        exact ⟨[], l, r, rfl, by simp [before, hw], by simp [after]⟩
      · obtain ⟨c, l', r', e, rfl, rfl⟩ := ihl hw
        refine ⟨c ++ [⟨.left, a, r⟩], l', r', by rw [plug_append, ← e]; rfl, ?_, ?_⟩
        · simp [before_append, before]
        · simp [after_append, after, hw']

/-- Every label of a tree is the root label at the end of some path. -/
theorem exists_plug_of_mem {b : α} {t : BinaryTree α} (h : b ∈ t.inorder) :
    ∃ c l r, t = plug c (node b l r) := by
  obtain ⟨u, v, e⟩ := List.append_of_mem h
  obtain ⟨c, l, r, e, -, -⟩ := exists_plug_of_inorder e
  exact ⟨c, l, r, e⟩

/-- The first node, from left to right, whose label has the property, with its place. -/
def locate (p : α → Bool) : Path α → BinaryTree α → Option (Path α × α × BinaryTree α × BinaryTree α)
  | _, nil => none
  | c, node a l r => if p a then some (c, a, l, r)
    else (locate p (⟨.left, a, r⟩ :: c) l).or (locate p (⟨.right, a, l⟩ :: c) r)

theorem locate_eq_none {p : α → Bool} {t : BinaryTree α} (h : ∀ a ∈ t.inorder, p a = false)
    (c : Path α) : locate p c t = none := by
  induction t generalizing c with
  | nil => rfl
  | node a l r ihl ihr =>
    rw [locate, h a (by simp), ihl fun b hb => h b (by simp [hb]), ihr fun b hb => h b (by simp [hb])]
    rfl

/-- The only node with the property is found where it is. -/
theorem locate_plug {p : α → Bool} {b : α} {l r : BinaryTree α} (hb : p b = true) (e c : Path α)
    (he : ∀ a ∈ before e, p a = false) (he' : ∀ a ∈ after e, p a = false) :
    locate p c (plug e (node b l r)) = some (e ++ c, b, l, r) := by
  induction e using List.reverseRecOn generalizing c with
  | nil => rw [plug_nil, locate, if_pos hb]; rfl
  | append_singleton e f ih =>
    obtain ⟨d, a, u⟩ := f
    rw [before_append] at he
    rw [after_append] at he'
    simp only [List.mem_append] at he he'
    rw [plug_append, List.append_assoc]
    cases d with
    | left =>
      have ha : p a = false := he' a (.inr (by simp [after]))
      rw [show plug [⟨.left, a, u⟩] (plug e (node b l r)) = node a (plug e (node b l r)) u from rfl,
        locate, ha, if_neg (by simp), ih _ (fun x hx => he x (.inr hx)) fun x hx => he' x (.inl hx)]
      rfl
    | right =>
      have ha : p a = false := he a (.inl (by simp [before]))
      have hu : ∀ x ∈ u.inorder, p x = false := fun x hx => he x (.inl (by simp [before, hx]))
      rw [show plug [⟨.right, a, u⟩] (plug e (node b l r)) = node a u (plug e (node b l r)) from rfl,
        locate, ha, if_neg (by simp), locate_eq_none hu,
        ih _ (fun x hx => he x (.inr hx)) fun x hx => he' x (.inl hx)]
      rfl

/-- Where no key occurs twice there is one place for a key. -/
theorem node_unique {k : α → β} [DecidableEq β] {c c' : Path α} {a a' : α}
    {l r l' r' : BinaryTree α} (h : plug c (node a l r) = plug c' (node a' l' r')) (ha : k a = k a')
    (hn : ((plug c (node a l r)).inorder.map k).Nodup) : c = c' ∧ a = a' ∧ l = l' ∧ r = r' := by
  have hplace : ∀ {e : Path α} {b : α} {x y : BinaryTree α},
      ((plug e (node b x y)).inorder.map k).Nodup →
      locate (fun v => decide (k v = k b)) [] (plug e (node b x y)) = some (e, b, x, y) := by
    intro e b x y hn
    rw [inorder_plug, inorder_node, List.map_append, List.nodup_append] at hn
    obtain ⟨-, hn, hd⟩ := hn
    simp only [List.map_append, List.map_cons, List.append_assoc, List.cons_append] at hn hd
    have hmid := List.nodup_append.1 hn
    rw [locate_plug (by simp) e [] (fun v hv => decide_eq_false fun he => ?_)
      fun v hv => decide_eq_false fun he => ?_, List.append_nil]
    · exact hd (k v) (List.mem_map_of_mem hv) (k b) (by simp) he
    · have hlast := (List.nodup_cons.1 hmid.2.1).1
      rw [← he] at hlast
      exact hlast (List.mem_append_right _ (List.mem_map_of_mem hv))
  have h₁ := hplace hn
  have h₂ := hplace (h ▸ hn)
  rw [h, ha] at h₁
  simpa using h₁.symm.trans h₂

/-- Change the labels of all ancestors. -/
def Path.mapLabels (g : α → α) (c : Path α) : Path α := List.map (Frame.mapLabel g) c

@[simp] theorem Path.mapLabels_nil (g : α → α) : Path.mapLabels g [] = [] := rfl
@[simp] theorem Path.mapLabels_cons (g : α → α) (f : Frame α) (c : Path α) :
    Path.mapLabels g (f :: c) = f.mapLabel g :: Path.mapLabels g c := rfl

@[simp] theorem Path.mapLabels_id (c : Path α) : Path.mapLabels id c = c :=
  List.map_id c

theorem mapRoot_id (t : BinaryTree α) : t.mapRoot id = t := by cases t <;> rfl

/-- Change the label of the nearest ancestor. -/
def Path.mapHead (g : α → α) : Path α → Path α
  | [] => []
  | f :: c => f.mapLabel g :: c

@[simp] theorem Path.mapHead_nil (g : α → α) : Path.mapHead g [] = [] := rfl
@[simp] theorem Path.mapHead_cons (g : α → α) (f : Frame α) (c : Path α) :
    Path.mapHead g (f :: c) = f.mapLabel g :: c := rfl

theorem Path.mapLabels_append (g : α → α) (c e : Path α) :
    Path.mapLabels g (c ++ e) = Path.mapLabels g c ++ Path.mapLabels g e := List.map_append

theorem Path.mapLabels_mapLabels (g h : α → α) (c : Path α) :
    Path.mapLabels g (Path.mapLabels h c) = Path.mapLabels (g ∘ h) c := by
  simp [Path.mapLabels, Frame.mapLabel]

/-- Change the label of the farthest ancestor. -/
def Path.mapLast (g : α → α) : Path α → Path α
  | [] => []
  | [f] => [f.mapLabel g]
  | f :: f' :: c => f :: Path.mapLast g (f' :: c)

@[simp] theorem Path.mapLast_nil (g : α → α) : Path.mapLast g ([] : Path α) = [] := rfl

theorem Path.mapLast_append (g : α → α) (c : Path α) (f : Frame α) :
    Path.mapLast g (c ++ [f]) = c ++ [f.mapLabel g] := by
  induction c with
  | nil => rfl
  | cons f' c ih =>
    have hne : c ++ [f] ≠ [] := by simp
    rw [List.cons_append, List.cons_append, ← ih]
    generalize c ++ [f] = e at hne
    cases e with
    | nil => exact absurd rfl hne
    | cons f'' e => rfl

/-- The farthest ancestor may be changed twice at once. -/
theorem Path.mapLast_mapLast (g h : α → α) (c : Path α) :
    Path.mapLast g (Path.mapLast h c) = Path.mapLast (g ∘ h) c := by
  rcases List.eq_nil_or_concat c with rfl | ⟨c, f, rfl⟩
  · rfl
  · simp only [List.concat_eq_append, Path.mapLast_append]
    rfl

theorem Path.forall_mapHead {P : Frame α → Prop} {g : α → α} (hg : ∀ f, P f → P (f.mapLabel g))
    {c : Path α} (hc : ∀ f ∈ c, P f) : ∀ f ∈ Path.mapHead g c, P f := by
  cases c with
  | nil => exact hc
  | cons f c =>
    rw [List.forall_mem_cons] at hc
    exact List.forall_mem_cons.2 ⟨hg f hc.1, hc.2⟩

theorem Path.forall_mapLast {P : Frame α → Prop} {g : α → α} (hg : ∀ f, P f → P (f.mapLabel g))
    {c : Path α} (hc : ∀ f ∈ c, P f) : ∀ f ∈ Path.mapLast g c, P f := by
  induction c with
  | nil => exact hc
  | cons f c ih =>
    rw [List.forall_mem_cons] at hc
    cases c with
    | nil => exact List.forall_mem_cons.2 ⟨hg f hc.1, hc.2⟩
    | cons f' c => exact List.forall_mem_cons.2 ⟨hc.1, ih hc.2⟩

/-- The farthest ancestor is the root. -/
theorem mapRoot_plug (g : α → α) {c : Path α} (hc : c ≠ []) (t : BinaryTree α) :
    (plug c t).mapRoot g = plug (Path.mapLast g c) t := by
  induction c generalizing t with
  | nil => exact absurd rfl hc
  | cons f c ih =>
    cases c with
    | nil => exact f.mapRoot_fill g t
    | cons f' c => exact ih (List.cons_ne_nil _ _) (f.fill t)

/-! ### The outermost node -/

/-- Go down to one side as far as possible: the place of the outermost node, its label, and its
other subtree. -/
def pop : Side → Path α → BinaryTree α → Option (Path α × α × BinaryTree α)
  | _, _, nil => none
  | .left, c, node a l r => some ((pop .left (⟨.left, a, r⟩ :: c) l).getD (c, a, r))
  | .right, c, node a l r => some ((pop .right (⟨.right, a, l⟩ :: c) r).getD (c, a, l))

@[simp] theorem pop_nil (d : Side) (c : Path α) : pop d c (nil : BinaryTree α) = none := by
  cases d <;> rfl

theorem pop_join (d : Side) (c : Path α) (a : α) (x y : BinaryTree α) :
    pop d c (join d a x y) = some ((pop d (⟨d, a, y⟩ :: c) x).getD (c, a, y)) := by
  cases d <;> rfl

theorem exists_pop (d : Side) (c : Path α) {t : BinaryTree α} (ht : t ≠ nil) :
    ∃ g a r, pop d c t = some (g, a, r) := by
  obtain ⟨a, x, y, rfl⟩ := exists_join d ht
  exact ⟨_, _, _, pop_join d c a x y⟩

/-- Induction on the way down. -/
theorem pop_induction {d : Side} {g : Path α} {a : α} {r : BinaryTree α}
    {motive : Path α → BinaryTree α → Prop} (last : motive g (join d a nil r))
    (step : ∀ c b x y, x ≠ nil → motive (⟨d, b, y⟩ :: c) x → motive c (join d b x y))
    {c : Path α} {t : BinaryTree α} (h : pop d c t = some (g, a, r)) : motive c t := by
  induction hn : t.numNodes using Nat.strong_induction_on generalizing c t with
  | _ n ih =>
    have ht : t ≠ nil := by rintro rfl; simp at h
    obtain ⟨b, x, y, rfl⟩ := exists_join d ht
    rw [pop_join, Option.some.injEq] at h
    have hlt : x.numNodes < n := by
      rw [← hn]
      cases d <;> simp [join]
    by_cases hx : x = nil
    · subst hx
      rw [pop_nil, Option.getD_none, Prod.mk.injEq, Prod.mk.injEq] at h
      obtain ⟨rfl, rfl, rfl⟩ := h
      exact last
    · obtain ⟨g', a', r', hp⟩ := exists_pop d (⟨d, b, y⟩ :: c) hx
      rw [hp, Option.getD_some] at h
      exact step c b x y hx (ih _ hlt (h ▸ hp) rfl)

theorem plug_pop {d : Side} {c g : Path α} {t r : BinaryTree α} {a : α}
    (h : pop d c t = some (g, a, r)) : plug g (join d a nil r) = plug c t :=
  pop_induction (motive := fun c t => plug g (join d a nil r) = plug c t) rfl
    (fun _ _ _ _ _ ih => ih) h

/-- What is above the tree does not matter. -/
theorem pop_of_pop {d : Side} {c g : Path α} {t r : BinaryTree α} {a : α}
    (h : pop d c t = some (g, a, r)) :
    ∃ e, g = e ++ c ∧ ∀ c', pop d c' t = some (e ++ c', a, r) := by
  refine pop_induction (motive := fun c t => ∃ e, g = e ++ c ∧
    ∀ c', pop d c' t = some (e ++ c', a, r)) ⟨[], rfl, fun c' => by simp [pop_join]⟩ ?_ h
  rintro c b x y - ⟨e, rfl, he⟩
  refine ⟨e ++ [⟨d, b, y⟩], by simp, fun c' => ?_⟩
  rw [pop_join, he]
  simp

/-- The label of the root is either on the way or the one that is popped. -/
theorem pop_mapRoot {d : Side} {g : Path α} {t r : BinaryTree α} {a : α} (f : α → α)
    (h : pop d [] t = some (g, a, r)) :
    pop d [] (t.mapRoot f) = some (Path.mapLast f g, if g = [] then f a else a, r) := by
  have ht : t ≠ nil := by
    rintro rfl
    simp at h
  obtain ⟨b, x, y, rfl⟩ := exists_join d ht
  rw [mapRoot_join, pop_join]
  rw [pop_join, Option.some.injEq] at h
  by_cases hx : x = nil
  · subst hx
    rw [pop_nil, Option.getD_none, Prod.mk.injEq, Prod.mk.injEq] at h
    obtain ⟨rfl, rfl, rfl⟩ := h
    simp
  · obtain ⟨g', a', r', hpop⟩ := exists_pop d [⟨d, b, y⟩] hx
    rw [hpop, Option.getD_some, Prod.mk.injEq, Prod.mk.injEq] at h
    obtain ⟨rfl, rfl, rfl⟩ := h
    obtain ⟨e, rfl, he⟩ := pop_of_pop hpop
    rw [he, Path.mapLast_append]
    simp [Frame.mapLabel]

/-- The way down passes children of that side only. -/
theorem side_of_pop {d : Side} {c g : Path α} {t r : BinaryTree α} {a : α}
    (h : pop d c t = some (g, a, r)) : ∃ e, g = e ++ c ∧ ∀ f ∈ e, f.side = d := by
  refine pop_induction (motive := fun c _ => ∃ e, g = e ++ c ∧ ∀ f ∈ e, f.side = d)
    ⟨[], rfl, by simp⟩ ?_ h
  rintro c b x y - ⟨e, rfl, he⟩
  refine ⟨e ++ [⟨d, b, y⟩], by simp, fun f hf => ?_⟩
  rcases List.mem_append.1 hf with hf | hf
  · exact he f hf
  · rw [List.mem_singleton.1 hf]

/-- Nothing lies left of a way down to the left. -/
theorem before_of_side {e : Path α} (he : ∀ f ∈ e, f.side = .left) : before e = [] := by
  induction e with
  | nil => rfl
  | cons f e ih =>
    rw [List.forall_mem_cons] at he
    rw [before, he.1]
    exact ih he.2

theorem after_of_side {e : Path α} (he : ∀ f ∈ e, f.side = .right) : after e = [] := by
  induction e with
  | nil => rfl
  | cons f e ih =>
    rw [List.forall_mem_cons] at he
    rw [after, he.1]
    exact ih he.2

/-- The leftmost node comes first. -/
theorem inorder_pop {g : Path α} {t r : BinaryTree α} {a : α}
    (h : pop .left [] t = some (g, a, r)) :
    before g = [] ∧ t.inorder = a :: (r.inorder ++ after g) := by
  obtain ⟨e, rfl, he⟩ := side_of_pop h
  have ht : t = plug (e ++ []) (node a nil r) := (plug_pop h).symm
  have hbefore : before (e ++ []) = [] := by rw [List.append_nil, before_of_side he]
  refine ⟨hbefore, ?_⟩
  rw [ht, inorder_plug, hbefore]
  simp

/-! ### Empty places -/

/-- The path to the empty place that comes after the first `k` labels. -/
def gap : Path α → BinaryTree α → ℕ → Path α
  | c, nil, _ => c
  | c, node a l r, k =>
    if k ≤ l.numNodes then gap (⟨.left, a, r⟩ :: c) l k
    else gap (⟨.right, a, l⟩ :: c) r (k - l.numNodes - 1)

theorem gap_plug (c e : Path α) : gap c (plug e nil) (before e).length = e ++ c := by
  induction e using List.reverseRecOn generalizing c with
  | nil => rfl
  | append_singleton e f ih =>
    obtain ⟨d, a, u⟩ := f
    have hsize : (plug e nil : BinaryTree α).numNodes = (before e).length + (after e).length := by
      rw [← length_inorder, inorder_plug]
      simp
    rw [plug_append, before_append, List.length_append, List.append_assoc]
    cases d with
    | left =>
      have hplug : plug [⟨.left, a, u⟩] (plug e nil) = node a (plug e nil) u := rfl
      rw [hplug, gap, if_pos (by simp [before, hsize])]
      simpa [before] using ih (⟨.left, a, u⟩ :: c)
    | right =>
      have hlen : (before [⟨.right, a, u⟩] : List α).length = u.numNodes + 1 := by
        simp [before, length_inorder]
      have hplug : plug [⟨.right, a, u⟩] (plug e nil) = node a u (plug e nil) := rfl
      have hrest : u.numNodes + 1 + (before e).length - u.numNodes - 1 = (before e).length := by
        omega
      rw [hplug, gap, hlen, if_neg (by omega), hrest]
      exact ih (⟨.right, a, u⟩ :: c)

/-- There is one empty place between two neighbours. -/
theorem place_unique {g g' : Path α} (h : plug g nil = plug g' nil)
    (hlen : (before g).length = (before g').length) : g = g' := by
  have h₁ := gap_plug [] g
  have h₂ := gap_plug [] g'
  rw [List.append_nil] at h₁ h₂
  rw [← h₁, ← h₂, h, hlen]

/-- The outermost label on one side. -/
def outermost : Side → BinaryTree α → Option α
  | _, nil => none
  | .left, node a l _ => (outermost .left l).or (some a)
  | .right, node a _ r => (outermost .right r).or (some a)

@[simp] theorem outermost_nil (d : Side) : outermost d (nil : BinaryTree α) = none := by
  cases d <;> rfl

theorem outermost_join (d : Side) (a : α) (x y : BinaryTree α) :
    outermost d (join d a x y) = (outermost d x).or (some a) := by
  cases d <;> rfl

theorem outermost_pop {d : Side} {c g : Path α} {t r : BinaryTree α} {a : α}
    (h : pop d c t = some (g, a, r)) : outermost d t = some a :=
  pop_induction (motive := fun _ t => outermost d t = some a) (by simp [outermost_join])
    (fun _ _ _ _ _ ih => by rw [outermost_join, ih]; rfl) h

theorem outermost_left (t : BinaryTree α) : outermost .left t = t.inorder.head? := by
  induction t with
  | nil => rfl
  | node a l r ihl ihr => simp [outermost, ihl]

theorem outermost_right (t : BinaryTree α) : outermost .right t = t.inorder.getLast? := by
  induction t with
  | nil => rfl
  | node a l r ihl ihr =>
    rw [outermost, ihr, inorder_node, List.getLast?_append, List.getLast?_cons]
    cases r.inorder.getLast? <;> simp

/-- The nearest ancestor that lies on side `d` of the place. -/
def climb (d : Side) : Path α → Option α
  | [] => none
  | f :: c => if f.side = d then climb d c else some f.label

theorem climb_right (c : Path α) : climb .right c = (after c).head? := by
  induction c with
  | nil => rfl
  | cons f c ih =>
    obtain ⟨d, a, u⟩ := f
    cases d <;> simp [climb, after, ih]

theorem climb_left (c : Path α) : climb .left c = (before c).getLast? := by
  induction c with
  | nil => rfl
  | cons f c ih =>
    obtain ⟨d, a, u⟩ := f
    cases d <;> simp [climb, before, ih]

section Unseen

variable {g : α → α} {k : α → β}

theorem map_mapLabels (h : ∀ a, k (g a) = k a) (c : Path α) :
    List.map (Frame.map k) (Path.mapLabels g c) = List.map (Frame.map k) c := by
  rw [Path.mapLabels, List.map_map]
  exact List.map_congr_left fun f _ => by simp [Frame.map, h]

theorem map_mapLast (h : ∀ a, k (g a) = k a) (c : Path α) :
    List.map (Frame.map k) (Path.mapLast g c) = List.map (Frame.map k) c := by
  induction c with
  | nil => rfl
  | cons f c ih =>
    cases c with
    | nil => simp [Path.mapLast, Frame.map, h]
    | cons f' c =>
      rw [Path.mapLast, List.map_cons, ih]
      rfl

theorem map_mapHead (h : ∀ a, k (g a) = k a) (c : Path α) :
    List.map (Frame.map k) (Path.mapHead g c) = List.map (Frame.map k) c := by
  cases c <;> simp [Frame.map, h]

end Unseen

end BinaryTree
