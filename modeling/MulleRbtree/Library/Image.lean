import MulleRbtree.Library.RedBlack
import MulleRbtree.Library.Local
import MulleRbtree.Library.Search

/-!
# Images of trees

* `image swap f t`: the tree `t` with its labels renamed by `f`, and, if `swap`, with left and right
  exchanged at every node.  A renaming is the case `swap = false`, the mirror image the case
  `swap = true` with `f = id`;
* `Path.image`: the same for the surroundings of a place;
* how the images are taken apart and put together: `image_join`, `image_plug`, `unjoin_image`,
  `pop_image`, …;
* what images keep: `balanced_image`, `hole_image`, `everywhere_image`, `locally_mirror`;
* searches in a renamed tree: `seek_image`, `visits_image`, `track_image`, `ceiling_image`.
-/

/-- The side itself or, if `swap`, the other one. -/
def Side.flip (swap : Bool) (d : Side) : Side := if swap then d.other else d

namespace Side

variable {swap : Bool} {d d' : Side}

@[simp] theorem flip_false (d : Side) : d.flip false = d := rfl
@[simp] theorem flip_true (d : Side) : d.flip true = d.other := rfl

@[simp] theorem flip_other : d.other.flip swap = (d.flip swap).other := by
  cases swap <;> rfl

@[simp] theorem flip_inj : d.flip swap = d'.flip swap ↔ d = d' := by
  cases swap <;> cases d <;> cases d' <;> simp

end Side

namespace BinaryTree

variable {α β : Type}

/-- The image of a tree. -/
def image (swap : Bool) (f : α → β) : BinaryTree α → BinaryTree β
  | nil => nil
  | node a l r => join (Side.left.flip swap) (f a) (image swap f l) (image swap f r)

/-- The mirror image. -/
abbrev mirror (t : BinaryTree α) : BinaryTree α := t.image true id

variable {swap : Bool} {f : α → β} {d : Side} {a : α} {x y t : BinaryTree α} {c : Path α}

@[simp] theorem image_nil : image swap f nil = nil := rfl

@[simp] theorem image_join : (join d a x y).image swap f =
    join (d.flip swap) (f a) (x.image swap f) (y.image swap f) := by
  cases swap <;> cases d <;> rfl

theorem image_node : (node a x y).image swap f =
    join (Side.left.flip swap) (f a) (x.image swap f) (y.image swap f) := rfl

/-- The image of a single node. -/
theorem image_leaf : (node a nil nil).image swap f = node (f a) nil nil := by
  cases swap <;> rfl

theorem image_false : t.image false f = t.map f := by
  induction t with
  | nil => rfl
  | node a l r ihl ihr => rw [image, ihl, ihr]; rfl

theorem inorder_image_false : (t.image false f).inorder = t.inorder.map f := by
  rw [image_false, inorder_map]

@[simp] theorem image_eq_nil : t.image swap f = nil ↔ t = nil := by
  cases t <;> simp [image]

/-! ### Places -/

def Frame.image (swap : Bool) (f : α → β) (g : Frame α) : Frame β :=
  ⟨g.side.flip swap, f g.label, g.sibling.image swap f⟩

def Path.image (swap : Bool) (f : α → β) (c : Path α) : Path β := List.map (Frame.image swap f) c

@[simp] theorem Frame.image_side {g : Frame α} : (g.image swap f).side = g.side.flip swap := rfl
@[simp] theorem Frame.image_label {g : Frame α} : (g.image swap f).label = f g.label := rfl
@[simp] theorem Frame.image_sibling {g : Frame α} :
    (g.image swap f).sibling = g.sibling.image swap f := rfl

@[simp] theorem Path.image_nil : Path.image swap f [] = [] := rfl
@[simp] theorem Path.image_cons {g : Frame α} :
    Path.image swap f (g :: c) = g.image swap f :: Path.image swap f c := rfl
@[simp] theorem Path.image_append {e : Path α} :
    Path.image swap f (c ++ e) = Path.image swap f c ++ Path.image swap f e := List.map_append

theorem Path.image_false : Path.image false f c = List.map (Frame.map f) c :=
  List.map_congr_left fun g _ => by rw [Frame.image, BinaryTree.image_false]; rfl

@[simp] theorem image_fill {g : Frame α} :
    (g.fill t).image swap f = (g.image swap f).fill (t.image swap f) := image_join

@[simp] theorem image_plug :
    (plug c t).image swap f = plug (Path.image swap f c) (t.image swap f) := by
  induction c generalizing t with
  | nil => rfl
  | cons g c ih => rw [plug_cons, ih, image_fill]; rfl

/-! ### Taking apart -/

theorem unjoin_image : (t.image swap f).unjoin (d.flip swap) =
    (t.unjoin d).map fun q => (f q.1, q.2.1.image swap f, q.2.2.image swap f) := by
  cases t with
  | nil => rfl
  | node a l r => cases swap <;> cases d <;> rfl

theorem rootHas_image {q : α → Bool} {q' : β → Bool} (h : ∀ a, q' (f a) = q a) :
    rootHas q' (t.image swap f) = rootHas q t := by
  cases t with
  | nil => rfl
  | node a l r => rw [image, rootHas_join, rootHas_node, h]

theorem label?_image : (t.image swap f).label? = t.label?.map f := by
  cases t with
  | nil => rfl
  | node a l r => rw [image, label?_join]; rfl

theorem pop_image : pop (d.flip swap) (Path.image swap f c) (t.image swap f) =
    (pop d c t).map fun q => (Path.image swap f q.1, f q.2.1, q.2.2.image swap f) := by
  induction hn : t.numNodes using Nat.strong_induction_on generalizing c t with
  | _ n ih =>
    by_cases ht : t = nil
    · subst ht
      simp
    · obtain ⟨b, x, y, rfl⟩ := exists_join d ht
      have hlt : x.numNodes < n := by
        rw [← hn]
        cases d <;> simp [join]
      have hx := ih _ hlt (c := ⟨d, b, y⟩ :: c) rfl
      rw [image_join, pop_join, pop_join, Option.map_some]
      change some ((pop _ (Path.image swap f (⟨d, b, y⟩ :: c)) _).getD _) = _
      rw [hx]
      cases pop d (⟨d, b, y⟩ :: c) x <;> rfl

/-! ### Changed labels -/

section Changed

variable {g : α → α} {g' : β → β} (h : ∀ a, f (g a) = g' (f a))
include h

theorem image_mapRoot : (t.mapRoot g).image swap f = (t.image swap f).mapRoot g' := by
  cases t with
  | nil => rfl
  | node a l r => rw [mapRoot_node, image, image, mapRoot_join, h]

theorem Frame.image_mapLabel {k : Frame α} :
    (k.mapLabel g).image swap f = (k.image swap f).mapLabel g' := by
  simp [Frame.image, Frame.mapLabel, h]

theorem Path.image_mapLabels :
    Path.image swap f (Path.mapLabels g c) = Path.mapLabels g' (Path.image swap f c) := by
  induction c with
  | nil => rfl
  | cons k c ih =>
    rw [Path.mapLabels_cons, Path.image_cons, Path.image_cons, Path.mapLabels_cons, ih,
      Frame.image_mapLabel h]

theorem Path.image_mapHead :
    Path.image swap f (Path.mapHead g c) = Path.mapHead g' (Path.image swap f c) := by
  cases c with
  | nil => rfl
  | cons k c => simp only [Path.mapHead_cons, Path.image_cons, Frame.image_mapLabel h]

theorem Path.image_mapLast :
    Path.image swap f (Path.mapLast g c) = Path.mapLast g' (Path.image swap f c) := by
  induction c with
  | nil => rfl
  | cons k c ih =>
    cases c with
    | nil => simp [Path.mapLast, Frame.image_mapLabel h]
    | cons k' c =>
      rw [Path.mapLast, Path.image_cons, ih]
      rfl

end Changed

/-! ### What images keep -/

section RedBlack

variable {red : α → Bool} {red' : β → Bool} (h : ∀ a, red' (f a) = red a) {n : ℕ}
include h

theorem balanced_image : Balanced red' (t.image swap f) n ↔ Balanced red t n := by
  induction t generalizing n with
  | nil => rfl
  | node a l r ihl ihr =>
    rw [image, ← join_left]
    cases ha : red a with
    | true =>
      have ha' : red' (f a) = true := by rw [h, ha]
      rw [balanced_red ha', balanced_red ha, rootHas_image h, rootHas_image h, ihl, ihr]
    | false =>
      have ha' : red' (f a) = false := by rw [h, ha]
      rw [balanced_black ha', balanced_black ha]
      simp only [ihl, ihr]

theorem hole_image : Hole red' (Path.image swap f c) n ↔ Hole red c n := by
  induction c generalizing n with
  | nil => rfl
  | cons k c ih =>
    have htakes : takesRed red' (Path.image swap f c) = takesRed red c := by
      cases c with
      | nil => rfl
      | cons k c => simp [takesRed, h]
    rw [Path.image_cons]
    cases ha : red k.label with
    | true =>
      have ha' : red' (k.image swap f).label = true := by rw [Frame.image_label, h, ha]
      rw [hole_red ha', hole_red ha, Frame.image_sibling, balanced_image h, rootHas_image h, ih,
        htakes]
    | false =>
      have ha' : red' (k.image swap f).label = false := by rw [Frame.image_label, h, ha]
      rw [hole_black ha', hole_black ha, Frame.image_sibling, balanced_image h, ih]

theorem isRedBlack_image : IsRedBlack red' (t.image swap f) ↔ IsRedBlack red t := by
  unfold IsRedBlack
  rw [rootHas_image h]
  simp only [balanced_image h]

end RedBlack

theorem everywhere_image {P : α → Prop} {Q : β → Prop} (h : ∀ a, Q (f a) ↔ P a) :
    Everywhere Q (t.image swap f) ↔ Everywhere P t := by
  induction t with
  | nil => simp
  | node a l r ihl ihr => rw [image, everywhere_join, everywhere_node, h, ihl, ihr]

/-- A local property that treats both sides alike. -/
theorem locally_mirror {R : α → Option α → Option α → Prop} (h : ∀ a u v, R a u v → R a v u)
    (ht : Locally R t) : Locally R t.mirror := by
  induction t with
  | nil => trivial
  | node a l r ihl ihr =>
    refine ⟨?_, ihr ht.2.2, ihl ht.2.1⟩
    rw [label?_image, label?_image, Option.map_id_apply, Option.map_id_apply]
    exact h _ _ _ ht.1

theorem mem_inorder_image {b : β} : b ∈ (t.image swap f).inorder ↔ ∃ a ∈ t.inorder, f a = b := by
  induction t with
  | nil => simp
  | node a l r ihl ihr =>
    rw [image, mem_inorder_join, ihl, ihr]
    simp only [inorder_node, List.mem_append, List.mem_cons]
    constructor
    · rintro (rfl | ⟨e, he, rfl⟩ | ⟨e, he, rfl⟩)
      · exact ⟨a, .inr (.inl rfl), rfl⟩
      · exact ⟨e, .inl he, rfl⟩
      · exact ⟨e, .inr (.inr he), rfl⟩
    · rintro ⟨e, he | rfl | he, rfl⟩
      · exact .inr (.inl ⟨e, he, rfl⟩)
      · exact .inl rfl
      · exact .inr (.inr ⟨e, he, rfl⟩)

/-! ### Searches in a renamed tree -/

section Search

variable {cmp : α → ℤ} {cmp' : β → ℤ} {halt : Bool}

theorem seek_image (h : Everywhere (fun a => cmp' (f a) = cmp a) t) :
    seek cmp' halt (Path.image false f c) (t.image false f) =
      (seek cmp halt c t).map (Path.image false f) := by
  induction t generalizing c with
  | nil => rfl
  | node a l r ihl ihr =>
    obtain ⟨ha, hl, hr⟩ := everywhere_node.1 h
    change seek cmp' halt _ (node (f a) (l.image false f) (r.image false f)) = _
    rw [seek, seek, ha]
    split_ifs
    · rfl
    · exact ihl hl (c := ⟨.left, a, r⟩ :: c)
    · exact ihr hr (c := ⟨.right, a, l⟩ :: c)

theorem visits_image (h : Everywhere (fun a => cmp' (f a) = cmp a) t) :
    visits cmp' halt (t.image false f) = (visits cmp halt t).map f := by
  induction t with
  | nil => rfl
  | node a l r ihl ihr =>
    obtain ⟨ha, hl, hr⟩ := everywhere_node.1 h
    change visits cmp' halt (node (f a) (l.image false f) (r.image false f)) = _
    rw [visits, visits, ha, List.map_cons]
    split_ifs
    · rfl
    · rw [ihl hl]
    · rw [ihr hr]

theorem track_image (h : Everywhere (fun a => cmp' (f a) = cmp a) t) :
    track cmp' (Path.image false f c) (t.image false f) =
      (track cmp c t).map fun q =>
        (Path.image false f q.1, f q.2.1, q.2.2.1.image false f, q.2.2.2.image false f) := by
  induction t generalizing c with
  | nil => rfl
  | node a l r ihl ihr =>
    obtain ⟨ha, hl, hr⟩ := everywhere_node.1 h
    change track cmp' _ (node (f a) (l.image false f) (r.image false f)) = _
    rw [track, track, ha]
    split_ifs
    · rfl
    · exact ihl hl (c := ⟨.left, a, r⟩ :: c)
    · exact ihr hr (c := ⟨.right, a, l⟩ :: c)

theorem lookup_image (h : Everywhere (fun a => cmp' (f a) = cmp a) t) :
    lookup cmp' (t.image false f) = (lookup cmp t).map f := by
  have htrack : track cmp' [] (t.image false f) = _ := track_image h (c := [])
  rw [lookup_eq_track [], lookup_eq_track [], htrack, Option.map_map, Option.map_map]
  rfl

theorem ceiling_image (h : Everywhere (fun a => cmp' (f a) = cmp a) t) (d : Option α) :
    ceiling cmp' (t.image false f) (d.map f) = (ceiling cmp t d).map f := by
  induction t generalizing d with
  | nil => rfl
  | node a l r ihl ihr =>
    obtain ⟨ha, hl, hr⟩ := everywhere_node.1 h
    change ceiling cmp' (node (f a) (l.image false f) (r.image false f)) _ = _
    rw [ceiling, ceiling, ha]
    split_ifs
    · rfl
    · exact ihl hl (some a)
    · exact ihr hr d

end Search

end BinaryTree
