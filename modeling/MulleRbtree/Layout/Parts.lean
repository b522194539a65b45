import MulleRbtree.Layout.Holds

/-!
# Trees in memory, whole and taken apart

* `Sentinel`: what may change about `_nil`, its parent;
* `Repr s E z K T`: the memory of `s` consists of the sentinel, the tree `T` below the root, and
  the loose cells `K`;
* `Parts s E z X q b c ref`: a tree during surgery.  `b` is a subtree that hangs below `q`, `c` is
  the path to a place whose link is `ref`, and `X` is the rest.  One rule for each write that the
  surgery consists of;
* `repr_plug`: a tree with a place in focus is in parts.
-/

namespace MulleRbtree

open BinaryTree Cells Program

/-! ### The sentinel -/

/-- The parent of `_nil`; its other members never change. -/
structure Sentinel where
  parent : Ref
  relinked : ℕ

namespace Sentinel

def cell (z : Sentinel) : Cell := (.nil, Base.nilNode z.parent z.relinked)

/-- After `b->_parent = v`: it is the sentinel that changes if `b` is empty. -/
def adopt (o : Stamp) (v : Ref) (z : Sentinel) : ETree → Sentinel
  | nil => ⟨v, o.epoch⟩
  | node .. => z

@[simp] theorem adopt_nil (o : Stamp) (v : Ref) (z : Sentinel) : z.adopt o v nil = ⟨v, o.epoch⟩ :=
  rfl
theorem adopt_of_ne (o : Stamp) (v : Ref) (z : Sentinel) {b : ETree} (hb : b ≠ nil) :
    z.adopt o v b = z := by
  cases b with
  | nil => exact absurd rfl hb
  | node => rfl

theorem adopt_mapRoot (o : Stamp) (v : Ref) (z : Sentinel) (f : Entry → Entry) (b : ETree) :
    z.adopt o v (b.mapRoot f) = z.adopt o v b := by cases b <;> rfl

end Sentinel

variable {σ : Type} [MulleStorage σ]

/-- A tree during surgery. -/
def Parts (s : Base σ) (E : Env σ) (z : Sentinel) (X : Multiset Cell) (q : Ref) (b : ETree)
    (c : Path Entry) (ref : Ref) : Prop :=
  Holds s E (topRef c ref) ({z.cell} + (X + (below q b + above c ref)))

namespace Parts

open Base

variable {s : Base σ} {E : Env σ} {z : Sentinel} {X R : Multiset Cell} {q v ref : Ref} {b : ETree}
  {c : Path Entry} {f : Frame Entry} {d : Side} {e : Entry} {par near far n : Ref} {node : Rbnode}
  {i : ℕ}

theorem cast {Y : Multiset Cell} (h : Parts s E z X q b c ref) (e : X = Y) :
    Parts s E z Y q b c ref := e ▸ h

/-! #### The cells in front -/

/-- Bring the first of the cells in front of the rest. -/
theorem front (h : Parts s E z ({(n, node)} + R) q b c ref) :
    Holds s E (topRef c ref) ({(n, node)} + ({z.cell} + (R + (below q b + above c ref)))) :=
  Holds.cast h (by abel)

theorem of_front (h : Holds s E (topRef c ref)
    ({(n, node)} + ({z.cell} + (R + (below q b + above c ref))))) :
    Parts s E z ({(n, node)} + R) q b c ref := Holds.cast h (by abel)

/-- Exchange the first two of the cells in front. -/
theorem swap {A B : Multiset Cell} (h : Parts s E z (A + (B + R)) q b c ref) :
    Parts s E z (B + (A + R)) q b c ref := h.cast (by abel)

/-- Exchange the subtree in focus for another one. -/
theorem exchange {A B : Multiset Cell} {q' : Ref} {b' : ETree}
    (h : Parts s E z (A + (B + below q' b')) q b c ref) :
    Parts s E z (A + (B + below q b)) q' b' c ref := Holds.cast h (by abel)

theorem putParent (h : Parts s E z ({(.slot i, e.cell par near far d)} + R) q b c ref)
    (v : Ref) : Ensures (putParent (.slot i) v) s fun _ s' =>
      Parts s' E z ({(.slot i, (e.relink E.stamp).cell v near far d)} + R) q b c ref := by
  refine (h.front.putParent v).mono fun _ s' h' => of_front ?_
  rwa [Entry.cell_setParent] at h'

theorem putNear (h : Parts s E z ({(.slot i, e.cell par near far d)} + R) q b c ref)
    (v : Ref) : Ensures (putChild d (.slot i) v) s fun _ s' =>
      Parts s' E z ({(.slot i, (e.relink E.stamp).cell par v far d)} + R) q b c ref := by
  refine (h.front.putChild d v).mono fun _ s' h' => of_front ?_
  rwa [Entry.cell_setChild] at h'

theorem putFar (h : Parts s E z ({(.slot i, e.cell par near far d)} + R) q b c ref)
    (v : Ref) : Ensures (putChild d.other (.slot i) v) s fun _ s' =>
      Parts s' E z ({(.slot i, (e.relink E.stamp).cell par near v d)} + R) q b c ref := by
  refine (h.front.putChild d.other v).mono fun _ s' h' => of_front ?_
  rwa [Entry.cell_setChild_other] at h'

theorem recolor (h : Parts s E z ({(.slot i, e.cell par near far d)} + R) q b c ref)
    (f : Color → Color) : Ensures (recolor (.slot i) f) s fun _ s' =>
      Parts s' E z ({(.slot i, (e.recolor f).cell par near far d)} + R) q b c ref := by
  refine (h.front.recolor f).mono fun _ s' h' => of_front ?_
  rwa [Entry.cell_color, Entry.cell_recolor] at h'

/-- The node is given the colour of another one. -/
theorem setNodeColor (h : Parts s E z ({(.slot i, e.cell par near far d)} + R) q b c ref)
    (k : Color) : Ensures (Base.setNodeColor (.slot i) k.getColor) s fun _ s' => Parts s' E z
      ({(.slot i, (e.recolor fun m => m.setColor k.getColor).cell par near far d)} + R) q b c ref :=
  .bind_eq (assert_eq (Color.getColor_eq k)) (.bind_eq (assert_eq nofun)
    (.bind_eq (assert_eq (Color.getColor_eq k)) (h.recolor _)))

theorem mark (h : Parts s E z ({(.slot i, e.cell par near far d)} + R) q b c ref) :
    Ensures (setNodeMarked (.slot i)) s fun _ s' =>
      Parts s' E z ({(.slot i, (e.mark E.stamp).cell par near far d)} + R) q b c ref := by
  refine (h.front.setNodeMarked nofun).mono fun _ s' h' => of_front ?_
  rwa [Entry.cell_color, Entry.cell_recolor] at h'

theorem rotated (h : Parts s E z X q b c ref) :
    Ensures (write fun s => { s with rotations := s.rotations + 1 }) s fun _ s' =>
      Parts s' E.turned z X q b c ref := Holds.rotated h

/-- A cell in front is read. -/
theorem getParent (h : Parts s E z X q b c ref) (hn : (n, node) ∈ X) :
    Base.getParent n s = .ok (node.parent, s) := Holds.getParent h (by simp [hn])

theorem getChild (h : Parts s E z X q b c ref) (d : Side) (hn : (n, node) ∈ X) :
    Base.getChild d n s = .ok (node.child d, s) := Holds.getChild h d (by simp [hn])

theorem getColor (h : Parts s E z X q b c ref) (hn : (n, node) ∈ X) :
    Base.getColor n s = .ok (node.color.getColor, s) := Holds.getColor h (by simp [hn])

/-! #### The subtree -/

/-- The root of the subtree comes to the front. -/
theorem ofNode {e : Entry} {l r : ETree} (h : Parts s E z X q (.node e l r) c ref) :
    Parts s E z ({(.slot e.slot, e.cell q (treeRef l) (treeRef r) .left)} +
      (X + (below (.slot e.slot) l + below (.slot e.slot) r))) .nil nil c ref :=
  Holds.cast h (by rw [below_nil]; simp only [below]; abel)

/-- The subtree, whether empty or not, is marked at its root. -/
theorem markTree (h : Parts s E z X q b c ref) :
    Ensures (setNodeMarked (treeRef b)) s fun _ s' =>
      Parts s' E z X q (b.mapRoot (Entry.mark E.stamp)) c ref := by
  cases b with
  | nil => exact Holds.setNodeMarked_nil h
  | node e l r =>
    refine h.ofNode.mark.mono fun _ s' h' => Holds.cast h' ?_
    simp only [mapRoot_node, below, Entry.mark_slot]
    abel

/-- The parent of the subtree is read; if it is empty, that of the sentinel is. -/
theorem getParentTree (h : Parts s E z X q b c ref) (hb : b = nil → z.parent = q) :
    Base.getParent (treeRef b) s = .ok (q, s) := by
  cases b with
  | nil =>
    have hn : (Ref.nil, Base.nilNode z.parent z.relinked) ∈
        ({z.cell} + (X + (below q nil + above c ref)) : Multiset Cell) := by simp [Sentinel.cell]
    rw [treeRef_nil, Holds.getParent h hn, ← hb rfl]
    rfl
  | node e l r =>
    have hn : (Ref.slot e.slot, e.cell q (treeRef l) (treeRef r) .left) ∈
        ({z.cell} + (X + (below q (node e l r) + above c ref)) : Multiset Cell) := by simp [below]
    exact Holds.getParent h hn

/-- The subtree is hung below `v`, unless it is empty. -/
theorem reparent (h : Parts s E z X q b c ref) (hb : b ≠ nil) (v : Ref) :
    Ensures (Base.putParent (treeRef b) v) s fun _ s' =>
      Parts s' E z X v (b.mapRoot (Entry.relink E.stamp)) c ref := by
  cases b with
  | nil => exact absurd rfl hb
  | node e l r =>
    refine (h.ofNode.putParent v).mono fun _ s' h' => Holds.cast h' ?_
    simp only [mapRoot_node, below, Entry.relink_slot]
    abel

/-- The subtree is hung below `v`; the sentinel takes the write if it is empty. -/
theorem adopt (h : Parts s E z X q b c ref) (v : Ref) :
    Ensures (Base.putParent (treeRef b) v) s fun _ s' =>
      Parts s' E (z.adopt E.stamp v b) X v (b.mapRoot (Entry.relink E.stamp)) c ref := by
  cases b with
  | nil => exact Holds.putParent h v
  | node e l r => exact h.reparent (by simp) v

/-! #### The path -/

/-- The nearest ancestor comes to the front. -/
theorem ofHead (h : Parts s E z X q b (f :: c) ref) :
    Parts s E z ({(.slot f.label.slot,
      f.label.cell (parentRef c) ref (treeRef f.sibling) f.side)} +
      (X + below (.slot f.label.slot) f.sibling)) q b c (.slot f.label.slot) :=
  Holds.cast h (by rw [above_cons]; abel)

/-- The nearest ancestor, if there is one, is marked. -/
theorem markHead (h : Parts s E z X q b c ref) :
    Ensures (setNodeMarked (parentRef c)) s fun _ s' =>
      Parts s' E z X q b (c.mapHead (Entry.mark E.stamp)) ref := by
  cases c with
  | nil => exact Holds.setNodeMarked_nil h
  | cons f c =>
    refine h.ofHead.mark.mono fun _ s' h' => Holds.cast h' ?_
    simp only [Path.mapHead_cons, above_cons, Frame.mapLabel_label, Frame.mapLabel_sibling,
      Frame.mapLabel_side, Entry.mark_slot]
    abel

/-- The nearest ancestor is given another child at the place. -/
theorem linkHead (h : Parts s E z X q b (f :: c) ref) (v : Ref) :
    Ensures (putChild f.side (.slot f.label.slot) v) s fun _ s' =>
      Parts s' E z X q b (Path.mapHead (Entry.relink E.stamp) (f :: c)) v := by
  refine (h.ofHead.putNear v).mono fun _ s' h' => Holds.cast h' ?_
  simp only [Path.mapHead_cons, above_cons, Frame.mapLabel_label, Frame.mapLabel_sibling,
    Frame.mapLabel_side, Entry.relink_slot]
  abel

/-- Without ancestors, the place is the root. -/
theorem linkRoot (h : Parts s E z X q b [] ref) (v : Ref) :
    Ensures (setRoot v) s fun _ s' => Parts s' E z X q b [] v := Holds.setRoot h v

theorem headChild (h : Parts s E z X q b (f :: c) ref) (d : Side) :
    Base.getChild d (.slot f.label.slot) s =
      .ok (if d = f.side then ref else treeRef f.sibling, s) := by
  have hn : (Ref.slot f.label.slot, f.label.cell (parentRef c) ref (treeRef f.sibling) f.side) ∈
      ({z.cell} + (X + (below q b + above (f :: c) ref)) : Multiset Cell) := by simp [above_cons]
  rw [Holds.getChild h d hn]
  cases d <;> cases hs : f.side <;> rfl

/-- A cell in front is not the sibling of the place. -/
theorem front_ne_sibling (h : Parts s E z X q b (f :: c) ref) (hn : (n, node) ∈ X)
    (hne : n ≠ .nil) : treeRef f.sibling ≠ n := by
  obtain ⟨R, rfl⟩ := Multiset.exists_cons_of_mem hn
  rw [← Multiset.singleton_add] at h
  cases hs : f.sibling with
  | nil => exact fun e => hne e.symm
  | node e l r =>
    have hmem : (Ref.slot e.slot, e.cell (.slot f.label.slot) (treeRef l) (treeRef r) .left) ∈
        ({z.cell} + (R + (below q b + above (f :: c) ref)) : Multiset Cell) := by
      simp [above_cons, hs, below]
    exact (h.front.owns.ne hmem).symm

/-- The link to the place is followed back and rewritten, as the surgery does it: `d` is the side
that is tried first. -/
theorem relinkHead (h : Parts s E z X q b (f :: c) ref) (hn : (ref, node) ∈ X) (hne : ref ≠ .nil)
    (d : Side) (v : Ref) :
    Ensures (if ref = (if d = f.side then ref else treeRef f.sibling) then
        putChild d (.slot f.label.slot) v else putChild d.other (.slot f.label.slot) v) s
      fun _ s' => Parts s' E z X q b (Path.mapHead (Entry.relink E.stamp) (f :: c)) v := by
  have hsib := h.front_ne_sibling hn hne
  by_cases hd : d = f.side
  · rw [if_pos hd, if_pos rfl, hd]
    exact h.linkHead v
  · rw [if_neg hd, if_neg (fun e => hsib e.symm), ← Side.eq_other fun e => hd e.symm]
    exact h.linkHead v

end Parts

@[simp] theorem parentRef_mapHead {g : Entry → Entry} (hg : ∀ e, (g e).slot = e.slot)
    (c : Path Entry) : parentRef (Path.mapHead g c) = parentRef c := by cases c <;> simp [hg]

@[simp] theorem treeRef_relinkRoot (o : Stamp) (b : ETree) :
    treeRef (b.mapRoot (Entry.relink o)) = treeRef b := treeRef_mapRoot (Entry.relink_slot o) b
@[simp] theorem treeRef_touchRoot (o : Stamp) (b : ETree) :
    treeRef (b.mapRoot (Entry.touch o)) = treeRef b := treeRef_mapRoot (Entry.touch_slot o) b
@[simp] theorem treeRef_markRoot (o : Stamp) (b : ETree) :
    treeRef (b.mapRoot (Entry.mark o)) = treeRef b := treeRef_mapRoot (Entry.mark_slot o) b
@[simp] theorem treeRef_soilRoot (o : Stamp) (b : ETree) :
    treeRef (b.mapRoot (Entry.soil o)) = treeRef b := treeRef_mapRoot (Entry.soil_slot o) b

theorem mapHead_mark_relink (o : Stamp) (c : Path Entry) :
    Path.mapHead (Entry.mark o) (Path.mapHead (Entry.relink o) c) =
      Path.mapHead (Entry.touch o) c := by cases c <;> rfl

theorem mapRoot_mark_relink (o : Stamp) (b : ETree) :
    (b.mapRoot (Entry.relink o)).mapRoot (Entry.mark o) = b.mapRoot (Entry.touch o) := by
  cases b <;> rfl

theorem mapRoot_relink_mark (o : Stamp) (b : ETree) :
    (b.mapRoot (Entry.mark o)).mapRoot (Entry.relink o) = b.mapRoot (Entry.touch o) := by
  cases b <;> rfl

theorem mapRoot_touch_mark (o : Stamp) (b : ETree) :
    (b.mapRoot (Entry.mark o)).mapRoot (Entry.touch o) = b.mapRoot (Entry.touch o) := by
  cases b <;> simp

theorem mapRoot_touch_touch (o : Stamp) (b : ETree) :
    (b.mapRoot (Entry.touch o)).mapRoot (Entry.touch o) = b.mapRoot (Entry.touch o) := by
  cases b <;> simp

/-! ### Whole trees -/

/-- The memory consists of the sentinel, the tree `T` at the root, and the loose cells `K`. -/
def Repr (s : Base σ) (E : Env σ) (z : Sentinel) (K : Multiset Cell) (T : ETree) : Prop :=
  Holds s E (treeRef T) ({z.cell} + (K + below .nil T))

theorem repr_plug {s : Base σ} {E : Env σ} {z : Sentinel} {K : Multiset Cell} {c : Path Entry}
    {t : ETree} :
    Repr s E z K (plug c t) ↔ Parts s E z K (parentRef c) t c (treeRef t) := by
  unfold Repr Parts
  rw [treeRef_plug, below_plug, add_comm (above c _)]

namespace Repr

open Base

variable {s : Base σ} {E : Env σ} {z : Sentinel} {K : Multiset Cell} {T t x y : ETree}
  {c : Path Entry} {f : Frame Entry} {d : Side} {e : Entry} {n : Ref} {node : Rbnode}

theorem cast {T' : ETree} (h : Repr s E z K T) (e : T = T') : Repr s E z K T' := e ▸ h

theorem parts (h : Repr s E z K (plug c t)) : Parts s E z K (parentRef c) t c (treeRef t) :=
  repr_plug.1 h

/-- The root of the subtree in focus among the cells in front. -/
theorem parts_join (h : Repr s E z K (plug c (join d e x y))) :
    Parts s E z ({(.slot e.slot, e.cell (parentRef c) (treeRef x) (treeRef y) d)} +
      (K + below (.slot e.slot) x)) (.slot e.slot) y c (.slot e.slot) := by
  have h' := h.parts
  rw [treeRef_join] at h'
  exact Holds.cast h' (by rw [below_join]; abel)

theorem of_parts_join (h : Parts s E z ({(.slot e.slot, e.cell (parentRef c) (treeRef x)
      (treeRef y) d)} + (K + below (.slot e.slot) x)) (.slot e.slot) y c (.slot e.slot)) :
    Repr s E z K (plug c (join d e x y)) := by
  rw [repr_plug, treeRef_join]
  exact Holds.cast h (by rw [below_join]; abel)

/-- The cell of the node in focus. -/
theorem mem_join (h : Repr s E z K (plug c (join d e x y))) :
    ∃ H, Holds s E (treeRef (plug c (join d e x y))) H ∧
      (Ref.slot e.slot, e.cell (parentRef c) (treeRef x) (treeRef y) d) ∈ H :=
  ⟨_, h, by rw [below_plug, below_join]; simp⟩

theorem mem_nil (h : Repr s E z K T) :
    ∃ H, Holds s E (treeRef T) H ∧ (Ref.nil, Base.nilNode z.parent z.relinked) ∈ H :=
  ⟨_, h, by simp [Sentinel.cell]⟩

/-! #### Reading at the place in focus -/

theorem getRoot (h : Repr s E z K T) : Base.getRoot s = .ok (treeRef T, s) := Holds.getRoot h

theorem getOptions (h : Repr s E z K T) : Base.getOptions s = .ok (E.options, s) :=
  Holds.getOptions h

theorem getParent (h : Repr s E z K (plug c t)) (ht : t = nil → z.parent = parentRef c) :
    Base.getParent (treeRef t) s = .ok (parentRef c, s) := by
  cases t with
  | nil =>
    obtain ⟨H, hH, hn⟩ := h.mem_nil
    rw [treeRef_nil, hH.getParent hn, ← ht rfl]
    rfl
  | node e l r =>
    obtain ⟨H, hH, hn⟩ := mem_join (d := .left) h
    exact hH.getParent hn

theorem getChild (h : Repr s E z K (plug c (join d e x y))) :
    Base.getChild d (.slot e.slot) s = .ok (treeRef x, s) := by
  obtain ⟨H, hH, hn⟩ := h.mem_join
  rw [hH.getChild d hn, Entry.cell_child]

theorem getChild_other (h : Repr s E z K (plug c (join d e x y))) :
    Base.getChild d.other (.slot e.slot) s = .ok (treeRef y, s) := by
  obtain ⟨H, hH, hn⟩ := h.mem_join
  rw [hH.getChild d.other hn, Entry.cell_child_other]

theorem isRed (h : Repr s E z K (plug c t)) :
    Base.isRed (treeRef t) s = .ok (rootHas Entry.isRed t, s) := by
  cases t with
  | nil =>
    obtain ⟨H, hH, hn⟩ := h.mem_nil
    rw [treeRef_nil, hH.isRed hn]
    simp [Base.nilNode]
  | node e l r =>
    obtain ⟨H, hH, hn⟩ := mem_join (d := .left) h
    exact hH.isRed hn

theorem isBlack (h : Repr s E z K (plug c t)) :
    Base.isBlack (treeRef t) s = .ok (!rootHas Entry.isRed t, s) := by
  cases t with
  | nil =>
    obtain ⟨H, hH, hn⟩ := h.mem_nil
    rw [treeRef_nil, hH.isBlack hn]
    simp [Base.nilNode]
  | node e l r =>
    obtain ⟨H, hH, hn⟩ := mem_join (d := .left) h
    exact hH.isBlack hn

theorem getColor (h : Repr s E z K (plug c (join d e x y))) :
    Base.getColor (.slot e.slot) s = .ok (e.color.getColor, s) := by
  obtain ⟨H, hH, hn⟩ := h.mem_join
  rw [hH.getColor hn, Entry.cell_color]

theorem headChild (h : Repr s E z K (plug (f :: c) t)) (d : Side) :
    Base.getChild d (.slot f.label.slot) s =
      .ok (if d = f.side then treeRef t else treeRef f.sibling, s) := h.parts.headChild d

/-- Move the focus to the sibling. -/
theorem across (h : Repr s E z K (plug (f :: c) t)) :
    Repr s E z K (plug (f.across t :: c) f.sibling) := by
  rwa [plug_cons, Frame.fill_across]

/-- The link to the place in focus tells which child it is. -/
theorem ref_ne_sibling (h : Repr s E z K (plug (f :: c) t)) (ht : t ≠ nil) :
    treeRef t ≠ treeRef f.sibling := by
  obtain ⟨e, x, y, rfl⟩ := exists_join .left ht
  rw [treeRef_join]
  exact (h.parts_join.front_ne_sibling mem_front nofun).symm

/-! #### Loose cells -/

/-- A loose cell in front of all others. -/
theorem loose (h : Repr s E z ({(n, node)} + K) T) :
    Holds s E (treeRef T) ({(n, node)} + ({z.cell} + (K + below .nil T))) := Holds.cast h (by abel)

theorem of_loose (h : Holds s E (treeRef T) ({(n, node)} + ({z.cell} + (K + below .nil T)))) :
    Repr s E z ({(n, node)} + K) T := Holds.cast h (by abel)

/-- The node in focus among the loose cells, with one of its subtrees. -/
theorem parts_near (h : Repr s E z K (plug c (join d e x y))) :
    Parts s E z ({(.slot e.slot, e.cell (parentRef c) (treeRef x) (treeRef y) d)} +
      (K + below (.slot e.slot) y)) (.slot e.slot) x c (.slot e.slot) := by
  have h' := h.parts
  rw [treeRef_join] at h'
  exact Holds.cast h' (by rw [below_join]; abel)

/-! #### Painting at the place in focus -/

theorem mark (h : Repr s E z K (plug c t)) :
    Ensures (Base.setNodeMarked (treeRef t)) s fun _ s' =>
      Repr s' E z K (plug c (t.mapRoot (Entry.mark E.stamp))) := by
  refine h.parts.markTree.mono fun _ s' h' => repr_plug.2 ?_
  rwa [treeRef_markRoot]

theorem recolor (h : Repr s E z K (plug c t)) (ht : t ≠ nil) (f : Color → Color) :
    Ensures (Base.recolor (treeRef t) f) s fun _ s' =>
      Repr s' E z K (plug c (t.mapRoot (Entry.recolor f))) := by
  obtain ⟨e, x, y, rfl⟩ := exists_join .left ht
  rw [treeRef_join, mapRoot_join]
  exact (h.parts_join.recolor f).mono fun _ s' h' => of_parts_join h'

/-- The sentinel is black already. -/
theorem setBlack (h : Repr s E z K (plug c t)) :
    Ensures (Base.setBlack (treeRef t)) s fun _ s' =>
      Repr s' E z K (plug c (t.mapRoot (Entry.recolor Color.setBlack))) := by
  cases t with
  | nil =>
    have h' : Holds s E _ ({(.nil, Base.nilNode z.parent z.relinked)} + _) := h
    have hz : { Base.nilNode z.parent z.relinked with
        color := (Base.nilNode z.parent z.relinked).color.setBlack } =
        Base.nilNode z.parent z.relinked := by simp [Base.nilNode]
    have h'' := h'.recolor Color.setBlack
    rwa [hz] at h''
  | node e l r => exact h.recolor (by simp) _

theorem setNodeBlack (h : Repr s E z K (plug c t)) :
    Ensures (Base.setNodeBlack (treeRef t)) s fun _ s' =>
      Repr s' E z K (plug c (t.mapRoot (Entry.recolor Color.setBlack))) := by
  exact .bind_eq (assert_eq (Or.inr rfl)) h.setBlack

theorem setNodeRed (h : Repr s E z K (plug c t)) (ht : t ≠ nil) :
    Ensures (Base.setNodeRed (treeRef t)) s fun _ s' =>
      Repr s' E z K (plug c (t.mapRoot (Entry.recolor Color.setRed))) := by
  have hne : treeRef t ≠ .nil := fun e => ht (treeRef_eq_nil.1 e)
  exact .bind_eq (assert_eq hne) (.bind_eq (assert_eq (Or.inl rfl)) (h.recolor ht Color.setRed))

end Repr
end MulleRbtree
