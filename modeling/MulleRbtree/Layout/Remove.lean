import MulleRbtree.Layout.BlackBlack
import MulleRbtree.Layout.Navigation
import MulleRbtree.Tree.Remove

/-!
# `_mulle__rbtree_remove_node` does what `removeAt` does

* `cutOut_spec`, `takePlace_spec`: the link surgery; the node that is cut out stays in memory,
  loose;
* `markRemoved_soils`: whichever nodes the dirty marks start from, they soil the whole path above
  the place where a node went missing, and the root of what hangs there;
* `removeNode_spec`: the node is freed, the tree is rebalanced, all assertions hold.
-/

namespace MulleRbtree

open BinaryTree Cells Program

namespace Base

variable {σ : Type} [MulleStorage σ] {s : Base σ} {E : Env σ} {z : Sentinel}
  {K R : Multiset Cell} {c g : Path Entry} {d : Side} {a y : Entry} {t x l r : ETree}
  {q par near far : Ref} {i : ℕ}

/-! ### `y` is cut out -/

theorem cutOut_spec (h : Parts s E z ({(.slot i, y.cell (parentRef c) near far d)} + R) q x c
      (.slot i)) :
    Ensures (cutOut (.slot i) (treeRef x)) s fun _ s' =>
      Parts s' E (z.adopt E.stamp (parentRef c) x)
        ({(.slot i, y.cell (parentRef c) near far d)} + R) (parentRef c)
        (x.mapRoot (Entry.relink E.stamp)) (Path.mapHead (Entry.touch E.stamp) c) (treeRef x) := by
  have hparent : ∀ {s' : Base σ} {z' : Sentinel} {u : ETree} {f : Path Entry} {p v : Ref},
      Parts s' E z' ({(.slot i, y.cell (parentRef c) near far d)} + R) p u f v →
      getParent (.slot i) s' = .ok (parentRef c, s') := fun h' => by
    rw [h'.getParent mem_front, Entry.cell_parent]
  refine .bind_eq (hparent h) ((h.adopt _).bind fun _ s₁ h₁ => ?_)
  have hx := h₁.getParentTree fun e => by
    rw [mapRoot_eq_nil] at e
    rw [e]
    rfl
  rw [treeRef_relinkRoot] at hx
  refine .bind_eq hx (h₁.markHead.bind fun _ s₂ h₂ => ?_)
  have hhead : Path.mapHead (Entry.mark E.stamp) (Path.mapHead (Entry.relink E.stamp)
      (Path.mapHead (Entry.mark E.stamp) c)) = Path.mapHead (Entry.touch E.stamp) c := by
    cases c with
    | nil => rfl
    | cons f c => simp [Entry.mark_relink, Frame.mapLabel]
  refine .bind_eq (hparent h₂) ?_
  rw [← hhead]
  cases c with
  | nil =>
    rw [if_pos (by rfl)]
    exact (h₂.linkRoot _).bind fun _ s₃ h₃ => .bind_eq (hparent h₃) h₃.markHead
  | cons f c =>
    rw [if_neg (by simp)]
    have hlink := h₂.relinkHead mem_front Ref.slot_ne_nil .left (treeRef x)
    simp only [bind_assoc]
    refine .bind_eq (hparent h₂) (.bind_eq (h₂.headChild .left) ?_)
    split_ifs at hlink ⊢
    all_goals
      exact .bind (.bind_eq (hparent h₂) hlink) fun _ s₃ h₃ => .bind_eq (hparent h₃) h₃.markHead

/-! ### `y` takes the place of the node -/

/-- `y` keeps its right subtree if it was the right child, and adopts the right subtree else. -/
theorem takeRight_spec {b : ETree} {ref orig_right v : Ref}
    (h : Parts s E z ({(.slot i, (y.touch E.stamp).cell par near far .left)} + R) q b c ref)
    (hright : .slot i ≠ orig_right ∧ orig_right = treeRef b ∨
      .slot i = orig_right ∧ v = treeRef b ∧ far = treeRef b) :
    Ensures (if .slot i ≠ orig_right then
        putRight (.slot i) orig_right
      else do
        putParent v (.slot i)
        setNodeMarked (← getParent v) : M σ Unit) s fun _ s' => ∃ q' z' b',
      Parts s' E z' ({(.slot i, (y.touch E.stamp).cell par near (treeRef b) .left)} + R) q' b' c
        ref ∧ treeRef b' = treeRef b ∧
      z'.adopt E.stamp (.slot i) b' = z.adopt E.stamp (.slot i) b ∧
      b'.mapRoot (Entry.relink E.stamp) = b.mapRoot (Entry.relink E.stamp) := by
  rcases hright with ⟨hne, rfl⟩ | ⟨heq, rfl, rfl⟩
  · rw [if_pos hne]
    exact (h.putFar _).mono fun _ s₁ h₁ => ⟨q, z, b, h₁, rfl, rfl, rfl⟩
  · rw [if_neg (not_not.2 heq)]
    refine (h.adopt (.slot i)).bind fun _ s₁ h₁ => ?_
    have hb := h₁.getParentTree fun e => by
      rw [mapRoot_eq_nil] at e
      rw [e]
      rfl
    rw [treeRef_relinkRoot] at hb
    have hmark := h₁.mark
    rw [Entry.mark_touch] at hmark
    exact .bind_eq hb (hmark.mono fun _ s₂ h₂ => ⟨_, _, _, h₂, treeRef_relinkRoot _ _,
      by cases b <;> rfl, by cases b <;> rfl⟩)

/-- The parent of the node links to `y` now. -/
theorem takeLink_spec {b : ETree} {ref v : Ref} {X : Multiset Cell} {e node : Rbnode}
    (h : Parts s E z X q b c ref) (he : (v, e) ∈ X) (hp : e.parent = parentRef c)
    (hn : (ref, node) ∈ X) (hne : ref ≠ .nil) :
    Ensures (do
      if (← getParent v) ≠ .nil then do
        (if (← getLeft (← getParent v)) = ref then do putLeft (← getParent v) v
          else do putRight (← getParent v) v : M σ Unit)
        setNodeMarked (← getParent v)
      else
        setRoot v : M σ Unit) s fun _ s' =>
      Parts s' E z X q b (Path.mapHead (Entry.touch E.stamp) c) v := by
  have hparent : ∀ {s' : Base σ} {f : Path Entry} {u : Ref}, Parts s' E z X q b f u →
      getParent v s' = .ok (parentRef c, s') := fun h' => by rw [h'.getParent he, hp]
  refine .bind_eq (hparent h) ?_
  rw [← mapHead_mark_relink]
  cases c with
  | nil =>
    rw [if_neg (by simp)]
    exact h.linkRoot v
  | cons f c =>
    rw [if_pos (by simp)]
    have hlink := h.relinkHead hn hne .left v
    refine .bind_eq (hparent h) (.bind_eq (h.headChild .left) ?_)
    split_ifs at hlink ⊢ with h₁ h₂ h₃ h₄ h₅
    all_goals first
      | exact absurd ‹_ = ref›.symm ‹¬ ref = _›
      | exact absurd ‹ref = _›.symm ‹¬ _ = ref›
      | exact .bind (.bind_eq (hparent h) hlink) fun _ s₃ h₃ => .bind_eq (hparent h₃) h₃.markHead

/-- Both subtrees are hung below `y` and marked. -/
theorem takeChildren_spec {b u : ETree} {ref : Ref} {A : Multiset Cell} {q' : Ref}
    (h : Parts s E z ({(.slot i, y.cell par (treeRef u) (treeRef b) .left)} + (A + below q' u)) q b
      c ref) (hu : u ≠ nil) :
    Ensures (do
      putParent (← getRight (.slot i)) (.slot i)
      putParent (← getLeft (.slot i)) (.slot i)
      setNodeMarked (← getRight (.slot i))
      setNodeMarked (← getLeft (.slot i)) : M σ Unit) s fun _ s' =>
      Parts s' E (z.adopt E.stamp (.slot i) b)
        ({(.slot i, y.cell par (treeRef u) (treeRef b) .left)} +
          (A + below (.slot i) (b.mapRoot (Entry.touch E.stamp)))) (.slot i)
        (u.mapRoot (Entry.touch E.stamp)) c ref := by
  have hleft : ∀ {s' : Base σ} {z' : Sentinel} {R : Multiset Cell} {p : Ref} {t : ETree},
      Parts s' E z' ({(.slot i, y.cell par (treeRef u) (treeRef b) .left)} + R) p t c ref →
      getLeft (.slot i) s' = .ok (treeRef u, s') := fun h' => h'.getChild .left mem_front
  have hright : ∀ {s' : Base σ} {z' : Sentinel} {R : Multiset Cell} {p : Ref} {t : ETree},
      Parts s' E z' ({(.slot i, y.cell par (treeRef u) (treeRef b) .left)} + R) p t c ref →
      getRight (.slot i) s' = .ok (treeRef b, s') := fun h' => h'.getChild .right mem_front
  refine .bind_eq (hright h) ((h.adopt _).bind fun _ s₁ h₁ => .bind_eq (hleft h₁)
    ((h₁.exchange.reparent hu _).bind fun _ s₂ h₂ => .bind_eq (hright h₂) ?_))
  have hmark₁ := h₂.exchange.markTree
  rw [treeRef_relinkRoot, mapRoot_mark_relink] at hmark₁
  refine hmark₁.bind fun _ s₃ h₃ => .bind_eq (hleft h₃) ?_
  have hmark₂ := h₃.exchange.markTree
  rw [treeRef_relinkRoot, mapRoot_mark_relink] at hmark₂
  exact hmark₂

/-- `y` is linked in place of the node, with the colour of the node. -/
theorem takePlace_spec {b u : ETree} {orig_right v : Ref}
    (h : Repr s E z ({(.slot y.slot, (y.mark E.stamp).cell par near far .left)} + K)
      (plug c (node a u b))) (hu : u ≠ nil)
    (hright : .slot y.slot ≠ orig_right ∧ orig_right = treeRef b ∨
      .slot y.slot = orig_right ∧ v = treeRef b ∧ far = treeRef b) :
    Ensures (takePlace (.slot a.slot) (.slot y.slot) v (treeRef u) orig_right) s fun _ s' =>
      Repr s' E (z.adopt E.stamp (.slot y.slot) b)
        ({(.slot a.slot, a.cell (parentRef c) (treeRef u) (treeRef b) .left)} + K)
        (plug (Path.mapHead (Entry.touch E.stamp) c) (node (promote E.stamp a y)
          (u.mapRoot (Entry.touch E.stamp)) (b.mapRoot (Entry.touch E.stamp)))) := by
  set acell : Rbnode := a.cell (parentRef c) (treeRef u) (treeRef b) .left with hacell
  have h₀ : Parts s E z ({(.slot y.slot, (y.mark E.stamp).cell par near far .left)} +
      ({(.slot a.slot, acell)} + K + below (.slot a.slot) u)) (.slot a.slot) b c
      (.slot a.slot) := Holds.cast (Repr.parts_join (d := .left) h) (by abel)
  have hmem : ∀ {X : Multiset Cell}, (Ref.slot a.slot, acell) ∈
      X + ({(.slot a.slot, acell)} + K + below (.slot a.slot) u) := by simp
  have hacolor : acell.color = a.color := Entry.cell_color
  refine .bind_eq (h₀.getParent hmem) ((h₀.putParent _).bind fun _ s₁ h₁ =>
    (h₁.putNear _).bind fun _ s₂ h₂ => (takeRight_spec h₂ hright).bind ?_)
  rintro _ s₃ ⟨q', z', b', h₃, hb, hz, hb'⟩
  refine .bind_eq (h₃.getColor hmem) ((h₃.setNodeColor _).bind fun _ s₄ h₄ => ?_)
  rw [hacolor, Entry.cell_parent] at h₄
  have h₄' : Parts s₄ E z' ({(.slot y.slot, (promote E.stamp a y).cell (parentRef c) (treeRef u)
      (treeRef b') .left)} + ({(.slot a.slot, acell)} + K + below (.slot a.slot) u)) q' b' c
      (.slot a.slot) := by rw [hb]; exact h₄
  refine Ensures.congr ((takeLink_spec h₄' mem_front Entry.cell_parent hmem nofun).bind
    fun _ s₅ h₅ => (takeChildren_spec h₅ hu).mono fun _ s₆ h₆ => ?_) (by simp only [bind_assoc])
  have hbtouch : b'.mapRoot (Entry.touch E.stamp) = b.mapRoot (Entry.touch E.stamp) := by
    rw [← mapRoot_mark_relink, hb', mapRoot_mark_relink]
  rw [hz, hbtouch, hb] at h₆
  rw [repr_plug]
  refine Holds.cast h₆ ?_
  simp only [below, treeRef_touchRoot, promote, Entry.recolor_slot, Entry.touch_slot,
    parentRef_mapHead (Entry.touch_slot _), treeRef_node]
  abel

/-- The successor `y` that was cut out at the end of the path `g` in the right subtree takes the
place of the node. -/
theorem takeSuccessor_spec {u : ETree} {orig_right : Ref}
    (h : Repr s E z ({(.slot y.slot, (y.mark E.stamp).cell par .nil (treeRef x) .left)} + K)
      (plug (Path.mapHead (Entry.touch E.stamp) (g ++ ⟨.right, a.mark E.stamp, u⟩ :: c))
        (x.mapRoot (Entry.touch E.stamp)))) (hu : u ≠ nil)
    (hr : orig_right = topRef g (.slot y.slot)) (hg : g ≠ [] → .slot y.slot ≠ orig_right)
    (hz : x = nil → z = ⟨parentRef (g ++ ⟨.right, a.mark E.stamp, u⟩ :: c), E.epoch⟩) :
    Ensures (takePlace (.slot a.slot) (.slot y.slot) (treeRef x) (treeRef u) orig_right) s
      fun _ s' => ∃ z' v, Repr s' E z' ({(.slot a.slot, v)} + K)
        (plug (Path.mapLast (Entry.touch E.stamp) (Path.mapHead (Entry.touch E.stamp) g) ++
          ⟨.right, promote E.stamp a y, u.mapRoot (Entry.touch E.stamp)⟩ ::
            Path.mapHead (Entry.touch E.stamp) c) (x.mapRoot (Entry.touch E.stamp))) ∧
        v.parent = parentRef c ∧ (x = nil → z' =
          ⟨if g = [] then .slot y.slot else parentRef g, E.epoch⟩) := by
  cases g with
  | nil =>
    -- `y` was the right child
    have h' : Repr s E z ({(.slot y.slot, (y.mark E.stamp).cell par .nil (treeRef x) .left)} + K)
        (plug c (node (a.touch E.stamp) u (x.mapRoot (Entry.touch E.stamp)))) :=
      h.cast (by simp [plug_cons, Frame.fill, join_right, Frame.mapLabel])
    have htake := takePlace_spec (v := treeRef x) h' hu (.inr ⟨hr.symm, by simp, by simp⟩)
    refine htake.mono fun _ s₁ h₁ => ⟨_, _, h₁.cast ?_, Entry.cell_parent, fun hx => ?_⟩
    · rw [promote_touch, mapRoot_touch_touch]
      rfl
    · subst hx
      rfl
  | cons f g =>
    have htake := takePlace_spec (v := treeRef x) (b := plug (Path.mapHead (Entry.touch E.stamp)
      (f :: g)) (x.mapRoot (Entry.touch E.stamp))) (h.cast (by
        rw [List.cons_append, Path.mapHead_cons, ← List.cons_append, plug_append]; rfl)) hu
      (.inl ⟨hg (List.cons_ne_nil f g), by rw [hr, treeRef_plug]; rfl⟩)
    have hb : plug (Path.mapHead (Entry.touch E.stamp) (f :: g))
        (x.mapRoot (Entry.touch E.stamp)) ≠ nil := plug_ne_nil (.inl (by simp))
    rw [Sentinel.adopt_of_ne _ _ _ hb, promote_mark, mapRoot_plug _ (by simp)] at htake
    refine htake.mono fun _ s₁ h₁ => ⟨_, _, h₁.cast ?_, Entry.cell_parent, hz⟩
    rw [plug_append]
    rfl

/-! ### What is marked as dirty -/

/-- The path above the node that is gone. -/
theorem markParent_spec {v : Rbnode} (h : Repr s E z ({(.slot i, v)} + K) (plug c t))
    (hp : v.parent = parentRef c) (hd : Options.useDirty E.options = true) :
    Ensures (do
      if (← getParent (.slot i)) ≠ .nil then do
        markNodeAsDirty (← getParent (.slot i))
      else return () : M σ Unit) s fun _ s' => Repr s' E z ({(.slot i, v)} + K)
        (plug (Path.mapLabels (Entry.soil E.stamp) c) t) := by
  have hparent := h.loose.getParent mem_front
  rw [hp] at hparent
  refine .bind_eq hparent ?_
  cases c with
  | nil =>
    rw [if_neg (by simp)]
    exact .pure h
  | cons f c =>
    rw [if_pos (by simp)]
    exact .bind_eq hparent (markNodeAsDirty_spec h hd)

/-- The subtree at the place, if it is not empty. -/
theorem markPlace_spec (h : Repr s E z K (plug c x)) (hd : Options.useDirty E.options = true)
    {c' : Path Entry} (hc : Path.mapLabels (Entry.soil E.stamp) c =
      Path.mapLabels (Entry.soil E.stamp) c')
    (hx : x = nil → c = Path.mapLabels (Entry.soil E.stamp) c') :
    Ensures (when (treeRef x ≠ .nil) (markNodeAsDirty (treeRef x))) s fun _ s' => Repr s' E z K
      (plug (Path.mapLabels (Entry.soil E.stamp) c') (x.mapRoot (Entry.soil E.stamp))) := by
  by_cases h0 : x = nil
  · subst h0
    rw [treeRef_nil, ← hx rfl]
    exact .pure h
  · have hne : treeRef x ≠ .nil := fun e => h0 (treeRef_eq_nil.1 e)
    rw [decide_eq_true hne, when_true, ← hc]
    exact markNodeAsDirty_root h h0 hd

/-- The node had no successor in the tree: the marks start from its parent and from `x`. -/
theorem markRemoved_self {v : Rbnode} (h : Repr s E z ({(.slot i, v)} + K) (plug c x))
    (hp : v.parent = parentRef c) (hd : Options.useDirty E.options = true) :
    Ensures (markRemoved (.slot i) (.slot i) (treeRef x) .nil) s fun _ s' => Repr s' E z
      ({(.slot i, v)} + K) (plug (Path.mapLabels (Entry.soil E.stamp) c)
        (x.mapRoot (Entry.soil E.stamp))) := by
  refine Ensures.congr ((markParent_spec h hp hd).bind fun _ s₁ h₁ => ?_)
    (by simp only [markRemoved, bind_assoc]; rfl)
  simp only [ne_eq, not_true_eq_false, false_and, decide_false, when_false, pure_bind]
  exact markPlace_spec h₁ hd (mapLabels_soil_soil _ _) fun _ => rfl

/-- The former parent of the successor `y`, if there is no `x` to start from. -/
theorem markFormer_spec {v : Rbnode} {u : ETree} (h : Repr s E z ({(.slot i, v)} + K)
      (plug (g ++ ⟨.right, y.soil E.stamp, u⟩ :: Path.mapLabels (Entry.soil E.stamp) c) x))
    (hp : v.parent = parentRef c) (hd : Options.useDirty E.options = true) :
    Ensures (when (treeRef x = .nil) (markNodeAsDirty (if g = [] then .slot i else parentRef g))) s
      fun _ s' => ∃ v' c', Repr s' E z ({(.slot i, v')} + K) (plug c' x) ∧
        Path.mapLabels (Entry.soil E.stamp) c' =
          Path.mapLabels (Entry.soil E.stamp) (g ++ ⟨.right, y, u⟩ :: c) ∧
        (x = nil → c' = Path.mapLabels (Entry.soil E.stamp) (g ++ ⟨.right, y, u⟩ :: c)) := by
  have hsoil : Path.mapLabels (Entry.soil E.stamp)
      (g ++ ⟨.right, y.soil E.stamp, u⟩ :: Path.mapLabels (Entry.soil E.stamp) c) =
      Path.mapLabels (Entry.soil E.stamp) (g ++ ⟨.right, y, u⟩ :: c) := by
    rw [Path.mapLabels_append, Path.mapLabels_append, Path.mapLabels_cons, Path.mapLabels_cons,
      mapLabels_soil_soil]
    simp [Frame.mapLabel]
  by_cases hx : x = nil
  · subst hx
    rw [treeRef_nil, decide_eq_true rfl, when_true]
    cases g with
    | nil =>
      rw [if_pos rfl]
      refine (markNodeAsDirty_loose (c := Path.mapLabels (Entry.soil E.stamp) c)
        (t := node (y.soil E.stamp) u nil) h ?_ hd).mono ?_
      · cases c <;> exact hp
      · rintro _ s₁ ⟨v', h₁⟩
        rw [mapLabels_soil_soil] at h₁
        exact ⟨v', _, h₁, hsoil, fun _ => rfl⟩
    | cons f g =>
      rw [if_neg (List.cons_ne_nil f g)]
      exact (markNodeAsDirty_spec h hd).mono fun _ s₁ h₁ => ⟨v, _, h₁,
        by rw [mapLabels_soil_soil, hsoil], fun _ => hsoil⟩
  · have hne : treeRef x ≠ .nil := fun e => hx (treeRef_eq_nil.1 e)
    rw [decide_eq_false hne]
    exact .pure ⟨v, _, h, hsoil, fun e => absurd e hx⟩

/-- The successor `y` took the place of the node: the marks also start from `y`. -/
theorem markRemoved_successor {v : Rbnode} {u : ETree}
    (h : Repr s E z ({(.slot i, v)} + K) (plug (g ++ ⟨.right, y, u⟩ :: c) x))
    (hp : v.parent = parentRef c) (hy : y.slot ≠ i) (hd : Options.useDirty E.options = true) :
    Ensures (markRemoved (.slot i) (.slot y.slot) (treeRef x)
      (if g = [] then .slot i else parentRef g)) s fun _ s' => ∃ v', Repr s' E z
        ({(.slot i, v')} + K) (plug (Path.mapLabels (Entry.soil E.stamp)
          (g ++ ⟨.right, y, u⟩ :: c)) (x.mapRoot (Entry.soil E.stamp))) := by
  have hne : Ref.slot y.slot ≠ .slot i := fun e => hy (Ref.slot.inj e)
  have hformer : (if g = [] then Ref.slot i else parentRef g) ≠ .nil := by
    cases g <;> simp
  rw [plug_append] at h
  refine Ensures.congr ((markParent_spec (t := node y u (plug g x)) h hp hd).bind fun _ s₁ h₁ => ?_)
    (by simp only [markRemoved, bind_assoc]; rfl)
  have hroot := markNodeAsDirty_root h₁ (by simp) hd
  rw [mapLabels_soil_soil] at hroot
  have hswapped : decide (Ref.slot y.slot ≠ .slot i ∧ Ref.slot y.slot ≠ .nil) = true := by
    simp [hne]
  have hplace : decide (Ref.slot y.slot ≠ .slot i ∧ treeRef x = .nil ∧
      (if g = [] then Ref.slot i else parentRef g) ≠ .nil) = decide (treeRef x = .nil) := by
    simp [hne, hformer]
  rw [hswapped, hplace, when_true]
  refine hroot.bind fun _ s₂ h₂ => ?_
  have h₂' : Repr s₂ E z ({(.slot i, v)} + K) (plug (g ++ ⟨.right, y.soil E.stamp, u⟩ ::
      Path.mapLabels (Entry.soil E.stamp) c) x) := by rw [plug_append]; exact h₂
  refine (markFormer_spec h₂' hp hd).bind ?_
  rintro _ s₃ ⟨v', c', h₃, hc, hx⟩
  exact (markPlace_spec h₃ hd hc hx).mono fun _ s₄ h₄ => ⟨v', h₄⟩

/-! ### The node leaves the tree -/

/-- `_mulle__rbtree_remove_node` from the point where `y` is known. -/
def unlinkFrom (a_node y y_original_parent orig_left orig_right : Ref) :
    M σ (Ref × Bool × Ref × Ref) := do
  let x ← (if (← getLeft y) ≠ .nil then do getLeft y else do getRight y : M σ Ref)
  setNodeMarked x
  cutOut y x
  let fixup ← isBlack y
  when (y ≠ a_node) (takePlace a_node y x orig_left orig_right)
  when (Options.useDirty (← getOptions)) (markRemoved a_node y x y_original_parent)
  return (x, fixup, orig_left, orig_right)

/-- The only child of a node, if there is one. -/
theorem onlyChild_spec (h : Repr s E z K (plug c (join d y x nil))) :
    ∃ v, getLeft (.slot y.slot) s = .ok (v, s) ∧
      (if v ≠ .nil then getLeft (.slot y.slot) else getRight (.slot y.slot)) s =
        .ok (treeRef x, s) := by
  have hnear := h.getChild
  have hfar := h.getChild_other
  cases d with
  | left =>
    refine ⟨_, hnear, ?_⟩
    split_ifs with hx
    · exact hnear
    · rw [not_not.1 hx]
      exact hfar
  | right =>
    refine ⟨_, hfar, ?_⟩
    rw [treeRef_nil, if_neg (by simp)]
    exact hnear

/-- `y` leaves its place to `x`; it stays in memory. -/
theorem takeOut_spec {β : Type} {Q : β → Base σ → Prop} {k : Ref → M σ β}
    (h : Repr s E z K (plug c (join d y x nil)))
    (hk : ∀ s', Repr s' E (z.adopt E.stamp (parentRef c) x)
      ({(.slot y.slot, y.cell (parentRef c) (treeRef x) .nil d)} + K)
      (plug (Path.mapHead (Entry.touch E.stamp) c) (x.mapRoot (Entry.touch E.stamp))) →
      Ensures (k (treeRef x)) s' Q) :
    Ensures (do
      let x ← (if (← getLeft (.slot y.slot)) ≠ .nil then do getLeft (.slot y.slot)
        else do getRight (.slot y.slot) : M σ Ref)
      setNodeMarked x
      cutOut (.slot y.slot) x
      k x) s Q := by
  obtain ⟨v, hv, hx⟩ := onlyChild_spec h
  refine .bind_eq hv (.bind_eq hx ?_)
  have hfront := h.parts_near
  rw [treeRef_nil] at hfront
  refine hfront.markTree.bind fun _ s₁ h₁ => ?_
  have hcut := cutOut_spec h₁
  rw [treeRef_markRoot, mapRoot_relink_mark, Sentinel.adopt_mapRoot] at hcut
  refine hcut.bind fun _ s₂ h₂ => hk s₂ ?_
  rw [repr_plug, parentRef_mapHead (Entry.touch_slot E.stamp), treeRef_touchRoot]
  exact Holds.cast h₂ (by simp)

/-- The node itself leaves its place. -/
theorem unlinkFrom_self {orig_left orig_right : Ref} (h : Repr s E z K (plug c (join d a x nil))) :
    Ensures (unlinkFrom (.slot a.slot) (.slot a.slot) .nil orig_left orig_right) s fun r s' =>
      r = (treeRef x, !a.isRed, orig_left, orig_right) ∧ ∃ z' v,
      Repr s' E z' ({(.slot a.slot, v)} + K) (plug (Path.mapLabels (Entry.soil E.stamp)
        (Path.mapHead (Entry.touch E.stamp) c))
        ((x.mapRoot (Entry.touch E.stamp)).mapRoot (Entry.soil E.stamp))) ∧
      (x = nil → z' = ⟨parentRef c, E.epoch⟩) := by
  refine takeOut_spec h fun s₁ h₁ => ?_
  have hblack := h₁.loose.isBlack mem_front
  rw [Entry.cell_color, Entry.color_isRed] at hblack
  have hz : x = nil → z.adopt E.stamp (parentRef c) x = ⟨parentRef c, E.epoch⟩ := by
    rintro rfl
    rfl
  refine .bind_eq hblack ?_
  rw [decide_eq_false (by simp), when_false, pure_bind]
  refine .bind_eq h₁.getOptions ?_
  cases hd : Options.useDirty E.options with
  | false =>
    have hsoil : Entry.soil E.stamp = id := Entry.soil_eq_id hd
    simp only [hsoil, Path.mapLabels_id, mapRoot_id]
    exact .pure ⟨rfl, _, _, h₁, hz⟩
  | true =>
    have hmark := markRemoved_self h₁ (by
      rw [Entry.cell_parent, parentRef_mapHead (Entry.touch_slot E.stamp)]) hd
    rw [treeRef_touchRoot] at hmark
    exact hmark.bind fun _ s₂ h₂ => .pure ⟨rfl, _, _, h₂, hz⟩

/-- The successor `y` leaves its place and takes that of the node. -/
theorem unlinkFrom_successor {u : ETree} {orig_right : Ref}
    (h : Repr s E z K (plug (g ++ ⟨.right, a.mark E.stamp, u⟩ :: c)
      (join .right (y.mark E.stamp) x nil))) (hu : u ≠ nil) (hy : y.slot ≠ a.slot)
    (hr : orig_right = topRef g (.slot y.slot)) (hg : g ≠ [] → .slot y.slot ≠ orig_right) :
    Ensures (unlinkFrom (.slot a.slot) (.slot y.slot) (if g = [] then .slot a.slot else parentRef g)
        (treeRef u) orig_right) s fun r s' =>
      r = (treeRef x, !y.isRed, treeRef u, orig_right) ∧ ∃ z' v,
      Repr s' E z' ({(.slot a.slot, v)} + K) (plug (Path.mapLabels (Entry.soil E.stamp)
        (Path.mapLast (Entry.touch E.stamp) (Path.mapHead (Entry.touch E.stamp) g) ++
          ⟨.right, promote E.stamp a y, u.mapRoot (Entry.touch E.stamp)⟩ ::
            Path.mapHead (Entry.touch E.stamp) c))
        ((x.mapRoot (Entry.touch E.stamp)).mapRoot (Entry.soil E.stamp))) ∧
      (x = nil → z' = ⟨if g = [] then .slot y.slot else parentRef g, E.epoch⟩) := by
  refine takeOut_spec (y := y.mark E.stamp) h fun s₁ h₁ => ?_
  have hblack := h₁.loose.isBlack mem_front
  rw [Entry.cell_color, Entry.color_isRed, Entry.isRed_mark] at hblack
  refine .bind_eq hblack ?_
  have hne : Ref.slot y.slot ≠ .slot a.slot := fun e => hy (Ref.slot.inj e)
  rw [decide_eq_true hne, when_true]
  have htake := takeSuccessor_spec h₁ hu hr hg (by
    rintro rfl
    rfl)
  refine htake.bind ?_
  rintro _ s₂ ⟨z', v, h₂, hv, hz⟩
  refine .bind_eq h₂.getOptions ?_
  cases hd : Options.useDirty E.options with
  | false =>
    have hsoil : Entry.soil E.stamp = id := Entry.soil_eq_id hd
    simp only [hsoil, Path.mapLabels_id, mapRoot_id]
    exact .pure ⟨rfl, z', v, h₂, hz⟩
  | true =>
    have hmark := markRemoved_successor h₂ (by
      rw [hv, parentRef_mapHead (Entry.touch_slot E.stamp)]) hy hd
    have hformer : (if Path.mapLast (Entry.touch E.stamp) (Path.mapHead (Entry.touch E.stamp) g) = []
        then Ref.slot a.slot else parentRef (Path.mapLast (Entry.touch E.stamp)
          (Path.mapHead (Entry.touch E.stamp) g))) =
        if g = [] then .slot a.slot else parentRef g := by
      cases g with
      | nil => rfl
      | cons f g => cases g <;> rfl
    rw [treeRef_touchRoot, hformer] at hmark
    refine hmark.bind ?_
    rintro _ s₃ ⟨v', h₃⟩
    exact .pure ⟨rfl, z', v', h₃, hz⟩

/-- Which node is unlinked from its place, and its parent there if it is not the node itself. -/
def chooseNode (a_node : Ref) : M σ (Ref × Ref) := do
  if ← (do if (← getLeft a_node) = .nil then return true
           else return (← getRight a_node) = .nil : M σ Bool) then
    return (a_node, .nil)
  else do
    let y ← nextNode a_node
    setNodeMarked y
    return (y, ← getParent y)

theorem unlinkNode_eq (a_node : Ref) : (unlinkNode a_node : M σ (Ref × Bool × Ref × Ref)) = (do
    assert (a_node ≠ .nil)
    setNodeMarked a_node
    let orig_left ← getLeft a_node
    let orig_right ← getRight a_node
    setNodeMarked orig_left
    setNodeMarked orig_right
    let (y, y_original_parent) ← chooseNode a_node
    unlinkFrom a_node y y_original_parent orig_left orig_right) := by
  simp only [unlinkNode, chooseNode, bind_assoc]
  rfl

theorem isSingle_spec (h : Repr s E z K (plug c (node a l r))) :
    (do if (← getLeft (.slot a.slot)) = .nil then return true
        else return (← getRight (.slot a.slot)) = .nil : M σ Bool) s =
      .ok (decide (l = nil ∨ r = nil), s) := by
  have hleft : getLeft (.slot a.slot) s = .ok (treeRef l, s) := Repr.getChild (d := .left) h
  have hright : getRight (.slot a.slot) s = .ok (treeRef r, s) :=
    Repr.getChild_other (d := .left) h
  rw [bind_eq hleft]
  by_cases hl : l = nil
  · rw [if_pos (by rw [hl, treeRef_nil]), decide_eq_true (.inl hl)]
    rfl
  · rw [if_neg fun e => hl (treeRef_eq_nil.1 e), bind_eq hright]
    simp only [treeRef_eq_nil, hl, false_or]
    rfl

/-- A node with a free side is unlinked itself. -/
theorem chooseNode_self (h : Repr s E z K (plug c (node a l r))) (hlr : l = nil ∨ r = nil) :
    chooseNode (.slot a.slot) s = .ok ((.slot a.slot, .nil), s) := by
  rw [chooseNode, bind_eq (isSingle_spec h), if_pos (decide_eq_true hlr)]
  rfl

/-- The successor of any other node is the leftmost node of its right subtree. -/
theorem chooseNode_successor (h : Repr s E z K (plug c (node a l r))) (hl : l ≠ nil)
    (hpop : pop .left [] r = some (g, y, x)) :
    Ensures (chooseNode (.slot a.slot)) s fun q s' =>
      q = (.slot y.slot, if g = [] then .slot a.slot else parentRef g) ∧
      Repr s' E z K (plug (g ++ ⟨.right, a, l⟩ :: c) (join .right (y.mark E.stamp) x nil)) := by
  have hr : r ≠ nil := by
    rintro rfl
    simp at hpop
  have hnext : nextNode (.slot a.slot) s = .ok (.slot y.slot, s) := by
    have hstep := stepNode_spec (d := .right) (x := r) (y := l) h
    rw [Side.other_right, outermost_pop hpop] at hstep
    exact hstep
  have hfocus : Repr s E z K (plug (g ++ ⟨.right, a, l⟩ :: c) (join .right y x nil)) :=
    h.cast (plug_successor hpop).symm
  have hmark := hfocus.mark
  rw [treeRef_join, mapRoot_join] at hmark
  refine .bind_eq (isSingle_spec h) ?_
  rw [if_neg (by simp [hl, hr])]
  refine .bind_eq hnext (hmark.bind fun _ s₁ h₁ => ?_)
  have hparent := h₁.getParent (by simp)
  rw [treeRef_join] at hparent
  refine .bind_eq hparent (.pure ⟨?_, h₁⟩)
  cases g <;> rfl

/-- The node is out of the tree, and nothing links to it any more.  If nothing is left at the place
where a node went missing, the sentinel was told the parent of that place. -/
def Unlinked (E : Env σ) (K : Multiset Cell) (i : ℕ) (g : Path Entry) (x : ETree)
    (s : Base σ) : Prop :=
  ∃ z' v, Repr s E z' ({(.slot i, v)} + K) (plug g x) ∧ (x = nil → z' = ⟨parentRef g, E.epoch⟩)

theorem unlinkNode_single (h : Repr s E z K (plug c (join d (a.mark E.stamp) x nil)))
    {orig_left orig_right : Ref} {u : ETree} (hu : x = u.mapRoot (Entry.mark E.stamp)) :
    Ensures (unlinkFrom (.slot a.slot) (.slot a.slot) .nil orig_left orig_right) s fun q s' =>
      q = (treeRef u, !a.isRed, orig_left, orig_right) ∧ Unlinked E K a.slot
        (Path.mapLabels (Entry.soil E.stamp) (Path.mapHead (Entry.touch E.stamp) c))
        ((u.mapRoot (Entry.touch E.stamp)).mapRoot (Entry.soil E.stamp)) s' := by
  subst hu
  refine (unlinkFrom_self (a := a.mark E.stamp) h).mono ?_
  rintro _ s₁ ⟨rfl, z', v, h₁, hz⟩
  rw [treeRef_markRoot, Entry.isRed_mark]
  refine ⟨rfl, z', v, ?_, fun e => ?_⟩
  · rwa [mapRoot_touch_mark] at h₁
  · rw [mapRoot_eq_nil, mapRoot_eq_nil] at e
    rw [hz (by rw [e]; rfl)]
    cases c <;> rfl

theorem unlinkNode_spec (h : Repr s E z K (plug c (node a l r))) :
    Ensures (unlinkNode (.slot a.slot)) s fun q s' =>
      q = (treeRef (unlink E.stamp c a l r).2.1, (unlink E.stamp c a l r).2.2, treeRef l,
        treeRef r) ∧
      Unlinked E K a.slot (unlink E.stamp c a l r).1 (unlink E.stamp c a l r).2.1 s' := by
  rw [unlinkNode_eq]
  have hmark₀ : Ensures (setNodeMarked (.slot a.slot)) s fun _ s' =>
      Repr s' E z K (plug c (node (a.mark E.stamp) l r)) := Repr.mark (t := node a l r) h
  refine .bind_eq (assert_eq nofun) (hmark₀.bind fun _ s₁ h₁ => ?_)
  have hl₁ : getLeft (.slot a.slot) s₁ = .ok (treeRef l, s₁) :=
    Repr.getChild (d := .left) (e := a.mark E.stamp) h₁
  have hr₁ : getRight (.slot a.slot) s₁ = .ok (treeRef r, s₁) :=
    Repr.getChild_other (d := .left) (e := a.mark E.stamp) h₁
  have hmark₁ : Ensures (setNodeMarked (treeRef l)) s₁ fun _ s' =>
      Repr s' E z K (plug c (node (a.mark E.stamp) (l.mapRoot (Entry.mark E.stamp)) r)) :=
    Repr.mark (c := ⟨.left, a.mark E.stamp, r⟩ :: c) h₁
  refine .bind_eq hl₁ (.bind_eq hr₁ (hmark₁.bind fun _ s₂ h₂ => ?_))
  have hmark₂ : Ensures (setNodeMarked (treeRef r)) s₂ fun _ s' =>
      Repr s' E z K (plug c (node (a.mark E.stamp) (l.mapRoot (Entry.mark E.stamp))
        (r.mapRoot (Entry.mark E.stamp)))) :=
    Repr.mark (c := ⟨.right, a.mark E.stamp, l.mapRoot (Entry.mark E.stamp)⟩ :: c) h₂
  refine hmark₂.bind fun _ s₃ h₃ => ?_
  obtain ⟨rfl, e⟩ | ⟨-, rfl, e⟩ | ⟨hl, g, y, x, hpop, e⟩ := unlink_cases E.stamp c a l r
  · rw [e]
    refine .bind_eq (chooseNode_self (a := a.mark E.stamp) h₃ (.inl rfl)) ?_
    simpa using unlinkNode_single (d := .right) h₃ rfl
  · rw [e]
    refine .bind_eq (chooseNode_self (a := a.mark E.stamp) h₃ (.inr rfl)) ?_
    simpa using unlinkNode_single (d := .left) h₃ rfl
  · have hl' : l.mapRoot (Entry.mark E.stamp) ≠ nil := by simpa using hl
    have hr : treeRef r = topRef g (.slot y.slot) := by
      have hplug : plug g (join .left y nil x) = r.mapRoot (Entry.mark E.stamp) := plug_pop hpop
      rw [← treeRef_markRoot E.stamp r, ← hplug, treeRef_plug, treeRef_join]
    refine (chooseNode_successor (a := a.mark E.stamp) h₃ hl' hpop).bind ?_
    rintro _ s₄ ⟨rfl, h₄⟩
    have hg : g ≠ [] → Ref.slot y.slot ≠ treeRef r := fun hne e => hne
      ((Repr.treeRef_eq_top (t := join .right (y.mark E.stamp) x nil) (h₄.cast (by
        rw [plug_append]))).1 (by rw [treeRef_plug, treeRef_join]; exact e.trans hr))
    have hy : y.slot ≠ a.slot := fun e => List.append_ne_nil_of_right_ne_nil g (by simp)
      ((Repr.treeRef_eq_top (c := c) (t := join .right (y.mark E.stamp) x nil)
        (g := g ++ [⟨.right, a.mark E.stamp, l.mapRoot (Entry.mark E.stamp)⟩]) (h₄.cast (by
          rw [← plug_append, List.append_assoc]; rfl))).1 (by
            rw [plug_append, treeRef_join]; exact congrArg Ref.slot e))
    have hlast := unlinkFrom_successor h₄ hl' hy hr hg
    rw [treeRef_markRoot, mapRoot_touch_mark] at hlast
    rw [e]
    refine hlast.mono ?_
    rintro _ s₅ ⟨rfl, z', v, h₅, hz⟩
    refine ⟨by simp, z', v, h₅, fun hx => ?_⟩
    rw [mapRoot_eq_nil, mapRoot_eq_nil] at hx
    rw [hz hx]
    cases g with
    | nil => rfl
    | cons f g => cases g <;> rfl

/-! ### `_mulle__rbtree_remove_node` -/

theorem occurs_treeRef {T : ETree} (h : ∀ i ∈ slots t, i ∈ slots T) : Occurs (treeRef t) T := by
  rw [occurs_iff]
  cases t with
  | nil => exact .inl rfl
  | node e l r => exact .inr ⟨e.slot, h _ (by simp), rfl⟩

/-- The node is removed and freed, with at most three rotations. -/
theorem removeNode_spec (h : Repr s E z K (plug c (node a l r)))
    (hb : IsRedBlack Entry.isRed (plug c (node a l r)))
    (hd : Dirt E.options (plug c (node a l r))) :
    Ensures (removeNode (.slot a.slot)) s fun _ s' => ∃ k ≤ 3, ∃ z',
      Repr s' ((E.advanced.freed a.slot).turnedBy k) z' K (removeAt E.stamp.next c a l r) := by
  have hunlink := kept_unlink (o := E.stamp.next) tolerant_up hd
  have hdirt := kept_removeAt (o := E.stamp.next) tolerant_up hd
  refine (Holds.advance h).bind fun _ s₁ h₁ => (unlinkNode_spec h₁).bind ?_
  rintro _ s₂ ⟨rfl, z', v, h₂, hz⟩
  refine h₂.loose.freeNode.bind fun _ s₃ h₃ => ?_
  have hfix : Ensures (when (unlink E.stamp.next c a l r).2.2
      (blackBlackFixup (treeRef (unlink E.stamp.next c a l r).2.1))) s₃ fun _ s' => ∃ k ≤ 3,
      Repr s' ((E.advanced.freed a.slot).turnedBy k) z' K (removeAt E.stamp.next c a l r) := by
    unfold removeAt
    cases hblack : (unlink E.stamp.next c a l r).2.2 with
    | true =>
      obtain ⟨n, hn⟩ := unlink_deficit hb hblack
      exact blackBlackFixup_spec (E := E.advanced.freed a.slot) h₃
        (fun hx => congrArg Sentinel.parent (hz hx)) hn hunlink
    | false => exact .pure ⟨0, by omega, h₃⟩
  refine hfix.bind ?_
  rintro _ s₄ ⟨k, hk, h₄⟩
  have hx : Occurs (treeRef (unlink E.stamp.next c a l r).2.1) (removeAt E.stamp.next c a l r) :=
    occurs_treeRef fun i hi => by
      rw [← slots_unlink, slots, inorder_plug]
      simp only [List.map_append, List.mem_append]
      exact .inr (.inl hi)
  have hl : Occurs (treeRef l) (removeAt E.stamp.next c a l r) :=
    occurs_treeRef fun i hi => mem_slots_removeAt.2 (.inr (.inl hi))
  have hr : Occurs (treeRef r) (removeAt E.stamp.next c a l r) :=
    occurs_treeRef fun i hi => mem_slots_removeAt.2 (.inr (.inr (.inl hi)))
  exact .bind_eq (assertDirtyFlagPropagation_of_dirt h₄ hdirt hx)
    (.bind_eq (assertDirtyFlagPropagation_of_dirt h₄ hdirt hl)
      (.of_eq (assertDirtyFlagPropagation_of_dirt h₄ hdirt hr) ⟨k, hk, z', h₄⟩))

end Base
end MulleRbtree
