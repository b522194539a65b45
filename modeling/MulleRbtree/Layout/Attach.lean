import MulleRbtree.Layout.RedRed
import MulleRbtree.Tree.Attach
import MulleRbtree.Library.Search

/-!
# `_mulle__rbtree_attach_node` does what `attach` does

`looseCell a` is the cell of a node that hangs nowhere: all its links are the sentinel.
-/

namespace MulleRbtree

open BinaryTree Cells Program

/-- A node that is not in the tree, with the links `_mulle__rbtree_init_node` gives it. -/
def looseCell (a : Entry) : Cell := (.slot a.slot, a.cell .nil .nil .nil .left)

namespace Base

variable {σ : Type} [MulleStorage σ] {s : Base σ} {E : Env σ} {z : Sentinel}
  {K : Multiset Cell} {c : Path Entry} {f : Frame Entry} {a : Entry} {T : ETree} {n : ℕ}

/-- The direction with which a node is attached tells the side of its parent. -/
def Directs (direction : ℤ) : Path Entry → Prop
  | [] => True
  | f :: _ => f.side = toward direction

theorem treeRef_ne_nil {t : ETree} (h : t ≠ nil) : treeRef t ≠ .nil :=
  fun e => h (treeRef_eq_nil.1 e)

/-- A loose node, in front of the parts around an empty place. -/
theorem parts_loose (h : Repr s E z ({looseCell a} + K) (plug c nil)) :
    Parts s E z ({(.slot a.slot, a.cell .nil (treeRef nil) (treeRef nil) .left)} +
      (K + below (.slot a.slot) nil)) (.slot a.slot) nil c .nil :=
  Holds.cast h.parts (by rw [below_nil, below_nil]; simp [looseCell])

/-- The link of the parent on the side of the empty place. -/
theorem putEmpty_spec {direction : ℤ} {X : Multiset Cell} {q : Ref} {b : ETree} {v : Ref}
    (h : Parts s E z X q b (f :: c) .nil) (hd : Directs direction (f :: c)) :
    Ensures (if direction < 0 then do
        assert ((← getLeft (.slot f.label.slot)) = .nil)
        putLeft (.slot f.label.slot) v
      else do
        assert ((← getRight (.slot f.label.slot)) = .nil)
        putRight (.slot f.label.slot) v : M σ Unit) s fun _ s' =>
      Parts s' E z X q b (Path.mapHead (Entry.relink E.stamp) (f :: c)) v := by
  have hlink := h.linkHead v
  have hempty := h.headChild f.side
  rw [if_pos rfl] at hempty
  rw [Directs, toward] at hd
  split_ifs at hd ⊢
  · rw [hd] at hlink hempty
    exact .bind_eq hempty (.bind_eq (assert_eq rfl) hlink)
  · rw [hd] at hlink hempty
    exact .bind_eq hempty (.bind_eq (assert_eq rfl) hlink)

/-- The leaf is hung below its parent. -/
theorem hangNode_spec {direction : ℤ} (h : Repr s E z ({looseCell a} + K) (plug c nil))
    (ha : a.isRed = true) (hd : Directs direction c) :
    Ensures (hangNode (.slot a.slot) (parentRef c) direction) s fun r s' => r = belowRed c ∧
      Repr s' E z K (plug (Path.mapHead (Entry.relink E.stamp) c) (if c = [] then
        blacken (node (a.relink E.stamp) nil nil) else node (a.relink E.stamp) nil nil)) := by
  have h₀ := parts_loose h
  have hred := Holds.isRed h₀.front mem_front
  rw [Entry.cell_color, Entry.color_isRed, ha] at hred
  refine .bind_eq (assert_eq nofun) (.bind_eq (h₀.getParent mem_front) (.bind_eq (assert_eq rfl)
    (.bind_eq (h₀.getChild .left mem_front) (.bind_eq (assert_eq rfl)
    (.bind_eq (h₀.getChild .right mem_front) (.bind_eq (assert_eq rfl) (.bind_eq hred
    (.bind_eq (assert_eq rfl) ((h₀.putParent _).bind fun _ s₁ h₁ => ?_)))))))))
  cases c with
  | nil =>
    rw [if_pos (by rfl)]
    refine (h₁.linkRoot (.slot a.slot)).bind fun _ s₂ h₂ => ?_
    have h₂' : Repr s₂ E z K (plug [] (join .left (a.relink E.stamp) nil nil)) :=
      Repr.of_parts_join h₂
    refine .bind_eq h₂'.getRoot (Ensures.bind h₂'.setNodeBlack fun _ s₃ h₃ => .pure ⟨rfl, h₃⟩)
  | cons f c =>
    have hroot : topRef (f :: c) .nil ≠ .nil := by
      rw [← treeRef_nil, ← treeRef_plug]
      exact treeRef_ne_nil (plug_ne_nil (.inl (List.cons_ne_nil f c)))
    rw [if_neg (by simp)]
    refine .bind_eq (Holds.getRoot h₁) (.bind_eq (assert_eq hroot) ?_)
    refine (putEmpty_spec h₁ hd).bind fun _ s₂ h₂ => ?_
    have h₂' : Repr s₂ E z K (plug (Path.mapHead (Entry.relink E.stamp) (f :: c))
        (join .left (a.relink E.stamp) nil nil)) := Repr.of_parts_join h₂
    have hisRed := Repr.isRed (c := c) (t := Frame.fill _ _) h₂'
    rw [treeRef_fill, Frame.fill, rootHas_join] at hisRed
    exact .of_eq hisRed ⟨rfl, h₂'⟩

/-- A node of the tree is marked as dirty. -/
theorem markNodeAsDirty_soilTo {i : ℕ} (h : Repr s E z K T) (hi : i ∈ slots T)
    (hd : Options.useDirty E.options = true) :
    Ensures (markNodeAsDirty (.slot i)) s fun _ s' => Repr s' E z K (soilTo E.stamp i T) := by
  obtain ⟨e, he, rfl⟩ := List.mem_map.1 hi
  obtain ⟨g, l, r, rfl⟩ := exists_plug_of_mem he
  rw [soilTo_plug_node h.nodup_slots]
  exact markNodeAsDirty_spec (c := ⟨.left, e, r⟩ :: g) (t := l) h hd

/-- With dirty flags or without, the way to the node is soiled. -/
theorem markTo_spec {i : ℕ} (h : Repr s E z K T) (hi : i ∈ slots T) :
    Ensures (when (Options.useDirty E.options) (markNodeAsDirty (.slot i))) s fun _ s' =>
      Repr s' E z K (soilTo E.stamp i T) := by
  cases hd : Options.useDirty E.options with
  | true => exact markNodeAsDirty_soilTo h hi hd
  | false =>
    rw [soilTo_eq_self hd]
    exact .pure h

/-- `_mulle__rbtree_attach_node` at an empty place of a red-black tree. -/
theorem attachNode_spec {direction : ℤ} (h : Repr s E z ({looseCell a} + K) (plug c nil))
    (hb : IsRedBlack Entry.isRed (plug c nil)) (ha : a.isRed = true) (hd : Directs direction c) :
    Ensures (attachNode (.slot a.slot) (parentRef c) direction) s fun _ s' => ∃ k ≤ 2,
      Repr s' (E.advanced.turnedBy k) z K (attach E.stamp a c) := by
  obtain ⟨n, hc, -, -⟩ := hole_of_isRedBlack hb
  have hhang : Ensures (do
      let redRed ← hangNode (.slot a.slot) (parentRef c) direction
      write fun s => { s with epoch := s.epoch + 1 }
      when redRed (redRedFixup (.slot a.slot)) : M σ Unit) s fun _ s' => ∃ k ≤ 2,
      Repr s' (E.advanced.turnedBy k) z K (hang E.stamp a c) := by
    refine (hangNode_spec h ha hd).bind ?_
    rintro _ s₁ ⟨rfl, h₁⟩
    refine (Holds.advance h₁).bind fun _ s₂ (h₂ : Repr s₂ E.advanced z K _) => ?_
    unfold hang
    cases c with
    | nil => exact .pure ⟨0, by omega, h₂⟩
    | cons f c =>
      rw [if_neg (List.cons_ne_nil f c)] at h₂
      dsimp only
      split_ifs with hf
      · rw [hf, when_true]
        have hc' := (hole_mapHead_relink (o := E.stamp)).2 hc
        have hfix := redRedFixup_spec h₂ (by simp) hc'
        rw [treeRef_node, Entry.relink_slot] at hfix
        exact hfix
      · rw [Bool.not_eq_true] at hf
        rw [hf, when_false]
        exact .pure ⟨0, by omega, h₂⟩
  have hcode : (attachNode (.slot a.slot) (parentRef c) direction : M σ Unit) = (do
      (do
        let redRed ← hangNode (.slot a.slot) (parentRef c) direction
        write fun s => { s with epoch := s.epoch + 1 }
        when redRed (redRedFixup (.slot a.slot)))
      assert ((← getRoot) ≠ .nil)
      when (Options.useDirty (← getOptions)) (markNodeAsDirty (.slot a.slot))) := by
    simp only [attachNode, bind_assoc]
  rw [hcode]
  refine hhang.bind ?_
  rintro _ s₁ ⟨k, hk, h₁⟩
  have hroot : treeRef (hang E.stamp a c) ≠ .nil := fun e => by
    have hmem := mem_slots_hang (o := E.stamp) (c := c) (a := a)
    rw [treeRef_eq_nil.1 e] at hmem
    simp at hmem
  refine .bind_eq h₁.getRoot (.bind_eq (assert_eq hroot) (.bind_eq h₁.getOptions ?_))
  exact (markTo_spec h₁ mem_slots_hang).mono fun _ s₂ h₂ => ⟨k, hk, h₂⟩

end Base
end MulleRbtree
