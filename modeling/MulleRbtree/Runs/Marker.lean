import MulleRbtree.Layout.Isolated
import MulleRbtree.Layout.Relinks
import MulleRbtree.Runs.Asserts
import MulleRbtree.Tree.Marker

/-!
# Markers tell which nodes were relinked

* `markedCalls`: all calls on a tree, and `_mulle_rbnode_clear_marker`;
* `Dated m`: between calls no link was written in the future (`Evolves.dated`, `Performs.dated`);
* `MarksRelinked s s'`: in `s'` the marked nodes are those of the tree of which a link was written
  since the epoch of `s`;
* `markers_of_run`: a removal, and an insertion once the leaf hangs in the tree, mark exactly the
  nodes they relink.
-/

namespace MulleRbtree

open BinaryTree Cells Program

variable {σ : Type}

/-! ### Reading markers -/

/-- `_mulle_rbnode_is_marked` -/
def markedAt (s : Base σ) (n : Ref) : Bool := ((s.mem n).map fun c => c.color.isMarked).getD false

/-- The epoch in which a link of the node was written last. -/
def relinkedAt (s : Base σ) (n : Ref) : ℕ := ((s.mem n).map Rbnode.relinked).getD 0

/-- A link of the node was written in a later epoch than that of `s`. -/
def Relinked (s s' : Base σ) (n : Ref) : Prop := s.epoch < relinkedAt s' n

/-- Marked are exactly the nodes of the tree that have been relinked; the sentinel never is. -/
def MarksRelinked (s s' : Base σ) : Prop :=
  (∀ n, markedAt s' n = true ↔ Attached s' n ∧ Relinked s s' n) ∧ markedAt s' .nil = false

/-- Every node of the tree whose links are others than in `s` is marked. -/
def MarksMoved (s s' : Base σ) : Prop :=
  ∀ n, Attached s' n → linksAt s' n ≠ linksAt s n → markedAt s' n = true

variable [MulleStorage σ]

/-- All calls of both headers on one tree, and `_mulle_rbnode_clear_marker` on its nodes. -/
def markedCalls (σ : Type) [MulleStorage σ] (cb : Callbacks) :
    Interface (Base σ) Fault ((Call ⊕ Op) ⊕ Ref) ((Answer ⊕ Result) ⊕ Unit) :=
  (everything σ cb).sum ⟨fun n s => Attached s n, Base.clearMarker⟩

/-! ### No link is written in the future -/

/-- All links were written in this epoch or before. -/
structure Dated (m : Image σ) : Prop where
  tree : Recent m.env.epoch m.tree
  spare : ∀ a ∈ m.spare, a.relinked ≤ m.env.epoch

theorem dated_init (config : Config) : Dated (.init config : Image σ) :=
  ⟨everywhere_nil, by simp [Image.init]⟩

theorem relinked_le_succ {F : Multiset Entry} {k : ℕ} (hF : ∀ a ∈ F, a.relinked ≤ k) :
    ∀ a ∈ F, a.relinked ≤ k + 1 := fun a ha => (hF a ha).trans (Nat.le_succ k)

theorem Evolves.dated {m m' : Image σ} {c : Call} {r : Answer} (h : Evolves m c r m')
    (hm : Dated m) : Dated m' := by
  obtain ⟨hT, hF⟩ := hm
  cases h with
  | newNode E F T value =>
    refine ⟨hT, fun a ha => ?_⟩
    rcases Multiset.mem_cons.1 ha with rfl | ha
    · exact Nat.zero_le _
    · exact hF a ha
  | freeNode E a F T => exact ⟨hT, fun b hb => hF b (Multiset.mem_cons_of_mem hb)⟩
  | rejected => exact ⟨hT, hF⟩
  | @inserted E a F T comp g k hseek =>
    obtain ⟨ha, hF⟩ := Multiset.forall_mem_cons.1 hF
    have hg : plug g nil = T := (plug_seek hseek).1
    exact ⟨Recent.attach (o := E.stamp) (hg ▸ hT) ha, relinked_le_succ hF⟩
  | @before E a e F c l r =>
    obtain ⟨ha, hF⟩ := Multiset.forall_mem_cons.1 hF
    exact ⟨Recent.attach (o := E.stamp) (Base.plug_beside .left c e l r ▸ hT) ha, relinked_le_succ hF⟩
  | @after E a e F c l r =>
    obtain ⟨ha, hF⟩ := Multiset.forall_mem_cons.1 hF
    exact ⟨Recent.attach (o := E.stamp) (Base.plug_beside .right c e r l ▸ hT) ha, relinked_le_succ hF⟩
  | @removed E => exact ⟨Recent.removeAt (o := E.stamp) hT, relinked_le_succ hF⟩
  | marked => exact ⟨recent_soilTo hT, hF⟩
  | walked => exact ⟨recent_wash hT, hF⟩
  | found => exact ⟨hT, hF⟩
  | reached => exact ⟨hT, hF⟩
  | next => exact ⟨hT, hF⟩
  | previous => exact ⟨hT, hF⟩
  | isDirty => exact ⟨hT, hF⟩
  | counted => exact ⟨hT, hF⟩

theorem Performs.dated {cb : Callbacks} {m m' : Image σ} {op : Op} {r : Result}
    (h : Performs cb m op r m') (hm : Dated m) : Dated m' := by
  obtain ⟨hT, hF⟩ := hm
  cases h with
  | @added E F T v g k hplace =>
    have hg : plug g nil = T := (plug_seek hplace).1
    exact ⟨recent_wash (Recent.attach (o := E.stamp) (hg ▸ hT) (Nat.zero_le _)), relinked_le_succ hF⟩
  | rejected => exact ⟨recent_wash hT, hF⟩
  | @removed E => exact ⟨recent_wash (Recent.unstore (o := E.stamp) hT), relinked_le_succ hF⟩
  | @removedNode E => exact ⟨recent_wash (Recent.unstore (o := E.stamp) hT), relinked_le_succ hF⟩
  | missing => exact ⟨hT, hF⟩
  | found => exact ⟨hT, hF⟩
  | reached => exact ⟨hT, hF⟩
  | isEmpty => exact ⟨hT, hF⟩
  | enumerated => exact ⟨hT, hF⟩

/-! ### Clearing markers -/

/-- What holds between calls, markers cleared or not. -/
def Shown (s : Base σ) : Prop := ∃ m, Represents s m ∧ Dated m

theorem clearMarker_shown {s : Base σ} (hs : Shown s) {n : Ref} (hn : Attached s n) :
    Ensures (Base.clearMarker n) s fun _ s' => Shown s' := by
  obtain ⟨⟨E, F, T⟩, ⟨⟨z, h⟩, hm⟩, hdated⟩ := hs
  obtain ⟨c, e, l, r, rfl, rfl⟩ := h.exists_of_attached hn
  obtain ⟨hb, hd, hF⟩ := hm
  have hclear := Repr.recolor (t := node e l r) h (by simp) Color.clearMarker
  refine hclear.mono fun _ s' h' => ⟨⟨E, F, plug c ((node e l r).mapRoot
    (Entry.recolor Color.clearMarker))⟩, ⟨⟨z, h'⟩, ?_, ?_, hF⟩, ?_, hdated.spare⟩
  · refine isRedBlack_congr hb ?_
    have hred : ∀ e : Entry, (e.recolor Color.clearMarker).isRed = e.isRed :=
      fun e => Color.isRed_clearMarker e.color
    rw [map_plug, map_plug, map_mapRoot hred]
  · refine hd.congr tolerant_up ?_
    have hflag : ∀ e : Entry, (e.recolor Color.clearMarker).flag = e.flag :=
      fun e => Entry.flag_recolor e Color.isDirty_clearMarker
    rw [map_plug, map_plug, map_mapRoot hflag]
  · refine hdated.tree.congr ?_
    have hrelinked : ∀ e : Entry, (e.recolor Color.clearMarker).relinked = e.relinked := fun _ => rfl
    rw [map_plug, map_plug, map_mapRoot hrelinked]

/-- Every call leads to such a state. -/
theorem markedCalls_keeps {cb : Callbacks} (c : (Call ⊕ Op) ⊕ Ref) (s : Base σ) (hs : Shown s)
    (hp : (markedCalls σ cb).Pre c s) :
    Ensures ((markedCalls σ cb).exec c) s fun _ s' => Shown s' := by
  have hcall : ∀ (c : Call) (s : Base σ), Shown s → (calls σ).Pre c s →
      Ensures ((calls σ).exec c) s fun _ s' => Shown s' := fun c s ⟨m, hs, hd⟩ hp =>
    (exec_represents hs hp).mono fun _ _ ⟨m', he, hs'⟩ => ⟨m', hs', he.dated hd⟩
  have hop : ∀ (c : Op) (s : Base σ), Shown s → (operations σ cb).Pre c s →
      Ensures ((operations σ cb).exec c) s fun _ s' => Shown s' := fun c s ⟨m, hs, hd⟩ hp =>
    (op_represents hs hp).mono fun _ _ ⟨m', he, hs'⟩ => ⟨m', hs', he.dated hd⟩
  exact Interface.sum_ensures (Interface.sum_ensures hcall hop)
    (fun _ _ hs hp => clearMarker_shown hs hp) c s hs hp

/-! ### What is marked -/

section Marks

variable {s s' : Base σ} {E E' : Env σ} {z : Sentinel} {F : Multiset Entry} {T : ETree}

theorem Repr.markedAt_eq {K : Multiset Cell} (h : Repr s E z K T) {e : Entry}
    (he : e ∈ T.inorder) :
    markedAt s e.ref = e.color.isMarked ∧ relinkedAt s e.ref = e.relinked := by
  obtain ⟨c, hc, hcolor, -, -, hrelinked⟩ := h.mem_of_mem he
  rw [markedAt, relinkedAt, hc, ← hcolor, ← hrelinked]
  exact ⟨rfl, rfl⟩

/-- Where the markers of the tree tell, and nothing else is marked. -/
theorem Repr.marksRelinked (h : Repr s' E' z (F.map looseCell) T)
    (ht : Everywhere (Entry.Told s.epoch) T) (hF : ∀ a ∈ F, a.color.isMarked = false) :
    MarksRelinked s s' := by
  have hnil : markedAt s' .nil = false := by
    rw [markedAt, h.mem_sentinel, Option.map_some, Option.getD_some, Base.nilNode,
      Color.isMarked_black]
  refine ⟨fun n => ?_, hnil⟩
  by_cases hn : Attached s' n
  · obtain ⟨e, he, rfl⟩ := h.exists_mem_of_attached hn
    obtain ⟨hmarked, hrelinked⟩ := h.markedAt_eq he
    rw [Relinked, hmarked, hrelinked, and_iff_right hn]
    exact ht e he
  · have hmarked : markedAt s' n = false := by
      by_cases hne : n = .nil
      · rw [hne, hnil]
      · cases hc : s'.mem n with
        | none => rw [markedAt, hc]; rfl
        | some c =>
          obtain ⟨a, ha, rfl⟩ := h.unattached_iff.1 ⟨hne, by rw [hc]; rfl, hn⟩
          have hloose : s'.mem (.slot a.slot) = some (a.cell .nil .nil .nil .left) := by
            rw [(Holds.owns h).2, Multiset.mem_add, Multiset.mem_add]
            exact .inr (.inl (Multiset.mem_map_of_mem looseCell ha))
          rw [markedAt, hloose]
          exact hF a ha
    simp [hmarked, hn]

/-- Together with what has been moved since `s₁`. -/
theorem Repr.marks {s₁ : Base σ} (h : Repr s' E' z (F.map looseCell) T)
    (ht : Everywhere (Entry.Told s.epoch) T) (hF : ∀ a ∈ F, a.color.isMarked = false)
    (he : s₁.epoch = s.epoch) (hm : Base.Moves s₁ s') : MarksRelinked s s' ∧ MarksMoved s₁ s' := by
  have hmarks := h.marksRelinked ht hF
  refine ⟨hmarks, fun n hn hlinks => (hmarks.1 n).2 ⟨hn, ?_⟩⟩
  obtain ⟨e, hmem, rfl⟩ := h.exists_mem_of_attached hn
  obtain ⟨c, hc, -⟩ := h.mem_of_mem hmem
  rw [Relinked, relinkedAt, hc, ← he]
  refine (hm _ c hc).resolve_right fun hlinkage => hlinks ?_
  obtain ⟨c₁, hc₁, e⟩ := Option.map_eq_some_iff.1 hlinkage
  simp only [Rbnode.linkage, Prod.mk.injEq] at e
  rw [linksAt, linksAt, hc, hc₁, Option.map_some, Option.map_some, e.1, e.2.1, e.2.2.1]

end Marks

/-! ### Insertions and removals -/

/-- From `s` on, removals and insertions mark what they relink. -/
structure MarksChanges (s : Base σ) : Prop where
  removeNode : ∀ n, Attached s n → ∃ s', Base.removeNode n s = .ok ((), s') ∧
    MarksRelinked s s' ∧ MarksMoved s s'
  insertNode : ∀ n comp, Unattached s n → ∃ r s₁ s',
    Base.insertNodeWith Base.hangLeaf n comp s = .ok (r, s₁) ∧
      Base.insertNode n comp s = .ok (r, s') ∧ MarksRelinked s s' ∧ MarksMoved s₁ s'
  insertNodeBeforeNode : ∀ n successor, Unattached s n → Attached s successor → ∃ s₁ s',
    Base.insertNodeBeforeNodeWith Base.hangLeaf n successor s = .ok ((), s₁) ∧
      Base.insertNodeBeforeNode n successor s = .ok ((), s') ∧ MarksRelinked s s' ∧
        MarksMoved s₁ s'
  insertNodeAfterNode : ∀ n predecessor, Unattached s n → Attached s predecessor → ∃ s₁ s',
    Base.insertNodeAfterNodeWith Base.hangLeaf n predecessor s = .ok ((), s₁) ∧
      Base.insertNodeAfterNode n predecessor s = .ok ((), s') ∧ MarksRelinked s s' ∧
        MarksMoved s₁ s'

theorem Shown.marksChanges {s : Base σ} (hs : Shown s)
    (hm : Options.useMarker s.options = true) (hclear : ∀ n, Attached s n → markedAt s n = false) :
    MarksChanges s := by
  obtain ⟨⟨E, F, T⟩, ⟨⟨z, h⟩, hsound⟩, hdated⟩ := hs
  obtain ⟨hb, hd, hF⟩ := hsound
  obtain ⟨hrecent, hspare⟩ := hdated
  dsimp only at h hb hd hF hrecent hspare
  have hE : E = s.env := (Holds.env h).symm
  subst hE
  have hblank : Everywhere (fun e => e.color.isMarked = false ∧ e.relinked ≤ s.epoch) T :=
    fun e he => ⟨(h.markedAt_eq he).1.symm.trans (hclear _ (h.attached_ref he)), hrecent e he⟩
  have htold : ∀ {U : ETree}, Everywhere (fun e => e.color.isMarked = false ∧ e.relinked ≤ s.epoch) U →
      Everywhere (Entry.Told s.epoch) U := fun hU => hU.mono fun e he => by
    simp [Entry.Told, he.1, he.2]
  have hunmarked : ∀ a ∈ F, a.color.isMarked = false := fun a ha => by
    rw [hF a ha, isMarked_freshColor]
  have hattach : ∀ {s₁ s' : Base σ} {E' : Env σ} {a : Entry} {F' : Multiset Entry} {g : Path Entry},
      a ∈ F → F' ≤ F → plug g nil = T → Repr s' E' z (F'.map looseCell) (attach s.env.stamp a g) →
        s₁.epoch = s.epoch → Base.Moves s₁ s' → MarksRelinked s s' ∧ MarksMoved s₁ s' := by
    intro s₁ s' E' a F' g ha hF' hg h' he hmoves
    refine h'.marks (told_attach hm ?_) (fun b hb => hunmarked b (Multiset.mem_of_le hF' hb)) he hmoves
    rw [← hg, everywhere_plug] at hblank
    exact everywhere_plug.2 ⟨everywhere_node.2 ⟨⟨hunmarked a ha, hspare a ha⟩, everywhere_nil,
      everywhere_nil⟩, hblank.2⟩
  refine ⟨fun n hn => ?_, fun n comp hn => ?_, fun n m hn hm' => ?_, fun n m hn hm' => ?_⟩
  · obtain ⟨c, a, l, r, rfl, rfl⟩ := h.exists_of_attached hn
    obtain ⟨_, s', hs', k, hk, z', h'⟩ := Base.removeNode_spec h hb hd
    have htold := told_removeAt (o := s.env.stamp.next) hm (Nat.lt_succ_self _) (htold hblank)
    refine ⟨s', hs', h'.marks htold hunmarked rfl fun n c hc => ?_⟩
    refine ((Base.relinks_removeNode hs').2 n c hc).imp (fun hr => ?_) id
    rw [hr]
    exact Nat.lt_succ_self _
  · obtain ⟨a, F, rfl, rfl, hred, h⟩ := h.exists_fresh hF hn
    obtain ⟨r, s', hs', h'⟩ := Base.insertNode_spec h hb hred comp
    obtain ⟨s₁, hs₁, hmoves⟩ := Base.continues_insertNode s r s' hs'
    have he := (Base.relinks_insertNodeWith s r s₁ hs₁).1
    refine ⟨r, s₁, s', hs₁, hs', ?_⟩
    generalize hseek : seek _ _ _ T = g at h'
    cases g with
    | none => exact (repr_cons.2 h'.2).marks (htold hblank) hunmarked he hmoves
    | some g =>
      obtain ⟨-, k, hk, h'⟩ := h'
      exact hattach (by simp) (Multiset.le_cons_self _ _) (plug_seek hseek).1 h' he hmoves
  · obtain ⟨a, F, rfl, rfl, hred, h⟩ := h.exists_fresh hF hn
    obtain ⟨c, e, l, r, rfl, rfl⟩ := h.exists_of_attached hm'
    obtain ⟨_, s', hs', k, hk, h'⟩ := Base.insertNodeBeforeNode_spec h hb hred
    obtain ⟨s₁, hs₁, hmoves⟩ := Base.continues_insertNodeBeforeNode s () s' hs'
    exact ⟨s₁, s', hs₁, hs', hattach (by simp) (Multiset.le_cons_self _ _)
      (Base.plug_beside .left c e l r) h' (Base.relinks_insertNodeBeforeNodeWith s () s₁ hs₁).1 hmoves⟩
  · obtain ⟨a, F, rfl, rfl, hred, h⟩ := h.exists_fresh hF hn
    obtain ⟨c, e, l, r, rfl, rfl⟩ := h.exists_of_attached hm'
    obtain ⟨_, s', hs', k, hk, h'⟩ := Base.insertNodeAfterNode_spec h hb hred
    obtain ⟨s₁, hs₁, hmoves⟩ := Base.continues_insertNodeAfterNode s () s' hs'
    exact ⟨s₁, s', hs₁, hs', hattach (by simp) (Multiset.le_cons_self _ _)
      (Base.plug_beside .right c e r l) h' (Base.relinks_insertNodeAfterNodeWith s () s₁ hs₁).1 hmoves⟩

/-- After any run, markers cleared whenever the user likes: from a state without markers, a removal
marks exactly what it relinks, and an insertion what is relinked after the leaf has been hung in. -/
theorem markers_of_run (config : Config) (cb : Callbacks) {s : Base σ}
    {h : List (((Call ⊕ Op) ⊕ Ref) × ((Answer ⊕ Result) ⊕ Unit))}
    (hrun : (markedCalls σ cb).Run (Base.initWithConfig config) h s)
    (hm : Options.useMarker s.options = true) (hclear : ∀ n, Attached s n → markedAt s n = false) :
    MarksChanges s :=
  Shown.marksChanges (hrun.keeps markedCalls_keeps
    ⟨_, ⟨shows_init config, sound_init config⟩, dated_init config⟩) hm hclear

/-- May the call be made? -/
def checkMarked (c : (Call ⊕ Op) ⊕ Ref) (s : Base σ) : Bool := c.elim (check · s) (· ∈ nodesOf s)

/-- Calls that are carried out on a new tree, with markers being cleared, are a run. -/
theorem exists_run_of_marked (config : Config) (cb : Callbacks) (cs : List ((Call ⊕ Op) ⊕ Ref))
    (as : List ((Answer ⊕ Result) ⊕ Unit)) {β : Type} (f : Base σ → β) (b : β)
    (h : ((markedCalls σ cb).follow checkMarked cs (Base.initWithConfig config)).map
      (Prod.map id f) = some (as, b)) :
    ∃ s, (markedCalls σ cb).Run (Base.initWithConfig config) (cs.zip as) s ∧ Shown s ∧ f s = b := by
  refine Interface.exists_run_of_follow (S := markedCalls σ cb) (fun c s hs hc => ?_) markedCalls_keeps
    ⟨_, ⟨shows_init config, sound_init config⟩, dated_init config⟩ h
  obtain ⟨m, hm, -⟩ := hs
  cases c with
  | inl c => exact pre_of_check ⟨m, hm⟩ hc
  | inr n => exact hm.mem_nodesOf.1 (of_decide_eq_true hc)

/-- Three nodes are inserted, with a rotation that marks two of them, and these are unmarked. -/
def nineMarked : List ((Call ⊕ Op) ⊕ Ref) :=
  threeCalls.map (fun c => .inl (.inl c)) ++ [.inr (.slot 0), .inr (.slot 1)]

def nineUnmarked : List ((Answer ⊕ Result) ⊕ Unit) :=
  threeAnswers.map (fun r => .inl (.inl r)) ++ [.inr (), .inr ()]

/-- Then the node in the middle is removed, which marks the two others. -/
theorem markers_of_run_nine : ∃ s s' : Base SlotPool, InOrder s [.slot 0, .slot 1, .slot 2] ∧
    Unattached s (.slot 3) ∧ MarksChanges s ∧ Base.removeNode (.slot 1) s = .ok ((), s') ∧
    [Ref.slot 0, .slot 2].map (markedAt s') = [true, true] := by
  obtain ⟨s, hrun, ⟨m, hm, -⟩, hs⟩ := exists_run_of_marked (σ := SlotPool) ⟨0, 0x8#32, 0⟩
    lengthCallbacks nineMarked nineUnmarked
    (fun s => (nodesOf s, isLoose s (.slot 3) && (Options.useMarker s.options &&
      (nodesOf s).all fun n => !markedAt s n), (Base.removeNode (.slot 1) s).toOption.map fun p =>
        [Ref.slot 0, .slot 2].map (markedAt p.2)))
    ([.slot 0, .slot 1, .slot 2], true, some [true, true]) (by decide +kernel)
  obtain ⟨hnodes, hs⟩ := Prod.mk.inj hs
  obtain ⟨hflags, hremove⟩ := Prod.mk.inj hs
  obtain ⟨hloose, hflags⟩ := (Bool.and_eq_true _ _).mp hflags
  obtain ⟨hmarker, hmarks⟩ := (Bool.and_eq_true _ _).mp hflags
  obtain ⟨⟨_, s'⟩, he, hmarked⟩ := exists_of_toOption hremove
  have hclear : ∀ n, Attached s n → markedAt s n = false := fun n hn => by
    simpa using List.all_eq_true.1 hmarks n (hm.mem_nodesOf.2 hn)
  exact ⟨s, s', hnodes ▸ hm.inOrder, hm.unattached hloose,
    markers_of_run _ lengthCallbacks hrun hmarker hclear, he, hmarked⟩

end MulleRbtree
