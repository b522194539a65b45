import MulleRbtree.Runs.Cursor
import MulleRbtree.Runs.Flags
import MulleRbtree.Runs.Upkeep
import MulleRbtree.Tree.Stain

/-!
# Postponed dirty walks

The dirty walk may follow every change, or come after many of them.

* `Image.stain`: an image with more dirty nodes; a call does to it what it does to the image
  (`Evolves.stain`);
* `Lags m m'`: of two images that have seen the same calls, but for some dirty walks, the second has
  more dirty nodes, for which the callback has been called in the first;
* `Postponed s t`: what this means for two states;
* `postponed_of_run`: it is so for any run, and any of its dirty walks that are left out.
-/

namespace MulleRbtree

open BinaryTree Cells Program

variable {σ : Type} {X : Finset ℕ}

/-! ### Images with more dirty nodes -/

/-- With a past of its own. -/
def Env.since (past : List Event) (k : ℕ) (E : Env σ) : Env σ :=
  { E with trace := past, rotations := k }

@[simp] theorem Env.options_since (past : List Event) (k : ℕ) (E : Env σ) :
    (E.since past k).options = E.options := rfl
@[simp] theorem Env.stamp_since (past : List Event) (k : ℕ) (E : Env σ) :
    (E.since past k).stamp = E.stamp := rfl

/-- An image with dirty nodes in the slots `X`, and with a past of its own. -/
def Image.stain (X : Finset ℕ) (past : List Event) (k : ℕ) (m : Image σ) : Image σ :=
  ⟨m.env.since past k, m.spare, m.tree.image false (Entry.stain X)⟩

theorem matching_stain (options : BitVec 32) (comp : VoidPtr → VoidPtr → ℤ) (key : VoidPtr)
    (X : Finset ℕ) (e : Entry) :
    matching options comp key (e.stain X) = matching options comp key e := by
  rw [matching, Entry.value_stain]
  rfl

theorem compareEvents_stain (options : BitVec 32) (comp : VoidPtr → VoidPtr → ℤ) (key : VoidPtr)
    (halt : Bool) (X : Finset ℕ) (T : ETree) : compareEvents options key
        (visits (matching options comp key) halt (T.image false (Entry.stain X))) =
      compareEvents options key (visits (matching options comp key) halt T) := by
  rw [visits_image fun e _ => matching_stain options comp key X e]
  simp only [compareEvents, List.map_map]
  refine List.map_congr_left fun e _ => ?_
  rw [Function.comp_apply, Entry.value_stain]

theorem seek_stain (options : BitVec 32) (comp : VoidPtr → VoidPtr → ℤ) (key : VoidPtr)
    (halt : Bool) (X : Finset ℕ) (T : ETree) :
    seek (matching options comp key) halt [] (T.image false (Entry.stain X)) =
      (seek (matching options comp key) halt [] T).map (Path.image false (Entry.stain X)) :=
  seek_image (fun e _ => matching_stain options comp key X e) (c := [])

theorem soilTo_stain (o : Stamp) (i : ℕ) (T : ETree) :
    (soilTo o i T).image false (Entry.stain X) = soilTo o i (T.image false (Entry.stain X)) :=
  image_soilTo (respects_stain o X).follows (Entry.stain_slot X)

theorem attach_stain (o : Stamp) {a : Entry} (ha : a.slot ∉ X) (g : Path Entry) :
    (attach o a g).image false (Entry.stain X) =
      attach o a (Path.image false (Entry.stain X) g) := by
  have hway : ∀ T : ETree, (soilTo o.next a.slot T).image false (Entry.stain X) =
      soilTo o.next (a.stain X).slot (T.image false (Entry.stain X)) := by
    intro T
    rw [Entry.stain_slot, soilTo_stain]
  rw [image_attach (respects_stain o X) (respects_stain o.next X) hway, Entry.stain_of_notMem ha]

theorem removeAt_stain (o : Stamp) (c : Path Entry) (a : Entry) (l r : ETree) :
    (removeAt o c a l r).image false (Entry.stain X) =
      removeAt o (Path.image false (Entry.stain X) c) (a.stain X) (l.image false (Entry.stain X))
        (r.image false (Entry.stain X)) := image_removeAt (respects_stain o X).follows

theorem beside_stain (d : Side) (c : Path Entry) (e : Entry) (x y : ETree) :
    Path.image false (Entry.stain X) (Base.beside d c e x y) =
      Base.beside d (Path.image false (Entry.stain X) c) (e.stain X)
        (x.image false (Entry.stain X)) (y.image false (Entry.stain X)) :=
  @Base.image_beside (Entry.stain X) false d c e x y

theorem slots_image_stain (X : Finset ℕ) (T : ETree) :
    slots (T.image false (Entry.stain X)) = slots T := by
  rw [image_false, slots_stain]

theorem plug_stain (X : Finset ℕ) (c : Path Entry) (e : Entry) (l r : ETree) :
    (plug c (node e l r)).image false (Entry.stain X) = plug (Path.image false (Entry.stain X) c)
      (node (e.stain X) (l.image false (Entry.stain X)) (r.image false (Entry.stain X))) := image_plug

/-- What a call does to an image, it does to an image with more dirty nodes as well, and the same
nodes are dirty besides.  The trace grows without calls of the dirty callback. -/
theorem Evolves.stain [MulleStorage σ] {m m' : Image σ} {c : Call} {r : Answer} (h : Evolves m c r m')
    (hc : c ≠ .walkDirty) (hX : ∀ i ∈ X, i ∈ slots m.tree) (past : List Event) (k : ℕ) :
    ∃ r' events k', m'.env.trace = m.env.trace ++ events ∧
      events.countP Event.isDirtyCall = 0 ∧
      Evolves (m.stain X past k) c r' (m'.stain X (past ++ events) k') := by
  have hnone : ∀ {m' : Image σ} {r' : Answer}, m'.env.trace = m.env.trace →
      Evolves (m.stain X past k) c r' (m'.stain X past k) →
      ∃ r' events k', m'.env.trace = m.env.trace ++ events ∧
        events.countP Event.isDirtyCall = 0 ∧
        Evolves (m.stain X past k) c r' (m'.stain X (past ++ events) k') := by
    intro m' r' htrace h
    refine ⟨r', [], k, ?_, rfl, ?_⟩
    · rw [htrace, List.append_nil]
    · rwa [List.append_nil]
  cases h with
  | walked => exact absurd rfl hc
  | newNode E F T value => exact hnone rfl (.newNode _ _ _ value)
  | freeNode E a F T => exact hnone rfl (.freeNode _ a _ _)
  | @rejected E a F T comp hseek =>
    have hseek' := seek_stain E.options comp (a.value E.options) (halts E.options) X T
    rw [hseek] at hseek'
    have h := Evolves.rejected (E := E.since past k) (F := F) hseek'
    rw [Env.options_since, compareEvents_stain] at h
    exact ⟨_, _, k, rfl, count_compareEvents _ _ _, h⟩
  | @inserted E a F T comp g j hseek ha hj =>
    have hseek' := seek_stain E.options comp (a.value E.options) (halts E.options) X T
    rw [hseek] at hseek'
    have ha' : a.slot ∉ slots (T.image false (Entry.stain X)) := by rwa [slots_image_stain]
    have h := Evolves.inserted (E := E.since past k) (F := F) (k := 0) hseek' ha' (Nat.zero_le 2)
    have hattach := attach_stain E.stamp (mt (hX a.slot) ha) g
    rw [Env.options_since, compareEvents_stain] at h
    rw [Env.stamp_since, ← hattach] at h
    exact ⟨_, _, k, rfl, count_compareEvents _ _ _, h⟩
  | @before E a e F c l r j ha hj =>
    have ha' : a.slot ∉ slots ((plug c (node e l r)).image false (Entry.stain X)) := by
      rwa [slots_image_stain]
    rw [plug_stain] at ha'
    have h := Evolves.before (E := E.since past k) (F := F) (k := 0) ha' (Nat.zero_le 2)
    rw [Env.stamp_since, Entry.stain_slot, ← plug_stain, ← beside_stain,
      ← attach_stain E.stamp (mt (hX a.slot) ha)] at h
    exact hnone rfl h
  | @after E a e F c l r j ha hj =>
    have ha' : a.slot ∉ slots ((plug c (node e l r)).image false (Entry.stain X)) := by
      rwa [slots_image_stain]
    rw [plug_stain] at ha'
    have h := Evolves.after (E := E.since past k) (F := F) (k := 0) ha' (Nat.zero_le 2)
    rw [Env.stamp_since, Entry.stain_slot, ← plug_stain, ← beside_stain,
      ← attach_stain E.stamp (mt (hX a.slot) ha)] at h
    exact hnone rfl h
  | @removed E F c a l r j hj =>
    have h := Evolves.removed (E := E.since past k) (F := F) (k := 0)
      (c := Path.image false (Entry.stain X) c) (a := a.stain X)
      (l := l.image false (Entry.stain X)) (r := r.image false (Entry.stain X)) (Nat.zero_le 3)
    rw [Entry.stain_slot, ← plug_stain, Env.stamp_since, ← removeAt_stain] at h
    exact hnone rfl h
  | @marked E F T i hi =>
    have hi' : i ∈ slots (T.image false (Entry.stain X)) := by rwa [slots_image_stain]
    have h := Evolves.marked (E := E.since past k) (F := F) hi'
    rw [Env.stamp_since, ← soilTo_stain] at h
    exact hnone rfl h
  | found E F T key comp =>
    have h := Evolves.found (E.since past k) F (T.image false (Entry.stain X)) key comp
    rw [Env.options_since, compareEvents_stain] at h
    exact ⟨_, _, k, rfl, count_compareEvents _ _ _, h⟩
  | reached E F T key comp =>
    have h := Evolves.reached (E.since past k) F (T.image false (Entry.stain X)) key comp
    rw [Env.options_since, compareEvents_stain] at h
    exact ⟨_, _, k, rfl, count_compareEvents _ _ _, h⟩
  | next E F c e l r =>
    have h := Evolves.next (E.since past k) F (Path.image false (Entry.stain X) c) (e.stain X)
      (l.image false (Entry.stain X)) (r.image false (Entry.stain X))
    rw [Entry.stain_slot, ← plug_stain] at h
    exact hnone rfl h
  | previous E F c e l r =>
    have h := Evolves.previous (E.since past k) F (Path.image false (Entry.stain X) c) (e.stain X)
      (l.image false (Entry.stain X)) (r.image false (Entry.stain X))
    rw [Entry.stain_slot, ← plug_stain] at h
    exact hnone rfl h
  | isDirty E F T => exact hnone rfl (.isDirty _ _ _)
  | counted E F T => exact hnone rfl (.counted _ _ _)

/-! ### Lagging behind -/

theorem calledBack_append_iff {u events : List Event} (h : events.countP Event.isDirtyCall = 0)
    {v : VoidPtr} : CalledBack (u ++ events) v ↔ CalledBack u v := by
  rw [calledBack_append, or_iff_left]
  rintro ⟨l, r, hmem⟩
  exact List.countP_eq_zero.1 h _ hmem rfl

/-- Of two images the second has seen fewer dirty walks: the nodes in the slots `X` are dirty there
besides, and the callback has been called for them in the first. -/
structure Lags (X : Finset ℕ) (m m' : Image σ) : Prop where
  image : ∃ past k, m' = m.stain X past k
  clean : X ⊆ cleanSlots m.tree
  late : ∀ e ∈ m.tree.inorder, e.slot ∈ X → CalledBack m.env.trace (e.value m.env.options)
  values : ∀ v, CalledBack m'.env.trace v → CalledBack m.env.trace v
  calls : m'.env.trace.countP Event.isDirtyCall + X.card ≤ m.env.trace.countP Event.isDirtyCall

section Lags

variable {s s' : Base σ} {m m' n n' : Image σ} {c : Call} {r : Answer}

/-- Of the second image only the number of rotations is left open. -/
theorem Lags.of_still (hl : Lags X m n) (h : n'.still = n.still) : Lags X m n' := by
  obtain ⟨⟨past, k, rfl⟩, hclean, hlate, hvalues, hcalls⟩ := hl
  obtain ⟨E, F, T⟩ := n'
  have htrace : E.trace = past := congrArg (fun q => q.env.trace) h
  have himage : (⟨E, F, T⟩ : Image σ) = m.stain X past E.rotations := by
    have henv : E = m.env.since past E.rotations := by
      have hnodes : E.nodes = m.env.nodes := congrArg (fun q => q.env.nodes) h
      have hoptions : E.options = m.env.options := congrArg (fun q => q.env.options) h
      have hepoch : E.epoch = m.env.epoch := congrArg (fun q => q.env.epoch) h
      rw [Env.since, ← hnodes, ← hoptions, ← hepoch, ← htrace]
    have hspare : F = m.spare := congrArg (fun q => q.spare) h
    have htree : T = m.tree.image false (Entry.stain X) := congrArg (fun q => q.tree) h
    rw [Image.stain, ← henv, hspare, htree]
  refine ⟨⟨past, E.rotations, himage⟩, hclean, hlate, ?_, ?_⟩
  · rw [htrace]
    exact hvalues
  · rw [htrace]
    exact hcalls

theorem count_washEvents_eq {T : ETree} (h : Locally Up T) (options : BitVec 32) :
    (washEvents options T).countP Event.isDirtyCall = dirtyNodes T := by
  have hcount := count_washEvents options T
  rwa [dirtyNodes_of_clean (wash_clean h), Nat.add_zero] at hcount

/-- A dirty walk that both images see. -/
theorem Lags.walk (hl : Lags X m m') (hs : Sound m) (hs' : Sound m') (hn : (slots m.tree).Nodup) :
    Lags ∅ ⟨m.env.traced (washEvents m.env.options m.tree), m.spare, wash m.tree⟩
      ⟨m'.env.traced (washEvents m'.env.options m'.tree), m'.spare, wash m'.tree⟩ := by
  obtain ⟨⟨past, k, rfl⟩, hclean, hlate, hvalues, hcalls⟩ := hl
  have hup' : Locally Up (m.tree.map (Entry.stain X)) := by
    have h := hs'.dirt.up
    rwa [Image.stain, image_false] at h
  have hwash : wash (m.tree.map (Entry.stain X)) = wash m.tree := wash_stain hs.dirt.up hup'
  refine ⟨⟨past ++ washEvents m.env.options (m.tree.map (Entry.stain X)), k, ?_⟩,
    Finset.empty_subset _, fun _ _ hi => absurd hi (Finset.notMem_empty _), ?_, ?_⟩
  · rw [Image.stain, Image.stain, image_false, image_false, Entry.stain_empty, id_map, hwash]
    rfl
  · intro v hv
    show CalledBack (m.env.trace ++ washEvents m.env.options m.tree) v
    rw [calledBack_append]
    rcases calledBack_append.1 hv with hv | hv
    · exact .inl (hvalues v hv)
    · rw [Image.stain, image_false, calledBack_washEvents hup', inorder_map] at hv
      obtain ⟨_, hmem, hdirty, rfl⟩ := hv
      obtain ⟨e, he, rfl⟩ := List.mem_map.1 hmem
      rw [Entry.isDirty_stain, Bool.or_eq_true, decide_eq_true_iff] at hdirty
      rw [Entry.value_stain]
      rcases hdirty with hi | hdirty
      · exact .inl (hlate e he hi)
      · exact .inr ((calledBack_washEvents hs.dirt.up).2 ⟨e, he, hdirty, rfl⟩)
  · have hcalls : past.countP Event.isDirtyCall + X.card ≤ _ := hcalls
    show (past ++ washEvents m.env.options (m.tree.image false (Entry.stain X))).countP _ + 0 ≤
      (m.env.trace ++ washEvents m.env.options m.tree).countP _
    rw [image_false, List.countP_append, List.countP_append, count_washEvents_eq hup',
      count_washEvents_eq hs.dirt.up, dirtyNodes_stain hn hclean]
    omega

/-- A dirty walk that only the first image sees. -/
theorem Lags.drop (hl : Lags X m m') (hs : Sound m) (hn : (slots m.tree).Nodup) :
    Lags (dirtySlots m.tree ∪ X)
      ⟨m.env.traced (washEvents m.env.options m.tree), m.spare, wash m.tree⟩ m' := by
  obtain ⟨⟨past, k, rfl⟩, hclean, hlate, hvalues, hcalls⟩ := hl
  refine ⟨⟨past, k, ?_⟩, ?_, ?_, ?_, ?_⟩
  · rw [Image.stain, Image.stain, image_false, image_false, map_stain_wash hs.dirt.up hn]
    rfl
  · intro i hi
    rw [cleanSlots_wash hs.dirt.up]
    rcases Finset.mem_union.1 hi with hi | hi
    · obtain ⟨e, he, -, rfl⟩ := mem_dirtySlots.1 hi
      exact List.mem_map_of_mem he
    · exact mem_slots_of_cleanSlots (hclean hi)
  · intro e hmem hi
    show CalledBack (m.env.trace ++ washEvents m.env.options m.tree) (e.value m.env.options)
    rw [calledBack_append]
    have hmem : e ∈ (wash m.tree).inorder := hmem
    rw [wash_eq_map hs.dirt.up, inorder_map] at hmem
    obtain ⟨e, he, rfl⟩ := List.mem_map.1 hmem
    rw [Entry.value_clean]
    rcases Finset.mem_union.1 hi with hi | hi
    · obtain ⟨e', he', hdirty, hslot⟩ := mem_dirtySlots.1 hi
      obtain rfl : e' = e := List.inj_on_of_nodup_map hn he' he hslot
      exact .inr ((calledBack_washEvents hs.dirt.up).2 ⟨e', he, hdirty, rfl⟩)
    · exact .inl (hlate e he hi)
  · intro v hv
    exact calledBack_append.2 (.inl (hvalues v hv))
  · have hcalls : past.countP Event.isDirtyCall + X.card ≤ _ := hcalls
    have hcard := Finset.card_union_le (dirtySlots m.tree) X
    rw [card_dirtySlots hn] at hcard
    show past.countP Event.isDirtyCall + _ ≤
      (m.env.trace ++ washEvents m.env.options m.tree).countP _
    rw [List.countP_append, count_washEvents_eq hs.dirt.up]
    omega

variable [MulleStorage σ]

/-- A node that was there before a call has kept its value. -/
theorem Evolves.exists_value (h : Evolves m c r n) (hs : Represents s m) (hs' : Represents s' n)
    {e : Entry} (he : e ∈ n.tree.inorder) (hi : e.slot ∈ slots m.tree) :
    n.env.options = m.env.options ∧ ∃ e' ∈ m.tree.inorder, e'.slot = e.slot ∧
      e'.value m.env.options = e.value m.env.options := by
  obtain ⟨edit, ho, hedit, -, -⟩ : Edited lengthCallbacks (.inl c) s m n := h.edited
  obtain ⟨⟨z, hr⟩, -⟩ := hs
  obtain ⟨⟨z', hr'⟩, -⟩ := hs'
  have hmem : (e.ref, e.value m.env.options) ∈ held m.env.options n.tree := List.mem_map_of_mem he
  have hold : (e.ref, e.value m.env.options) ∈ held m.env.options m.tree := by
    rcases hedit.mem_or hmem with hold | rfl
    · exact hold
    · exact absurd (hr.attached_iff.2 ⟨e.slot, hi, rfl⟩) (hr.not_attached_of_insert hr' hedit)
  obtain ⟨e', he', heq⟩ := List.mem_map.1 hold
  obtain ⟨href, hvalue⟩ := Prod.mk.inj heq
  exact ⟨ho, e', he', Ref.slot.inj href, hvalue⟩

/-- Calls that both images see. -/
theorem Lags.step (hl : Lags X m m') (h : Evolves m c r n) (hc : c ≠ .walkDirty)
    (hs : Represents s m) (hs' : Represents s' n) :
    ∃ r' n', Evolves m' c r' n' ∧ Lags (X ∩ cleanSlots n.tree) n n' := by
  obtain ⟨⟨past, k, rfl⟩, hclean, hlate, hvalues, hcalls⟩ := hl
  have hX : ∀ i ∈ X, i ∈ slots m.tree := fun i hi => mem_slots_of_cleanSlots (hclean hi)
  obtain ⟨r', events, k', htrace, hevents, he⟩ := h.stain hc hX past k
  refine ⟨r', _, he, ⟨past ++ events, k', ?_⟩, Finset.inter_subset_right, ?_, ?_, ?_⟩
  · rw [Image.stain, Image.stain, image_false, image_false, map_stain_inter]
  · intro e hmem hi
    have hi := Finset.mem_of_mem_inter_left hi
    obtain ⟨ho, e', he', hslot, hvalue⟩ := h.exists_value hs hs' hmem (hX _ hi)
    rw [htrace, calledBack_append_iff hevents, ho, ← hvalue]
    exact hlate e' he' (hslot ▸ hi)
  · intro v hv
    rw [htrace, calledBack_append_iff hevents]
    exact hvalues v ((calledBack_append_iff hevents).1 hv)
  · have hcard : (X ∩ cleanSlots n.tree).card ≤ X.card :=
      Finset.card_le_card Finset.inter_subset_left
    have hcount : (n.stain X (past ++ events) k').env.trace.countP Event.isDirtyCall =
        past.countP Event.isDirtyCall := by
      show (past ++ events).countP _ = _
      rw [List.countP_append, hevents, Nat.add_zero]
    have hcalls : past.countP Event.isDirtyCall + X.card ≤ _ := hcalls
    rw [hcount, htrace, List.countP_append, hevents]
    omega

end Lags

/-! ### States -/

variable [MulleStorage σ]

/-- The second of two memories has seen fewer dirty walks. -/
def LagsBehind (s t : Base σ) : Prop :=
  ∃ X m m', Represents s m ∧ Represents t m' ∧ Lags X m m'

variable {s t : Base σ}

/-- What can be called in the one can be called in the other. -/
theorem LagsBehind.pre (h : LagsBehind s t) {c : Call} (hp : c.Pre s) : c.Pre t := by
  obtain ⟨X, m, m', ⟨⟨z, hr⟩, -⟩, ⟨⟨z', hr'⟩, -⟩, ⟨past, k, rfl⟩, -⟩ := h
  have hattached : ∀ n, Attached s n → Attached t n := by
    intro n hn
    obtain ⟨i, hi, rfl⟩ := hr.attached_iff.1 hn
    exact hr'.attached_iff.2 ⟨i, by rwa [Image.stain, slots_image_stain], rfl⟩
  have hunattached : ∀ n, Unattached s n → Unattached t n := by
    intro n hn
    exact hr'.unattached_iff.2 (hr.unattached_iff.1 hn)
  have hoptions : t.options = s.options := (Holds.options_eq hr').trans (Holds.options_eq hr).symm
  cases c with
  | newNode => trivial
  | freeNode n => exact hunattached n hp
  | insertNode n comp => exact hunattached n hp
  | insertNodeBeforeNode n successor => exact ⟨hunattached n hp.1, hattached _ hp.2⟩
  | insertNodeAfterNode n predecessor => exact ⟨hunattached n hp.1, hattached _ hp.2⟩
  | removeNode n => exact hattached n hp
  | markNodeAsDirty n => exact ⟨hattached n hp.1, hoptions ▸ hp.2⟩
  | walkDirty => trivial
  | findNode => trivial
  | findNodeEqualOrGreater => trivial
  | nextNode n => exact hattached n hp
  | previousNode n => exact hattached n hp
  | isDirty => trivial
  | getCount => trivial

theorem LagsBehind.step {c : Call} (h : LagsBehind s t) (hp : c.Pre s) (hp' : c.Pre t) :
    Ensures c.exec s fun _ s' => Ensures c.exec t fun _ t' => LagsBehind s' t' := by
  obtain ⟨X, m, m', hs, ht, hl⟩ := h
  refine (exec_represents hs hp).mono ?_
  rintro r s' ⟨n, he, hs'⟩
  refine (exec_represents ht hp').mono ?_
  rintro r' t' ⟨n', he', ht'⟩
  by_cases hc : c = .walkDirty
  · subst hc
    cases he
    cases he'
    exact ⟨∅, _, _, hs', ht', hl.walk hs.2 ht.2 hs.1.distinct.nodup_slots⟩
  · obtain ⟨_, n'', hstep, hl'⟩ := hl.step he hc hs hs'
    exact ⟨_, n, n', hs', ht', hl'.of_still (he'.determined ht.1.distinct hstep).2⟩

theorem LagsBehind.drop (h : LagsBehind s t) :
    Ensures Call.walkDirty.exec s fun _ s' => LagsBehind s' t := by
  obtain ⟨X, m, m', hs, ht, hl⟩ := h
  refine (exec_represents hs (c := .walkDirty) trivial).mono ?_
  rintro r s' ⟨n, he, hs'⟩
  cases he
  exact ⟨_, _, m', hs', ht, hl.drop hs.2 hs.1.distinct.nodup_slots⟩

/-- What comes of it if some dirty walks are left out: `s` has seen all of them. -/
structure Postponed (s t : Base σ) : Prop where
  shape : SameShape s t
  dirty : ∀ n, Attached s n → dirtyAt s n = true → dirtyAt t n = true
  late : ∀ n, Attached s n → dirtyAt t n = true →
    dirtyAt s n = true ∨ CalledBack s.trace (valueAt s n)
  values : ∀ v, CalledBack t.trace v → CalledBack s.trace v
  calls : ∀ ns, InOrder s ns → InOrder t ns ∧
    dirtyCalls t + ns.countP (dirtyAt t) ≤ dirtyCalls s + ns.countP (dirtyAt s)

theorem Repr.countP_dirtyAt {E : Env σ} {z : Sentinel} {K : Multiset Cell} {T : ETree}
    (h : Repr s E z K T) : (T.inorder.map Entry.ref).countP (dirtyAt s) = dirtyNodes T := by
  rw [List.countP_map]
  exact List.countP_congr fun e he => by rw [Function.comp_apply, h.dirtyAt_eq he]

theorem LagsBehind.postponed (h : LagsBehind s t) (hshape : SameShape s t) : Postponed s t := by
  obtain ⟨X, m, m', hs, ht, hl⟩ := h
  obtain ⟨⟨z, hr⟩, hm⟩ := id hs
  obtain ⟨⟨z', hr'⟩, hm'⟩ := id ht
  obtain ⟨⟨past, k, rfl⟩, hclean, hlate, hvalues, hcalls⟩ := hl
  have htree : (m.stain X past k).tree = m.tree.map (Entry.stain X) := image_false
  have hdirty : ∀ e ∈ m.tree.inorder,
      dirtyAt t e.ref = (decide (e.slot ∈ X) || dirtyAt s e.ref) := by
    intro e he
    have he' : e.stain X ∈ (m.stain X past k).tree.inorder := by
      rw [htree, inorder_map]
      exact List.mem_map_of_mem he
    have href : (e.stain X).ref = e.ref := congrArg Ref.slot (e.stain_slot X)
    rw [← href, hr'.dirtyAt_eq he', Entry.isDirty_stain, href, hr.dirtyAt_eq he]
  refine ⟨hshape, fun n hn hd => ?_, fun n hn hd => ?_, fun v hv => ?_, fun ns hns => ?_⟩
  · obtain ⟨e, he, rfl⟩ := hr.exists_mem_of_attached hn
    rw [hdirty e he, hd, Bool.or_true]
  · obtain ⟨e, he, rfl⟩ := hr.exists_mem_of_attached hn
    rw [hdirty e he, Bool.or_eq_true, decide_eq_true_iff] at hd
    refine hd.symm.imp id fun hi => ?_
    rw [hs.trace_eq, hr.valueAt_eq he]
    exact hlate e he hi
  · rw [ht.trace_eq] at hv
    rw [hs.trace_eq]
    exact hvalues v hv
  · have hrefs : ns = (m.stain X past k).tree.inorder.map Entry.ref := by
      rw [hr.inOrder_iff.1 hns, htree, inorder_map, List.map_map]
      exact List.map_congr_left fun e _ => (congrArg Ref.slot (e.stain_slot X)).symm
    refine ⟨hr'.inOrder_iff.2 hrefs, ?_⟩
    have hcount : ns.countP (dirtyAt t) = dirtyNodes m.tree + X.card := by
      rw [hrefs, hr'.countP_dirtyAt, htree, dirtyNodes_stain hr.nodup_slots hclean]
    have hcount' : ns.countP (dirtyAt s) = dirtyNodes m.tree := by
      rw [hr.inOrder_iff.1 hns, hr.countP_dirtyAt]
    rw [hcount, hcount', dirtyCalls, dirtyCalls, ht.trace_eq, hs.trace_eq]
    omega

/-! ### Runs -/

/-- Dirty walks may be left out of a run.  The other calls can be made all the same, and give the
same answers; the tree is the same but for dirty flags; and the callback is called for no value for
which it would not have been called otherwise, and no more often. -/
theorem postponed_of_run (config : Config) {h : List (Call × Answer)} {cs : List Call}
    (hrun : (calls σ).Run (Base.initWithConfig config) h s)
    (hcalls : Thins (fun c => c = .walkDirty) (h.map Prod.fst) cs) :
    ∃ (k : List (Call × Answer)) (t : Base σ), k.map Prod.fst = cs ∧
      (calls σ).Run (Base.initWithConfig config) k t ∧
      (k.filter fun p => p.1.steers) = (h.filter fun p => p.1.steers) ∧ Postponed s t := by
  have hinit : LagsBehind (Base.initWithConfig config : Base σ) (Base.initWithConfig config) := by
    refine ⟨∅, _, _, ⟨shows_init config, sound_init config⟩, ⟨shows_init config, sound_init config⟩,
      ⟨?_, Finset.empty_subset _, fun _ _ hi => absurd hi (Finset.notMem_empty _), fun _ hv => hv,
        le_rfl⟩⟩
    exact ⟨[], 0, rfl⟩
  have hpre : ∀ c (s t : Base σ), LagsBehind s t → (calls σ).Pre c s → (calls σ).Pre c t :=
    fun c s t h hp => h.pre hp
  have hkeep : ∀ c (s t : Base σ), LagsBehind s t → (calls σ).Pre c s → (calls σ).Pre c t →
      Ensures ((calls σ).exec c) s fun _ s' => Ensures ((calls σ).exec c) t fun _ t' =>
        LagsBehind s' t' := fun c s t h hp hp' => h.step hp hp'
  have hdrop : ∀ c (s t : Base σ), c = .walkDirty → LagsBehind s t → (calls σ).Pre c s →
      Ensures ((calls σ).exec c) s fun _ s' => LagsBehind s' t := by
    rintro _ s t rfl h -
    exact h.drop
  obtain ⟨k, t, rfl, hrun', hlags⟩ := hrun.thins hpre hkeep hdrop hcalls hinit
  have hsteers : (k.map Prod.fst).filter Call.steers = (h.map Prod.fst).filter Call.steers := by
    apply hcalls.filter_eq
    rintro _ rfl
    rfl
  rw [List.filter_map, List.filter_map] at hsteers
  obtain ⟨hanswers, hshape⟩ := sameShape_of_runs config config.options rfl hrun hrun' hsteers.symm
  exact ⟨k, t, rfl, hrun', hanswers.symm, hlags.postponed hshape⟩

/-- Three nodes are inserted; the tree is walked before and after the two last ones are. -/
def walkedCalls : List Call :=
  [.newNode (ofLength 0), .insertNode (.slot 0) byLength, .walkDirty, .newNode (ofLength 2),
    .insertNode (.slot 1) byLength, .newNode (ofLength 4), .insertNode (.slot 2) byLength, .walkDirty]

def walkedAnswers : List Answer :=
  [.node (.slot 0), .code 0, .done, .node (.slot 1), .code 0, .node (.slot 2), .code 0, .done]

/-- The walk between the insertions is left out. -/
theorem postponed_of_run_walk : ∃ (s t : Base SlotPool) (k : List (Call × Answer)),
    InOrder s [.slot 0, .slot 1, .slot 2] ∧
    (calls SlotPool).Run (Base.initWithConfig ⟨0, 0x4#32, 0⟩) k t ∧
    k.map Prod.fst = walkedCalls.take 2 ++ walkedCalls.drop 3 ∧ Postponed s t := by
  obtain ⟨s, hrun, ⟨m, hm⟩, hnodes⟩ := exists_run_of_calls (σ := SlotPool) ⟨0, 0x4#32, 0⟩ walkedCalls
    walkedAnswers nodesOf [.slot 0, .slot 1, .slot 2] (by decide +kernel)
  have hcalls : Thins (fun c => c = Call.walkDirty) ((walkedCalls.zip walkedAnswers).map Prod.fst)
      (walkedCalls.take 2 ++ walkedCalls.drop 3) :=
    .keep _ (.keep _ (.drop rfl (.keep _ (.keep _ (.keep _ (.keep _ (.keep _ .nil)))))))
  obtain ⟨k, t, hk, hrun', -, hpostponed⟩ := postponed_of_run _ hrun hcalls
  exact ⟨s, t, k, hnodes ▸ hm.inOrder, hrun', hk, hpostponed⟩

end MulleRbtree
