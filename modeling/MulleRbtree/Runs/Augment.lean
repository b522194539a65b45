import MulleRbtree.Runs.Asserts
import MulleRbtree.Tree.Augment

/-!
# Dirty flags keep augmentations exact

* `anyCallbacks`: all calls of both headers; comparisons and `retain` look at objects that change,
  so each call has callbacks of its own;
* `Exact u w s`: the augmentation of every node is what the dirty callback `u` computes from
  scratch;
* `Affects u s s' w w'`: what a call may do to the objects: those of the nodes that stay in the tree
  change by the dirty callback only, and in their augmentation only;
* `Reworks`: what a call makes of an image, with its dirty walk kept apart;
* `exact_of_run`: after a dirty walk, however it came about, and after every operation as long as
  there are only operations, augmentations are exact if they have been so before.
-/

namespace MulleRbtree

open BinaryTree Cells Program

variable {σ : Type} {O A : Type}

/-! ### Exact augmentations -/

/-- The augmentation of every node is what the callback computes from scratch. -/
def Exact (u : Augmentation O A) (w : World O A) (s : Base σ) : Prop :=
  ∃ t : BinaryTree Ref, Linked s .nil s.root t ∧ ∀ c x, plug c x = t →
    (x.label?.map fun n => w.aug (valueAt s n).addr) =
      summary (fun n => u.combine (w.own (valueAt s n).addr)) x

/-- The values in the tree are distinct objects. -/
structure DistinctObjects (s : Base σ) : Prop where
  ne_null : ∀ n, Attached s n → (valueAt s n).addr ≠ .null
  injective : ∀ n m, Attached s n → Attached s m → (valueAt s n).addr = (valueAt s m).addr → n = m

/-- What can happen to the objects in a call that leads from `s` to `s'`.  The nodes that stay in
the tree keep their own part, and their augmentation changes by calls of the dirty callback only. -/
structure Affects (u : Augmentation O A) (s s' : Base σ) (w w' : World O A) : Prop where
  own : ∀ n, Attached s n → Attached s' n →
    w'.own (valueAt s n).addr = w.own (valueAt s n).addr
  aug : ∃ (events : List Event) (aug : Addr → A), s'.trace = s.trace ++ events ∧
    (∀ n, Attached s n → Attached s' n → aug (valueAt s n).addr = w.aug (valueAt s n).addr) ∧
      w'.aug = u.replay w'.own aug events

variable [MulleStorage σ]

/-- All calls of both headers, each with callbacks of its own. -/
def anyCallbacks (σ : Type) [MulleStorage σ] :
    Interface (Base σ) Fault (Callbacks × (Call ⊕ Op)) (Answer ⊕ Result) where
  Pre c := (everything σ c.1).Pre c.2
  exec c := (everything σ c.1).exec c.2

/-- Runs, with the objects.  Without extra bytes in the nodes the user keeps the payloads
distinct. -/
inductive AugmentedRun (u : Augmentation O A) : Base σ → World O A →
    List ((Callbacks × (Call ⊕ Op)) × (Answer ⊕ Result)) → Base σ → World O A → Prop
  | nil (s : Base σ) (w : World O A) : AugmentedRun u s w [] s w
  | cons {s s' t : Base σ} {w w' v : World O A} {c : Callbacks × (Call ⊕ Op)}
      {a : Answer ⊕ Result} {h : List ((Callbacks × (Call ⊕ Op)) × (Answer ⊕ Result))} :
      (anyCallbacks σ).Pre c s → (anyCallbacks σ).exec c s = .ok (a, s') →
      (Options.useExtra s'.options = false → DistinctObjects s') → Affects u s s' w w' →
      AugmentedRun u s' w' h t v → AugmentedRun u s w ((c, a) :: h) t v

/-- The calls that walk the dirty nodes: `_mulle_rbtree_remove` does so when it finds the key. -/
def Walks : Call ⊕ Op → Answer ⊕ Result → Prop
  | .inl .walkDirty, _ => True
  | .inr (.add _), _ => True
  | .inr (.remove _), a => a = .inr (.code 0)
  | .inr (.removeNode _), _ => True
  | _, _ => False

/-! ### What calls do -/

theorem silent_compareEvents (options : BitVec 32) (key : VoidPtr) (v : List Entry) :
    ∀ e ∈ compareEvents options key v, e.Silent := by
  intro e he
  obtain ⟨b, -, rfl⟩ := List.mem_map.1 he
  trivial

/-- A call changes the tree to `U`, with the events `pre`, and walks the dirty nodes of `U` or
not. -/
structure Reworks (m m' : Image σ) (walks : Bool) (U : ETree) (pre : List Event) : Prop where
  kept : ∀ R, Tolerant R → Kept R m.env.options m.tree → Kept R m.env.options U
  /-- nodes are added or removed, not both -/
  stays : (∀ a ∈ items m.tree, a ∈ items U) ∨ ∀ a ∈ items U, a ∈ items m.tree
  silent : ∀ e ∈ pre, e.Silent
  tree : m'.tree = if walks then wash U else U
  trace : m'.env.trace =
    m.env.trace ++ (pre ++ if walks then washEvents m.env.options U else [])
  options : m'.env.options = m.env.options

theorem items_sub_attach {o : Stamp} {a : Entry} {g : Path Entry} :
    ∀ b ∈ items (plug g nil), b ∈ items (attach o a g) := by
  intro b hb
  rw [(items_attach_split (o := o) (a := a)).1] at hb
  rw [(items_attach_split (o := o) (a := a)).2]
  simp only [List.mem_append, List.mem_cons] at hb ⊢
  tauto

theorem items_removeAt_sub {o : Stamp} {c : Path Entry} {a : Entry} {l r : ETree} :
    ∀ b ∈ items (removeAt o c a l r), b ∈ items (plug c (node a l r)) := by
  intro b hb
  rw [items_removeAt] at hb
  rw [items_plug, items_node]
  simp only [List.mem_append, List.mem_cons] at hb ⊢
  tauto

theorem items_unstore_sub {o : Stamp} {c : Path Entry} {a : Entry} {l r : ETree} :
    ∀ b ∈ items (unstore o c a l r), b ∈ items (plug c (node a l r)) := by
  intro b hb
  rw [items_unstore] at hb
  rw [items_plug, items_node]
  simp only [List.mem_append, List.mem_cons] at hb ⊢
  tauto

section Reworks

variable {E E' : Env σ} {F F' : Multiset Entry} {T U : ETree} {a : Entry} {g : Path Entry}
  {pre : List Event} {walks : Bool}

omit [MulleStorage σ] in
/-- Nothing happens to the tree. -/
theorem reworks_same (hpre : ∀ e ∈ pre, e.Silent) (htrace : E'.trace = E.trace ++ pre)
    (hoptions : E'.options = E.options) : Reworks ⟨E, F, T⟩ ⟨E', F', T⟩ false T pre :=
  ⟨fun _ _ h => h, .inl fun _ h => h, hpre, rfl, by simpa using htrace, hoptions⟩

omit [MulleStorage σ] in
/-- A node is hung into the tree. -/
theorem reworks_attach (hg : plug g nil = T) (ha : a.color = freshColor E.options)
    (hs : a.slot ∉ slots T) (hpre : ∀ e ∈ pre, e.Silent) (htrace : E'.trace = E.trace ++ pre)
    (hoptions : E'.options = E.options) :
    Reworks ⟨E, F, T⟩ ⟨E', F', attach E.stamp a g⟩ false (attach E.stamp a g) pre := by
  subst hg
  refine ⟨fun _ hR h => ?_, .inl items_sub_attach, hpre, rfl, by simpa using htrace, hoptions⟩
  exact kept_attach (o := E.stamp) hR h (proper_of_freshColor ha) hs

omit [MulleStorage σ] in
/-- The walk at the end. -/
theorem Reworks.walked {events : List Event}
    (h : Reworks ⟨E, F, T⟩ ⟨E', F', U⟩ false U pre)
    (he : events = washEvents E.options U) :
    Reworks ⟨E, F, T⟩ ⟨E'.traced events, F', wash U⟩ true U pre := by
  refine ⟨h.kept, h.stays, h.silent, rfl, ?_, h.options⟩
  have htrace : E'.trace = E.trace ++ pre := by simpa using h.trace
  show E'.trace ++ events = E.trace ++ (pre ++ washEvents E.options U)
  rw [htrace, he, List.append_assoc]

end Reworks

theorem Evolves.reworks {m m' : Image σ} {c : Call} {r : Answer} (h : Evolves m c r m')
    (hm : Sound m) : ∃ walks U pre, Reworks m m' walks U pre ∧
      (Walks (.inl c) (.inl r) → walks = true) := by
  obtain ⟨-, -, hF⟩ := hm
  have hnone : ∀ e ∈ ([] : List Event), e.Silent := by simp
  cases h with
  | newNode => exact ⟨_, _, _, reworks_same hnone (by simp [Env.malloced]) rfl, False.elim⟩
  | freeNode => exact ⟨_, _, _, reworks_same hnone (by simp [Env.freed]) rfl, False.elim⟩
  | rejected => exact ⟨_, _, _, reworks_same (silent_compareEvents _ _ _) rfl rfl, False.elim⟩
  | @inserted E a F T comp g k hseek ha =>
    exact ⟨_, _, _, reworks_attach (plug_seek hseek).1 (hF a (by simp)) ha
      (silent_compareEvents _ _ _) rfl rfl, False.elim⟩
  | @before E a e F c l r k ha =>
    exact ⟨_, _, _, reworks_attach (Base.plug_beside .left c e l r) (hF a (by simp)) ha hnone
      (by simp [Env.advanced, Env.turnedBy]) rfl, False.elim⟩
  | @after E a e F c l r k ha =>
    exact ⟨_, _, _, reworks_attach (Base.plug_beside .right c e r l) (hF a (by simp)) ha hnone
      (by simp [Env.advanced, Env.turnedBy]) rfl, False.elim⟩
  | @removed E F c a l r k hk =>
    refine ⟨false, removeAt E.stamp.next c a l r, [], ⟨fun _ hR h => ?_, .inr items_removeAt_sub,
      hnone, rfl, by simp [Env.advanced, Env.turnedBy, Env.freed], rfl⟩, False.elim⟩
    exact kept_removeAt (o := E.stamp.next) hR h
  | @marked E F T i hi =>
    refine ⟨false, soilTo E.stamp i T, [], ⟨fun _ hR h => ?_, .inl ?_, hnone, rfl, by simp, rfl⟩,
      False.elim⟩
    · exact Kept.soilTo (o := E.stamp) hR h
    · exact fun b hb => by rwa [items_soilTo]
  | walked E F T =>
    exact ⟨true, T, [], ⟨fun _ _ h => h, .inl fun _ h => h, hnone, rfl, rfl, rfl⟩, fun _ => rfl⟩
  | found => exact ⟨_, _, _, reworks_same (silent_compareEvents _ _ _) rfl rfl, False.elim⟩
  | reached => exact ⟨_, _, _, reworks_same (silent_compareEvents _ _ _) rfl rfl, False.elim⟩
  | next => exact ⟨_, _, _, reworks_same hnone (by simp) rfl, False.elim⟩
  | previous => exact ⟨_, _, _, reworks_same hnone (by simp) rfl, False.elim⟩
  | isDirty => exact ⟨_, _, _, reworks_same hnone (by simp) rfl, False.elim⟩
  | counted => exact ⟨_, _, _, reworks_same hnone (by simp) rfl, False.elim⟩

/-- A removal by an operation. -/
theorem reworks_discharged {E : Env σ} {F : Multiset Entry} {c : Path Entry} {a : Entry}
    {l r : ETree} {k : ℕ} {pre : List Event} (hpre : ∀ e ∈ pre, e.Silent) :
    Reworks ⟨E, F, plug c (node a l r)⟩ ⟨(E.traced pre).discharged a k (unstore E.stamp c a l r), F,
      wash (unstore E.stamp c a l r)⟩ true (unstore E.stamp c a l r)
      (pre ++ [.release (a.value E.options)]) := by
  refine Reworks.walked ⟨fun _ hR h => ?_, .inr items_unstore_sub, ?_, rfl, ?_, rfl⟩ rfl
  · exact kept_unstore (o := E.stamp) hR h
  · exact List.forall_mem_append.2 ⟨hpre, List.forall_mem_singleton.2 trivial⟩
  · simp [Env.traced, Env.advanced, Env.freed, Env.turnedBy]

theorem Performs.reworks {cb : Callbacks} {m m' : Image σ} {op : Op} {r : Result}
    (h : Performs cb m op r m') : ∃ walks U pre, Reworks m m' walks U pre ∧
      (Walks (.inr op) (.inr r) → walks = true) ∧ (walks = false → U = m.tree) := by
  have hnone : ∀ e ∈ ([] : List Event), e.Silent := by simp
  have hretain : ∀ (E : Env σ) (T : ETree) (v : VoidPtr) (halt : Bool),
      ∀ e ∈ Event.retain v (E.kept cb v) ::
        E.comparisons cb T ((E.newcomer cb v).value E.options) halt, e.Silent :=
    fun E T v halt => List.forall_mem_cons.2 ⟨trivial, silent_compareEvents _ _ _⟩
  have hoffered : ∀ (E : Env σ) (T : ETree) (v : VoidPtr), (E.offered cb T v).trace =
      E.trace ++ Event.retain v (E.kept cb v) ::
        E.comparisons cb T ((E.newcomer cb v).value E.options) (halts E.options) :=
    fun E T v => by simp [Env.offered, Env.traced, Env.malloced]
  cases h with
  | @added E F T v g k hplace ha =>
    have hrework : Reworks ⟨E, F, T⟩ ⟨(E.offered cb T v).advanced.turnedBy k, F,
        attach E.stamp (E.newcomer cb v) g⟩ false (attach E.stamp (E.newcomer cb v) g) _ :=
      reworks_attach (plug_seek hplace).1 rfl ha (hretain E T v (halts E.options))
        (hoffered E T v) rfl
    exact ⟨_, _, _, hrework.walked rfl, fun _ => rfl, Bool.noConfusion⟩
  | @rejected E F T v =>
    have hrework : Reworks ⟨E, F, T⟩ ⟨((E.offered cb T v).traced
        [.release (E.kept cb v)]).freed E.nextSlot, F, T⟩ false T
        ((.retain v (E.kept cb v) :: E.comparisons cb T ((E.newcomer cb v).value E.options)
          (halts E.options)) ++ [.release (E.kept cb v)]) := by
      refine reworks_same (List.forall_mem_append.2 ⟨hretain E T v (halts E.options), ?_⟩) ?_ rfl
      · exact List.forall_mem_singleton.2 trivial
      · rw [← List.append_assoc, ← hoffered E T v]
        rfl
    exact ⟨_, _, _, hrework.walked rfl, fun _ => rfl, fun _ => rfl⟩
  | @removed E F key c a l r k =>
    exact ⟨_, _, _, reworks_discharged (silent_compareEvents _ _ _), fun _ => rfl, Bool.noConfusion⟩
  | missing =>
    refine ⟨_, _, _, reworks_same (silent_compareEvents _ _ _) rfl rfl, fun h => ?_, fun _ => rfl⟩
    exact absurd h (by simp [Walks, ENOENT])
  | @removedNode E F c a l r k =>
    have hrework : Reworks ⟨E, F, plug c (node a l r)⟩ ⟨(E.traced []).discharged a k
        (unstore E.stamp c a l r), F, wash (unstore E.stamp c a l r)⟩ true _ _ :=
      reworks_discharged hnone
    rw [Env.traced_nil] at hrework
    exact ⟨_, _, _, hrework, fun _ => rfl, Bool.noConfusion⟩
  | found =>
    exact ⟨_, _, _, reworks_same (silent_compareEvents _ _ _) rfl rfl, False.elim, fun _ => rfl⟩
  | reached =>
    exact ⟨_, _, _, reworks_same (silent_compareEvents _ _ _) rfl rfl, False.elim, fun _ => rfl⟩
  | isEmpty => exact ⟨_, _, _, reworks_same hnone (by simp) rfl, False.elim, fun _ => rfl⟩
  | enumerated => exact ⟨_, _, _, reworks_same hnone (by simp) rfl, False.elim, fun _ => rfl⟩

/-! ### One call -/

section Call

variable {u : Augmentation O A} {s s' : Base σ} {w w' : World O A} {E : Env σ} {z : Sentinel}
  {K : Multiset Cell} {T U : ETree} {m m' : Image σ} {walks : Bool} {pre : List Event}

/-- With extra bytes in the nodes the values are distinct anyway. -/
theorem Repr.addrs (h : Repr s E z K T)
    (hd : Options.useExtra E.options = false → DistinctObjects s) :
    (addrs E.options T).Nodup ∧ Addr.null ∉ addrs E.options T := by
  have hslots : (T.inorder.map Entry.slot).Nodup := h.nodup_slots
  cases hx : Options.useExtra E.options with
  | true =>
    have harea : ∀ e : Entry, e.addr E.options = .area e.slot := fun e => by
      rw [Entry.addr, Entry.value, Item.value, if_pos hx]
      rfl
    have hmap : MulleRbtree.addrs E.options T = (T.inorder.map Entry.slot).map Addr.area := by
      rw [MulleRbtree.addrs, List.map_map]
      exact List.map_congr_left fun e _ => harea e
    constructor
    · rw [hmap]
      exact hslots.map Addr.area_injective
    · intro hnull
      obtain ⟨e, -, he⟩ := List.mem_map.1 hnull
      rw [harea] at he
      cases he
  | false =>
    obtain ⟨hnull, hinj⟩ := hd hx
    have haddr : ∀ e ∈ T.inorder, (valueAt s e.ref).addr = e.addr E.options := fun e he => by
      rw [h.valueAt_eq he]
      rfl
    constructor
    · refine List.Nodup.map_on (fun e he b hb heb => ?_) (List.Nodup.of_map _ hslots)
      have href := hinj _ _ (h.attached_ref he) (h.attached_ref hb)
        (by rw [haddr e he, haddr b hb, heb])
      exact List.inj_on_of_nodup_map hslots he hb (Ref.slot.inj href)
    · intro hmem
      obtain ⟨e, he, hnull'⟩ := List.mem_map.1 hmem
      exact hnull _ (h.attached_ref he) ((haddr e he).trans hnull')

/-- The objects before the walk: those of the nodes that stay are as they were. -/
theorem Reworks.agree (hr : Reworks m m' walks U pre) (hs : Shows s m) (hs' : Shows s' m')
    (ha : Affects u s s' w w') : ∃ aug : Addr → A,
      (∀ b ∈ items m.tree, b ∈ items U →
        w.Agree ⟨w'.own, aug⟩ (b.value m.env.options).addr) ∧
      w'.aug = u.replay w'.own aug (if walks then washEvents m.env.options U else []) := by
  obtain ⟨hown, events, aug, htrace, haug, hw'⟩ := ha
  obtain ⟨z, h⟩ := hs
  obtain ⟨z', h'⟩ := hs'
  have hitems : items m'.tree = items U := by
    rw [hr.tree]
    split_ifs
    · exact items_wash U
    · rfl
  have hattached : ∀ {s : Base σ} {E : Env σ} {z : Sentinel} {K : Multiset Cell} {T : ETree},
      Repr s E z K T → ∀ b ∈ items T, Attached s (.slot b.slot) ∧
        valueAt s (.slot b.slot) = b.value E.options := by
    intro s E z K T h b hb
    rw [items_eq] at hb
    obtain ⟨e, he, rfl⟩ := List.mem_map.1 hb
    exact ⟨h.attached_ref he, h.valueAt_eq he⟩
  refine ⟨aug, fun b hb hbU => ?_, ?_⟩
  · obtain ⟨hin, hvalue⟩ := hattached h b hb
    have hin' := (hattached h' b (hitems ▸ hbU)).1
    have hagree := And.intro (hown _ hin hin') (haug _ hin hin')
    rwa [hvalue] at hagree
  · have hevents : events = pre ++ if walks then washEvents m.env.options U else [] := by
      have ht : s.trace = m.env.trace := congrArg Env.trace (Holds.env h)
      have ht' : s'.trace = m'.env.trace := congrArg Env.trace (Holds.env h')
      rw [ht', ht, hr.trace] at htrace
      exact (List.append_cancel_left htrace).symm
    rw [hw', hevents, Augmentation.replay_append, Augmentation.replay_silent hr.silent]

omit [MulleStorage σ] in
/-- What is not dirty still fits, before the walk. -/
theorem Reworks.kept_agree (hr : Reworks m m' walks U pre) {w₁ : World O A}
    (ha : ∀ b ∈ items m.tree, b ∈ items U → w.Agree w₁ (b.value m.env.options).addr)
    (hk : Kept (OrDirty (u.Fits m.env.options w)) m.env.options m.tree) :
    Kept (OrDirty (u.Fits m.env.options w₁)) m.env.options U := by
  have hmem : ∀ {T : ETree} {e : Entry}, e ∈ T.inorder → e.item ∈ items T := fun he => by
    rw [items_eq]
    exact List.mem_map_of_mem he
  have htolerant : ∀ w : World O A, Tolerant (OrDirty (u.Fits m.env.options w)) := fun w =>
    tolerant_orDirty fun h he hl hr => h.congr he hl hr
  rcases hr.stays with hsub | hsub
  · exact hr.kept _ (htolerant w₁) (hk.agree fun e he => ha _ (hmem he) (hsub _ (hmem he)))
  · exact (hr.kept _ (htolerant w) hk).agree fun e he => ha _ (hsub _ (hmem he)) (hmem he)

/-- After the call, too, and after a walk every node fits. -/
theorem Reworks.fits (hr : Reworks m m' walks U pre) (hs : Represents s m) (hs' : Shows s' m')
    (ho : Options.useDirty m.env.options = true)
    (hd : Options.useExtra s'.options = false → DistinctObjects s') (ha : Affects u s s' w w')
    (hk : Kept (OrDirty (u.Fits m.env.options w)) m.env.options m.tree) :
    Kept (OrDirty (u.Fits m'.env.options w')) m'.env.options m'.tree ∧
      (walks = true → Locally (u.Fits m'.env.options w') m'.tree) := by
  obtain ⟨aug, hagree, hw'⟩ := hr.agree hs.1 hs' ha
  have hkU := hr.kept_agree hagree hk
  obtain ⟨own', aug'⟩ := w'
  dsimp only at hw' hkU
  subst hw'
  rw [hr.options, hr.tree]
  cases walks with
  | false => exact ⟨hkU, nofun⟩
  | true =>
    obtain ⟨z', h'⟩ := hs'
    have hoptions : s'.options = m'.env.options := congrArg Env.options (Holds.env h')
    have haddrs := Repr.addrs h' (hoptions ▸ hd)
    rw [hr.options, hr.tree, if_pos rfl, addrs_wash] at haddrs
    have hup : Locally Up U := (hr.kept Up tolerant_up hs.2.dirt).up
    have hfits := (replay_washEvents hup (hkU.locally ho) haddrs.1 haddrs.2).1
    have hwash := locally_fits_wash hfits
    refine ⟨⟨fun _ => Locally.mono_on hwash fun _ _ _ _ _ _ h => .inr h, ?_⟩, fun _ => hwash⟩
    exact (dirt_of_clean (wash_clean hup)).proper

end Call

/-! ### Exact is what fits -/

theorem Repr.exact_iff {u : Augmentation O A} {w : World O A} {s : Base σ} {E : Env σ}
    {z : Sentinel} {K : Multiset Cell} {T : ETree} (h : Repr s E z K T) :
    Exact u w s ↔ Locally (u.Fits E.options w) T := by
  have hvalue : ∀ e ∈ T.inorder, (valueAt s e.ref).addr = e.addr E.options := fun e he => by
    rw [h.valueAt_eq he]
    rfl
  have hmap : ∀ {v : Option Entry}, (∀ b ∈ v, b ∈ T.inorder) →
      ((v.map Entry.ref).map fun n => w.aug (valueAt s n).addr) =
        v.map fun b => w.aug (b.addr E.options) := by
    intro v hv
    cases v with
    | none => rfl
    | some b => exact congrArg (fun a => some (w.aug a)) (hvalue b (hv b rfl))
  have hexact : Exact u w s ↔ Locally (fun n l r => w.aug (valueAt s n).addr =
      u.combine (w.own (valueAt s n).addr) (l.map fun n => w.aug (valueAt s n).addr)
        (r.map fun n => w.aug (valueAt s n).addr)) (T.map Entry.ref) := by
    constructor
    · rintro ⟨t, ht, hall⟩
      rw [ht.unique h.linked] at hall
      exact locally_iff_summary.2 hall
    · exact fun hall => ⟨_, h.linked, locally_iff_summary.1 hall⟩
  rw [hexact, locally_map]
  constructor
  · refine fun hT => Locally.mono_on hT fun e he l r hl hr hfit => ?_
    rw [hvalue e he, hmap hl, hmap hr] at hfit
    exact hfit
  · refine fun hT => Locally.mono_on hT fun e he l r hl hr hfit => ?_
    rw [hvalue e he, hmap hl, hmap hr]
    exact hfit

/-! ### Runs -/

/-- All calls of both headers. -/
theorem everything_reworks {cb : Callbacks} {c : Call ⊕ Op} {s : Base σ} {m : Image σ}
    (hs : Represents s m) (hp : (everything σ cb).Pre c s) :
    Ensures ((everything σ cb).exec c) s fun r s' => ∃ m' walks U pre, Represents s' m' ∧
      Reworks m m' walks U pre ∧ (Walks c r → walks = true) ∧
        (c.isRight = true → walks = false → U = m.tree) := by
  cases c with
  | inl c =>
    refine Ensures.map ((exec_represents hs hp).mono ?_)
    rintro r s' ⟨m', he, hs'⟩
    obtain ⟨walks, U, pre, hr, hwalks⟩ := he.reworks hs.2
    exact ⟨m', walks, U, pre, hs', hr, hwalks, nofun⟩
  | inr op =>
    refine Ensures.map ((op_represents hs hp).mono ?_)
    rintro r s' ⟨m', he, hs'⟩
    obtain ⟨walks, U, pre, hr, hwalks, hidle⟩ := he.reworks
    exact ⟨m', walks, U, pre, hs', hr, hwalks, fun _ => hidle⟩

/-- The augmentations of the nodes that are not dirty fit. -/
def Accurate (u : Augmentation O A) (w : World O A) (s : Base σ) : Prop :=
  ∃ m : Image σ, Represents s m ∧ Options.useDirty m.env.options = true ∧
    Kept (OrDirty (u.Fits m.env.options w)) m.env.options m.tree

section Runs

variable {u : Augmentation O A} {s s' t : Base σ} {w w' : World O A} {m m' : Image σ}
  {pre : List Event} {h : List ((Callbacks × (Call ⊕ Op)) × (Answer ⊕ Result))}

/-- A call that does nothing to the tree leaves exact augmentations. -/
theorem Reworks.fits_idle (hr : Reworks m m' false m.tree pre) (hs : Shows s m)
    (hs' : Shows s' m') (ha : Affects u s s' w w')
    (hw : Locally (u.Fits m.env.options w) m.tree) :
    Locally (u.Fits m'.env.options w') m'.tree := by
  obtain ⟨aug, hagree, hw'⟩ := hr.agree hs hs' ha
  obtain ⟨own', aug'⟩ := w'
  dsimp only at hw' hagree
  subst hw'
  rw [hr.options, hr.tree]
  refine Locally.agree hw fun e he => ?_
  have hitem : e.item ∈ items m.tree := by
    rw [items_eq]
    exact List.mem_map_of_mem he
  exact hagree _ hitem hitem

/-- One call: what is not dirty stays accurate, a walk makes the rest exact, and what is exact an
operation leaves exact. -/
theorem Accurate.step {c : Callbacks × (Call ⊕ Op)} {a : Answer ⊕ Result} (hs : Accurate u w s)
    (hp : (anyCallbacks σ).Pre c s) (he : (anyCallbacks σ).exec c s = .ok (a, s'))
    (hd : Options.useExtra s'.options = false → DistinctObjects s') (ha : Affects u s s' w w') :
    Accurate u w' s' ∧ (Walks c.2 a → Exact u w' s') ∧
      (c.2.isRight = true → Exact u w s → Exact u w' s') := by
  obtain ⟨m, hm, ho, hk⟩ := hs
  obtain ⟨m', walks, U, pre, hm', hr, hwalks, hidle⟩ := (everything_reworks hm hp).elim he
  obtain ⟨hk', hfits⟩ := hr.fits hm hm'.1 ho hd ha hk
  obtain ⟨z, h⟩ := hm.1
  obtain ⟨z', h'⟩ := hm'.1
  rw [h.exact_iff, h'.exact_iff]
  refine ⟨⟨m', hm', hr.options ▸ ho, hk'⟩, fun hw => hfits (hwalks hw), fun hop hexact => ?_⟩
  cases walks with
  | true => exact hfits rfl
  | false =>
    obtain rfl : U = m.tree := hidle hop rfl
    exact hr.fits_idle hm.1 hm'.1 ha hexact

theorem AugmentedRun.exact_of_walks (hrun : AugmentedRun u s w h t w') (hs : Accurate u w s) :
    ∀ p ∈ h.getLast?, Walks p.1.2 p.2 → Exact u w' t := by
  induction hrun with
  | nil => exact nofun
  | @cons s s' t w w' v c a h hp he hd ha hrun ih =>
    obtain ⟨hs', hwalks, -⟩ := hs.step hp he hd ha
    intro p hlast hw
    cases h with
    | nil =>
      cases hrun
      obtain rfl : (c, a) = p := by simpa using hlast
      exact hwalks hw
    | cons q h =>
      rw [List.getLast?_cons_cons] at hlast
      exact ih hs' p hlast hw

theorem AugmentedRun.exact_of_operations (hrun : AugmentedRun u s w h t w')
    (hs : Accurate u w s) (hops : ∀ p ∈ h, p.1.2.isRight = true) (hw : Exact u w s) :
    Exact u w' t := by
  induction hrun with
  | nil => exact hw
  | cons hp he hd ha _ ih =>
    rw [List.forall_mem_cons] at hops
    obtain ⟨hs', -, hexact⟩ := hs.step hp he hd ha
    exact ih hs' hops.2 (hexact hops.1 hw)

/-- Where augmentations are exact they are accurate. -/
theorem Represents.accurate (hm : Represents s m) (ho : Options.useDirty s.options = true)
    (hw : Exact u w s) : Accurate u w s := by
  obtain ⟨z, h⟩ := hm.1
  have hoptions : s.options = m.env.options := congrArg Env.options (Holds.env h)
  refine ⟨m, hm, hoptions ▸ ho, fun _ => ?_, hm.2.dirt.proper⟩
  exact Locally.mono_on (h.exact_iff.1 hw) fun _ _ _ _ _ _ h => .inr h

theorem anyCallbacks_keeps (c : Callbacks × (Call ⊕ Op)) (s : Base σ)
    (hs : ∃ m : Image σ, Represents s m) (hp : (anyCallbacks σ).Pre c s) :
    Ensures ((anyCallbacks σ).exec c) s fun _ s' => ∃ m : Image σ, Represents s' m :=
  everything_keeps c.2 s hs hp

/-- In a new tree there is nothing to keep exact. -/
theorem exact_init (config : Config) : Exact u w (Base.initWithConfig config : Base σ) := by
  obtain ⟨z, h⟩ := shows_init (σ := σ) config
  exact h.exact_iff.2 trivial

/-- In a tree with dirty flags: if augmentations are exact in a state that any calls have led to,
they are exact after every later call that walks the dirty nodes, whatever came before it, and in
runs of operations they are so after every operation. -/
theorem exact_of_run (u : Augmentation O A) (config : Config) {s t : Base σ} {w w' : World O A}
    {h₀ h : List ((Callbacks × (Call ⊕ Op)) × (Answer ⊕ Result))}
    (hs : (anyCallbacks σ).Run (Base.initWithConfig config) h₀ s)
    (ho : Options.useDirty s.options = true) (hw : Exact u w s)
    (hrun : AugmentedRun u s w h t w') :
    (∀ p ∈ h.getLast?, Walks p.1.2 p.2 → Exact u w' t) ∧
      ((∀ p ∈ h, p.1.2.isRight = true) → Exact u w' t) := by
  obtain ⟨m, hm⟩ : ∃ m : Image σ, Represents s m :=
    hs.keeps anyCallbacks_keeps ⟨_, shows_init config, sound_init config⟩
  have haccurate := hm.accurate ho hw
  exact ⟨hrun.exact_of_walks haccurate, fun hops => hrun.exact_of_operations haccurate hops hw⟩

end Runs

/-- A callback that counts the nodes of every subtree. -/
def subtreeSizes : Augmentation Unit ℕ := ⟨fun _ left right => left + right + 1, 0, 0⟩

/-- Every run in extra mode is one with objects, which nothing but the dirty callback changes. -/
theorem exists_augmentedRun {O A : Type} (u : Augmentation O A) {s t : Base σ}
    {h : List ((Callbacks × (Call ⊕ Op)) × (Answer ⊕ Result))} (hrun : (anyCallbacks σ).Run s h t)
    (hs : ∃ m : Image σ, Represents s m) (hx : Options.useExtra s.options = true) (w : World O A) :
    ∃ w', AugmentedRun u s w h t w' := by
  induction hrun generalizing w with
  | nil s => exact ⟨w, .nil s w⟩
  | @cons s s' t c a h hp he _ ih =>
    obtain ⟨m, hm⟩ := hs
    obtain ⟨m', walks, U, pre, hm', hr, -⟩ := (everything_reworks hm hp).elim he
    obtain ⟨z, hrepr⟩ := hm.1
    obtain ⟨z', hrepr'⟩ := hm'.1
    have htrace : s'.trace = s.trace ++ (pre ++ if walks then washEvents m.env.options U else []) := by
      rw [Holds.trace_eq hrepr', Holds.trace_eq hrepr, hr.trace]
    have hx' : Options.useExtra s'.options = true := by
      rw [Holds.options_eq hrepr', hr.options, ← Holds.options_eq hrepr, hx]
    have haffects : Affects u s s' w ⟨w.own, u.replay w.own w.aug _⟩ :=
      ⟨fun _ _ _ => rfl, _, w.aug, htrace, fun _ _ _ => rfl, rfl⟩
    obtain ⟨w', hrest⟩ := ih ⟨m', hm'⟩ hx' ⟨w.own, u.replay w.own w.aug _⟩
    exact ⟨w', .cons hp he (fun hno => absurd hx' (by simp [hno])) haffects hrest⟩

/-- After five operations, with subtree sizes that the callback stores. -/
theorem exact_of_run_five : ∃ (s : Base SlotPool) (w : World Unit ℕ),
    InOrder s [.slot 0, .slot 2] ∧ Exact subtreeSizes w s := by
  have hrun : ((anyCallbacks SlotPool).follow (fun c => check c.2)
      ((fiveOps (ofByte 1) (ofByte 2) (ofByte 3)).map fun op => (firstByteCallbacks, .inr op))
      (Base.initWithConfig ⟨8, 0x6#32, 0⟩)).map (Prod.map id nodesOf) =
        some (fiveResults.map .inr, [.slot 0, .slot 2]) := by
    decide +kernel
  obtain ⟨s, hrun, ⟨m, hm⟩, hnodes⟩ := Interface.exists_run_of_follow
    (fun _ _ => pre_of_check) anyCallbacks_keeps (represents_init _) hrun
  obtain ⟨w, hrun⟩ := exists_augmentedRun subtreeSizes hrun (represents_init _) (by decide)
    ⟨fun _ => (), fun _ => 0⟩
  have hexact := exact_of_run subtreeSizes ⟨8, 0x6#32, 0⟩ (.nil _) (by decide) (exact_init _) hrun
  exact ⟨s, w, hnodes ▸ hm.inOrder, hexact.2 (by decide)⟩

end MulleRbtree
