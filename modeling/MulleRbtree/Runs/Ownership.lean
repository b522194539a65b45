import MulleRbtree.Library.Custody
import MulleRbtree.Runs.Order
import MulleRbtree.Runs.Pool

/-!
# Who owns the values

A tree takes custody of a value when `retain` returns it, and gives it back by `release`.

* `retained`, `released`: the pointers of all calls of the two callbacks;
* `handed op e`: the pointers that a tree hands to a comparison or a dirty callback;
* `Performs.keeps`: an operation in payload mode uses values in custody only, and those are the
  values of the nodes in the tree;
* `Performs.counts`: how often the callbacks are called, in either mode;
* `ownership_of_run`: the balance over whole lives of trees.
-/

namespace MulleRbtree

open BinaryTree Cells Program Custody

variable {σ : Type} [MulleStorage σ]

/-! ### Callbacks in a trace -/

/-- The pointers that `retain` has returned. -/
def retained (events : List Event) : Multiset VoidPtr :=
  events.filterMap fun
    | .retain _ kept => some kept
    | _ => none

/-- The pointers that `release` has been called with. -/
def released (events : List Event) : Multiset VoidPtr :=
  events.filterMap fun
    | .release value => some value
    | _ => none

/-- The pointers that the tree hands to the comparison or to the dirty callback.  Keys come from the
caller, but for the value that is being added; `NULL` stands for a child that is not there. -/
def handed (op : Op) : Event → List VoidPtr
  | .compare a b =>
    match op with
    | .add _ => [a, b]
    | _ => [b]
  | .dirty value left right => [value, left, right].filter (· ≠ null)
  | _ => []

/-- What an event does with values, of which `f` tells what is counted. -/
def Event.move {τ : Type} (f : VoidPtr → τ) (op : Op) : Event → Move τ
  | .retain _ kept => .take (f kept)
  | .release value => .give (f value)
  | .compare a b => .use ((handed op (.compare a b)).map f)
  | .dirty value left right => .use ((handed op (.dirty value left right)).map f)

section Move

variable {τ : Type} (f : VoidPtr → τ) (op : Op)

theorem taken_move (events : List Event) :
    taken (Event.move f op) events = (retained events).map f := by
  rw [taken, retained, Multiset.map_coe, List.map_filterMap]
  congr 2
  funext e
  cases e <;> rfl

theorem given_move (events : List Event) :
    given (Event.move f op) events = (released events).map f := by
  rw [given, released, Multiset.map_coe, List.map_filterMap]
  congr 2
  funext e
  cases e <;> rfl

theorem used_move (e : Event) : (Event.move f op e).used = (handed op e).map f := by
  cases e <;> rfl

end Move

@[simp] theorem retained_append (u v : List Event) : retained (u ++ v) = retained u + retained v := by
  simp [retained]

@[simp] theorem released_append (u v : List Event) : released (u ++ v) = released u + released v := by
  simp [released]

theorem retained_cons (e : Event) (u : List Event) :
    retained (e :: u) = retained [e] + retained u := retained_append [e] u

theorem mem_released {events : List Event} {p : VoidPtr} :
    p ∈ released events ↔ .release p ∈ events := by
  rw [released, Multiset.mem_coe, List.mem_filterMap]
  constructor
  · rintro ⟨e, he, hp⟩
    cases e <;> simp_all
  · exact fun h => ⟨_, h, rfl⟩

/-- Whether the call has been refused. -/
def isRejection : Op × Result → Bool
  | (.add _, .code k) => k ≠ 0
  | _ => false

/-- The rejected calls of `mulle_rbtree_add`. -/
def rejections (h : List (Op × Result)) : ℕ := h.countP isRejection

/-! ### Custody during an operation -/

section Keeps

variable {cb : Callbacks} {options : BitVec 32} {E : Env σ} {T l r : ETree} {a : Entry} {o : Stamp}
  {c g : Path Entry} {op : Op} {τ : Type} {f : VoidPtr → τ}

/-- What is counted of the values of a tree. -/
def tokens (f : VoidPtr → τ) (options : BitVec 32) (T : ETree) : Multiset τ :=
  (values options T : Multiset VoidPtr).map f

omit [MulleStorage σ] in
theorem mem_comparisons {key : VoidPtr} {halt : Bool} {e : Event}
    (he : e ∈ E.comparisons cb T key halt) : ∃ b ∈ values E.options T, e = .compare key b := by
  rw [Env.comparisons, compareEvents, List.mem_map] at he
  obtain ⟨a, ha, rfl⟩ := he
  exact ⟨a.value E.options, mem_values.2 ⟨a, mem_of_visits ha, rfl⟩, rfl⟩

theorem valueOf_label?_mem (hne : valueOf options T.label? ≠ null) :
    valueOf options T.label? ∈ values options T := by
  cases T with
  | nil => exact absurd rfl hne
  | node e l r => exact mem_values.2 ⟨e, by simp, rfl⟩

/-- A dirty walk uses the values of the tree. -/
theorem handed_washEvents (f : VoidPtr → τ) (op : Op) {e : Event}
    (he : e ∈ washEvents options T) :
    (∃ u, Event.move f op e = .use u) ∧ ∀ p ∈ handed op e, p ∈ values options T := by
  induction T with
  | nil => simp [washEvents] at he
  | node b l r ihl ihr =>
    have hvalues : values options (node b l r) =
        values options l ++ b.value options :: values options r := by
      simp [values, Entry.value]
    unfold washEvents at he
    split_ifs at he with hb
    · rcases List.mem_append.1 he with he | he
      · rcases List.mem_append.1 he with he | he
        · obtain ⟨huse, hmem⟩ := ihl he
          exact ⟨huse, fun p hp => hvalues ▸ List.mem_append_left _ (hmem p hp)⟩
        · obtain ⟨huse, hmem⟩ := ihr he
          exact ⟨huse, fun p hp => hvalues ▸ List.mem_append_right _
            (List.mem_cons_of_mem _ (hmem p hp))⟩
      · rw [List.mem_singleton] at he
        subst he
        refine ⟨⟨_, rfl⟩, fun p hp => ?_⟩
        rw [handed, List.mem_filter, decide_eq_true_iff] at hp
        obtain ⟨hp, hne⟩ := hp
        rw [hvalues, List.mem_append, List.mem_cons]
        simp only [List.mem_cons, List.not_mem_nil, or_false] at hp
        rcases hp with rfl | rfl | rfl
        · exact .inr (.inl rfl)
        · exact .inl (valueOf_label?_mem hne)
        · exact .inr (.inr (valueOf_label?_mem hne))
    · simp at he

theorem tokens_attach : tokens f options (attach o a g) =
    f (a.value options) ::ₘ tokens f options (plug g nil) := by
  obtain ⟨h₁, h₂⟩ := items_attach_split (o := o) (a := a) (c := g)
  rw [tokens, tokens, values, values, h₁, h₂, ← Multiset.map_cons, Multiset.cons_coe]
  refine congrArg _ (Multiset.coe_eq_coe.2 ?_)
  rw [List.map_append, List.map_append, List.map_cons]
  exact List.perm_middle

theorem tokens_unstore : tokens f options (plug c (node a l r)) =
    f (a.value options) ::ₘ tokens f options (unstore o c a l r) := by
  obtain ⟨u, v, h₁, h₂⟩ := items_unstore_split o c a l r
  rw [tokens, tokens, values, values, h₁, h₂, ← Multiset.map_cons, Multiset.cons_coe]
  refine congrArg _ (Multiset.coe_eq_coe.2 ?_)
  rw [List.map_append, List.map_append, List.map_cons]
  exact List.perm_middle

omit [MulleStorage σ] in
theorem keeps_comparisons {key : VoidPtr} {halt : Bool} {P : Multiset τ}
    (hkey : f key ∈ P ∨ ∀ v, op ≠ .add v) (hT : ∀ v ∈ values E.options T, f v ∈ P) :
    Keeps (Event.move f op) P (E.comparisons cb T key halt) P := by
  refine .of_uses fun e he => ?_
  obtain ⟨b, hb, rfl⟩ := mem_comparisons he
  refine ⟨_, rfl, fun a ha => ?_⟩
  obtain ⟨p, hp, rfl⟩ := List.mem_map.1 ha
  cases op with
  | add v =>
    have hkey : f key ∈ P := hkey.resolve_right fun h => h v rfl
    rcases List.mem_cons.1 hp with rfl | hp
    · exact hkey
    · exact List.mem_singleton.1 hp ▸ hT b hb
  | _ => exact List.mem_singleton.1 hp ▸ hT b hb

theorem mem_tokens {v : VoidPtr} (hv : v ∈ values options T) : f v ∈ tokens f options T :=
  Multiset.mem_map_of_mem f hv

theorem keeps_washEvents : Keeps (Event.move f op) (tokens f options T) (washEvents options T)
    (tokens f options T) := by
  refine .of_uses fun e he => ?_
  obtain ⟨⟨u, hu⟩, hmem⟩ := handed_washEvents f op he
  refine ⟨u, hu, fun a ha => ?_⟩
  have hused := used_move f op e
  rw [hu] at hused
  obtain ⟨p, hp, rfl⟩ := List.mem_map.1 (hused ▸ ha : a ∈ (handed op e).map f)
  exact mem_tokens (hmem p hp)

/-- The removal of a node. -/
theorem keeps_unstore : Keeps (Event.move f op) (tokens f options (plug c (node a l r)))
    (.release (a.value options) :: washEvents options (unstore o c a l r))
    (tokens f options (unstore o c a l r)) := by
  rw [tokens_unstore (o := o)]
  exact .give rfl keeps_washEvents

/-- A comparison or a dirty walk retains nothing. -/
theorem retained_of_uses (op : Op) {events : List Event}
    (h : ∀ e ∈ events, ∃ u, Event.move id op e = .use u) :
    retained events = 0 := by
  rw [← Multiset.map_id (retained events), ← taken_move id op]
  exact taken_of_uses h

omit [MulleStorage σ] in
theorem retained_comparisons (key : VoidPtr) (halt : Bool) :
    retained (E.comparisons cb T key halt) = 0 := by
  refine retained_of_uses .isEmpty fun e he => ?_
  obtain ⟨b, -, rfl⟩ := mem_comparisons he
  exact ⟨_, rfl⟩

theorem retained_washEvents : retained (washEvents options T) = 0 :=
  retained_of_uses .isEmpty fun _ he => (handed_washEvents id _ he).1

/-- An operation keeps the values of the tree in custody, if what is counted of a value is the same
for its stored form, and it retains what is added. -/
theorem Performs.keeps {m m' : Image σ} {res : Result} (h : Performs cb m op res m')
    (hf : ∀ v, f ((m.env.newcomer cb v).value m.env.options) = f (m.env.kept cb v)) :
    ∃ events, m'.env.trace = m.env.trace ++ events ∧
      Keeps (Event.move f op) (tokens f m.env.options m.tree) events
        (tokens f m.env.options m'.tree) ∧
      (retained events).card = additions [(op, res)] + rejections [(op, res)] := by
  have hwash : ∀ {options : BitVec 32} {T : ETree},
      tokens f options (wash T) = tokens f options T := by
    intro options T
    rw [tokens, tokens, values_wash]
  cases h with
  | @added E F T v g k hplace ha hk =>
    have hf : f ((E.newcomer cb v).value E.options) = f (E.kept cb v) := hf v
    refine ⟨.retain v (E.kept cb v) :: (E.comparisons cb T ((E.newcomer cb v).value E.options)
      (halts E.options) ++ washEvents E.options (attach E.stamp (E.newcomer cb v) g)), ?_, ?_, ?_⟩
    · change ((E.trace ++ [_]) ++ _) ++ _ = _
      simp only [List.append_assoc]
      rfl
    · have hP : tokens f E.options (attach E.stamp (E.newcomer cb v) g) =
          f (E.kept cb v) ::ₘ tokens f E.options T := by
        rw [tokens_attach, (plug_seek hplace).1, hf, plug_nil]
      dsimp only
      rw [hwash]
      refine .take (a := f (E.kept cb v)) rfl (.append ?_ keeps_washEvents)
      rw [hP]
      refine keeps_comparisons (.inl ?_) fun b hb => Multiset.mem_cons_of_mem (mem_tokens hb)
      rw [hf]
      exact Multiset.mem_cons_self _ _
    · rw [retained_cons, retained_append, retained_comparisons, retained_washEvents]
      rfl
  | @rejected E F T v hplace =>
    have hf : f ((E.newcomer cb v).value E.options) = f (E.kept cb v) := hf v
    refine ⟨.retain v (E.kept cb v) :: (E.comparisons cb T ((E.newcomer cb v).value E.options)
      (halts E.options) ++ (.release (E.kept cb v) :: washEvents E.options T)), ?_, ?_, ?_⟩
    · change (((E.trace ++ [_]) ++ _) ++ [_]) ++ _ = _
      simp only [List.append_assoc]
      rfl
    · dsimp only
      rw [hwash]
      refine .take (a := f (E.kept cb v)) rfl (.append (keeps_comparisons (.inl ?_) fun b hb =>
        Multiset.mem_cons_of_mem (mem_tokens hb)) (.give (a := f (E.kept cb v)) rfl
        keeps_washEvents))
      rw [hf]
      exact Multiset.mem_cons_self _ _
    · rw [retained_cons, retained_append, retained_cons (.release _), retained_comparisons,
        retained_washEvents]
      rfl
  | @removed E F key c a l r k hfind hk =>
    refine ⟨E.comparisons cb (plug c (node a l r)) key true ++ (.release (a.value E.options) ::
      washEvents E.options (unstore E.stamp c a l r)), ?_, ?_, ?_⟩
    · change ((E.trace ++ _) ++ [_]) ++ _ = _
      simp only [List.append_assoc]
      rfl
    · dsimp only
      rw [hwash]
      exact .append (keeps_comparisons (.inr nofun) fun _ hb => mem_tokens hb) keeps_unstore
    · rw [retained_append, retained_cons, retained_comparisons, retained_washEvents]
      rfl
  | @removedNode E F c a l r k hk =>
    refine ⟨.release (a.value E.options) :: washEvents E.options (unstore E.stamp c a l r), ?_, ?_,
      ?_⟩
    · change (E.trace ++ [_]) ++ _ = _
      simp only [List.append_assoc]
      rfl
    · dsimp only
      rw [hwash]
      exact keeps_unstore
    · rw [retained_cons, retained_washEvents]
      rfl
  | missing =>
    refine ⟨_, rfl, keeps_comparisons (.inr nofun) fun _ hb => mem_tokens hb, ?_⟩
    rw [retained_comparisons]
    rfl
  | found =>
    refine ⟨_, rfl, keeps_comparisons (.inr nofun) fun _ hb => mem_tokens hb, ?_⟩
    rw [retained_comparisons]
    rfl
  | reached =>
    refine ⟨_, rfl, keeps_comparisons (.inr nofun) fun _ hb => mem_tokens hb, ?_⟩
    rw [retained_comparisons]
    rfl
  | isEmpty => exact ⟨[], by simp, .nil _, rfl⟩
  | enumerated => exact ⟨[], by simp, .nil _, rfl⟩

end Keeps

/-! ### Whole lives -/

section Lives

variable {cb : Callbacks} {config : Config} {s s₁ s₂ t : Base σ} {m m' : Image σ}
  {h : List (Op × Result)} {τ : Type} {f : VoidPtr → τ}

/-- What is counted of a value is the same for its stored form. -/
def Counts (cb : Callbacks) (options : BitVec 32) (σ : Type) [MulleStorage σ] (f : VoidPtr → τ) :
    Prop :=
  ∀ E : Env σ, E.options = options → ∀ v, f ((E.newcomer cb v).value options) = f (E.kept cb v)

/-- In payload mode pointers are counted. -/
theorem counts_id {options : BitVec 32} (hx : Options.useExtra options = false) :
    Counts cb options σ id := by
  rintro E rfl v
  rw [Env.newcomer, Env.fresh, value_fresh, stored, if_neg (by simp [hx])]

/-- What has been retained has been released or is stored. -/
theorem Performs.steps_balance (hf : Counts cb m.env.options σ f)
    (hrun : Steps (Performs cb) m h m') : ∃ events, m'.env.trace = m.env.trace ++ events ∧
      tokens f m.env.options m.tree + (retained events).map f =
        (released events).map f + tokens f m.env.options m'.tree ∧
      (retained events).card = additions h + rejections h := by
  induction hrun with
  | nil m => exact ⟨[], by simp, by simp [retained, released], rfl⟩
  | @cons m m₁ m' op r h hs _ ih =>
    have ho := hs.options_eq
    obtain ⟨es, htrace, hkeeps, hcard⟩ := hs.keeps fun v => hf m.env rfl v
    obtain ⟨es', htrace', hbal', hcard'⟩ := ih (ho ▸ hf)
    have hbal := hkeeps.balance
    rw [taken_move, given_move] at hbal
    rw [ho] at hbal'
    refine ⟨es ++ es', by rw [htrace', htrace, List.append_assoc], ?_, ?_⟩
    · rw [retained_append, released_append, Multiset.map_add, Multiset.map_add, ← add_assoc, hbal,
        add_assoc, hbal', ← add_assoc]
    · have ha : additions ((op, r) :: h) = additions [(op, r)] + additions h := by
        rw [additions, ← List.singleton_append, List.countP_append]
        rfl
      have hr : rejections ((op, r) :: h) = rejections [(op, r)] + rejections h := by
        rw [rejections, ← List.singleton_append, List.countP_append]
        rfl
      rw [retained_append, Multiset.card_add, hcard, hcard']
      omega

theorem run_balance (hf : Counts cb m.env.options σ f) (hs : Represents s m)
    (hrun : (operations σ cb).Run s h t) : ∃ m' : Image σ, Represents t m' ∧
      m'.env.options = m.env.options ∧ ∃ events, t.trace = s.trace ++ events ∧
        tokens f m.env.options m.tree + (retained events).map f =
          (released events).map f + tokens f m.env.options m'.tree ∧
        (retained events).card = additions h + rejections h ∧
        m'.tree.numNodes + removals h = m.tree.numNodes + additions h := by
  obtain ⟨m', hsteps, ht⟩ := run_performs hrun hs
  obtain ⟨events, htrace, hbal, hcard⟩ := Performs.steps_balance hf hsteps
  have htrace_eq : ∀ {s : Base σ} {m : Image σ}, Represents s m → s.trace = m.env.trace :=
    fun ⟨⟨_, hr⟩, _⟩ => Holds.trace_eq hr
  refine ⟨m', ht, ?_, events, ?_, hbal, hcard, Performs.steps_numNodes hsteps⟩
  · exact hsteps.keeps (I := fun m' => m'.env.options = m.env.options)
      (fun _ _ _ _ hm h => h.options_eq.trans hm) rfl
  · rw [htrace_eq ht, htrace, htrace_eq hs]

theorem card_tokens (options : BitVec 32) (T : ETree) :
    (tokens f options T).card = T.numNodes := by
  rw [tokens, Multiset.card_map, Multiset.coe_card, values_eq, List.length_map, length_inorder]

theorem retained_releaseEvents (options : BitVec 32) (T : ETree) :
    retained (Rbtree.releaseEvents options T) = 0 := by
  simp [retained, Rbtree.releaseEvents, List.filterMap_map]

theorem released_releaseEvents (options : BitVec 32) (T : ETree) :
    released (Rbtree.releaseEvents options T) = values options T := by
  simp [released, Rbtree.releaseEvents, List.filterMap_map, values_eq]

/-- In an operation and after it: `before` and `during` are what has been called before it and in
it, `rest` what is called until the tree is gone. -/
def HandsHeld (op : Op) (before during rest : List Event) : Prop :=
  ∀ u e v, during = u ++ e :: v → ∀ p ∈ handed op e,
    (released (before ++ u)).count p < (retained (before ++ u)).count p ∧ .release p ∈ v ++ rest

/-- A pointer in custody. -/
theorem handsHeld_of_keeps {op : Op} {before during rest : List Event} {P Q : Multiset VoidPtr}
    (hbefore : retained before = released before + P) (hkeeps : Keeps (Event.move id op) P during Q)
    (hrest : Q + retained rest = released rest) : HandsHeld op before during rest := by
  rintro u e v rfl p hp
  have hused : p ∈ (Event.move id op e).used := by rwa [used_move, List.map_id]
  obtain ⟨R, hpR, hu, hv⟩ := hkeeps.held hused
  have hbu := hu.balance
  have hbv := hv.balance
  rw [taken_move, given_move, Multiset.map_id, Multiset.map_id] at hbu hbv
  constructor
  · have hheld : retained (before ++ u) = released (before ++ u) + R := by
      rw [retained_append, released_append, hbefore, add_assoc, hbu, ← add_assoc]
    rw [hheld, Multiset.count_add]
    have := Multiset.count_pos.2 hpR
    omega
  · rw [← mem_released, released_append, ← hrest, ← add_assoc, ← hbv]
    simp [hpR]

theorem Represents.trace_eq (hs : Represents s m) : s.trace = m.env.trace := by
  obtain ⟨⟨z, hr⟩, -⟩ := hs
  exact Holds.trace_eq hr

theorem Represents.done (hs : Represents s m) (hreleases : cb.releases = true) :
    Ensures (Rbtree.done cb) s fun _ t =>
      t.trace = s.trace ++ Rbtree.releaseEvents m.env.options m.tree := by
  obtain ⟨⟨z, hr⟩, -⟩ := id hs
  refine (Rbtree.done_spec cb hr).mono fun _ t h => ?_
  rw [h.1, if_pos hreleases, hs.trace_eq]

/-- What is in custody is what is stored. -/
theorem custody_of_run (hx : Options.useExtra config.options = false)
    (hrun : (operations σ cb).Run (Base.initWithConfig config) h s) : ∃ m : Image σ,
      Represents s m ∧ m.env.options = config.options ∧
      retained s.trace = released s.trace + tokens id m.env.options m.tree := by
  have hinit : Represents (Base.initWithConfig config : Base σ) (.init config) :=
    ⟨shows_init config, sound_init config⟩
  have hcounts : Counts cb (Image.init config : Image σ).env.options σ id := counts_id hx
  obtain ⟨m, hm, ho, events, htrace, hbal, -⟩ := run_balance hcounts hinit hrun
  refine ⟨m, hm, ho, ?_⟩
  have hevents : s.trace = events := htrace
  rw [hevents, ho]
  simpa [tokens, Image.init, values] using hbal

/-- An operation in the life of a tree. -/
theorem handsHeld_of_run {op : Op} {r : Result} (hx : Options.useExtra config.options = false)
    (hreleases : cb.releases = true)
    (hrun : (operations σ cb).Run (Base.initWithConfig config) h s) (hp : op.Pre s)
    (he : op.exec cb s = .ok (r, s₁)) {h' : List (Op × Result)}
    (hrun' : (operations σ cb).Run s₁ h' s₂) (hdone : Rbtree.done cb s₂ = .ok ((), t)) :
    ∃ during rest, s₁.trace = s.trace ++ during ∧ t.trace = s₁.trace ++ rest ∧
      HandsHeld op s.trace during rest := by
  obtain ⟨m, hm, ho, hcustody⟩ := custody_of_run hx hrun
  obtain ⟨m₁, hperf, hm₁⟩ := (op_represents hm hp).elim he
  have hcounts : Counts cb m.env.options σ id := counts_id (ho ▸ hx)
  obtain ⟨during, htrace, hkeeps, -⟩ := hperf.keeps fun v => hcounts m.env rfl v
  obtain ⟨m₂, hm₂, ho₂, events, htrace₂, hbal, -⟩ :=
    run_balance (hperf.options_eq ▸ hcounts) hm₁ hrun'
  have ht := (hm₂.done hreleases).elim hdone
  refine ⟨during, events ++ Rbtree.releaseEvents m₂.env.options m₂.tree, ?_, ?_, ?_⟩
  · rw [hm₁.trace_eq, htrace, hm.trace_eq]
  · rw [ht, htrace₂, List.append_assoc]
  · refine handsHeld_of_keeps hcustody hkeeps ?_
    rw [hperf.options_eq, Multiset.map_id, Multiset.map_id] at hbal
    rw [retained_append, released_append, retained_releaseEvents, released_releaseEvents, add_zero,
      hbal, ho₂, hperf.options_eq, tokens, Multiset.map_id]

/-- The life of a tree from `_mulle_rbtree_init_with_config` to `mulle_rbtree_done`: in payload mode
values are in custody while they are stored, and then released; in extra mode the calls balance. -/
theorem ownership_of_run (config : Config) (cb : Callbacks) (hreleases : cb.releases = true)
    (hrun : (operations σ cb).Run (Base.initWithConfig config) h s) :
    ∃ t, Rbtree.done cb s = .ok ((), t) ∧
      (Options.useExtra config.options = false →
        (∃ ns, InOrder s ns ∧
          retained s.trace = released s.trace + (ns.map (valueAt s) : Multiset VoidPtr)) ∧
        released t.trace = retained t.trace ∧
        ∀ h₁ op r h₂ s₁ s₂, h = h₁ ++ (op, r) :: h₂ →
          (operations σ cb).Run (Base.initWithConfig config) h₁ s₁ → op.Pre s₁ →
          op.exec cb s₁ = .ok (r, s₂) → (operations σ cb).Run s₂ h₂ s →
          ∃ during rest, s₂.trace = s₁.trace ++ during ∧ t.trace = s₂.trace ++ rest ∧
            HandsHeld op s₁.trace during rest) ∧
      (Options.useExtra config.options = true →
        (released t.trace).card = (retained t.trace).card ∧
        (retained t.trace).card = rejections h + additions h ∧
        (released s.trace).card = rejections h + removals h) := by
  have hinit : Represents (Base.initWithConfig config : Base σ) (.init config) :=
    ⟨shows_init config, sound_init config⟩
  -- the balance of the whole run, counting in units
  have hunit : Counts cb (Image.init config : Image σ).env.options σ fun _ => () := fun _ _ _ => rfl
  obtain ⟨m, hm, ho, events, htrace, hbal, hcard, hnum⟩ := run_balance hunit hinit hrun
  obtain ⟨_, t, hdone, ht⟩ := hm.done hreleases
  refine ⟨t, hdone, fun hx => ?_, fun hx => ?_⟩
  · obtain ⟨m', hm', -, hcustody⟩ := custody_of_run hx hrun
    obtain ⟨⟨z, hr⟩, -⟩ := id hm'
    have ht' := (hm'.done hreleases).elim hdone
    rw [tokens, Multiset.map_id] at hcustody
    refine ⟨⟨_, hr.inOrder, ?_⟩, ?_, fun h₁ op r h₂ s₁ s₂ _ hrun₁ hp he hrun₂ =>
      handsHeld_of_run hx hreleases hrun₁ hp he hrun₂ hdone⟩
    · rw [hr.map_valueAt, ← values_eq, hcustody]
    · rw [ht', released_append, retained_append, released_releaseEvents, retained_releaseEvents,
        add_zero, hcustody]
  · have hevents : s.trace = events := htrace
    have hunits := congrArg Multiset.card hbal
    rw [Multiset.card_add, Multiset.card_add, Multiset.card_map, Multiset.card_map, card_tokens,
      card_tokens, ← hevents] at hunits
    have hreleased : (released t.trace).card = (released s.trace).card + m.tree.numNodes := by
      rw [ht, released_append, released_releaseEvents, Multiset.card_add, Multiset.coe_card,
        values_eq, List.length_map, length_inorder]
    have hretained : retained t.trace = retained s.trace := by
      rw [ht, retained_append, retained_releaseEvents, add_zero]
    have hnil : (Image.init config : Image σ).tree.numNodes = 0 := rfl
    rw [hevents] at hunits hreleased hretained ⊢
    rw [hretained]
    omega

/-- Three values are added, one of them again, and then it is removed, in payload mode and in extra
mode. -/
theorem ownership_of_run_five : ∃ s t s' t' : Base SlotPool, InOrder s [.slot 0, .slot 2] ∧
    Rbtree.done lengthCallbacks s = .ok ((), t) ∧
    retained s.trace = released s.trace + ([ofLength 0, ofLength 4] : Multiset VoidPtr) ∧
    released t.trace = retained t.trace ∧ InOrder s' [.slot 0, .slot 2] ∧
    Rbtree.done firstByteCallbacks s' = .ok ((), t') ∧ (released t'.trace).card = 1 + 3 ∧
    (retained t'.trace).card = 1 + 3 ∧ (released s'.trace).card = 1 + 1 := by
  obtain ⟨s, hrun, hin, hvalues⟩ := exists_five
  obtain ⟨s', hrun', ⟨m, hm⟩, hnodes⟩ := exists_run_of_operations (σ := SlotPool) ⟨0, 0x2#32, 0⟩
    firstByteCallbacks (fiveOps (ofByte 1) (ofByte 2) (ofByte 3)) fiveResults nodesOf
    [.slot 0, .slot 2] (by decide +kernel)
  obtain ⟨t, hdone, hpayload, -⟩ := ownership_of_run _ lengthCallbacks rfl hrun
  obtain ⟨⟨ns, hns, hcustody⟩, hbalance, -⟩ := hpayload (by decide)
  obtain rfl := hns.unique hin
  rw [hvalues] at hcustody
  obtain ⟨t', hdone', -, hextra⟩ := ownership_of_run _ firstByteCallbacks rfl hrun'
  obtain ⟨hreleased, hretained, hbefore⟩ := hextra (by decide)
  exact ⟨s, t, s', t', hin, hdone, hcustody, hbalance, hnodes ▸ hm.inOrder, hdone',
    hreleased.trans hretained, hretained, hbefore⟩

end Lives

end MulleRbtree
