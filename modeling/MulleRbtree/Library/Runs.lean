import MulleRbtree.Library.Program

/-!
# Runs of an interface

An interface is a family of calls, each with a precondition and a program.  A run is a sequence of
calls whose preconditions hold, with their answers.

* `Run.keeps`: what every call keeps holds after every run;
* `Interface.sum`: two interfaces to one state;
* `Run.simulate`: where every call has its counterpart in an abstract system, so has every run;
* `Steps.keeps`: the same for runs of the abstract system;
* `Run.lockstep`: two runs side by side, call by call;
* `Thins`, `Run.thins`: a run from which some calls are left out;
* `Run.unique`, `Steps.unique`: the calls determine the run, where they determine each step;
* `Steps.skip`: calls that change nothing may be left out;
* `Run.allowed`: the same run of an interface that allows these calls as well;
* `run_embeds_iff`, `run_stays_iff`: runs on states with those of another interface inside, and on a
  state that no call changes;
* `follow`: calls carried out one after the other, each after a check; where the checks are sound,
  the result is a run, `exists_run_of_follow`;
* `states`: the states that a run leads through; `Run.expense_le`: what a run costs, with a
  potential.
-/

namespace Program

variable {σ ε C A M : Type}

/-- The calls of an interface. -/
structure Interface (σ ε C A : Type) where
  Pre : C → σ → Prop
  exec : C → StateT σ (Except ε) A

/-- Runs of an abstract system, with the calls and the answers. -/
inductive Steps (step : M → C → A → M → Prop) : M → List (C × A) → M → Prop
  | nil (m : M) : Steps step m [] m
  | cons {m m' m'' : M} {c : C} {a : A} {h : List (C × A)} :
      step m c a m' → Steps step m' h m'' → Steps step m ((c, a) :: h) m''

/-- An invariant of the steps is an invariant of the runs. -/
theorem Steps.keeps {step : M → C → A → M → Prop} {I : M → Prop}
    (hstep : ∀ m c a m', I m → step m c a m' → I m') {m m' : M} {h : List (C × A)}
    (hrun : Steps step m h m') (hm : I m) : I m' := by
  induction hrun with
  | nil => exact hm
  | cons hs _ ih => exact ih (hstep _ _ _ _ hm hs)

/-- Steps of a deterministic system that are taken by the same calls are the same steps. -/
theorem Steps.unique {step : M → C → A → M → Prop}
    (hdet : ∀ m c a a' m₁ m₂, step m c a m₁ → step m c a' m₂ → a = a' ∧ m₁ = m₂)
    {m m₁ m₂ : M} {h k : List (C × A)} (h₁ : Steps step m h m₁) (h₂ : Steps step m k m₂)
    (hcalls : h.map Prod.fst = k.map Prod.fst) : h = k ∧ m₁ = m₂ := by
  induction h₁ generalizing k with
  | nil =>
    obtain rfl : k = [] := List.map_eq_nil_iff.1 hcalls.symm
    cases h₂
    exact ⟨rfl, rfl⟩
  | cons hs _ ih =>
    cases h₂ with
    | nil => simp at hcalls
    | cons hs' h₂ =>
      obtain ⟨rfl, hrest⟩ := List.cons.inj hcalls
      obtain ⟨rfl, rfl⟩ := hdet _ _ _ _ _ _ hs hs'
      obtain ⟨rfl, rfl⟩ := ih h₂ hrest
      exact ⟨rfl, rfl⟩

/-- Calls that change nothing may be left out. -/
theorem Steps.skip {step : M → C → A → M → Prop} {keep : C → Bool}
    (hskip : ∀ m c a m', keep c = false → step m c a m' → m' = m) {m m' : M} {h : List (C × A)}
    (hrun : Steps step m h m') :
    Steps (fun m c a m' => keep c = true ∧ step m c a m') m (h.filter fun p => keep p.1) m' := by
  induction hrun with
  | nil m => exact .nil m
  | @cons m m' m'' c a h hs _ ih =>
    cases hc : keep c with
    | true =>
      have hfilter : ((c, a) :: h).filter (fun p => keep p.1) =
          (c, a) :: h.filter fun p => keep p.1 := List.filter_cons_of_pos hc
      rw [hfilter]
      exact .cons ⟨hc, hs⟩ ih
    | false =>
      obtain rfl := hskip _ _ _ _ hc hs
      have hfilter : ((c, a) :: h).filter (fun p => keep p.1) = h.filter fun p => keep p.1 :=
        List.filter_cons_of_neg (by simp [hc])
      rw [hfilter]
      exact ih

/-- From the calls `cs` some of those that may be dropped are left out, and `ds` remain. -/
inductive Thins (may : C → Prop) : List C → List C → Prop
  | nil : Thins may [] []
  | keep {cs ds : List C} (c : C) : Thins may cs ds → Thins may (c :: cs) (c :: ds)
  | drop {cs ds : List C} {c : C} : may c → Thins may cs ds → Thins may (c :: cs) ds

theorem Thins.filter_eq {may : C → Prop} {keep : C → Bool} (hkeep : ∀ c, may c → keep c = false)
    {cs ds : List C} (h : Thins may cs ds) : ds.filter keep = cs.filter keep := by
  induction h with
  | nil => rfl
  | keep c _ ih => rw [List.filter_cons, List.filter_cons, ih]
  | drop hc _ ih => rw [List.filter_cons, hkeep _ hc, ih]; rfl

namespace Interface

variable (S : Interface σ ε C A)

/-- Runs, with the calls and the answers. -/
inductive Run : σ → List (C × A) → σ → Prop
  | nil (s : σ) : Run s [] s
  | cons {s s' t : σ} {c : C} {a : A} {h : List (C × A)} :
      S.Pre c s → S.exec c s = .ok (a, s') → Run s' h t → Run s ((c, a) :: h) t

variable {S}

theorem Run.append {s t u : σ} {h k : List (C × A)} (h₁ : S.Run s h t) (h₂ : S.Run t k u) :
    S.Run s (h ++ k) u := by
  induction h₁ with
  | nil => exact h₂
  | cons hp he _ ih => exact .cons hp he (ih h₂)

/-- Calls that another interface with the same effects allows as well. -/
theorem Run.allowed {s t : σ} {h : List (C × A)} (hrun : S.Run s h t) (S' : Interface σ ε C A)
    (hexec : S'.exec = S.exec) (hpre : ∀ p ∈ h, ∀ s, S.Pre p.1 s → S'.Pre p.1 s) : S'.Run s h t := by
  induction hrun with
  | nil => exact .nil _
  | cons hp he _ ih =>
    exact .cons (hpre _ List.mem_cons_self _ hp) (hexec ▸ he) (ih fun p hp => hpre p (.tail _ hp))

/-- Runs on states that have those of another interface inside. -/
theorem run_embeds_iff {τ : Type} {S' : Interface τ ε C A} {f : σ → τ}
    (hexec : ∀ c, Embeds f (S.exec c) (S'.exec c)) (hpre : ∀ c s, S'.Pre c (f s) ↔ S.Pre c s) {s : σ}
    {t : τ} {h : List (C × A)} : S'.Run (f s) h t ↔ ∃ s', t = f s' ∧ S.Run s h s' := by
  constructor
  · intro hrun
    generalize hx : f s = x at hrun
    induction hrun generalizing s with
    | nil => exact ⟨s, hx.symm, .nil s⟩
    | @cons _ _ _ c _ _ hp he _ ih =>
      subst hx
      obtain ⟨s', he', rfl⟩ := (hexec c).exists_of_eq he
      obtain ⟨s'', ht, hrest⟩ := ih rfl
      exact ⟨s'', ht, .cons ((hpre c s).1 hp) he' hrest⟩
  · rintro ⟨s', rfl, hrun⟩
    induction hrun with
    | nil => exact .nil _
    | cons hp he _ ih =>
      refine .cons ((hpre _ _).2 hp) ?_ ih
      rw [hexec, he]
      rfl

/-- Runs on a state that no call changes. -/
theorem run_stays_iff {s t : σ} {reply : C → A} (hpre : ∀ c, S.Pre c s)
    (hexec : ∀ c, S.exec c s = .ok (reply c, s)) {h : List (C × A)} :
    S.Run s h t ↔ t = s ∧ ∀ p ∈ h, p.2 = reply p.1 := by
  constructor
  · intro hrun
    induction hrun with
    | nil => exact ⟨rfl, nofun⟩
    | cons hp he _ ih =>
      rw [hexec] at he
      cases he
      obtain ⟨rfl, hrest⟩ := ih hpre hexec
      exact ⟨rfl, List.forall_mem_cons.2 ⟨rfl, hrest⟩⟩
  · rintro ⟨rfl, hreply⟩
    induction h with
    | nil => exact .nil _
    | cons p h ih =>
      obtain ⟨hp, hrest⟩ := List.forall_mem_cons.1 hreply
      exact .cons (hpre p.1) (by rw [hp, hexec]) (ih hrest)

/-- The calls determine where a run ends. -/
theorem Run.unique {s t t' : σ} {h : List (C × A)} (h₁ : S.Run s h t) (h₂ : S.Run s h t') :
    t = t' := by
  induction h₁ with
  | nil => cases h₂; rfl
  | cons _ he _ ih =>
    cases h₂ with
    | cons _ he' h₂ =>
      rw [he] at he'
      cases he'
      exact ih h₂

/-- What every call keeps, every run keeps. -/
theorem Run.keeps {I : σ → Prop}
    (hstep : ∀ c s, I s → S.Pre c s → Ensures (S.exec c) s fun _ s' => I s')
    {s t : σ} {h : List (C × A)} (hrun : S.Run s h t) (hs : I s) : I t := by
  induction hrun with
  | nil => exact hs
  | cons hp he _ ih => exact ih ((hstep _ _ hs hp).elim he)

/-- What every call makes of an abstract state, a run makes of it. -/
theorem Run.foldl {Rep : σ → M → Prop} {f : M → C × A → M}
    (hstep : ∀ c s m, Rep s m → S.Pre c s → Ensures (S.exec c) s fun a s' => Rep s' (f m (c, a)))
    {s t : σ} {m : M} {h : List (C × A)} (hrun : S.Run s h t) (hs : Rep s m) :
    Rep t (h.foldl f m) := by
  induction hrun generalizing m with
  | nil => exact hs
  | cons hp he _ ih => exact ih ((hstep _ _ _ hs hp).elim he)

/-- A run is simulated call by call. -/
theorem Run.simulate {Rep : σ → M → Prop} {step : M → C → A → M → Prop}
    (hstep : ∀ c s m, Rep s m → S.Pre c s →
      Ensures (S.exec c) s fun a s' => ∃ m', step m c a m' ∧ Rep s' m')
    {s t : σ} {m : M} {h : List (C × A)} (hrun : S.Run s h t) (hs : Rep s m) :
    ∃ m', Steps step m h m' ∧ Rep t m' := by
  induction hrun generalizing m with
  | nil => exact ⟨m, .nil m, hs⟩
  | cons hp he _ ih =>
    obtain ⟨m', hm, hr⟩ := (hstep _ _ _ hs hp).elim he
    obtain ⟨m'', hm', ht⟩ := ih hr
    exact ⟨m'', .cons hm hm', ht⟩

/-- Two runs go in lockstep: calls that correspond have answers that correspond, and keep the states
related. -/
theorem Run.lockstep {σ' C' A' : Type} {S' : Interface σ' ε C' A'} {R : σ → σ' → Prop}
    {P : C → C' → Prop} {Q : A → A' → Prop}
    (hstep : ∀ c c' s s', R s s' → P c c' → S.Pre c s → S'.Pre c' s' →
      Ensures (S.exec c) s fun a t => Ensures (S'.exec c') s' fun a' t' => Q a a' ∧ R t t')
    {s t : σ} {s' t' : σ'} {h : List (C × A)} {k : List (C' × A')} (hs : S.Run s h t)
    (hs' : S'.Run s' k t') (hcalls : List.Forall₂ (fun p q => P p.1 q.1) h k) (hR : R s s') :
    List.Forall₂ (fun p q => Q p.2 q.2) h k ∧ R t t' := by
  induction hs generalizing s' k with
  | nil =>
    cases hcalls
    cases hs'
    exact ⟨.nil, hR⟩
  | cons hp he _ ih =>
    cases hcalls with
    | cons hc hcalls =>
      cases hs' with
      | cons hp' he' hs' =>
        obtain ⟨hQ, hR'⟩ := ((hstep _ _ _ _ hR hc hp hp').elim he).elim he'
        obtain ⟨hrest, hT⟩ := ih hs' hcalls hR'
        exact ⟨.cons hQ hrest, hT⟩

/-- A run from which calls are left out: what is kept in step call by call, and does not mind the
calls that are left out, is kept. -/
theorem Run.thins {σ' : Type} {S' : Interface σ' ε C A} {R : σ → σ' → Prop} {may : C → Prop}
    (hpre : ∀ c s s', R s s' → S.Pre c s → S'.Pre c s')
    (hkeep : ∀ c s s', R s s' → S.Pre c s → S'.Pre c s' →
      Ensures (S.exec c) s fun _ t => Ensures (S'.exec c) s' fun _ t' => R t t')
    (hdrop : ∀ c s s', may c → R s s' → S.Pre c s → Ensures (S.exec c) s fun _ t => R t s')
    {s t : σ} {s' : σ'} {h : List (C × A)} {ds : List C} (hrun : S.Run s h t)
    (hcalls : Thins may (h.map Prod.fst) ds) (hR : R s s') :
    ∃ k t', k.map Prod.fst = ds ∧ S'.Run s' k t' ∧ R t t' := by
  induction hrun generalizing s' ds with
  | nil s =>
    cases hcalls
    exact ⟨[], s', rfl, .nil s', hR⟩
  | @cons s s₁ t c a h hp he _ ih =>
    rw [List.map_cons] at hcalls
    cases hcalls with
    | keep _ hcalls =>
      have hp' := hpre c s s' hR hp
      obtain ⟨a', s₁', he', hR'⟩ := (hkeep c s s' hR hp hp').elim he
      obtain ⟨k, t', rfl, hrun', hT⟩ := ih hcalls hR'
      exact ⟨(c, a') :: k, t', rfl, .cons hp' he' hrun', hT⟩
    | drop hc hcalls => exact ih hcalls ((hdrop c s s' hc hR hp).elim he)

/-! ### Calls carried out -/

/-- The calls one after the other, each of which must first pass the check `ok`: their answers, and
the state to which they lead. -/
def follow (S : Interface σ ε C A) (ok : C → σ → Bool) : List C → σ → Option (List A × σ)
  | [], s => some ([], s)
  | c :: cs, s =>
    if ok c s then
      match S.exec c s with
      | .ok (a, s') => (S.follow ok cs s').map (Prod.map (a :: ·) id)
      | .error _ => none
    else none

theorem run_of_follow {ok : C → σ → Bool} {I : σ → Prop}
    (hok : ∀ c s, I s → ok c s = true → S.Pre c s)
    (hstep : ∀ c s, I s → S.Pre c s → Ensures (S.exec c) s fun _ s' => I s') {s t : σ} {cs : List C}
    {as : List A} (hs : I s) (h : S.follow ok cs s = some (as, t)) : S.Run s (cs.zip as) t ∧ I t := by
  induction cs generalizing s as with
  | nil =>
    cases h
    exact ⟨.nil _, hs⟩
  | cons c cs ih =>
    rw [follow] at h
    split_ifs at h with hc
    · split at h
      · rename_i a s' he
        obtain ⟨⟨as', t'⟩, h', heq⟩ := Option.map_eq_some_iff.1 h
        cases heq
        have hp := hok c s hs hc
        obtain ⟨hrun, ht⟩ := ih ((hstep c s hs hp).elim he) h'
        exact ⟨.cons hp he hrun, ht⟩
      · cases h

/-- A run, with what `f` reads off the state it leads to; the hypothesis can be decided. -/
theorem exists_run_of_follow {ok : C → σ → Bool} {I : σ → Prop}
    (hok : ∀ c s, I s → ok c s = true → S.Pre c s)
    (hstep : ∀ c s, I s → S.Pre c s → Ensures (S.exec c) s fun _ s' => I s') {s : σ} {cs : List C}
    {as : List A} {β : Type} {f : σ → β} {b : β} (hs : I s)
    (h : (S.follow ok cs s).map (Prod.map id f) = some (as, b)) :
    ∃ t, S.Run s (cs.zip as) t ∧ I t ∧ f t = b := by
  obtain ⟨⟨as', t⟩, h', heq⟩ := Option.map_eq_some_iff.1 h
  cases heq
  obtain ⟨hrun, ht⟩ := run_of_follow hok hstep hs h'
  exact ⟨t, hrun, ht, rfl⟩

/-! ### The states of a run -/

section States

variable (S)

/-- The states that calls lead through. -/
def states : σ → List C → List σ
  | s, [] => [s]
  | s, c :: cs => s :: match S.exec c s with
    | .ok (_, s') => states s' cs
    | .error _ => []

theorem states_cons {s s' : σ} {c : C} {r : A} (he : S.exec c s = .ok (r, s')) (cs : List C) :
    S.states s (c :: cs) = s :: S.states s' cs := by
  rw [states, he]

theorem exists_states (s : σ) (cs : List C) : ∃ rest, S.states s cs = s :: rest := by
  cases cs with
  | nil => exact ⟨[], rfl⟩
  | cons c cs => exact ⟨_, rfl⟩

theorem mem_states (s : σ) (cs : List C) : s ∈ S.states s cs := by
  obtain ⟨rest, e⟩ := S.exists_states s cs
  rw [e]
  exact List.mem_cons_self

end States

/-- What a run costs, if a step from `s` to `s'` costs `price s s'`. -/
def expense (price : σ → σ → ℕ) : List σ → ℕ
  | s :: s' :: rest => price s s' + expense price (s' :: rest)
  | _ => 0

/-- Where the fees of the calls pay for the steps, with the help of credit that earlier calls have
left, they pay for the run. -/
theorem Run.expense_le {Rep : σ → M → Prop} {credit : M → ℕ} {price : σ → σ → ℕ} {fee : C × A → ℕ}
    (hstep : ∀ c s m, Rep s m → S.Pre c s → Ensures (S.exec c) s fun a s' => ∃ m', Rep s' m' ∧
      price s s' + credit m' ≤ credit m + fee (c, a))
    {s t : σ} {m : M} {h : List (C × A)} (hrun : S.Run s h t) (hs : Rep s m) :
    ∃ m', Rep t m' ∧ expense price (S.states s (h.map Prod.fst)) + credit m' ≤
      credit m + (h.map fee).sum := by
  induction hrun generalizing m with
  | nil s => exact ⟨m, hs, by simp [states, expense]⟩
  | @cons s s' t c a h hp he _ ih =>
    obtain ⟨m', hs', hprice⟩ := (hstep c s m hs hp).elim he
    obtain ⟨m'', ht, hrest⟩ := ih hs'
    have hstates : expense price (S.states s (((c, a) :: h).map Prod.fst)) =
        price s s' + expense price (S.states s' (h.map Prod.fst)) := by
      rw [List.map_cons, S.states_cons he]
      obtain ⟨rest, e⟩ := S.exists_states s' (h.map Prod.fst)
      rw [e]
      rfl
    refine ⟨m'', ht, ?_⟩
    rw [hstates, List.map_cons, List.sum_cons]
    omega

/-! ### Two interfaces to one state -/

/-- The calls of both. -/
def sum {C' A' : Type} (S : Interface σ ε C A) (S' : Interface σ ε C' A') :
    Interface σ ε (C ⊕ C') (A ⊕ A') where
  Pre c s := c.elim (S.Pre · s) (S'.Pre · s)
  exec
    | .inl c => Sum.inl <$> S.exec c
    | .inr c => Sum.inr <$> S'.exec c

/-- A run of the first is a run of both. -/
theorem Run.inl {C' A' : Type} {S' : Interface σ ε C' A'} {s t : σ} {h : List (C × A)}
    (hrun : S.Run s h t) : (S.sum S').Run s (h.map fun p => (.inl p.1, .inl p.2)) t := by
  induction hrun with
  | nil s => exact .nil s
  | @cons s s' _ c a _ hp he _ ih =>
    have hmap : (S.sum S').exec (.inl c) = S.exec c >>= fun a => pure (Sum.inl a) :=
      (bind_pure_comp _ _).symm
    exact .cons (c := .inl c) hp (by rw [hmap, bind_eq he]; rfl) ih

/-- A run of the second is a run of both. -/
theorem Run.inr {C' A' : Type} {S' : Interface σ ε C' A'} {s t : σ} {h : List (C' × A')}
    (hrun : S'.Run s h t) : (S.sum S').Run s (h.map fun p => (.inr p.1, .inr p.2)) t := by
  induction hrun with
  | nil s => exact .nil s
  | @cons s s' _ c a _ hp he _ ih =>
    have hmap : (S.sum S').exec (.inr c) = S'.exec c >>= fun a => pure (Sum.inr a) :=
      (bind_pure_comp _ _).symm
    exact .cons (c := .inr c) hp (by rw [hmap, bind_eq he]; rfl) ih

/-- What the calls of both keep, the calls of the sum keep. -/
theorem sum_ensures {C' A' : Type} {S' : Interface σ ε C' A'} {I : σ → Prop}
    (h : ∀ c s, I s → S.Pre c s → Ensures (S.exec c) s fun _ s' => I s')
    (h' : ∀ c s, I s → S'.Pre c s → Ensures (S'.exec c) s fun _ s' => I s')
    (c : C ⊕ C') (s : σ) (hs : I s) (hp : (S.sum S').Pre c s) :
    Ensures ((S.sum S').exec c) s fun _ s' => I s' := by
  cases c with
  | inl c => exact Ensures.map (h c s hs hp)
  | inr c => exact Ensures.map (h' c s hs hp)

end Interface
end Program
