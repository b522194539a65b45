import Mathlib.Tactic

/-!
# Programs over a state that may fail and that loop

A program is a term of `StateT σ (Except ε) α`: it reads and changes a state `σ` and either
returns or stops with a fault `ε`.

* `Ensures m s Q`: started in `s`, `m` returns (it neither faults nor runs out of iterations) and
  `Q` holds of the result and the final state.  This is total correctness;
* the rules `Ensures.bind`, `Ensures.bind_eq`, `Ensures.pure`, `Ensures.mono`, …;
* `Guarantees R m`: wherever `m` is started, what it leaves behind is related to the start by `R`,
  with a rule for each way to build a program;
* `Embeds f m m'`: `m'` does what `m` does, on states that have one of `m` inside;
* `Restricts m m'`: `m` does what `m'` does unless it faults, with the same rules;
* `Continues R m' m`: `m` does what `m'` does and then goes on;
* `iterate`: a loop with a bound on the iterations, exhausting the bound being a fault, with the
  unfolding rule `Ensures.iterate_succ` and the rule `Ensures.iterate_list` for a loop that goes
  through a list.
-/

namespace Program

variable {σ ε α β : Type}

/-- `m` started in `s` returns normally, with `Q` of the result and the state left behind. -/
def Ensures (m : StateT σ (Except ε) α) (s : σ) (Q : α → σ → Prop) : Prop :=
  ∃ a s', m s = .ok (a, s') ∧ Q a s'

theorem Ensures.of_eq {m : StateT σ (Except ε) α} {s s' : σ} {a : α} {Q : α → σ → Prop}
    (h : m s = .ok (a, s')) (hQ : Q a s') : Ensures m s Q := ⟨a, s', h, hQ⟩

/-- Only the outcome in `s` counts. -/
theorem Ensures.congr {m m' : StateT σ (Except ε) α} {s : σ} {Q : α → σ → Prop}
    (h : Ensures m' s Q) (e : m s = m' s) : Ensures m s Q := by
  obtain ⟨a, s', e', hQ⟩ := h
  exact ⟨a, s', e.trans e', hQ⟩

theorem Ensures.mono {m : StateT σ (Except ε) α} {s : σ} {P Q : α → σ → Prop}
    (h : Ensures m s P) (hPQ : ∀ a s', P a s' → Q a s') : Ensures m s Q := by
  obtain ⟨a, s', e, hP⟩ := h
  exact ⟨a, s', e, hPQ a s' hP⟩

/-- What a program ensures holds of its outcome. -/
theorem Ensures.elim {m : StateT σ (Except ε) α} {s s' : σ} {a : α} {Q : α → σ → Prop}
    (h : Ensures m s Q) (e : m s = .ok (a, s')) : Q a s' := by
  obtain ⟨a', s'', e', hQ⟩ := h
  rw [e] at e'
  cases e'
  exact hQ

/-- A known outcome. -/
theorem Ensures.eq {m : StateT σ (Except ε) α} {s t : σ} {a : α}
    (h : Ensures m s fun a' s' => a' = a ∧ s' = t) : m s = .ok (a, t) := by
  obtain ⟨_, _, e, rfl, rfl⟩ := h
  exact e

theorem Ensures.pure {a : α} {s : σ} {Q : α → σ → Prop} (h : Q a s) :
    Ensures (pure a : StateT σ (Except ε) α) s Q := ⟨a, s, rfl, h⟩

theorem bind_eq {m : StateT σ (Except ε) α} {f : α → StateT σ (Except ε) β} {s s' : σ} {a : α}
    (h : m s = .ok (a, s')) : (m >>= f) s = f a s' := by
  change (m s >>= fun p => f p.1 p.2) = _
  rw [h]
  rfl

theorem map_eq (f : α → β) {m : StateT σ (Except ε) α} {s s' : σ} {a : α}
    (h : m s = .ok (a, s')) : (f <$> m) s = .ok (f a, s') := by
  rw [← bind_pure_comp, bind_eq h]
  rfl

theorem eq_ok_of_toOption {x : Except ε α} {a : α} (h : x.toOption = some a) : x = .ok a := by
  cases x with
  | ok b => exact congrArg Except.ok (Option.some.inj h)
  | error e => cases h

/-- An outcome of which something is known. -/
theorem exists_of_toOption {x : Except ε α} {f : α → β} {b : β} (h : x.toOption.map f = some b) :
    ∃ a, x = .ok a ∧ f a = b := by
  obtain ⟨a, ha, hb⟩ := Option.map_eq_some_iff.1 h
  exact ⟨a, eq_ok_of_toOption ha, hb⟩

/-- A composition that returns. -/
theorem exists_of_bind_eq {m : StateT σ (Except ε) α} {f : α → StateT σ (Except ε) β}
    {s s'' : σ} {b : β} (h : (m >>= f) s = .ok (b, s'')) :
    ∃ a s', m s = .ok (a, s') ∧ f a s' = .ok (b, s'') := by
  cases hr : m s with
  | error e =>
    have hfail : (m >>= f) s = .error e := by
      change (m s >>= fun p => f p.1 p.2) = _
      rw [hr]
      rfl
    rw [hfail] at h
    cases h
  | ok p =>
    rw [bind_eq hr] at h
    exact ⟨p.1, p.2, rfl, h⟩

theorem Ensures.bind {m : StateT σ (Except ε) α} {f : α → StateT σ (Except ε) β} {s : σ}
    {P : α → σ → Prop} {Q : β → σ → Prop} (h : Ensures m s P)
    (hf : ∀ a s', P a s' → Ensures (f a) s' Q) : Ensures (m >>= f) s Q := by
  obtain ⟨a, s', e, hP⟩ := h
  obtain ⟨b, s'', e', hQ⟩ := hf a s' hP
  exact ⟨b, s'', by rw [bind_eq e, e'], hQ⟩

/-- A first step whose outcome is known. -/
theorem Ensures.bind_eq {m : StateT σ (Except ε) α} {f : α → StateT σ (Except ε) β} {s s' : σ}
    {a : α} {Q : β → σ → Prop} (h : m s = .ok (a, s')) (hf : Ensures (f a) s' Q) :
    Ensures (m >>= f) s Q := by
  obtain ⟨b, s'', e, hQ⟩ := hf
  exact ⟨b, s'', by rw [Program.bind_eq h, e], hQ⟩

theorem Ensures.map {m : StateT σ (Except ε) α} {s : σ} {f : α → β} {Q : β → σ → Prop}
    (h : Ensures m s fun a s' => Q (f a) s') : Ensures (f <$> m) s Q := by
  obtain ⟨a, s', e, hQ⟩ := h
  exact ⟨f a, s', map_eq f e, hQ⟩

/-! ### Bounded loops -/

/-- Repeat `step` until it answers `.inr`, at most `n` times; `exhausted` stands for a loop that
goes on. -/
def iterate (exhausted : ε) (step : α → StateT σ (Except ε) (α ⊕ β)) :
    ℕ → α → StateT σ (Except ε) β
  | 0, _ => throw exhausted
  | n + 1, a => step a >>= fun r => r.elim (iterate exhausted step n) Pure.pure

section Loops

variable {exhausted : ε} {step : α → StateT σ (Except ε) (α ⊕ β)}

theorem Ensures.iterate_succ {n : ℕ} {a : α} {s : σ} {Q : β → σ → Prop}
    (h : Ensures (step a) s fun r s' =>
      r.elim (fun a' => Ensures (iterate exhausted step n a') s' Q) (fun b => Q b s')) :
    Ensures (iterate exhausted step (n + 1) a) s Q := by
  refine h.bind ?_
  rintro (a' | b) s' hr
  · exact hr
  · exact .pure hr

/-- A loop that goes through a list; `I u v` holds between the elements `u` it has seen and the
elements `v` to come. -/
theorem Ensures.iterate_list {γ : Type} {L : List γ} {I : List γ → List γ → α → σ → Prop}
    {Q : β → σ → Prop}
    (hnext : ∀ u x v a s, L = u ++ x :: v → I u (x :: v) a s → Ensures (step a) s fun r s' =>
      ∃ a', r = .inl a' ∧ I (u ++ [x]) v a' s')
    (hend : ∀ a s, I L [] a s → Ensures (step a) s fun r s' => ∃ b, r = .inr b ∧ Q b s')
    {u v : List γ} (hL : L = u ++ v) {n : ℕ} (hn : v.length < n) {a : α} {s : σ}
    (hI : I u v a s) : Ensures (iterate exhausted step n a) s Q := by
  induction v generalizing u n a s with
  | nil =>
    obtain ⟨n, rfl⟩ : ∃ m, n = m + 1 := ⟨n - 1, by simp at hn; omega⟩
    rw [List.append_nil] at hL
    subst hL
    refine .iterate_succ ((hend a s hI).mono ?_)
    rintro _ s' ⟨b, rfl, hQ⟩
    exact hQ
  | cons x v ih =>
    obtain ⟨n, rfl⟩ : ∃ m, n = m + 1 := ⟨n - 1, by omega⟩
    refine .iterate_succ ((hnext u x v a s hL hI).mono ?_)
    rintro _ s' ⟨a', rfl, hI'⟩
    exact ih (by rw [hL, List.append_assoc]; rfl) (by simpa using hn) hI'

end Loops

/-! ### Guarantees -/

/-- Wherever `m` is started, what it leaves behind is related to the start by `R`. -/
def Guarantees (R : σ → σ → Prop) (m : StateT σ (Except ε) α) : Prop :=
  ∀ s a s', m s = .ok (a, s') → R s s'

namespace Guarantees

variable {R : σ → σ → Prop}

theorem pure [Std.Refl R] (a : α) : Guarantees R (Pure.pure a : StateT σ (Except ε) α) := by
  intro s b s' h
  cases h
  exact refl_of R s

theorem throw (e : ε) : Guarantees R (throw e : StateT σ (Except ε) α) := by
  intro s b s' h
  cases h

theorem bind [IsTrans σ R] {m : StateT σ (Except ε) α} {f : α → StateT σ (Except ε) β}
    (hm : Guarantees R m) (hf : ∀ a, Guarantees R (f a)) : Guarantees R (m >>= f) := by
  intro s b s'' h
  obtain ⟨a, s', hm', hf'⟩ := exists_of_bind_eq h
  exact trans_of R (hm s a s' hm') (hf a s' b s'' hf')

theorem ite {c : Prop} [Decidable c] {m m' : StateT σ (Except ε) α} (hm : c → Guarantees R m)
    (hm' : ¬ c → Guarantees R m') : Guarantees R (if c then m else m') := by
  split_ifs with hc
  · exact hm hc
  · exact hm' hc

theorem iterate [Std.Refl R] [IsTrans σ R] {exhausted : ε}
    {step : α → StateT σ (Except ε) (α ⊕ β)} (h : ∀ a, Guarantees R (step a)) (n : ℕ) (a : α) :
    Guarantees R (iterate exhausted step n a) := by
  induction n generalizing a with
  | zero => exact throw exhausted
  | succ n ih =>
    refine (h a).bind fun r => ?_
    cases r with
    | inl a' => exact ih a'
    | inr b => exact pure b

end Guarantees

/-! ### Embeddings -/

/-- `m'` does on states of the form `f s` what `m` does on `s`. -/
def Embeds {τ : Type} (f : σ → τ) (m : StateT σ (Except ε) α) (m' : StateT τ (Except ε) α) : Prop :=
  ∀ s, m' (f s) = (m s).map (Prod.map id f)

namespace Embeds

variable {τ α' : Type} {f : σ → τ}

theorem eq_ok {m : StateT σ (Except ε) α} {m' : StateT τ (Except ε) α} (h : Embeds f m m')
    {s s' : σ} {a : α} (e : m s = .ok (a, s')) : m' (f s) = .ok (a, f s') := by
  rw [h s, e]
  rfl

theorem exists_of_eq {m : StateT σ (Except ε) α} {m' : StateT τ (Except ε) α} (h : Embeds f m m')
    {s : σ} {t : τ} {a : α} (e : m' (f s) = .ok (a, t)) : ∃ s', m s = .ok (a, s') ∧ t = f s' := by
  rw [h s] at e
  cases hm : m s with
  | error e' =>
    rw [hm] at e
    cases e
  | ok p =>
    rw [hm] at e
    cases e
    exact ⟨p.2, rfl, rfl⟩

theorem pure (a : α) : Embeds f (Pure.pure a : StateT σ (Except ε) α) (Pure.pure a) := fun _ => rfl

/-- A first step whose answer `g` changes. -/
theorem bind_map {m : StateT σ (Except ε) α} {m' : StateT τ (Except ε) α'} {g : α → α'}
    {k : α → StateT σ (Except ε) β} {k' : α' → StateT τ (Except ε) β} (hm : Embeds f (g <$> m) m')
    (hk : ∀ a, Embeds f (k a) (k' (g a))) : Embeds f (m >>= k) (m' >>= k') := by
  intro s
  have hstep : m' (f s) = (m s >>= fun p => .ok (g p.1, p.2)).map (Prod.map id f) := by
    rw [hm s, ← bind_pure_comp]
    rfl
  change (m' (f s) >>= fun p => k' p.1 p.2) = (m s >>= fun p => k p.1 p.2).map (Prod.map id f)
  rw [hstep]
  cases m s with
  | error e => rfl
  | ok p => exact hk p.1 p.2

theorem bind {m : StateT σ (Except ε) α} {m' : StateT τ (Except ε) α}
    {k : α → StateT σ (Except ε) β} {k' : α → StateT τ (Except ε) β} (hm : Embeds f m m')
    (hk : ∀ a, Embeds f (k a) (k' a)) : Embeds f (m >>= k) (m' >>= k') :=
  bind_map (g := id) (by rwa [id_map]) hk

/-- A loop; `g` does the same to its variables. -/
theorem iterate {exhausted : ε} {step : α → StateT σ (Except ε) (α ⊕ β)}
    {step' : α' → StateT τ (Except ε) (α' ⊕ β)} {g : α → α'}
    (h : ∀ a, Embeds f (Sum.map g id <$> step a) (step' (g a))) (n : ℕ) (a : α) :
    Embeds f (iterate exhausted step n a) (iterate exhausted step' n (g a)) := by
  induction n generalizing a with
  | zero => exact fun _ => rfl
  | succ n ih =>
    refine (h a).bind_map fun r => ?_
    cases r with
    | inl a' => exact ih a'
    | inr b => exact pure b

end Embeds

/-! ### Restrictions -/

/-- Wherever `m` is started, it does what `m'` does or stops with a fault. -/
def Restricts (m m' : StateT σ (Except ε) α) : Prop := ∀ s, m s = m' s ∨ ∃ e, m s = .error e

namespace Restricts

theorem refl (m : StateT σ (Except ε) α) : Restricts m m := fun _ => .inl rfl

/-- If the restriction returns, so does the program itself, with the same outcome. -/
theorem eq_of_ok {m m' : StateT σ (Except ε) α} (h : Restricts m m') {s s' : σ} {a : α}
    (hm : m s = .ok (a, s')) : m' s = .ok (a, s') := by
  rcases h s with he | ⟨e, he⟩
  · rw [← he, hm]
  · rw [he] at hm
    cases hm

theorem bind {m m' : StateT σ (Except ε) α} {f f' : α → StateT σ (Except ε) β}
    (hm : Restricts m m') (hf : ∀ a, Restricts (f a) (f' a)) : Restricts (m >>= f) (m' >>= f') := by
  intro s
  rcases hm s with he | ⟨e, he⟩
  · cases hr : m' s with
    | error e =>
      right
      refine ⟨e, ?_⟩
      change (m s >>= fun p => f p.1 p.2) = _
      rw [he, hr]
      rfl
    | ok p =>
      rw [bind_eq (he.trans hr), bind_eq hr]
      exact hf p.1 p.2
  · right
    refine ⟨e, ?_⟩
    change (m s >>= fun p => f p.1 p.2) = _
    rw [he]
    rfl

theorem throw (e : ε) (m : StateT σ (Except ε) α) :
    Restricts (MonadExcept.throw e : StateT σ (Except ε) α) m := fun _ => .inr ⟨e, rfl⟩

/-- A test in front, which changes nothing. -/
theorem observe {m : StateT σ (Except ε) β} {f : β → StateT σ (Except ε) α}
    {m' : StateT σ (Except ε) α} (hm : Guarantees Eq m) (hf : ∀ b, Restricts (f b) m') :
    Restricts (m >>= f) m' := by
  intro s
  cases hr : m s with
  | error e =>
    right
    refine ⟨e, ?_⟩
    change (m s >>= fun p => f p.1 p.2) = _
    rw [hr]
    rfl
  | ok p =>
    obtain ⟨b, s'⟩ := p
    obtain rfl := hm s b s' hr
    rw [bind_eq hr]
    exact hf b s

theorem ite {c : Prop} [Decidable c] {m₁ m₁' m₂ m₂' : StateT σ (Except ε) α}
    (h₁ : Restricts m₁ m₁') (h₂ : Restricts m₂ m₂') :
    Restricts (if c then m₁ else m₂) (if c then m₁' else m₂') := by
  split_ifs
  · exact h₁
  · exact h₂

theorem iterate {exhausted : ε} {step step' : α → StateT σ (Except ε) (α ⊕ β)}
    (h : ∀ a, Restricts (step a) (step' a)) (n : ℕ) (a : α) :
    Restricts (iterate exhausted step n a) (iterate exhausted step' n a) := by
  induction n generalizing a with
  | zero => exact refl _
  | succ n ih =>
    refine (h a).bind fun r => ?_
    cases r with
    | inl a' => exact ih a'
    | inr b => exact refl _

end Restricts

/-! ### Programs that go on -/

/-- Wherever `m` returns, `m'` returns the same, and `R` relates what `m'` leaves behind to what `m`
does. -/
def Continues (R : σ → σ → Prop) (m' m : StateT σ (Except ε) α) : Prop :=
  ∀ s a t, m s = .ok (a, t) → ∃ s', m' s = .ok (a, s') ∧ R s' t

namespace Continues

variable {R : σ → σ → Prop}

theorem refl [Std.Refl R] (m : StateT σ (Except ε) α) : Continues R m m :=
  fun _ _ t h => ⟨t, h, refl_of R t⟩

/-- After the same beginning. -/
theorem bind {m : StateT σ (Except ε) β} {f f' : β → StateT σ (Except ε) α}
    (h : ∀ b, Continues R (f' b) (f b)) : Continues R (m >>= f') (m >>= f) := by
  intro s a t ht
  obtain ⟨b, s₁, hm, hf⟩ := exists_of_bind_eq ht
  obtain ⟨s', hf', hR⟩ := h b s₁ a t hf
  exact ⟨s', (bind_eq hm).trans hf', hR⟩

theorem ite {c : Prop} [Decidable c] {m m' n n' : StateT σ (Except ε) α} (h : Continues R m' m)
    (hn : Continues R n' n) : Continues R (if c then m' else n') (if c then m else n) := by
  split_ifs
  · exact h
  · exact hn

/-- Before the same answer. -/
theorem answer {m m' : StateT σ (Except ε) α} (h : Continues R m' m) (b : β) :
    Continues R (m' >>= fun _ => pure b) (m >>= fun _ => pure b) := by
  intro s a t ht
  obtain ⟨c, t', hm, hp⟩ := exists_of_bind_eq ht
  obtain ⟨rfl, rfl⟩ : b = a ∧ t' = t := by
    cases hp
    exact ⟨rfl, rfl⟩
  obtain ⟨s', hm', hR⟩ := h s c t' hm
  exact ⟨s', bind_eq hm', hR⟩

end Continues

end Program
