import MulleRbtree.Library.Program

/-!
# Loops that count their rounds

`countRounds` is the loop `iterate` with one more thing in its answer, the number of rounds after
which it has gone on.  Apart from that it is the same loop: `fst_countRounds`.
-/

namespace Program

variable {σ ε α β : Type}

/-- `iterate`, with the number of rounds after which it has gone on. -/
def countRounds (exhausted : ε) (step : α → StateT σ (Except ε) (α ⊕ β)) :
    ℕ → α → StateT σ (Except ε) (β × ℕ)
  | 0, _ => throw exhausted
  | n + 1, a => step a >>= fun r =>
    r.elim (fun a' => Prod.map id (· + 1) <$> countRounds exhausted step n a')
      fun b => Pure.pure (b, 0)

/-- What is added to a count does not touch the answer. -/
theorem fst_map_count {σ ε β : Type} (f : ℕ → ℕ) (m : StateT σ (Except ε) (β × ℕ)) :
    Prod.fst <$> (Prod.map id f <$> m : StateT σ (Except ε) (β × ℕ)) = Prod.fst <$> m := by
  rw [← comp_map]
  rfl

theorem map_count_eq {σ ε β : Type} (f : ℕ → ℕ) {m : StateT σ (Except ε) (β × ℕ)} {s s' : σ} {b : β}
    {k : ℕ} (h : m s = .ok ((b, k), s')) :
    (Prod.map id f <$> m : StateT σ (Except ε) (β × ℕ)) s = .ok ((b, f k), s') := map_eq _ h

section Rules

variable {exhausted : ε} {step : α → StateT σ (Except ε) (α ⊕ β)}

theorem fst_countRounds (n : ℕ) (a : α) :
    Prod.fst <$> countRounds exhausted step n a = iterate exhausted step n a := by
  induction n generalizing a with
  | zero => rfl
  | succ n ih =>
    rw [countRounds, iterate, map_bind]
    congr 1
    funext r
    cases r with
    | inl a' =>
      rw [Sum.elim_inl, Sum.elim_inl, ← ih a', fst_map_count]
    | inr b => rfl

theorem Ensures.countRounds_succ {n : ℕ} {a : α} {s : σ} {Q : β × ℕ → σ → Prop}
    (h : Ensures (step a) s fun r s' =>
      r.elim (fun a' => Ensures (countRounds exhausted step n a') s' fun p => Q (p.1, p.2 + 1))
        (fun b => Q (b, 0) s')) :
    Ensures (countRounds exhausted step (n + 1) a) s Q := by
  refine h.bind ?_
  rintro (a' | b) s' hr
  · exact .map hr
  · exact .pure hr

end Rules

end Program
