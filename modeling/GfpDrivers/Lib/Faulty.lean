import GfpDrivers.Lib.Traced

/-!
Programs with a trace whose steps may fail. Which of them fail is given by a stream of error codes, from which every
step takes one; a step returns the negative of its code.

There is one judgement, `Holds`: what the events and the result satisfy for every stream of codes, and what the result
satisfies besides if nothing fails.
-/

namespace GfpDrivers.Lib

/-- The codes of the steps to come, 0 for a step that does not fail. -/
abbrev Errs := ℕ → ℕ

abbrev Faulty (ε α : Type) := StateT Errs (Traced ε) α

namespace Faulty

variable {ε α β : Type} {x : Faulty ε α} {f : α → Faulty ε β} {e : ε} {a : α} {errs : Errs} {P P' : ε → Prop}
  {Q Q' S S' : α → Prop} {R R' : β → Prop}

/-- A step. -/
def silent : Faulty ε ℤ := fun errs => pure (-(errs 0 : ℤ), fun n => errs (n + 1))

/-- A step with an event, which it leaves also when it fails. -/
def step (e : ε) : Faulty ε ℤ := fun errs => do
  Traced.emit e
  silent errs

/-- There are no rounds left. -/
def unfinished : Faulty ε α := fun _ => Traced.unfinished

/-- Nothing fails any more. -/
def Quiet (errs : Errs) : Prop := ∀ n, errs n = 0

/-- The program ends, its events satisfy `P` and its result satisfies `Q`, and `Q'` if nothing fails. -/
def Holds (P : ε → Prop) (Q Q' : α → Prop) (x : Faulty ε α) : Prop :=
  ∀ errs, (x errs).Total P fun r => Q r.1 ∧ (Quiet errs → Q' r.1 ∧ Quiet r.2)

theorem bind_apply : (x >>= f) errs = x errs >>= fun r => f r.1 r.2 := rfl

theorem Holds.pure (h : Q a) (h' : Q' a) : Holds P Q Q' (Pure.pure a : Faulty ε α) :=
  fun _ => .pure ⟨h, fun hq => ⟨h', hq⟩⟩

theorem Holds.silent : Holds P (· ≤ 0) (· = 0) (Faulty.silent : Faulty ε ℤ) := by
  refine fun errs => .pure ⟨?_, fun hq => ⟨?_, fun n => hq (n + 1)⟩⟩
  · exact Int.neg_nonpos_of_nonneg (Int.natCast_nonneg _)
  · dsimp only
    rw [hq 0]
    rfl

theorem Holds.step (he : P e) : Holds P (· ≤ 0) (· = 0) (Faulty.step e) :=
  fun errs => .bind (Q := fun _ => True) (.emit he trivial) fun _ _ => Holds.silent errs

theorem Holds.bind (hx : Holds P Q Q' x) (hf : ∀ a, Q a → Holds P R (fun b => Q' a → R' b) (f a)) :
    Holds P R R' (x >>= f) := by
  intro errs
  refine .bind (hx errs) fun r hr => (hf r.1 hr.1 r.2).mono fun b hb => ⟨hb.1, fun hq => ?_⟩
  obtain ⟨hq', hquiet⟩ := hr.2 hq
  obtain ⟨hr', hquiet'⟩ := hb.2 hquiet
  exact ⟨hr' hq', hquiet'⟩

theorem Holds.mono (hx : Holds P Q Q' x) (h : ∀ a, Q a → S a) (h' : ∀ a, Q a → Q' a → S' a) : Holds P S S' x :=
  fun errs => (hx errs).mono fun _ hr => ⟨h _ hr.1, fun hq => ⟨h' _ hr.1 (hr.2 hq).1, (hr.2 hq).2⟩⟩

theorem Holds.events (hx : Holds P Q Q' x) (h : ∀ e, P e → P' e) : Holds P' Q Q' x :=
  fun errs => ⟨fun e he => h e ((hx errs).1 e he), (hx errs).2⟩

theorem Holds.total (hx : Holds P Q Q' x) (errs : Errs) : (x errs).Total P fun r => Q r.1 :=
  (hx errs).mono fun _ h => h.1

/-- The result of a run. -/
theorem Holds.of_result {r : α × Errs} (hx : Holds P Q Q' x) (hr : r ∈ (x errs).result) :
    Q r.1 ∧ (Quiet errs → Q' r.1 ∧ Quiet r.2) := by
  obtain ⟨-, r', hr', h⟩ := hx errs
  obtain rfl : r' = r := Option.some.inj (hr'.symm.trans hr)
  exact h

end Faulty

end GfpDrivers.Lib
