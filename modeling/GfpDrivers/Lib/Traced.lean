import Mathlib.Algebra.BigOperators.Group.List.Basic

/-!
Programs that leave a trace of events and may not end. A program is the events so far and its
result, if there is one; a loop that is given too few rounds has none, and its trace is the
beginning of the trace that it has with more of them.

Three judgements are enough for what is proved about traces: `AllEvents`, which a program satisfies
event by event, `Ends`, which relates the result to the whole trace, and `Total`, which says that there is a result.
Each has one rule for each construct.
-/

namespace GfpDrivers.Lib

structure Traced (ε α : Type) where
  trace : List ε
  result : Option α

namespace Traced

variable {ε α β : Type} {x : Traced ε α} {f : α → Traced ε β} {e : ε} {a : α} {b : β} {P P' : ε → Prop}
  {Q Q' : α → List ε → Prop} {R : β → List ε → Prop}

/-- One event. -/
def emit (e : ε) : Traced ε Unit := ⟨[e], some ()⟩

/-- There are no rounds left. -/
def unfinished : Traced ε α := ⟨[], none⟩

instance : Monad (Traced ε) where
  pure a := ⟨[], some a⟩
  bind x f :=
    match x.result with
    | none => ⟨x.trace, none⟩
    | some a => ⟨x.trace ++ (f a).trace, (f a).result⟩

@[simp] theorem trace_pure : (pure a : Traced ε α).trace = [] := rfl

@[simp] theorem result_pure : (pure a : Traced ε α).result = some a := rfl

@[simp] theorem trace_emit : (emit e).trace = [e] := rfl

@[simp] theorem result_emit : (emit e).result = some () := rfl

@[simp] theorem trace_unfinished : (unfinished : Traced ε α).trace = [] := rfl

@[simp] theorem result_unfinished : (unfinished : Traced ε α).result = none := rfl

@[simp] theorem result_bind : (x >>= f).result = x.result.bind fun a => (f a).result := by
  obtain ⟨trace, result⟩ := x
  cases result <;> rfl

theorem bind_of_result (h : x.result = some a) : x >>= f = ⟨x.trace ++ (f a).trace, (f a).result⟩ := by
  obtain ⟨trace, result⟩ := x
  obtain rfl : result = some a := h
  rfl

theorem bind_of_unfinished (h : x.result = none) : x >>= f = ⟨x.trace, none⟩ := by
  obtain ⟨trace, result⟩ := x
  obtain rfl : result = none := h
  rfl

theorem trace_bind (h : x.result = some a) : (x >>= f).trace = x.trace ++ (f a).trace := by
  rw [bind_of_result h]

@[simp] theorem trace_emit_bind {f : Unit → Traced ε β} : (emit e >>= f).trace = e :: (f ()).trace :=
  trace_bind rfl

@[simp] theorem pure_bind {f : α → Traced ε β} : (pure a >>= f) = f a := by
  rw [bind_of_result rfl]
  rfl

/-- The events of the first part are events of the whole. -/
theorem mem_trace_bind (h : e ∈ x.trace) : e ∈ (x >>= f).trace := by
  obtain ⟨trace, result⟩ := x
  cases result with
  | none => exact h
  | some a => exact List.mem_append_left _ h

theorem mem_trace_bind_of_result (hx : x.result = some a) (h : e ∈ (f a).trace) : e ∈ (x >>= f).trace := by
  rw [trace_bind hx]
  exact List.mem_append_right _ h

/-! ### All events -/

/-- The events that the program leaves satisfy `P`, whether it ends or not. -/
def AllEvents (P : ε → Prop) (x : Traced ε α) : Prop := ∀ e ∈ x.trace, P e

theorem AllEvents.pure : AllEvents P (Pure.pure a : Traced ε α) := fun _ he => absurd he List.not_mem_nil

theorem AllEvents.unfinished : AllEvents P (Traced.unfinished : Traced ε α) := fun _ he => absurd he List.not_mem_nil

theorem AllEvents.emit (h : P e) : AllEvents P (Traced.emit e) := fun _ he => List.mem_singleton.mp he ▸ h

theorem AllEvents.bind (hx : AllEvents P x) (hf : ∀ a ∈ x.result, AllEvents P (f a)) : AllEvents P (x >>= f) := by
  obtain ⟨trace, result⟩ := x
  cases result with
  | none => exact hx
  | some a => exact List.forall_mem_append.mpr ⟨hx, hf a rfl⟩

theorem allEvents_bind_iff : AllEvents P (x >>= f) ↔ AllEvents P x ∧ ∀ a ∈ x.result, AllEvents P (f a) :=
  ⟨fun h => ⟨fun e he => h e (mem_trace_bind he), fun _ ha e he => h e (mem_trace_bind_of_result ha he)⟩,
    fun h => h.1.bind h.2⟩

/-! ### The end -/

/-- If the program ends with `a`, then `Q a` holds of its trace. -/
def Ends (Q : α → List ε → Prop) (x : Traced ε α) : Prop := ∀ a ∈ x.result, Q a x.trace

theorem Ends.pure (h : Q a []) : Ends Q (Pure.pure a : Traced ε α) := fun _ ha => Option.some.inj ha ▸ h

theorem Ends.unfinished : Ends Q (Traced.unfinished : Traced ε α) := fun _ ha => nomatch ha

theorem Ends.emit {Q : Unit → List ε → Prop} (h : Q () [e]) : Ends Q (Traced.emit e) := fun _ _ => h

theorem Ends.mono (hx : Ends Q x) (h : ∀ a es, Q a es → Q' a es) : Ends Q' x := fun a ha => h a _ (hx a ha)

/-- What is known of the result may be used. -/
theorem Ends.with_result (hx : Ends Q x) : Ends (fun a es => a ∈ x.result ∧ Q a es) x := fun a ha => ⟨ha, hx a ha⟩

theorem Ends.bind (hx : Ends Q x) (hf : ∀ a es, Q a es → Ends (fun b es' => R b (es ++ es')) (f a)) : Ends R (x >>= f) := by
  intro b hb
  obtain ⟨a, ha, hb⟩ := Option.bind_eq_some_iff.mp (result_bind.symm.trans hb)
  rw [trace_bind ha]
  exact hf a x.trace (hx a ha) b hb

/-! ### Runs to the end -/

/-- The events satisfy `P`, and the program ends with a result that satisfies `Q`. -/
def Total (P : ε → Prop) (Q : α → Prop) (x : Traced ε α) : Prop := AllEvents P x ∧ ∃ a ∈ x.result, Q a

section Total

variable {Q Q' : α → Prop} {R : β → Prop}

theorem Total.pure (h : Q a) : Total P Q (Pure.pure a : Traced ε α) := ⟨.pure, a, rfl, h⟩

theorem Total.emit {Q : Unit → Prop} (he : P e) (h : Q ()) : Total P Q (Traced.emit e) := ⟨.emit he, (), rfl, h⟩

theorem Total.mono (hx : Total P Q x) (h : ∀ a, Q a → Q' a) : Total P Q' x := by
  obtain ⟨hall, a, ha, hq⟩ := hx
  exact ⟨hall, a, ha, h a hq⟩

theorem Total.bind (hx : Total P Q x) (hf : ∀ a, Q a → Total P R (f a)) : Total P R (x >>= f) := by
  obtain ⟨hall, a, ha, hq⟩ := hx
  obtain ⟨hall', b, hb, hr⟩ := hf a hq
  rw [Option.mem_def] at ha hb
  refine ⟨hall.bind fun a' ha' => ?_, b, ?_, hr⟩
  · obtain rfl : a = a' := Option.some.inj (ha.symm.trans ha')
    exact hall'
  · rw [Option.mem_def, bind_of_result ha]
    exact hb

end Total

/-! ### Sums over the trace -/

section Weight

variable {M : Type} [AddMonoid M] (w : ε → M)

/-- The sum of the weights of some events. -/
def weight (es : List ε) : M := (es.map w).sum

@[simp] theorem weight_nil : weight w [] = 0 := rfl

@[simp] theorem weight_cons (es : List ε) : weight w (e :: es) = w e + weight w es := by simp [weight]

@[simp] theorem weight_append (es es' : List ε) : weight w (es ++ es') = weight w es + weight w es' := by
  simp [weight]

end Weight

end Traced

/-- The cells of a loop with one more round. -/
theorem forall_lt_succ_shift {P : ℕ → Prop} {n i : ℕ} : (∀ j < n + 1, P (i + j)) ↔ P i ∧ ∀ j < n, P (i + 1 + j) := by
  rw [Nat.forall_lt_succ_left]
  simp only [Nat.add_zero, Nat.add_assoc, Nat.add_comm 1]

end GfpDrivers.Lib
