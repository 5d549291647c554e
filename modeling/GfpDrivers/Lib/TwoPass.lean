import GfpDrivers.Lib.Traced

/-!
Generators of code that run twice: a dry run that only counts the cells, and a run that writes them. A generator is given
the place where its code begins and returns the number of cells. Generators are put behind each other, and a later one may
depend on the size of the one before.

What a generator is to do is a list of cells (`Emits`): both runs return its length, and only the second one writes, each
cell at its place.
-/

namespace GfpDrivers.Lib

open Traced

/-- A generator, by the kind of run and the place in the buffer. The writes are its events. -/
structure Generator (β : Type) where
  run : Bool → ℕ → Traced (ℕ × β) ℕ

/-- The writes of some cells from a place on. -/
def placed {β : Type} (pos : ℕ) : List β → List (ℕ × β)
  | [] => []
  | b :: bs => (pos, b) :: placed (pos + 1) bs

namespace Generator

variable {β : Type} {g g' : Generator β} {f : ℕ → Generator β} {c c' : List β} {dryRun : Bool} {pos : ℕ}

/-- The cells themselves, which a dry run does not write. -/
def emit (cells : List β) : Generator β where
  run dryRun pos := if dryRun then pure cells.length else ⟨placed pos cells, some cells.length⟩

/-- Nothing is generated. -/
def nop : Generator β := ⟨fun _ _ => pure 0⟩

/-- The second generator begins where the first one ends, and is given the size of the first one. -/
def andThen (g : Generator β) (f : ℕ → Generator β) : Generator β where
  run dryRun pos := do
    let off ← g.run dryRun pos
    let off' ← (f off).run dryRun (pos + off)
    pure (off + off')

instance : Append (Generator β) := ⟨fun g g' => g.andThen fun _ => g'⟩

/-- The same generator `n` times. -/
def times (g : Generator β) : ℕ → Generator β
  | 0 => nop
  | n + 1 => g ++ times g n

/-- The generator writes `c`. -/
def Emits (g : Generator β) (c : List β) : Prop := ∀ dryRun pos, g.run dryRun pos = (emit c).run dryRun pos

theorem placed_append : placed pos (c ++ c') = placed pos c ++ placed (pos + c.length) c' := by
  induction c generalizing pos with
  | nil => rfl
  | cons b c ih =>
    rw [List.cons_append, placed, ih, placed, List.cons_append, List.length_cons, Nat.add_assoc, Nat.add_comm 1]

theorem run_emit_true : (emit c).run true pos = pure c.length := rfl

theorem run_emit_false : (emit c).run false pos = ⟨placed pos c, some c.length⟩ := rfl

theorem emits_emit : Emits (emit c) c := fun _ _ => rfl

theorem emits_nop : Emits (nop : Generator β) [] := by
  rintro (_ | _) pos <;> rfl

theorem Emits.andThen (h : Emits g c) (h' : Emits (f c.length) c') : Emits (g.andThen f) (c ++ c') := by
  intro dryRun pos
  dsimp only [Generator.andThen]
  rw [h]
  cases dryRun with
  | true =>
    rw [run_emit_true, pure_bind, h', run_emit_true, pure_bind, run_emit_true, List.length_append]
  | false =>
    rw [run_emit_false, bind_of_result rfl, h', run_emit_false, bind_of_result rfl, run_emit_false, placed_append,
      List.length_append, trace_pure, List.append_nil, result_pure]

theorem Emits.append (h : Emits g c) (h' : Emits g' c') : Emits (g ++ g') (c ++ c') := Emits.andThen h h'

theorem Emits.times (h : Emits g c) (n : ℕ) : Emits (g.times n) (List.replicate n c).flatten := by
  induction n with
  | zero => exact emits_nop
  | succ n ih =>
    rw [List.replicate_succ, List.flatten_cons]
    exact h.append ih

/-! ### What follows from it -/

/-- Both runs return the same size. -/
theorem Emits.result (h : Emits g c) (dryRun : Bool) (pos : ℕ) : (g.run dryRun pos).result = some c.length := by
  rw [h]
  cases dryRun <;> rfl

theorem Emits.run_true (h : Emits g c) (pos : ℕ) : g.run true pos = pure c.length := h true pos

theorem Emits.trace (h : Emits g c) (pos : ℕ) : (g.run false pos).trace = placed pos c := by
  rw [h]
  rfl

theorem mem_placed {b : β} {cs : List β} {i : ℕ} : (i, b) ∈ placed pos cs ↔ pos ≤ i ∧ cs[i - pos]? = some b := by
  induction cs generalizing pos with
  | nil => simp [placed]
  | cons x cs ih =>
    rw [placed, List.mem_cons, ih, Prod.mk.injEq]
    constructor
    · rintro (⟨rfl, rfl⟩ | ⟨hle, hget⟩)
      · simp
      · refine ⟨by omega, ?_⟩
        rwa [show i - pos = i - (pos + 1) + 1 by omega, List.getElem?_cons_succ]
    · rintro ⟨hle, hget⟩
      obtain rfl | hlt := Nat.eq_or_lt_of_le hle
      · rw [Nat.sub_self, List.getElem?_cons_zero] at hget
        exact .inl ⟨rfl, (Option.some.inj hget).symm⟩
      · refine .inr ⟨hlt, ?_⟩
        rwa [show i - pos = i - (pos + 1) + 1 by omega, List.getElem?_cons_succ] at hget

/-- The second run writes only as many cells as the size says. -/
theorem Emits.write_lt (h : Emits g c) : AllEvents (fun e : ℕ × β => pos ≤ e.1 ∧ e.1 < pos + c.length) (g.run dryRun pos) := by
  cases dryRun with
  | true =>
    rw [h.run_true]
    exact .pure
  | false =>
    rintro ⟨i, b⟩ he
    rw [h.trace, mem_placed] at he
    have := (List.getElem?_eq_some_iff.mp he.2).1
    exact ⟨he.1, by dsimp only; omega⟩

end Generator

end GfpDrivers.Lib
