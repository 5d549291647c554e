import Mathlib.Data.List.Basic
import Mathlib.Logic.Relation

/-!
Machines that run programs of bytes. An instruction is fetched from the rest of the code at the place of execution. It leaves
its registers and goes on behind itself, jumps back by some bytes, or stops.

A triple says what a list of instructions does to the registers wherever its bytes stand in a code: if it is entered at its
begin with `P`, it is left at its end with `Q`. There is one rule for each way to build a program: nothing, one instruction,
one part after the other, a part many times, and a part with a jump back at its end.
-/

namespace GfpDrivers.Lib

/-- Where execution goes on. -/
inductive Next where
  | following
  | back (n : ℕ)
  | stop
deriving DecidableEq

structure Bytecode (β I R : Type) where
  bytes : I → List β
  fetch : List β → Option I
  exec : I → R → Option (Next × R)

namespace Bytecode

variable {β I R : Type} (m : Bytecode β I R)

/-- The bytes of a program. -/
def code (is : List I) : List β := is.flatMap m.bytes

/-- One instruction, from a place in the code. -/
def step (bs : List β) (c : ℕ × R) : Option (ℕ × R) :=
  (m.fetch (bs.drop c.1)).bind fun i => (m.exec i c.2).bind fun
    | (.following, r) => some (c.1 + (m.bytes i).length, r)
    | (.back n, r) => if n ≤ c.1 then some (c.1 - n, r) else none
    | (.stop, _) => none

def Reaches (bs : List β) : ℕ × R → ℕ × R → Prop := Relation.ReflTransGen fun c c' => m.step bs c = some c'

/-- The code runs from `r` to an instruction that stops, which leaves `r'`. -/
def Ends (bs : List β) (r r' : R) : Prop :=
  ∃ pc i r'', m.Reaches bs (0, r) (pc, r'') ∧ m.fetch (bs.drop pc) = some i ∧ m.exec i r'' = some (.stop, r')

/-- The instruction is fetched from its bytes, whatever follows them. -/
def Coded (i : I) : Prop := ∀ rest, m.fetch (m.bytes i ++ rest) = some i

/-- Wherever the program stands, it leads from `P` to `Q`. -/
def Triple (is : List I) (P Q : R → Prop) : Prop :=
  ∀ before after r, P r → ∃ r', Q r' ∧
    m.Reaches (before ++ m.code is ++ after) (before.length, r) (before.length + (m.code is).length, r')

variable {m} {is is' : List I} {i : I} {P P' Q Q' S : R → Prop}

theorem code_append : m.code (is ++ is') = m.code is ++ m.code is' := List.flatMap_append

theorem code_singleton : m.code [i] = m.bytes i := List.append_nil _

theorem Triple.mono (h : m.Triple is P Q) (hP : ∀ r, P' r → P r) (hQ : ∀ r, Q r → Q' r) : m.Triple is P' Q' := by
  intro before after r hr
  obtain ⟨r', hq, hreach⟩ := h before after r (hP r hr)
  exact ⟨r', hQ r' hq, hreach⟩

theorem Triple.nil (h : ∀ r, P r → Q r) : m.Triple [] P Q := fun _ _ r hr => ⟨r, h r hr, .refl⟩

theorem Triple.append (h : m.Triple is P Q) (h' : m.Triple is' Q S) : m.Triple (is ++ is') P S := by
  intro before after r hr
  obtain ⟨r', hq, hreach⟩ := h before (m.code is' ++ after) r hr
  obtain ⟨r'', hs, hreach'⟩ := h' (before ++ m.code is) after r' hq
  refine ⟨r'', hs, ?_⟩
  rw [List.length_append] at hreach'
  rw [code_append, List.length_append]
  simp only [← List.append_assoc] at hreach ⊢
  rw [← Nat.add_assoc]
  exact hreach.trans hreach'

/-- The instruction at a place in a code. -/
theorem fetch_at (hi : m.Coded i) (before after : List β) :
    m.fetch ((before ++ m.bytes i ++ after).drop before.length) = some i := by
  rw [List.append_assoc, List.drop_left]
  exact hi after

theorem Triple.single (hi : m.Coded i) (h : ∀ r, P r → ∃ r', m.exec i r = some (.following, r') ∧ Q r') :
    m.Triple [i] P Q := by
  intro before after r hr
  obtain ⟨r', hexec, hq⟩ := h r hr
  refine ⟨r', hq, .single ?_⟩
  rw [code_singleton, step, fetch_at hi, Option.bind_some, hexec]
  rfl

/-- A program many times, with a fact for each of them. -/
theorem Triple.times {F : ℕ → R → Prop} (n : ℕ) (h : ∀ k < n, m.Triple is (F k) (F (k + 1))) :
    m.Triple (List.replicate n is).flatten (F 0) (F n) := by
  induction n generalizing F with
  | zero => exact .nil fun _ h => h
  | succ n ih =>
    rw [List.replicate_succ, List.flatten_cons]
    exact (h 0 n.succ_pos).append (ih (F := fun k => F (k + 1)) fun k hk => h (k + 1) (Nat.succ_lt_succ hk))

/-- A part that is entered with `F k` when there are `k` jumps back left, and after which `i` jumps back to its begin `k`
times. -/
theorem Triple.loop {F G : ℕ → R → Prop} (hi : m.Coded i) (hbody : ∀ k, m.Triple is (F k) (G k))
    (hback : ∀ k r, G (k + 1) r → ∃ r', m.exec i r = some (.back (m.code is).length, r') ∧ F k r')
    (hout : ∀ r, G 0 r → ∃ r', m.exec i r = some (.following, r') ∧ Q r') (k : ℕ) :
    m.Triple (is ++ [i]) (F k) Q := by
  induction k with
  | zero => exact (hbody 0).append (.single hi hout)
  | succ k ih =>
    intro before after r hr
    obtain ⟨r₁, hg, hreach₁⟩ := hbody (k + 1) before (m.code [i] ++ after) r hr
    obtain ⟨r₂, hexec, hf⟩ := hback k r₁ hg
    obtain ⟨r₃, hq, hreach₃⟩ := ih before after r₂ hf
    have hjump : m.step (before ++ m.code (is ++ [i]) ++ after) (before.length + (m.code is).length, r₁) =
        some (before.length, r₂) := by
      have hfetch := fetch_at hi (before ++ m.code is) after
      rw [List.length_append] at hfetch
      rw [code_append, code_singleton, ← List.append_assoc before, step, hfetch, Option.bind_some, hexec, Option.bind_some]
      dsimp only
      rw [if_pos (Nat.le_add_left _ _), Nat.add_sub_cancel]
    rw [← List.append_assoc, List.append_assoc before, ← code_append] at hreach₁
    exact ⟨r₃, hq, hreach₁.trans (.trans (.single hjump) hreach₃)⟩

/-- A program with a stop behind it runs to the stop. -/
theorem Triple.ends (h : m.Triple is P Q) (hi : m.Coded i) (hstop : ∀ r, m.exec i r = some (.stop, r)) {r : R} (hr : P r)
    {after : List β} : ∃ r', m.Ends (m.code (is ++ [i]) ++ after) r r' ∧ Q r' := by
  obtain ⟨r', hq, hreach⟩ := h [] (m.code [i] ++ after) r hr
  refine ⟨r', ⟨(m.code is).length, i, r', ?_, ?_, hstop r'⟩, hq⟩
  · rw [code_append, List.append_assoc]
    simpa using hreach
  · rw [code_append, code_singleton]
    exact fetch_at hi (m.code is) after

end Bytecode

end GfpDrivers.Lib
