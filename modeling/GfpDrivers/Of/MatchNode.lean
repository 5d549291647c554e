import GfpDrivers.Lib.CString
import GfpDrivers.Of.Fdt
import GfpDrivers.Of.TreeView
import Mathlib.Data.Prod.Lex
import Mathlib.Order.WithBot

/-!
Matching a node against a table (`__of_device_is_compatible`, `__of_match_node`, `base.c`). Each
entry asks for a compatible string, a type or a name, and the entry with the highest score wins.

The score packs three criteria into one number. They are compared one after the other
(`ofDeviceIsCompatible_lt_iff`), so the winner is the first entry of the highest `rank`.
-/

namespace GfpDrivers.Of

open Lib

/-- `INT_MAX` -/
def INT_MAX : ℤ := 2 ^ 31 - 1

/-- `struct of_device_id`, without the data of the driver. -/
structure OfDeviceId where
  name : CStr
  type : CStr
  compatible : CStr

/-- The entries before the last one ask for something. -/
def OfDeviceId.InUse (m : OfDeviceId) : Prop := m.name.bytes ≠ [] ∨ m.type.bytes ≠ [] ∨ m.compatible.bytes ≠ []

instance : DecidablePred OfDeviceId.InUse := fun _ => inferInstanceAs (Decidable (_ ∨ _ ∨ _))

/-- `of_prop_next_string`. A string is given by its offset in the value. -/
def ofPropNextString (fuel : ℕ) (value : Bytes) (length : ℕ) (cur : ℕ) : Option (Option ℕ) :=
  (strlen fuel fun i => value (cur + i)).map fun len =>
    if cur + (len + 1) ≥ length then none else some (cur + (len + 1))

/-- The loop over the compatible strings, with the score that it leaves. -/
def compatibleLoop (fuel : ℕ) (value : Bytes) (length : ℕ) (compat : CStr) : ℕ → Option ℕ → ℕ → Option ℤ
  | 0, _, _ => none
  | rounds + 1, cp, index =>
      match cp with
      | none => some 0
      | some cp =>
          if strcasecmpEq (fun i => value (cp + i)) compat.bytes then some (INT_MAX / 2 - index * 4)
          else
            (ofPropNextString fuel value length cp).bind fun next =>
              compatibleLoop fuel value length compat rounds next (index + 1)

/-- `__of_node_is_type` -/
def ofNodeIsType (v : TreeView) (np : ℕ) (type : CStr) : Bool :=
  match v.ofGetProperty np "device_type" with
  | none => false
  | some (value, _) => strcmpEq value type.bytes

/-- `of_node_name_eq` -/
def ofNodeNameEq (v : TreeView) (np : ℕ) (name : CStr) : Bool :=
  let nodeName := kbasename (chars (v.fullName np))
  let len := nodeName.length - (strchrnul nodeName '@'.toUInt8).length
  name.bytes.length = len && strncmpEq nodeName name.bytes len

/-- The part of `__of_device_is_compatible` about the compatible string. -/
def compatibleScore (fuel : ℕ) (v : TreeView) (device : ℕ) (compat : CStr) : Option ℤ :=
  match v.ofGetProperty device "compatible" with
  | none => some 0
  | some (value, length) => compatibleLoop fuel value length compat fuel (some 0) 0

/-- `__of_device_is_compatible` -/
def ofDeviceIsCompatible (fuel : ℕ) (v : TreeView) (device : ℕ) (compat type name : CStr) : Option ℤ :=
  (if compat.bytes ≠ [] then compatibleScore fuel v device compat else some 0).map fun score =>
    if compat.bytes ≠ [] ∧ score = 0 then 0
    else if type.bytes ≠ [] ∧ ofNodeIsType v device type = false then 0
    else
      let score := if type.bytes ≠ [] then score + 2 else score
      if name.bytes ≠ [] ∧ ofNodeNameEq v device name = false then 0
      else if name.bytes ≠ [] then score + 1 else score

/-- The loop of `__of_match_node`. The table is an array that ends with an entry not in use. -/
def matchLoop (score : OfDeviceId → Option ℤ) (table : ℕ → OfDeviceId) : ℕ → ℕ → Option ℕ → ℤ → Option (Option ℕ)
  | 0, _, _, _ => none
  | rounds + 1, i, bestMatch, bestScore =>
      if (table i).InUse then
        (score (table i)).bind fun score' =>
          if score' > bestScore then matchLoop score table rounds (i + 1) (some i) score'
          else matchLoop score table rounds (i + 1) bestMatch bestScore
      else some bestMatch

/-- `__of_match_node`, with the index of the entry. -/
def ofMatchNode (fuel : ℕ) (v : TreeView) (table : Option (ℕ → OfDeviceId)) (node : ℕ) : Option (Option ℕ) :=
  match table with
  | none => some none
  | some table =>
      matchLoop (fun m => ofDeviceIsCompatible fuel v node m.compatible m.type m.name) table fuel 0 none 0

/-! ### What a match is -/

/-- The compatible strings of a node. A list that is there is not empty. -/
def CompatibleIs (v : TreeView) (node : ℕ) (strs : List CStr) : Prop :=
  match v.ofGetProperty node "compatible" with
  | none => strs = []
  | some (value, length) =>
      strs ≠ [] ∧ length = (joined strs).length ∧ ∀ i < length, value i = (joined strs).getD i 0

/-- The position of a string in the list of the node. -/
def position (strs : List CStr) (compat : CStr) : Option ℕ :=
  if compat.bytes = [] then none else strs.findIdx? fun s => s.SameLetters compat

/-- All that the entry asks for is true of the node. -/
structure OfDeviceId.Matches (v : TreeView) (node : ℕ) (strs : List CStr) (m : OfDeviceId) : Prop where
  compatible : m.compatible.bytes ≠ [] → ∃ s ∈ strs, s.SameLetters m.compatible
  type : m.type.bytes ≠ [] → ofNodeIsType v node m.type
  name : m.name.bytes ≠ [] → ofNodeNameEq v node m.name

/-- The documented order: an earlier compatible string, then a type, then a name. -/
def OfDeviceId.rank (strs : List CStr) (m : OfDeviceId) : WithBot ℕᵒᵈ ×ₗ Bool ×ₗ Bool :=
  toLex (match position strs m.compatible with
    | none => ⊥
    | some i => (OrderDual.toDual i : ℕᵒᵈ),
  toLex (decide (m.type.bytes ≠ []), decide (m.name.bytes ≠ [])))

variable {v : TreeView} {node off index length fuel rounds : ℕ} {strs : List CStr} {value : Bytes} {compat : CStr}
  {m m' : OfDeviceId}

/-! ### The score of an entry -/

/-- The score of a position. -/
def positionScore : Option ℕ → ℤ
  | none => 0
  | some i => INT_MAX / 2 - i * 4

/-- The score of an entry that matches. -/
def OfDeviceId.score (strs : List CStr) (m : OfDeviceId) : ℤ :=
  positionScore (position strs m.compatible) +
  (if m.type.bytes ≠ [] then 2 else 0) + if m.name.bytes ≠ [] then 1 else 0

theorem intMax_half : INT_MAX / 2 = 2 ^ 30 - 1 := by decide

theorem compatibleLoop_eq (hne : strs ≠ []) (hlen : length = off + (joined strs).length)
    (hvalue : ∀ i < (joined strs).length, value (off + i) = (joined strs).getD i 0)
    (hfuel : (joined strs).length < fuel) (hrounds : strs.length < rounds) :
    compatibleLoop fuel value length compat rounds (some off) index =
      some (positionScore ((strs.findIdx? fun s => s.SameLetters compat).map (index + ·))) := by
  induction strs generalizing off index rounds with
  | nil => exact absurd rfl hne
  | cons s strs ih =>
    obtain ⟨rounds, rfl⟩ := Nat.exists_eq_add_of_le' (Nat.one_le_of_lt hrounds)
    have hstored : StoredAt (fun i => value (off + i)) s.bytes := storedAt_joined hvalue
    have hsize : (joined (s :: strs)).length = s.bytes.length + 1 + (joined strs).length := by
      rw [joined_cons, List.length_append, List.length_cons]
      omega
    have hcmp : strcasecmpEq (fun i => value (off + i)) compat.bytes ↔ s.SameLetters compat :=
      strcasecmpEq_stored hstored s.zero_notMem compat.zero_notMem
    rw [compatibleLoop, List.findIdx?_cons]
    by_cases hsame : s.SameLetters compat
    · simp [hcmp.mpr hsame, hsame, positionScore]
    · have hlen' : strlen fuel (fun i => value (off + i)) = some s.bytes.length :=
        strlen_stored hstored s.zero_notMem (by omega)
      rw [if_neg (fun h => hsame (hcmp.mp h))]
      simp only [ofPropNextString, hlen', Option.map_some, Option.bind_some, hsame, decide_false, Bool.false_eq_true,
        if_false]
      cases strs with
      | nil =>
        have hend : off + (s.bytes.length + 1) ≥ length := by simp [hlen, joined]
        rw [if_pos hend]
        obtain ⟨rounds, rfl⟩ := Nat.exists_eq_add_of_le' (Nat.one_le_of_lt (Nat.lt_of_succ_lt_succ hrounds))
        simp [compatibleLoop, positionScore]
      | cons s' strs =>
        have hpos : 0 < (joined (s' :: strs)).length := by
          rw [joined_cons, List.length_append, List.length_cons]
          omega
        rw [if_neg (by omega)]
        rw [ih (by simp) (by omega) (fun i hi => ?_) (by omega) (by simpa using hrounds)]
        · have hshift : (fun i => index + 1 + i) = (fun i => index + i) ∘ fun i => i + 1 := by
            funext i
            simp only [Function.comp_apply]
            omega
          rw [hshift, Option.map_map]
        · rw [Nat.add_assoc, hvalue _ (by omega), joined_cons s, List.getD_append_right _ _ _ _ (by omega)]
          have hi : s.bytes.length + 1 + i - s.bytes.length = i + 1 := by omega
          rw [hi, List.getD_cons_succ]

theorem compatibleScore_eq (hstrs : CompatibleIs v node strs) (compat : CStr) :
    Returns (fun fuel => compatibleScore fuel v node compat)
      (positionScore (strs.findIdx? fun s => s.SameLetters compat)) := by
  unfold CompatibleIs at hstrs
  unfold compatibleScore
  cases hprop : v.ofGetProperty node "compatible" with
  | none =>
    simp only [hprop] at hstrs
    subst hstrs
    exact ⟨0, fun _ _ => rfl⟩
  | some p =>
    obtain ⟨value, length⟩ := p
    simp only [hprop] at hstrs ⊢
    obtain ⟨hne, hlen, hvalue⟩ := hstrs
    refine ⟨(joined strs).length + strs.length + 1, fun fuel hfuel => ?_⟩
    simp only
    rw [compatibleLoop_eq hne (by omega) (fun i hi => by rw [Nat.zero_add]; exact hvalue i (by omega)) (by omega) (by omega)]
    simp

theorem position_isSome_iff (hne : compat.bytes ≠ []) :
    (∃ i, position strs compat = some i) ↔ ∃ s ∈ strs, s.SameLetters compat := by
  rw [position, if_neg hne, ← Option.isSome_iff_exists, List.findIdx?_isSome, List.any_eq_true]
  simp

theorem position_lt {i : ℕ} (h : position strs compat = some i) : i < strs.length := by
  unfold position at h
  split_ifs at h
  exact (List.findIdx?_eq_some_iff_findIdx_eq.mp h).1

theorem positionScore_pos (hshort : strs.length < 2 ^ 27) {i : ℕ} (h : position strs compat = some i) :
    0 < positionScore (some i) := by
  have hi := position_lt h
  rw [positionScore, intMax_half]
  omega

/-- The score is zero exactly if a string is asked for in vain. -/
theorem positionScore_eq_zero_iff (hshort : strs.length < 2 ^ 27) (hne : compat.bytes ≠ []) :
    positionScore (position strs compat) = 0 ↔ ¬ ∃ s ∈ strs, s.SameLetters compat := by
  rw [← position_isSome_iff hne]
  cases hpos : position strs compat with
  | none => simp [positionScore]
  | some i => simpa using (positionScore_pos hshort hpos).ne'

instance : Decidable (m.Matches v node strs) :=
  decidable_of_iff ((m.compatible.bytes ≠ [] → ∃ s ∈ strs, s.SameLetters m.compatible) ∧
      (m.type.bytes ≠ [] → ofNodeIsType v node m.type) ∧ (m.name.bytes ≠ [] → ofNodeNameEq v node m.name))
    ⟨fun h => ⟨h.1, h.2.1, h.2.2⟩, fun h => ⟨h.compatible, h.type, h.name⟩⟩

/-- The score of an entry that matches, and zero for the others. -/
theorem ofDeviceIsCompatible_eq (hstrs : CompatibleIs v node strs) (hshort : strs.length < 2 ^ 27) (m : OfDeviceId) :
    Returns (fun fuel => ofDeviceIsCompatible fuel v node m.compatible m.type m.name)
      (if m.Matches v node strs then m.score strs else 0) := by
  obtain ⟨k, hk⟩ := compatibleScore_eq hstrs m.compatible
  refine ⟨k, fun fuel hfuel => ?_⟩
  have hrun : (if m.compatible.bytes ≠ [] then compatibleScore fuel v node m.compatible else some 0) =
      some (positionScore (position strs m.compatible)) := by
    unfold position
    by_cases hcompat : m.compatible.bytes = []
    · simp [hcompat, positionScore]
    · rw [if_pos hcompat, if_neg hcompat]
      exact hk fuel hfuel
  simp only [ofDeviceIsCompatible, hrun, Option.map_some, Option.some.injEq, OfDeviceId.score]
  by_cases hcompat : m.compatible.bytes ≠ [] ∧ positionScore (position strs m.compatible) = 0
  · have hno : ¬ m.Matches v node strs := fun h =>
      (positionScore_eq_zero_iff hshort hcompat.1).mp hcompat.2 (h.compatible hcompat.1)
    rw [if_pos hcompat, if_neg hno]
  · have hyes : m.compatible.bytes ≠ [] → ∃ s ∈ strs, s.SameLetters m.compatible := fun hne => by
      by_contra hno
      exact hcompat ⟨hne, (positionScore_eq_zero_iff hshort hne).mpr hno⟩
    rw [if_neg hcompat]
    by_cases htype : m.type.bytes ≠ [] ∧ ofNodeIsType v node m.type = false
    · have hno : ¬ m.Matches v node strs := fun h => by simp [h.type htype.1] at htype
      rw [if_pos htype, if_neg hno]
    · rw [if_neg htype]
      by_cases hname : m.name.bytes ≠ [] ∧ ofNodeNameEq v node m.name = false
      · have hno : ¬ m.Matches v node strs := fun h => by simp [h.name hname.1] at hname
        rw [if_pos hname, if_neg hno]
      · have hmatch : m.Matches v node strs := ⟨hyes, by simpa using htype, by simpa using hname⟩
        rw [if_neg hname, if_pos hmatch]
        split_ifs <;> omega

/-! ### The order of the scores -/

theorem score_split (strs : List CStr) (m : OfDeviceId) : ∃ low : ℤ, 0 ≤ low ∧ low ≤ 3 ∧
    m.score strs = positionScore (position strs m.compatible) + low ∧
    low = (if m.type.bytes ≠ [] then 2 else 0) + if m.name.bytes ≠ [] then 1 else 0 := by
  refine ⟨_, ?_, ?_, add_assoc _ _ _, rfl⟩ <;> split_ifs <;> decide

theorem score_lt_iff (hshort : strs.length < 2 ^ 27) (m m' : OfDeviceId) :
    m.score strs < m'.score strs ↔ m.rank strs < m'.rank strs := by
  obtain ⟨low, hlow, hlow3, hscore, heq⟩ := score_split strs m
  obtain ⟨low', hlow', hlow3', hscore', heq'⟩ := score_split strs m'
  have hrest : low < low' ↔ toLex (decide (m.type.bytes ≠ []), decide (m.name.bytes ≠ [])) <
      toLex (decide (m'.type.bytes ≠ []), decide (m'.name.bytes ≠ [])) := by
    rw [heq, heq', Prod.Lex.toLex_lt_toLex]
    by_cases ht : m.type.bytes = [] <;> by_cases hn : m.name.bytes = [] <;>
      by_cases ht' : m'.type.bytes = [] <;> by_cases hn' : m'.name.bytes = [] <;> simp [ht, hn, ht', hn']
  rw [hscore, hscore', OfDeviceId.rank, OfDeviceId.rank, Prod.Lex.toLex_lt_toLex, ← hrest]
  cases hpos : position strs m.compatible with
  | none =>
    cases hpos' : position strs m'.compatible with
    | none => simp
    | some j =>
      -- without a string, the rest does not count
      have hj := position_lt hpos'
      simp only [positionScore, intMax_half, WithBot.bot_lt_coe, true_or, iff_true]
      omega
  | some i =>
    have hi := position_lt hpos
    cases hpos' : position strs m'.compatible with
    | none =>
      simp only [positionScore, intMax_half, not_lt_bot, WithBot.coe_ne_bot, false_and, or_self, iff_false]
      omega
    | some j =>
      have hj := position_lt hpos'
      simp only [positionScore, intMax_half, WithBot.coe_lt_coe, OrderDual.toDual_lt_toDual, WithBot.coe_inj,
        OrderDual.toDual_inj]
      omega

/-! ### The winner -/

/-- What the loop has found among the first `i` entries: the first one with the highest score, if that is positive. -/
structure BestOf (score : ℕ → ℤ) (i : ℕ) (bestMatch : Option ℕ) (bestScore : ℤ) : Prop where
  unmatched : bestMatch = none → bestScore = 0 ∧ ∀ j < i, score j ≤ 0
  best : ∀ b ∈ bestMatch, b < i ∧ 0 < score b ∧ bestScore = score b ∧ (∀ j < i, score j ≤ score b) ∧ ∀ j < b, score j < score b

theorem BestOf.next {score : ℕ → ℤ} {i : ℕ} {bestMatch : Option ℕ} {bestScore : ℤ} (h : BestOf score i bestMatch bestScore) :
    BestOf score (i + 1) (if score i > bestScore then some i else bestMatch)
      (if score i > bestScore then score i else bestScore) := by
  have hle : ∀ j < i, score j ≤ bestScore := fun j hj => by
    cases bestMatch with
    | none => exact (h.unmatched rfl).1 ▸ (h.unmatched rfl).2 j hj
    | some b =>
      obtain ⟨-, -, hb, hmax, -⟩ := h.best b rfl
      exact hb ▸ hmax j hj
  have hnonneg : 0 ≤ bestScore := by
    cases bestMatch with
    | none => exact (h.unmatched rfl).1.ge
    | some b =>
      obtain ⟨-, hpos, hb, -⟩ := h.best b rfl
      omega
  by_cases hbetter : score i > bestScore
  · rw [if_pos hbetter, if_pos hbetter]
    refine ⟨fun hnone => absurd hnone (by simp), fun b hb => ?_⟩
    obtain rfl := Option.some.inj hb
    refine ⟨Nat.lt_succ_self i, by omega, rfl, fun j hj => ?_, fun j hj => (hle j hj).trans_lt hbetter⟩
    rcases Nat.lt_succ_iff_lt_or_eq.mp hj with hj | rfl
    · exact (hle j hj).trans hbetter.le
    · exact le_rfl
  · rw [if_neg hbetter, if_neg hbetter]
    refine ⟨fun hnone => ⟨(h.unmatched hnone).1, fun j hj => ?_⟩, fun b hb => ?_⟩
    · have hzero := (h.unmatched hnone).1
      rcases Nat.lt_succ_iff_lt_or_eq.mp hj with hj | rfl
      · exact (h.unmatched hnone).2 j hj
      · omega
    · obtain ⟨hlt, hpos, hscore, hmax, hfirst⟩ := h.best b hb
      refine ⟨hlt.trans (Nat.lt_succ_self i), hpos, hscore, fun j hj => ?_, hfirst⟩
      rcases Nat.lt_succ_iff_lt_or_eq.mp hj with hj | rfl
      · exact hmax j hj
      · omega

/-- The loop over the last `d` entries of a table. -/
theorem matchLoop_best {score' : ℕ → ℤ} {table : ℕ → OfDeviceId} {n : ℕ} (hused : ∀ j < n, (table j).InUse)
    (hend : ¬ (table n).InUse) (d : ℕ) {i : ℕ} {bestMatch : Option ℕ} {bestScore : ℤ} (hi : i + d = n)
    (h : BestOf score' i bestMatch bestScore) :
    ∃ best last, BestOf score' n best last ∧ ∀ score rounds, (∀ j < n, score (table j) = some (score' j)) → d < rounds →
      matchLoop score table rounds i bestMatch bestScore = some best := by
  induction d generalizing i bestMatch bestScore with
  | zero =>
    obtain rfl : i = n := hi
    refine ⟨bestMatch, bestScore, h, fun score rounds _ hrounds => ?_⟩
    obtain ⟨rounds, rfl⟩ := Nat.exists_eq_add_of_le' (Nat.one_le_of_lt hrounds)
    rw [matchLoop, if_neg hend]
  | succ d ih =>
    obtain ⟨best, last, hbest, hrun⟩ := ih (by omega) h.next
    refine ⟨best, last, hbest, fun score rounds hscore hrounds => ?_⟩
    obtain ⟨rounds, rfl⟩ := Nat.exists_eq_add_of_le' (Nat.one_le_of_lt hrounds)
    have hlt : i < n := by omega
    have hrest := hrun score rounds hscore (by omega)
    rw [matchLoop, if_pos (hused i hlt), hscore i hlt, Option.bind_some]
    by_cases hbetter : score' i > bestScore
    · rw [if_pos hbetter, if_pos hbetter] at hrest
      rw [if_pos hbetter]
      exact hrest
    · rw [if_neg hbetter, if_neg hbetter] at hrest
      rw [if_neg hbetter]
      exact hrest

theorem score_pos (hshort : strs.length < 2 ^ 27) (hmatch : m.Matches v node strs) (hused : m.InUse) : 0 < m.score strs := by
  obtain ⟨low, hlow, -, hscore, heq⟩ := score_split strs m
  rw [hscore]
  cases hpos : position strs m.compatible with
  | some i =>
    have hi := positionScore_pos hshort hpos
    omega
  | none =>
    have hcompat : m.compatible.bytes = [] := by
      by_contra hne
      obtain ⟨i, hi⟩ := (position_isSome_iff hne).mpr (hmatch.compatible hne)
      simp [hi] at hpos
    have hrest : m.type.bytes ≠ [] ∨ m.name.bytes ≠ [] := by
      rcases hused with h | h | h
      · exact .inr h
      · exact .inl h
      · exact absurd hcompat h
    rw [positionScore, heq]
    rcases hrest with h | h
    · rw [if_pos h]
      split_ifs <;> decide
    · rw [if_pos h]
      split_ifs <;> decide

/-- `__of_match_node` finds the first entry that is highest in the documented order among those
that match, and none if none matches. -/
theorem ofMatchNode_first_highest (v : TreeView) (node : ℕ) (strs : List CStr) (table : ℕ → OfDeviceId) (n : ℕ)
    (hstrs : CompatibleIs v node strs) (hshort : strs.length < 2 ^ 27) (hused : ∀ i < n, (table i).InUse)
    (hend : ¬ (table n).InUse) :
    ∃ best, Returns (fun fuel => ofMatchNode fuel v (some table) node) best ∧
      (best = none ↔ ∀ i < n, ¬ (table i).Matches v node strs) ∧
      ∀ i ∈ best, i < n ∧ (table i).Matches v node strs ∧
        (∀ j < n, (table j).Matches v node strs → (table j).rank strs ≤ (table i).rank strs) ∧
        ∀ j < i, (table j).Matches v node strs → (table j).rank strs < (table i).rank strs := by
  let score' : ℕ → ℤ := fun i => if (table i).Matches v node strs then (table i).score strs else 0
  have hpos : ∀ i < n, (table i).Matches v node strs → 0 < score' i := fun i hi hmatch => by
    simp only [score', if_pos hmatch]
    exact score_pos hshort hmatch (hused i hi)
  have hmatch : ∀ i, 0 < score' i → (table i).Matches v node strs := fun i hi => by
    by_contra hno
    simp [score', hno] at hi
  have hlt : ∀ i j, (table i).Matches v node strs → (table j).Matches v node strs →
      (score' i < score' j ↔ (table i).rank strs < (table j).rank strs) := fun i j hi hj => by
    simp only [score', if_pos hi, if_pos hj]
    exact score_lt_iff hshort _ _
  obtain ⟨k, hk⟩ := Returns.below (n := n) fun j _ => ofDeviceIsCompatible_eq hstrs hshort (table j)
  obtain ⟨best, last, hbest, hrun⟩ := matchLoop_best hused hend n (Nat.zero_add n)
    (⟨fun _ => ⟨rfl, by simp⟩, by simp⟩ : BestOf score' 0 none 0)
  refine ⟨best, ⟨k + n + 1, fun fuel hfuel => hrun _ fuel (hk fuel (by omega)) (by omega)⟩, ?_, fun i hi => ?_⟩
  · cases best with
    | none =>
      have hnone := (hbest.unmatched rfl).2
      simp only [true_iff]
      intro i hi hm
      exact absurd (hpos i hi hm) (not_lt.mpr (hnone i hi))
    | some b =>
      obtain ⟨hb, hscore, -⟩ := hbest.best b rfl
      simp only [reduceCtorEq, false_iff]
      exact fun hno => hno b hb (hmatch b hscore)
  · obtain ⟨hin, hscore, -, hmax, hfirst⟩ := hbest.best i hi
    have hm := hmatch i hscore
    refine ⟨hin, hm, fun j hj hmj => ?_, fun j hj hmj => (hlt j i hmj hm).mp (hfirst j hj)⟩
    rw [← not_lt, ← hlt i j hm hmj, not_lt]
    exact hmax j hj

def emptyStr : CStr := ⟨[], by decide⟩

/-- One letter. -/
def letter (c : Fin 26) : CStr := ⟨[97 + UInt8.ofNat c], by revert c; decide⟩

/-- The node 0 is compatible with `b` and `a`, in this order. -/
def twoStrings : TreeView where
  ofGetProperty np name :=
    if np = 0 ∧ name = "compatible" then some (fun i => (joined [letter 1, letter 0]).getD i 0, 4) else none
  fullName _ := ""
  ofGetParent _ := none
  ofFindNodeByPhandle _ := none
  find_zero := rfl

/-- Two entries, for `a` and for `b`. -/
def twoEntries (i : ℕ) : OfDeviceId :=
  if i = 0 then ⟨emptyStr, emptyStr, letter 0⟩ else if i = 1 then ⟨emptyStr, emptyStr, letter 1⟩ else ⟨emptyStr, emptyStr, emptyStr⟩

/-- The second entry names the more specific string. -/
theorem ofMatchNode_specific : Returns (fun fuel => ofMatchNode fuel twoStrings (some twoEntries) 0) (some 1) := by
  have hmatch : (twoEntries 1).Matches twoStrings 0 [letter 1, letter 0] := by decide
  have hused : ∀ i < 2, (twoEntries i).InUse := by decide
  obtain ⟨best, hrun, hnone, hbest⟩ := ofMatchNode_first_highest twoStrings 0 [letter 1, letter 0] twoEntries 2
    ⟨by simp, by decide, fun _ _ => rfl⟩ (by decide) hused (by decide)
  cases best with
  | none => exact absurd hmatch (hnone.mp rfl 1 (by decide))
  | some i =>
    obtain ⟨hi, -, hmax, -⟩ := hbest i rfl
    have hrank := hmax 1 (by decide) hmatch
    have hne : i ≠ 0 := by
      rintro rfl
      revert hrank
      decide
    obtain rfl : i = 1 := by omega
    exact hrun

end GfpDrivers.Of
