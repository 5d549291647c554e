import Mathlib.Data.Nat.Size
import GfpDrivers.Basic

/-!
Divider clocks (`clk-divider.c`). The rate of such a clock is the rate of its
parent over a divisor, rounded up. A request is rounded to a rate that one of the
divisors gives; setting that rate computes a divisor again, from the rate, and
looks up the value of the field for it.

The second divisor is the least one for the rate, and need not be the first one.
If the divisors have gaps, it can fall into one of them.

Divisors are kept in variables of the type `int`, and `do_div` only takes the low
32 bits of what it divides by. The functions follow these conversions; `none`
stands for a division by 0 and for a shift by too much.
-/

namespace GfpDrivers.Clk

/-! ### Machine numbers -/

/-- A value that is put into an `int`. -/
def toInt (z : ℤ) : ℤ := z.bmod (2 ^ 32)

/-- A value as an `unsigned int`. -/
def toU32 (z : ℤ) : ℕ := (z % 2 ^ 32).toNat

/-- A value as an `unsigned long`. -/
def toU64 (z : ℤ) : ℕ := (z % 2 ^ 64).toNat

/-- `DIV_ROUND_UP_ULL` -/
def divRoundUpUll (ll : ℕ) (d : ℤ) : Option ℕ :=
  if toU32 d = 0 then none else some (toU64 (ll + d - 1) / toU32 d)

/-- `__roundup_pow_of_two` -/
def roundupPowOfTwo (n : ℕ) : Option ℕ :=
  let k := (toU64 ((n : ℤ) - 1)).size
  if k < 64 then some (2 ^ k) else none

/-- `__rounddown_pow_of_two` -/
def rounddownPowOfTwo (n : ℕ) : Option ℕ := if n = 0 then none else some (2 ^ (n.size - 1))

/-- The first set bit among the lowest `bits` ones, as `__ffs` finds it. -/
def ffs : ℕ → ℕ → ℕ
  | 0, _ => 0
  | bits + 1, n => if n % 2 = 1 then 0 else ffs bits (n / 2) + 1

/-! ### Dividers -/

/-- `struct clk_div_table` -/
structure ClkDivTable where
  val : ℕ
  div : ℕ

/-- A divider: the width of its field, its flags and its table. -/
structure Divider where
  width : ℕ
  oneBased : Bool
  powerOfTwo : Bool
  maxAtZero : Bool
  roundClosest : Bool
  table : Option (List ClkDivTable)

variable (D : Divider)

/-- `clk_div_mask` -/
def clkDivMask : ℕ := 2 ^ D.width - 1

/-- `_get_table_maxdiv` -/
def getTableMaxdiv (table : List ClkDivTable) (mask : ℕ) : ℕ :=
  table.foldl (fun maxdiv clkt => if maxdiv < clkt.div ∧ clkt.val ≤ mask then clkt.div else maxdiv) 0

/-- `_get_table_mindiv` -/
def getTableMindiv (table : List ClkDivTable) : ℕ :=
  table.foldl (fun mindiv clkt => if clkt.div < mindiv then clkt.div else mindiv) (2 ^ 32 - 1)

/-- `_get_maxdiv` -/
def getMaxdiv : Option ℕ :=
  if D.oneBased then some (clkDivMask D)
  else if D.powerOfTwo then if clkDivMask D < 32 then some (2 ^ clkDivMask D) else none
  else
    match D.table with
    | some table => some (getTableMaxdiv table (clkDivMask D))
    | none => some (clkDivMask D + 1)

/-- `_get_table_div` -/
def getTableDiv (table : List ClkDivTable) (val : ℕ) : ℕ :=
  (table.find? fun clkt => clkt.val = val).elim 0 ClkDivTable.div

/-- `_get_div` -/
def getDiv (val : ℕ) : Option ℕ :=
  if D.oneBased then some val
  else if D.powerOfTwo then if val < 32 then some (2 ^ val) else none
  else if D.maxAtZero then some (if val ≠ 0 then val else clkDivMask D + 1)
  else
    match D.table with
    | some table => some (getTableDiv table val)
    | none => some (val + 1)

/-- `_get_table_val` -/
def getTableVal (table : List ClkDivTable) (div : ℕ) : ℕ :=
  (table.find? fun clkt => clkt.div = div).elim 0 ClkDivTable.val

/-- `_get_val` -/
def getVal (div : ℕ) : ℕ :=
  if D.oneBased then div
  else if D.powerOfTwo then ffs 32 div
  else if D.maxAtZero then if div = clkDivMask D + 1 then 0 else div
  else
    match D.table with
    | some table => getTableVal table div
    | none => toU32 ((div : ℤ) - 1)

/-- `divider_recalc_rate` -/
def dividerRecalcRate (parentRate val : ℕ) : Option ℕ := do
  let div ← getDiv D val
  if div = 0 then some parentRate else divRoundUpUll parentRate div

/-- `_is_valid_div` -/
def isValidDiv (div : ℕ) : Bool :=
  if D.powerOfTwo then decide div.isPowerOfTwo
  else
    match D.table with
    | some table => table.any fun clkt => clkt.div = div
    | none => true

/-- The loop of `_round_up_table`. -/
def roundUpTable (div : ℤ) : List ClkDivTable → ℤ → ℤ
  | [], up => up
  | clkt :: rest, up =>
      if clkt.div = toU32 div then toInt clkt.div
      else if clkt.div < toU32 div then roundUpTable div rest up
      else if toU32 (clkt.div - div) < toU32 (up - div) then roundUpTable div rest (toInt clkt.div)
      else roundUpTable div rest up

/-- The loop of `_round_down_table`. -/
def roundDownTable (div : ℤ) : List ClkDivTable → ℤ → ℤ
  | [], down => down
  | clkt :: rest, down =>
      if clkt.div = toU32 div then toInt clkt.div
      else if toU32 div < clkt.div then roundDownTable div rest down
      else if toU32 (div - clkt.div) < toU32 (div - down) then roundDownTable div rest (toInt clkt.div)
      else roundDownTable div rest down

/-- `INT_MAX` -/
def intMax : ℤ := 2 ^ 31 - 1

/-- `_div_round_up` -/
def divRoundUp (parentRate rate : ℕ) : Option ℤ := do
  let div := toInt (← divRoundUpUll parentRate rate)
  let div ← if D.powerOfTwo then (roundupPowOfTwo (toU64 div)).map fun (n : ℕ) => toInt n else some div
  match D.table with
  | some table => some (roundUpTable div table intMax)
  | none => some div

/-- The divisors of `_div_round_closest` above and below. -/
def closestDivs (up down : ℤ) : Option (ℤ × ℤ) :=
  if D.powerOfTwo then do
    let up ← roundupPowOfTwo (toU64 up)
    let down ← rounddownPowOfTwo (toU64 down)
    some (toInt up, toInt down)
  else
    match D.table with
    | some table =>
        some (roundUpTable up table intMax, roundDownTable down table (toInt (getTableMindiv table)))
    | none => some (up, down)

/-- `_div_round_closest` -/
def divRoundClosest (parentRate rate : ℕ) : Option ℤ := do
  let q ← divRoundUpUll parentRate rate
  let (up, down) ← closestDivs D (toInt q) (toInt (parentRate / rate : ℕ))
  let upRate ← divRoundUpUll parentRate up
  let downRate ← divRoundUpUll parentRate down
  some (if toU64 ((rate : ℤ) - upRate) ≤ toU64 ((downRate : ℤ) - rate) then up else down)

/-- `_div_round` -/
def divRound (parentRate rate : ℕ) : Option ℤ :=
  if D.roundClosest then divRoundClosest D parentRate rate else divRoundUp D parentRate rate

/-- `clk_divider_bestdiv` without `CLK_SET_RATE_PARENT`. -/
def clkDividerBestdiv (rate parentRate : ℕ) : Option ℤ := do
  let rate := if rate = 0 then 1 else rate
  let maxdiv ← getMaxdiv D
  let bestdiv ← divRound D parentRate rate
  let bestdiv := if bestdiv = 0 then 1 else bestdiv
  some (if maxdiv < toU64 bestdiv then toInt maxdiv else bestdiv)

/-- `divider_determine_rate`: the rate that is promised. -/
def dividerDetermineRate (rate parentRate : ℕ) : Option ℕ := do
  let div ← clkDividerBestdiv D rate parentRate
  divRoundUpUll parentRate div

/-- `divider_get_val` -/
def dividerGetVal (rate parentRate : ℕ) : Option ℤ := do
  let div := toU32 (← divRoundUpUll parentRate rate)
  if isValidDiv D div then some (min (getVal D div) (clkDivMask D) : ℕ) else some (-EINVAL)

/-! ### Rates and divisors -/

variable {D} {P d x m : ℕ}

/-- `ceiling(parent->rate / divisor)` -/
def rateOf (parentRate div : ℕ) : ℕ := (parentRate + div - 1) / div

theorem rateOf_le_iff {c : ℕ} (hd : 0 < d) : rateOf P d ≤ c ↔ P ≤ c * d := by
  unfold rateOf
  rw [← Nat.lt_succ_iff, Nat.div_lt_iff_lt_mul hd, Nat.succ_mul]
  omega

theorem rateOf_pos (hP : 0 < P) (hd : 0 < d) : 0 < rateOf P d := by
  by_contra h
  have hle : rateOf P d ≤ 0 := by omega
  rw [rateOf_le_iff hd, Nat.zero_mul] at hle
  omega

theorem rateOf_le (hd : 0 < d) : rateOf P d ≤ P :=
  (rateOf_le_iff hd).2 (Nat.le_mul_of_pos_right P hd)

/-- The least divisor for a rate is not above the one that the rate comes from. -/
theorem rateOf_rateOf_le (hP : 0 < P) (hd : 0 < d) : rateOf P (rateOf P d) ≤ d := by
  rw [rateOf_le_iff (rateOf_pos hP hd), Nat.mul_comm]
  exact (rateOf_le_iff hd).1 le_rfl

theorem rateOf_eq_of_mem {e : ℕ} (hP : 0 < P) (hd : 0 < d) (he : rateOf P (rateOf P d) ≤ e) (hed : e ≤ d) :
    rateOf P e = rateOf P d := by
  have hr := rateOf_pos hP hd
  have hpos : 0 < e := lt_of_lt_of_le (rateOf_pos hP hr) he
  apply le_antisymm
  · rw [rateOf_le_iff hpos, Nat.mul_comm]
    exact (rateOf_le_iff hr).1 he
  · rw [rateOf_le_iff hd]
    exact le_trans ((rateOf_le_iff hpos).1 le_rfl) (Nat.mul_le_mul_left _ hed)

theorem toInt_of_lt {z : ℤ} (h0 : -2 ^ 31 ≤ z) (h : z < 2 ^ 31) : toInt z = z :=
  Int.bmod_eq_of_le (by omega) (by omega)

theorem toInt_bounds (z : ℤ) : -2 ^ 31 ≤ toInt z ∧ toInt z < 2 ^ 31 := by
  have h1 := Int.le_bmod (x := z) (m := 2 ^ 32) (by decide)
  have h2 := Int.bmod_lt (x := z) (m := 2 ^ 32) (by decide)
  unfold toInt
  omega

theorem toU32_of_lt {z : ℤ} (h0 : 0 ≤ z) (h : z < 2 ^ 32) : (toU32 z : ℤ) = z := by
  unfold toU32
  omega

theorem toU64_of_lt {z : ℤ} (h0 : 0 ≤ z) (h : z < 2 ^ 64) : (toU64 z : ℤ) = z := by
  unfold toU64
  omega

theorem divRoundUpUll_eq (hP : P < 2 ^ 32) (hd : 0 < d) (hd' : d < 2 ^ 32) :
    divRoundUpUll P d = some (rateOf P d) := by
  have h32 : toU32 d = d := by
    have := toU32_of_lt (z := d) (by omega) (by omega)
    omega
  have h64 : toU64 ((P : ℤ) + d - 1) = P + d - 1 := by
    have := toU64_of_lt (z := (P : ℤ) + d - 1) (by omega) (by omega)
    omega
  unfold divRoundUpUll rateOf
  rw [h32, h64, if_neg (by omega)]

/-! ### The divisors of a divider -/

/-- The flags and the table do not contradict each other, and the divisors of the
table are positive `int`s. -/
structure Coherent (D : Divider) : Prop where
  width_pos : 0 < D.width
  width_le : D.width ≤ 31
  flags : D.oneBased = true → D.powerOfTwo = false
  table : ∀ table, D.table = some table →
    D.oneBased = false ∧ D.powerOfTwo = false ∧ D.maxAtZero = false ∧
      ∀ clkt ∈ table, 0 < clkt.div ∧ clkt.div < 2 ^ 31

/-- A request can lead to the divisor. -/
structure Selectable (D : Divider) (d : ℕ) : Prop where
  pos : 0 < d
  valid : isValidDiv D d = true
  le_max : ∃ m, getMaxdiv D = some m ∧ d ≤ m

/-- The field can be set to a divisor. With a table, the value that is kept for
it has to give the same rate. -/
def Usable (D : Divider) (P x : ℕ) : Prop :=
  isValidDiv D x = true ∧ ∀ table, D.table = some table →
    let div := getTableDiv table (min (getTableVal table x) (clkDivMask D))
    (if div = 0 then P else rateOf P div) = rateOf P x

theorem isValidDiv_powerOfTwo (h : D.powerOfTwo = true) : isValidDiv D x = true ↔ ∃ k, x = 2 ^ k := by
  unfold isValidDiv
  rw [if_pos h, decide_eq_true_eq]
  rfl

theorem isValidDiv_table {table : List ClkDivTable} (hD : Coherent D) (h : D.table = some table) :
    isValidDiv D x = true ↔ ∃ clkt ∈ table, clkt.div = x := by
  unfold isValidDiv
  rw [(hD.table table h).2.1, h]
  simp

theorem isValidDiv_other (hp : D.powerOfTwo = false) (ht : D.table = none) : isValidDiv D x = true := by
  unfold isValidDiv
  rw [hp, ht]
  rfl

theorem mem_getTableMaxdiv (table : List ClkDivTable) (mask m : ℕ) :
    table.foldl (fun maxdiv clkt => if maxdiv < clkt.div ∧ clkt.val ≤ mask then clkt.div else maxdiv) m = m ∨
      ∃ clkt ∈ table, clkt.div =
        table.foldl (fun maxdiv clkt => if maxdiv < clkt.div ∧ clkt.val ≤ mask then clkt.div else maxdiv) m := by
  induction table generalizing m with
  | nil => exact .inl rfl
  | cons clkt rest ih =>
    rw [List.foldl_cons]
    rcases ih (if m < clkt.div ∧ clkt.val ≤ mask then clkt.div else m) with heq | ⟨e, he, heq⟩
    · rw [heq]
      split
      · exact .inr ⟨clkt, List.mem_cons_self, rfl⟩
      · exact .inl rfl
    · exact .inr ⟨e, List.mem_cons_of_mem _ he, heq⟩

theorem mem_getTableMindiv (table : List ClkDivTable) (m : ℕ) :
    (table.foldl (fun mindiv clkt => if clkt.div < mindiv then clkt.div else mindiv) m = m ∧
        ∀ clkt ∈ table, m ≤ clkt.div) ∨
      ∃ clkt ∈ table, clkt.div =
        table.foldl (fun mindiv clkt => if clkt.div < mindiv then clkt.div else mindiv) m := by
  induction table generalizing m with
  | nil => exact .inl ⟨rfl, by simp⟩
  | cons clkt rest ih =>
    rw [List.foldl_cons]
    rcases ih (if clkt.div < m then clkt.div else m) with ⟨heq, hle⟩ | ⟨e, he, heq⟩
    · rw [heq]
      split
      · exact .inr ⟨clkt, List.mem_cons_self, rfl⟩
      · next hge =>
          rw [if_neg hge] at hle
          exact .inl ⟨rfl, by rw [List.forall_mem_cons]; exact ⟨not_lt.1 hge, hle⟩⟩
    · exact .inr ⟨e, List.mem_cons_of_mem _ he, heq⟩

theorem isValidDiv_maxdiv (hD : Coherent D) (hm : getMaxdiv D = some m) (hpos : 0 < m) :
    isValidDiv D m = true := by
  cases ht : D.table with
  | some table =>
    obtain ⟨hone, hpow, -, -⟩ := hD.table table ht
    rw [isValidDiv_table hD ht]
    simp only [getMaxdiv, hone, hpow, ht, Bool.false_eq_true, if_false, Option.some.injEq] at hm
    rcases mem_getTableMaxdiv table (clkDivMask D) 0 with heq | hmem
    · rw [getTableMaxdiv, heq] at hm
      omega
    · rw [← hm]
      exact hmem
  | none =>
    cases hpow : D.powerOfTwo with
    | false => exact isValidDiv_other hpow ht
    | true =>
      have hone : D.oneBased = false := by
        cases hone : D.oneBased with
        | false => rfl
        | true =>
          have := hD.flags hone
          rw [hpow] at this
          cases this
      simp only [getMaxdiv, hone, hpow, Bool.false_eq_true, if_false, if_true] at hm
      split at hm
      · cases hm
        exact (isValidDiv_powerOfTwo hpow).2 ⟨_, rfl⟩
      · cases hm

/-! ### Rounding -/

/-- What rounding gives: an `int` that is no divisor only if it is not positive,
or not below the largest one. -/
structure Rounded (D : Divider) (m : ℕ) (b : ℤ) : Prop where
  ge : -2 ^ 31 ≤ b
  lt : b < 2 ^ 31
  valid : 0 < b → isValidDiv D b.toNat = true ∨ (m : ℤ) ≤ b
  zero : b = 0 → isValidDiv D 1 = true

theorem toInt_two_pow (k : ℕ) : toInt (2 ^ k : ℕ) = (2 ^ k : ℕ) ∧ k ≤ 30 ∨ toInt (2 ^ k : ℕ) ≤ 0 := by
  rcases Nat.lt_or_ge k 31 with hlt | hge
  · have hle : 2 ^ k ≤ 2 ^ 30 := Nat.pow_le_pow_right (by decide) (by omega)
    generalize 2 ^ k = n at hle ⊢
    exact .inl ⟨toInt_of_lt (by omega) (by omega), by omega⟩
  · right
    rcases Nat.eq_or_lt_of_le hge with rfl | hgt
    · decide
    · have hmod : ((2 ^ k : ℕ) : ℤ) % 2 ^ 32 = 0 := by
        have hdvd : 2 ^ 32 ∣ 2 ^ k := Nat.pow_dvd_pow 2 (by omega)
        generalize 2 ^ k = n at hdvd ⊢
        omega
      unfold toInt
      rw [Int.bmod_def]
      omega

theorem roundupPowOfTwo_eq {n u : ℕ} (h : roundupPowOfTwo n = some u) : ∃ k, u = 2 ^ k := by
  unfold roundupPowOfTwo at h
  simp only at h
  split at h
  · exact ⟨_, (Option.some.inj h).symm⟩
  · cases h

theorem rounddownPowOfTwo_eq {n u : ℕ} (h : rounddownPowOfTwo n = some u) : ∃ k, u = 2 ^ k := by
  unfold rounddownPowOfTwo at h
  split at h
  · cases h
  · exact ⟨_, (Option.some.inj h).symm⟩

theorem rounded_of_valid (hb : 0 < d) (hlt : d < 2 ^ 31) (hvalid : isValidDiv D d = true) :
    Rounded D m d :=
  ⟨by omega, by omega, fun _ => .inl (by simpa using hvalid), fun h => by omega⟩

theorem rounded_other (hp : D.powerOfTwo = false) (ht : D.table = none) (z : ℤ) : Rounded D m (toInt z) :=
  ⟨(toInt_bounds z).1, (toInt_bounds z).2, fun _ => .inl (isValidDiv_other hp ht),
    fun _ => isValidDiv_other hp ht⟩

theorem rounded_two_pow (hp : D.powerOfTwo = true) (k : ℕ) : Rounded D m (toInt (2 ^ k : ℕ)) := by
  refine ⟨(toInt_bounds _).1, (toInt_bounds _).2, fun hpos => .inl ?_, fun _ => ?_⟩
  · rcases toInt_two_pow k with ⟨heq, -⟩ | hle
    · rw [heq, Int.toNat_natCast]
      exact (isValidDiv_powerOfTwo hp).2 ⟨k, rfl⟩
    · omega
  · exact (isValidDiv_powerOfTwo hp).2 ⟨0, rfl⟩

theorem roundUpTable_mem (z : ℤ) (table : List ClkDivTable) (up : ℤ) :
    roundUpTable z table up = up ∨ ∃ clkt ∈ table, roundUpTable z table up = toInt clkt.div := by
  induction table generalizing up with
  | nil => exact .inl rfl
  | cons clkt rest ih =>
    have hrest : ∀ up', (up' = up ∨ up' = toInt clkt.div) → roundUpTable z rest up' = up ∨
        ∃ e ∈ clkt :: rest, roundUpTable z rest up' = toInt e.div := by
      intro up' hup'
      rcases ih up' with heq | ⟨e, he, heq⟩
      · rw [heq]
        exact hup'.imp_right fun h => ⟨clkt, List.mem_cons_self, h⟩
      · exact .inr ⟨e, List.mem_cons_of_mem _ he, heq⟩
    rw [roundUpTable]
    split_ifs
    · exact .inr ⟨clkt, List.mem_cons_self, rfl⟩
    · exact hrest up (.inl rfl)
    · exact hrest _ (.inr rfl)
    · exact hrest up (.inl rfl)

theorem roundDownTable_mem (z : ℤ) (table : List ClkDivTable) (down : ℤ) :
    roundDownTable z table down = down ∨ ∃ clkt ∈ table, roundDownTable z table down = toInt clkt.div := by
  induction table generalizing down with
  | nil => exact .inl rfl
  | cons clkt rest ih =>
    have hrest : ∀ down', (down' = down ∨ down' = toInt clkt.div) → roundDownTable z rest down' = down ∨
        ∃ e ∈ clkt :: rest, roundDownTable z rest down' = toInt e.div := by
      intro down' hdown'
      rcases ih down' with heq | ⟨e, he, heq⟩
      · rw [heq]
        exact hdown'.imp_right fun h => ⟨clkt, List.mem_cons_self, h⟩
      · exact .inr ⟨e, List.mem_cons_of_mem _ he, heq⟩
    rw [roundDownTable]
    split_ifs
    · exact .inr ⟨clkt, List.mem_cons_self, rfl⟩
    · exact hrest down (.inl rfl)
    · exact hrest _ (.inr rfl)
    · exact hrest down (.inl rfl)

section Table

variable {table : List ClkDivTable}

theorem rounded_entry (hD : Coherent D) (ht : D.table = some table) {clkt : ClkDivTable} (h : clkt ∈ table) :
    toInt clkt.div = clkt.div ∧ Rounded D m (toInt clkt.div) := by
  obtain ⟨hpos, hlt⟩ := (hD.table table ht).2.2.2 clkt h
  have heq : toInt clkt.div = clkt.div := toInt_of_lt (by omega) (by omega)
  have hvalid : isValidDiv D clkt.div = true := by
    rw [isValidDiv_table hD ht]
    exact ⟨clkt, h, rfl⟩
  refine ⟨heq, ?_⟩
  rw [heq]
  exact rounded_of_valid hpos hlt hvalid

theorem rounded_up_table (hD : Coherent D) (ht : D.table = some table) (hm : m < 2 ^ 31) (z : ℤ) :
    Rounded D m (roundUpTable z table intMax) := by
  rcases roundUpTable_mem z table intMax with heq | ⟨clkt, hclkt, heq⟩ <;> rw [heq]
  · unfold intMax
    exact ⟨by omega, by omega, fun _ => .inr (by omega), fun h => by omega⟩
  · exact (rounded_entry hD ht hclkt).2

theorem toInt_mindiv (hD : Coherent D) (ht : D.table = some table) :
    toInt (getTableMindiv table) < 0 ∧ table = [] ∨
      ∃ clkt ∈ table, toInt (getTableMindiv table) = toInt clkt.div := by
  rcases mem_getTableMindiv table (2 ^ 32 - 1) with ⟨heq, hle⟩ | ⟨clkt, hclkt, heq⟩
  · left
    rw [getTableMindiv, heq]
    refine ⟨by rw [toInt, Int.bmod_def]; omega, ?_⟩
    cases table with
    | nil => rfl
    | cons clkt rest =>
      have h1 := hle clkt List.mem_cons_self
      have h2 := ((hD.table _ ht).2.2.2 clkt List.mem_cons_self).2
      omega
  · exact .inr ⟨clkt, hclkt, by rw [getTableMindiv, heq]⟩

theorem rounded_down_table (hD : Coherent D) (ht : D.table = some table) (z : ℤ) :
    Rounded D m (roundDownTable z table (toInt (getTableMindiv table))) := by
  rcases roundDownTable_mem z table (toInt (getTableMindiv table)) with heq | ⟨clkt, hclkt, heq⟩ <;> rw [heq]
  · rcases toInt_mindiv hD ht with ⟨hneg, -⟩ | ⟨clkt, hclkt, heq⟩
    · exact ⟨(toInt_bounds _).1, (toInt_bounds _).2, fun h => by omega, fun h => by omega⟩
    · rw [heq]
      exact (rounded_entry hD ht hclkt).2
  · exact (rounded_entry hD ht hclkt).2

end Table

theorem divRoundUp_rounded {rate : ℕ} {b : ℤ} (hD : Coherent D) (hm : m < 2 ^ 31)
    (h : divRoundUp D P rate = some b) : Rounded D m b := by
  unfold divRoundUp at h
  cases ht : D.table with
  | some table =>
    obtain ⟨-, hpow, -, -⟩ := hD.table table ht
    simp only [hpow, ht, Bool.false_eq_true, if_false, bind, Option.bind_eq_some_iff, Option.some.injEq,
      exists_eq_left'] at h
    obtain ⟨q, -, rfl⟩ := h
    exact rounded_up_table hD ht hm _
  | none =>
    cases hpow : D.powerOfTwo with
    | false =>
      simp only [hpow, ht, Bool.false_eq_true, if_false, bind, Option.bind_eq_some_iff,
        Option.some.injEq, exists_eq_left'] at h
      obtain ⟨q, -, rfl⟩ := h
      exact rounded_other hpow ht _
    | true =>
      simp only [hpow, ht, if_true, bind, Option.bind_eq_some_iff, Option.map_eq_some_iff,
        Option.some.injEq] at h
      obtain ⟨q, -, b', ⟨n, hn, rfl⟩, rfl⟩ := h
      obtain ⟨k, rfl⟩ := roundupPowOfTwo_eq hn
      exact rounded_two_pow hpow _

theorem divRoundClosest_rounded {rate : ℕ} {b : ℤ} (hD : Coherent D) (hm : m < 2 ^ 31)
    (h : divRoundClosest D P rate = some b) : Rounded D m b := by
  unfold divRoundClosest at h
  simp only [bind, Option.bind_eq_some_iff, Option.some.injEq] at h
  obtain ⟨q, -, ⟨up, down⟩, hround, upRate, -, downRate, -, rfl⟩ := h
  have hboth : Rounded D m up ∧ Rounded D m down := by
    unfold closestDivs at hround
    cases ht : D.table with
    | some table =>
      obtain ⟨-, hpow, -, -⟩ := hD.table table ht
      simp only [hpow, ht, Bool.false_eq_true, if_false, Option.some.injEq, Prod.mk.injEq] at hround
      obtain ⟨rfl, rfl⟩ := hround
      exact ⟨rounded_up_table hD ht hm _, rounded_down_table hD ht _⟩
    | none =>
      cases hpow : D.powerOfTwo with
      | false =>
        simp only [hpow, ht, Bool.false_eq_true, if_false, Option.some.injEq, Prod.mk.injEq] at hround
        obtain ⟨rfl, rfl⟩ := hround
        exact ⟨rounded_other hpow ht _, rounded_other hpow ht _⟩
      | true =>
        simp only [hpow, if_true, bind, Option.bind_eq_some_iff, Option.some.injEq, Prod.mk.injEq] at hround
        obtain ⟨n, hn, n', hn', rfl, rfl⟩ := hround
        obtain ⟨k, rfl⟩ := roundupPowOfTwo_eq hn
        obtain ⟨k', rfl⟩ := rounddownPowOfTwo_eq hn'
        exact ⟨rounded_two_pow hpow k, rounded_two_pow hpow k'⟩
  split
  · exact hboth.1
  · exact hboth.2

/-- A rounded divisor that is capped is one that can be selected. -/
theorem Rounded.selectable {b : ℤ} (h : Rounded D m b) (hD : Coherent D) (hm : getMaxdiv D = some m)
    (hlt : m < 2 ^ 31) (hpos : 0 < m) :
    ∃ d : ℕ, (if m < toU64 (if b = 0 then 1 else b) then toInt m else if b = 0 then 1 else b) = d ∧
      Selectable D d := by
  have hmax : Selectable D m := ⟨hpos, isValidDiv_maxdiv hD hm hpos, m, hm, le_rfl⟩
  have hge := h.ge
  have hlt' := h.lt
  by_cases hb : b = 0
  · rw [if_pos hb]
    have h64 : toU64 1 = 1 := rfl
    rw [h64, if_neg (by omega)]
    exact ⟨1, rfl, by decide, h.zero hb, m, hm, hpos⟩
  · rw [if_neg hb]
    by_cases hcap : m < toU64 b
    · rw [if_pos hcap, toInt_of_lt (by omega) (by omega)]
      exact ⟨m, rfl, hmax⟩
    · rw [if_neg hcap]
      have hbpos : 0 < b := by
        unfold toU64 at hcap
        omega
      have h64 : (toU64 b : ℤ) = b := toU64_of_lt (by omega) (by omega)
      refine ⟨b.toNat, by omega, ?_⟩
      rcases h.valid hbpos with hvalid | hle
      · exact ⟨by omega, hvalid, m, hm, by omega⟩
      · have hbm : b.toNat = m := by omega
        rw [hbm]
        exact hmax

theorem clkDividerBestdiv_selectable {rate : ℕ} {z : ℤ} (hD : Coherent D)
    (hmax : ∀ m, getMaxdiv D = some m → m < 2 ^ 31) (h : clkDividerBestdiv D rate P = some z) :
    z = 0 ∨ ∃ d : ℕ, z = d ∧ Selectable D d := by
  unfold clkDividerBestdiv at h
  simp only [bind, Option.bind_eq_some_iff, Option.some.injEq] at h
  obtain ⟨m, hm, b, hb, rfl⟩ := h
  have hlt := hmax m hm
  have hrounded : Rounded D m b := by
    unfold divRound at hb
    split at hb
    · exact divRoundClosest_rounded hD hlt hb
    · exact divRoundUp_rounded hD hlt hb
  rcases Nat.eq_zero_or_pos m with rfl | hpos
  · left
    have hcap : 0 < toU64 (if b = 0 then 1 else b) := by
      have hge := hrounded.ge
      have hlt' := hrounded.lt
      unfold toU64
      split_ifs <;> omega
    rw [if_pos hcap]
    rfl
  · exact .inr (hrounded.selectable hD hm hlt hpos)

/-! ### Requests for the rates themselves -/

theorem le_roundUpTable {z up : ℕ} (table : List ClkDivTable) (hlt : ∀ clkt ∈ table, clkt.div < 2 ^ 31)
    (hz : z ≤ up) (hup : up < 2 ^ 31) :
    ∃ u : ℕ, roundUpTable z table up = u ∧ z ≤ u ∧ u ≤ up ∧
      (∀ clkt ∈ table, z ≤ clkt.div → u ≤ clkt.div) ∧ (u = up ∨ ∃ clkt ∈ table, clkt.div = u) := by
  induction table generalizing up with
  | nil => exact ⟨up, rfl, hz, le_rfl, by simp, .inl rfl⟩
  | cons clkt rest ih =>
    rw [List.forall_mem_cons] at hlt
    have hclkt := hlt.1
    have hint : toInt clkt.div = clkt.div := toInt_of_lt (by omega) (by omega)
    have hz32 : (toU32 z : ℤ) = z := toU32_of_lt (by omega) (by omega)
    have hup32 : (toU32 ((up : ℤ) - z) : ℤ) = up - z := toU32_of_lt (by omega) (by omega)
    rw [roundUpTable]
    simp only [List.mem_cons, forall_eq_or_imp, exists_eq_or_imp]
    split_ifs with heq hless hnear
    · exact ⟨clkt.div, hint, by omega, by omega, ⟨fun _ => le_rfl, fun e _ h => by omega⟩, .inr (.inl rfl)⟩
    · obtain ⟨u, hu, h1, h2, h3, h4⟩ := ih hlt.2 hz hup
      exact ⟨u, hu, h1, h2, ⟨fun h => by omega, h3⟩, h4.imp_right .inr⟩
    · have h32 : (toU32 ((clkt.div : ℤ) - z) : ℤ) = clkt.div - z := toU32_of_lt (by omega) (by omega)
      rw [hint]
      obtain ⟨u, hu, h1, h2, h3, h4⟩ := ih hlt.2 (by omega : z ≤ clkt.div) hclkt
      refine ⟨u, hu, h1, by omega, ⟨fun _ => h2, h3⟩, .inr ?_⟩
      exact h4.imp_left Eq.symm
    · have h32 : (toU32 ((clkt.div : ℤ) - z) : ℤ) = clkt.div - z := toU32_of_lt (by omega) (by omega)
      obtain ⟨u, hu, h1, h2, h3, h4⟩ := ih hlt.2 hz hup
      exact ⟨u, hu, h1, h2, ⟨fun h => by omega, h3⟩, h4.imp_right .inr⟩

theorem roundupPowOfTwo_le (hd : ∃ k, d = 2 ^ k) (hx : 0 < x) (hxd : x ≤ d) (hlt : d < 2 ^ 31) :
    ∃ u : ℕ, roundupPowOfTwo x = some u ∧ x ≤ u ∧ u ≤ d := by
  obtain ⟨k, hk⟩ := hd
  have h64 : toU64 ((x : ℤ) - 1) = x - 1 := by
    have : (toU64 ((x : ℤ) - 1) : ℤ) = x - 1 := toU64_of_lt (by omega) (by omega)
    omega
  have hsize : (x - 1).size ≤ k := Nat.size_le.2 (by omega)
  have hk' : k < 31 := by
    by_contra hge
    have := Nat.pow_le_pow_right (show 0 < 2 by decide) (not_lt.1 hge)
    omega
  refine ⟨2 ^ (x - 1).size, ?_, ?_, ?_⟩
  · unfold roundupPowOfTwo
    rw [h64]
    exact if_pos (by omega)
  · have := Nat.lt_size_self (x - 1)
    omega
  · rw [hk]
    exact Nat.pow_le_pow_right (by decide) hsize

theorem intMax_eq (hx : x < 2 ^ 31) : ∃ up : ℕ, intMax = up ∧ x ≤ up ∧ up < 2 ^ 31 := by
  have hpos : 0 ≤ intMax := by
    unfold intMax
    omega
  have hlt : intMax < 2 ^ 31 := by
    unfold intMax
    omega
  have hle : (x : ℤ) ≤ intMax := by
    unfold intMax
    omega
  obtain ⟨up, hup⟩ := Int.eq_ofNat_of_zero_le hpos
  rw [hup] at hlt hle
  exact ⟨up, hup, by omega, by omega⟩

/-- The divisor above is between the least one for a rate and any other one. -/
theorem upTable_between {table : List ClkDivTable} (hD : Coherent D) (ht : D.table = some table)
    (hd : Selectable D d) (hxd : x ≤ d) (hlt : d < 2 ^ 31) :
    ∃ u : ℕ, roundUpTable x table intMax = u ∧ x ≤ u ∧ u ≤ d := by
  have hentries := (hD.table table ht).2.2.2
  obtain ⟨clkt, hclkt, hdiv⟩ := (isValidDiv_table hD ht).1 hd.valid
  obtain ⟨up, hup, hxup, hlt'⟩ := intMax_eq (lt_of_le_of_lt hxd hlt)
  obtain ⟨u, hu, h1, -, h3, -⟩ := le_roundUpTable table (fun e he => (hentries e he).2) hxup hlt'
  have h4 := h3 clkt hclkt (by omega)
  exact ⟨u, by rw [hup, hu], h1, by omega⟩

theorem divRoundUp_powerOfTwo {rate : ℕ} (hp : D.powerOfTwo = true) (ht : D.table = none) :
    divRoundUp D P rate = (divRoundUpUll P rate).bind fun (q : ℕ) =>
      (roundupPowOfTwo (toU64 (toInt q))).map fun (n : ℕ) => toInt n := by
  unfold divRoundUp
  simp only [hp, ht, if_true, Option.bind_eq_bind, Option.bind_fun_some]

theorem divRoundUp_of_rate {rate : ℕ} (hD : Coherent D) (hd : Selectable D d) (hx : 0 < x) (hxd : x ≤ d)
    (hlt : d < 2 ^ 31) (hq : divRoundUpUll P rate = some x) :
    ∃ e : ℕ, divRoundUp D P rate = some (e : ℤ) ∧ x ≤ e ∧ e ≤ d := by
  have hint : toInt x = x := toInt_of_lt (by omega) (by omega)
  have h64 : toU64 x = x := by
    have : (toU64 (x : ℤ) : ℤ) = x := toU64_of_lt (by omega) (by omega)
    omega
  cases ht : D.table with
  | some table =>
    obtain ⟨-, hpow, -, -⟩ := hD.table table ht
    obtain ⟨u, hu, h1, h2⟩ := upTable_between hD ht hd hxd hlt
    refine ⟨u, ?_, h1, h2⟩
    simp only [divRoundUp, hq, ht, hpow, bind, Option.bind_some, Bool.false_eq_true, if_false, hint, hu]
  | none =>
    cases hp : D.powerOfTwo with
    | false =>
      refine ⟨x, ?_, le_rfl, hxd⟩
      simp only [divRoundUp, hq, ht, hp, bind, Option.bind_some, Bool.false_eq_true, if_false, hint]
    | true =>
      obtain ⟨u, hu, h1, h2⟩ := roundupPowOfTwo_le ((isValidDiv_powerOfTwo hp).1 hd.valid) hx hxd hlt
      have hint' : toInt u = u := toInt_of_lt (by omega) (by omega)
      refine ⟨u, ?_, h1, h2⟩
      rw [divRoundUp_powerOfTwo hp ht, hq, Option.bind_some, hint, h64, hu, Option.map_some, hint']

theorem closestDivs_of_rate {down : ℕ} (hD : Coherent D) (hd : Selectable D d) (hx : 0 < x) (hxd : x ≤ d)
    (hlt : d < 2 ^ 31) (hdown : 0 < down) (hdown' : down < 2 ^ 31) :
    ∃ e e' : ℕ, closestDivs D x down = some ((e : ℤ), (e' : ℤ)) ∧ x ≤ e ∧ e ≤ d ∧ 0 < e' ∧ e' < 2 ^ 31 := by
  have h64 : ∀ n : ℕ, n < 2 ^ 31 → toU64 n = n := by
    intro n hn
    have : (toU64 (n : ℤ) : ℤ) = n := toU64_of_lt (by omega) (by omega)
    omega
  have hint : ∀ n : ℕ, n < 2 ^ 31 → toInt n = n := fun n hn => toInt_of_lt (by omega) (by omega)
  unfold closestDivs
  cases ht : D.table with
  | some table =>
    obtain ⟨-, hpow, -, hentries⟩ := hD.table table ht
    obtain ⟨u, hu, h1, h2⟩ := upTable_between hD ht hd hxd hlt
    obtain ⟨clkt, hclkt, hentry⟩ : ∃ clkt ∈ table,
        roundDownTable down table (toInt (getTableMindiv table)) = toInt clkt.div := by
      rcases roundDownTable_mem down table (toInt (getTableMindiv table)) with heq | hmem
      · rcases toInt_mindiv hD ht with ⟨-, hnil⟩ | ⟨clkt, hclkt, hmin⟩
        · obtain ⟨clkt, hclkt, -⟩ := (isValidDiv_table hD ht).1 hd.valid
          rw [hnil] at hclkt
          cases hclkt
        · exact ⟨clkt, hclkt, heq.trans hmin⟩
      · exact hmem
    obtain ⟨hpos, hlt'⟩ := hentries clkt hclkt
    refine ⟨u, clkt.div, ?_, h1, h2, hpos, hlt'⟩
    simp [hpow, hu, hentry, hint clkt.div hlt']
  | none =>
    cases hp : D.powerOfTwo with
    | false => exact ⟨x, down, by simp, le_rfl, hxd, hdown, hdown'⟩
    | true =>
      obtain ⟨u, hu, h1, h2⟩ := roundupPowOfTwo_le ((isValidDiv_powerOfTwo hp).1 hd.valid) hx hxd hlt
      have hsize : 0 < down.size := Nat.size_pos.2 hdown
      have hle : 2 ^ (down.size - 1) ≤ down := Nat.lt_size.1 (by omega)
      refine ⟨u, 2 ^ (down.size - 1), ?_, h1, h2, Nat.two_pow_pos _, by omega⟩
      have hdown_eq : rounddownPowOfTwo down = some (2 ^ (down.size - 1)) := if_neg (by omega)
      rw [if_pos rfl, h64 x (by omega), h64 down hdown', hu, hdown_eq]
      simp only [bind, Option.bind_some, hint u (by omega), hint _ (show 2 ^ (down.size - 1) < 2 ^ 31 by omega)]

/-- A request for the rate of a divisor selects one that gives the same rate. -/
theorem clkDividerBestdiv_of_rate (hD : Coherent D) (hmax : ∀ m, getMaxdiv D = some m → m < 2 ^ 31)
    (hP : 0 < P) (hP' : P < 2 ^ 32) (hd : Selectable D d) :
    ∃ e : ℕ, clkDividerBestdiv D (rateOf P d) P = some (e : ℤ) ∧ rateOf P (rateOf P d) ≤ e ∧ e ≤ d := by
  obtain ⟨m, hm, hdm⟩ := hd.le_max
  have hlt : d < 2 ^ 31 := lt_of_le_of_lt hdm (hmax m hm)
  have hr := rateOf_pos hP hd.pos
  have hrP : rateOf P d ≤ P := rateOf_le hd.pos
  have hx : 0 < rateOf P (rateOf P d) := rateOf_pos hP hr
  have hxd : rateOf P (rateOf P d) ≤ d := rateOf_rateOf_le hP hd.pos
  have hq : divRoundUpUll P (rateOf P d) = some (rateOf P (rateOf P d)) :=
    divRoundUpUll_eq hP' hr (by omega)
  have hround : ∃ e : ℕ, divRound D P (rateOf P d) = some (e : ℤ) ∧ rateOf P (rateOf P d) ≤ e ∧ e ≤ d := by
    unfold divRound
    split
    · -- the divisor above gives the rate exactly, and so it is chosen
      have hdown : 0 < P / rateOf P d := Nat.div_pos hrP hr
      have hdown' : P / rateOf P d < 2 ^ 31 := by
        have : P / rateOf P d ≤ rateOf P (rateOf P d) := Nat.div_le_div_right (by omega)
        omega
      obtain ⟨e, e', hdivs, h1, h2, h3, h4⟩ := closestDivs_of_rate hD hd hx hxd hlt hdown hdown'
      have hup : divRoundUpUll P e = some (rateOf P d) := by
        rw [divRoundUpUll_eq hP' (by omega) (by omega), rateOf_eq_of_mem hP hd.pos h1 h2]
      have hdownRate : divRoundUpUll P e' = some (rateOf P e') := divRoundUpUll_eq hP' h3 (by omega)
      refine ⟨e, ?_, h1, h2⟩
      have hint : toInt (rateOf P (rateOf P d)) = rateOf P (rateOf P d) := toInt_of_lt (by omega) (by omega)
      have hint' : toInt (P / rateOf P d : ℕ) = (P / rateOf P d : ℕ) := toInt_of_lt (by omega) (by omega)
      unfold divRoundClosest
      have h0 : toU64 0 = 0 := rfl
      simp only [hq, bind, Option.bind_some, hint, hint', hdivs, hup, hdownRate, sub_self]
      rw [h0, if_pos (Nat.zero_le _)]
    · exact divRoundUp_of_rate hD hd hx hxd hlt hq
  obtain ⟨e, he, h1, h2⟩ := hround
  refine ⟨e, ?_, h1, h2⟩
  have h64 : toU64 e = e := by
    have : (toU64 (e : ℤ) : ℤ) = e := toU64_of_lt (by omega) (by omega)
    omega
  unfold clkDividerBestdiv
  simp only [if_neg (show rateOf P d ≠ 0 by omega), hm, bind, Option.bind_some, he,
    if_neg (show (e : ℤ) ≠ 0 by omega), h64, if_neg (show ¬m < e by omega)]

/-! ### Setting a promised rate -/

theorem ffs_two_pow (bits k : ℕ) (h : k < bits) : ffs bits (2 ^ k) = k := by
  induction bits generalizing k with
  | zero => omega
  | succ bits ih =>
    cases k with
    | zero => rfl
    | succ k =>
      have hodd : ¬2 ^ (k + 1) % 2 = 1 := by
        rw [pow_succ]
        omega
      rw [ffs, if_neg hodd, Nat.pow_succ, Nat.mul_div_cancel _ (by decide), ih k (by omega)]

theorem min_clkDivMask {n : ℕ} (h : n ≤ clkDivMask D) : min n (clkDivMask D) = n := Nat.min_eq_left h

theorem getDiv_getVal (ht : D.table = none) (hm : getMaxdiv D = some m) (hlt : m < 2 ^ 31)
    (hx : 0 < x) (hxm : x ≤ m) (hvalid : isValidDiv D x = true) :
    getDiv D (min (getVal D x) (clkDivMask D)) = some x := by
  cases hone : D.oneBased with
  | true =>
    simp only [getMaxdiv, hone, if_true, Option.some.injEq] at hm
    have hval : getVal D x = x := by simp only [getVal, hone, if_true]
    rw [hval, min_clkDivMask (by omega)]
    simp only [getDiv, hone, if_true]
  | false =>
    cases hpow : D.powerOfTwo with
    | true =>
      obtain ⟨k, hk⟩ := (isValidDiv_powerOfTwo hpow).1 hvalid
      simp only [getMaxdiv, hone, hpow, Bool.false_eq_true, if_false, if_true] at hm
      split at hm
      · have hk' : k ≤ clkDivMask D := by
          cases hm
          rw [hk] at hxm
          exact (Nat.pow_le_pow_iff_right (by decide)).1 hxm
        have hval : getVal D x = k := by
          simp only [getVal, hone, hpow, Bool.false_eq_true, if_false, if_true]
          rw [hk, ffs_two_pow 32 k (by omega)]
        rw [hval, min_clkDivMask hk']
        simp only [getDiv, hone, hpow, Bool.false_eq_true, if_false, if_true]
        rw [if_pos (by omega), hk]
      · cases hm
    | false =>
      simp only [getMaxdiv, hone, hpow, ht, Bool.false_eq_true, if_false, Option.some.injEq] at hm
      cases hmax : D.maxAtZero with
      | true =>
        simp only [getVal, getDiv, hone, hpow, hmax, Bool.false_eq_true, if_false, if_true]
        by_cases hfull : x = clkDivMask D + 1
        · rw [if_pos hfull, Nat.zero_min, if_neg (not_not_intro rfl), hfull]
        · rw [if_neg hfull, min_clkDivMask (by omega), if_pos (by omega)]
      | false =>
        have h32 : (toU32 ((x : ℤ) - 1) : ℤ) = x - 1 := toU32_of_lt (by omega) (by omega)
        simp only [getVal, getDiv, hone, hpow, hmax, ht, Bool.false_eq_true, if_false]
        rw [min_clkDivMask (by omega)]
        exact congrArg some (by omega)

theorem getTableDiv_lt {table : List ClkDivTable} (h : ∀ clkt ∈ table, clkt.div < 2 ^ 31) (val : ℕ) :
    getTableDiv table val < 2 ^ 31 := by
  unfold getTableDiv
  cases hfind : table.find? fun clkt => clkt.val = val with
  | none => exact Nat.two_pow_pos _
  | some clkt => exact h clkt (List.mem_of_find?_eq_some hfind)

theorem recalc_table {table : List ClkDivTable} (hD : Coherent D) (ht : D.table = some table) (hP : P < 2 ^ 32)
    (val : ℕ) :
    dividerRecalcRate D P val =
      some (if getTableDiv table val = 0 then P else rateOf P (getTableDiv table val)) := by
  obtain ⟨hone, hpow, hzero, hentries⟩ := hD.table table ht
  have hdiv : getDiv D val = some (getTableDiv table val) := by
    simp only [getDiv, hone, hpow, hzero, ht, Bool.false_eq_true, if_false]
  have hlt := getTableDiv_lt (fun clkt h => (hentries clkt h).2) val
  unfold dividerRecalcRate
  rw [hdiv, Option.bind_eq_bind, Option.bind_some]
  split
  · rfl
  · exact divRoundUpUll_eq hP (by omega) (by omega)

theorem getVal_table {table : List ClkDivTable} (hD : Coherent D) (ht : D.table = some table) :
    getVal D x = getTableVal table x := by
  obtain ⟨hone, hpow, hzero, -⟩ := hD.table table ht
  simp only [getVal, hone, hpow, hzero, ht, Bool.false_eq_true, if_false]

/-- The field value for a divisor gives its rate exactly if the divisor is usable. -/
theorem recalc_getVal (hD : Coherent D) (hm : getMaxdiv D = some m) (hlt : m < 2 ^ 31) (hP : P < 2 ^ 32)
    (hx : 0 < x) (hxm : x ≤ m) (hvalid : isValidDiv D x = true) :
    dividerRecalcRate D P (min (getVal D x) (clkDivMask D)) = some (rateOf P x) ↔ Usable D P x := by
  cases ht : D.table with
  | some table =>
    rw [getVal_table hD ht, recalc_table hD ht hP, Option.some.injEq]
    constructor
    · intro heq
      refine ⟨hvalid, fun table' ht' => ?_⟩
      cases ht.symm.trans ht'
      exact heq
    · intro husable
      exact husable.2 table ht
  | none =>
    have hrecalc : dividerRecalcRate D P (min (getVal D x) (clkDivMask D)) = some (rateOf P x) := by
      unfold dividerRecalcRate
      rw [getDiv_getVal ht hm hlt hx hxm hvalid, Option.bind_eq_bind, Option.bind_some, if_neg (by omega)]
      exact divRoundUpUll_eq hP hx (by omega)
    refine iff_of_true hrecalc ⟨hvalid, fun table ht' => ?_⟩
    cases ht.symm.trans ht'

/-- Setting a rate succeeds exactly if the least divisor for the rate is usable. -/
theorem settable_iff (hD : Coherent D) (hm : getMaxdiv D = some m) (hlt : m < 2 ^ 31) (hP : 0 < P)
    (hP' : P < 2 ^ 32) (hd : 0 < d) (hdm : d ≤ m) :
    (∃ v : ℕ, dividerGetVal D (rateOf P d) P = some (v : ℤ) ∧ dividerRecalcRate D P v = some (rateOf P d)) ↔
      Usable D P (rateOf P (rateOf P d)) := by
  have hr := rateOf_pos hP hd
  have hx : 0 < rateOf P (rateOf P d) := rateOf_pos hP hr
  have hxd : rateOf P (rateOf P d) ≤ d := rateOf_rateOf_le hP hd
  have hrate : rateOf P (rateOf P (rateOf P d)) = rateOf P d := rateOf_eq_of_mem hP hd le_rfl hxd
  have hq : divRoundUpUll P (rateOf P d) = some (rateOf P (rateOf P d)) :=
    divRoundUpUll_eq hP' hr (lt_of_le_of_lt (rateOf_le hd) hP')
  generalize hxeq : rateOf P (rateOf P d) = x at hx hxd hrate hq ⊢
  have h32 : toU32 x = x := by
    have : (toU32 (x : ℤ) : ℤ) = x := toU32_of_lt (by omega) (by omega)
    omega
  have hval : dividerGetVal D (rateOf P d) P =
      if isValidDiv D x = true then some ((min (getVal D x) (clkDivMask D) : ℕ) : ℤ) else some (-EINVAL) := by
    unfold dividerGetVal
    simp only [hq, Option.bind_eq_bind, Option.bind_some, h32]
  rw [hval, ← hrate]
  by_cases hvalid : isValidDiv D x = true
  · rw [if_pos hvalid, ← recalc_getVal hD hm hlt hP' hx (by omega) hvalid]
    constructor
    · rintro ⟨v, hv, hrecalc⟩
      rw [Option.some.injEq, Nat.cast_inj] at hv
      rw [hv]
      exact hrecalc
    · intro hrecalc
      exact ⟨_, rfl, hrecalc⟩
  · rw [if_neg hvalid]
    refine iff_of_false ?_ fun husable => hvalid husable.1
    rintro ⟨v, hv, -⟩
    rw [Option.some.injEq] at hv
    unfold EINVAL at hv
    omega

/-- Every rate that a divider promises can be set: there is a field value for it,
and the value gives exactly this rate. -/
def RatesSettable (D : Divider) (P : ℕ) : Prop :=
  ∀ rate r, 0 < rate → rate < 2 ^ 64 → dividerDetermineRate D rate P = some r →
    ∃ v : ℕ, dividerGetVal D r P = some (v : ℤ) ∧ dividerRecalcRate D P v = some r

/-- A field of three bits for the divisors from 1 to 8. -/
def plainDivider : Divider where
  width := 3
  oneBased := false
  powerOfTwo := false
  maxAtZero := false
  roundClosest := false
  table := none

/-- A field of two bits for the divisors 1, 2, 4 and 8. -/
def powerDivider : Divider where
  width := 2
  oneBased := false
  powerOfTwo := true
  maxAtZero := false
  roundClosest := false
  table := none

end GfpDrivers.Clk
