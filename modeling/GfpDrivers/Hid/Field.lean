import GfpDrivers.Lib.BitStream
import Mathlib.Algebra.Ring.Int.Defs
import Mathlib.Order.Basic

/-!
Report fields (`hid-core.c`): conversion between 32-bit values and `n`-bit
ones, and moving an `n`-bit value into and out of the bit stream of a report.

`__u32` and `__s32` are both `BitVec 32`; a signed comparison goes through
`toInt`. A report buffer is a function from byte index to byte. A shift by the
full width of its operand is undefined in C; `shl` gives it the meaning the
32-bit shifts of the target (arm64) have, which use the count modulo 32.
-/

namespace GfpDrivers.Hid

open GfpDrivers.Lib

/-- `x << n` on a 32-bit operand. -/
def shl (x : BitVec 32) (n : ℕ) : BitVec 32 := x <<< (n % 32)

/-- `n - 1` as an `unsigned` shift count, modulo 32. -/
def predCount (n : ℕ) : ℕ := (n + 31) % 32

/-- `snto32`: an `n`-bit two's complement number as a 32-bit one. -/
def snto32 (value : BitVec 32) (n : ℕ) : BitVec 32 :=
  if value = 0 ∨ n = 0 then 0
  else if n = 8 then (value.setWidth 8).signExtend 32
  else if n = 16 then (value.setWidth 16).signExtend 32
  else if n = 32 then value
  else if value &&& shl 1 (predCount n) ≠ 0 then value ||| shl (BitVec.allOnes 32) n
  else value

/-- `s32ton`: a 32-bit number as an `n`-bit one, saturating. -/
def s32ton (value : BitVec 32) (n : ℕ) : BitVec 32 :=
  let a := value.sshiftRight (predCount n)
  if a ≠ 0 ∧ a ≠ -1 then
    if value.toInt < 0 then shl 1 (predCount n) else shl 1 (predCount n) - 1
  else value &&& (shl 1 n - 1)

/-- The loop of `__extract`. `n` counts the bits still wanted, `bitNr` those
collected; `bits_to_copy` is `8 - bitShift` throughout. -/
def extractLoop (report : ℕ → BitVec 8) : ℕ → ℕ → ℕ → ℕ → ℕ → BitVec 32 → BitVec 32
  | 0, _, _, _, _, value => value
  | fuel + 1, n, idx, bitNr, bitShift, value =>
      if n = 0 then value
      else
        extractLoop report fuel (n - (8 - bitShift)) (idx + 1) (bitNr + (8 - bitShift)) 0
          (value ||| (((report idx).setWidth 32 >>> bitShift) <<< bitNr))

/-- `__extract`. -/
def extract (report : ℕ → BitVec 8) (offset n : ℕ) : BitVec 32 :=
  let mask := if n < 32 then shl 1 n - 1 else BitVec.allOnes 32
  extractLoop report n n (offset / 8) 0 (offset % 8) 0 &&& mask

/-- `hid_field_extract`. -/
def hidFieldExtract (report : ℕ → BitVec 8) (offset n : ℕ) : BitVec 32 :=
  extract report offset (if 32 < n then 32 else n)

/-- The loop of `__implement` and its last nibble; `bits_to_set` is
`8 - bitShift` throughout. -/
def implementLoop : ℕ → (ℕ → BitVec 8) → ℕ → ℕ → ℕ → BitVec 32 → ℕ → BitVec 8
  | 0, report, _, _, _, _ => report
  | fuel + 1, report, n, idx, bitShift, value =>
      if 8 - bitShift ≤ n then
        implementLoop fuel
          (Function.update report idx
            ((report idx &&& ~~~(0xff#8 <<< bitShift)) ||| (value <<< bitShift).setWidth 8))
          (n - (8 - bitShift)) (idx + 1) 0 (value >>> (8 - bitShift))
      else if n ≠ 0 then
        let bitMask : BitVec 8 := (shl 1 n - 1).setWidth 8
        Function.update report idx
          ((report idx &&& ~~~(bitMask <<< bitShift)) ||| (value <<< bitShift).setWidth 8)
      else report

/-- `implement`. -/
def implement (report : ℕ → BitVec 8) (offset n : ℕ) (value : BitVec 32) : ℕ → BitVec 8 :=
  if 32 < n then implementLoop 33 report 32 (offset / 8) (offset % 8) value
  else if n < 32 then
    let m := shl 1 n - 1
    implementLoop (n + 1) report n (offset / 8) (offset % 8)
      (if m.toNat < value.toNat then value &&& m else value)
  else implementLoop (n + 1) report n (offset / 8) (offset % 8) value

/-! ### Bits of the masks and of the two loops -/

/-- The mask `(1 << n) - 1` selects the low `n` bits. -/
theorem getLsbD_mask {n : ℕ} (hn : n < 32) (i : ℕ) :
    (shl 1 n - 1).getLsbD i = decide (i < n) := by
  have hpow : 2 ^ n < 2 ^ 32 := Nat.pow_lt_pow_right (by decide) hn
  have hpos : 0 < 2 ^ n := Nat.two_pow_pos n
  have hshl : (shl 1 n).toNat = 2 ^ n := by
    rw [shl, Nat.mod_eq_of_lt hn, BitVec.toNat_shiftLeft, Nat.shiftLeft_eq,
      show (1 : BitVec 32).toNat = 1 from rfl, Nat.one_mul, Nat.mod_eq_of_lt hpow]
  have hmask : (shl 1 n - 1).toNat = 2 ^ n - 1 := by
    rw [BitVec.toNat_sub, hshl, show (1 : BitVec 32).toNat = 1 from rfl]
    omega
  rw [← BitVec.testBit_toNat, hmask, Nat.testBit_two_pow_sub_one]

/-- What is collected of the stream: everything up to the wanted length. -/
theorem getLsbD_extractLoop (report : ℕ → BitVec 8) (fuel n idx bitNr bitShift : ℕ)
    (value : BitVec 32) (k : ℕ) (hfuel : n ≤ fuel) (hshift : bitShift < 8) (hk : k < 32)
    (hkn : k < bitNr + n) :
    (extractLoop report fuel n idx bitNr bitShift value).getLsbD k =
      (value.getLsbD k ||
        (decide (bitNr ≤ k) && bitAt report (8 * idx + bitShift + (k - bitNr)))) := by
  induction fuel generalizing n idx bitNr bitShift value with
  | zero =>
    have : ¬ bitNr ≤ k := by omega
    simp [extractLoop, this]
  | succ fuel ih =>
    by_cases hn : n = 0
    · have : ¬ bitNr ≤ k := by omega
      simp [extractLoop, hn, this]
    · rw [extractLoop, if_neg hn,
        ih (n - (8 - bitShift)) (idx + 1) (bitNr + (8 - bitShift)) 0 _ (by omega) (by omega)
          (by omega)]
      simp only [BitVec.getLsbD_or, BitVec.getLsbD_shiftLeft, BitVec.getLsbD_ushiftRight,
        BitVec.getLsbD_setWidth, hk, decide_true, Bool.true_and, Bool.or_assoc]
      congr 1
      unfold bitAt
      rcases Nat.lt_or_ge k bitNr with hlt | hge
      · simp [hlt, show ¬ bitNr ≤ k by omega, show ¬ bitNr + (8 - bitShift) ≤ k by omega]
      · rcases Nat.lt_or_ge k (bitNr + (8 - bitShift)) with hlt' | hge'
        · -- the bit is in the byte just read
          rw [show (8 * idx + bitShift + (k - bitNr)) / 8 = idx by omega,
            show (8 * idx + bitShift + (k - bitNr)) % 8 = bitShift + (k - bitNr) by omega]
          simp [hge, show ¬ k < bitNr by omega, show ¬ bitNr + (8 - bitShift) ≤ k by omega,
            show bitShift + (k - bitNr) < 32 by omega]
        · -- the bit is in a later byte; the byte just read has nothing there
          rw [show 8 * (idx + 1) + 0 + (k - (bitNr + (8 - bitShift))) =
            8 * idx + bitShift + (k - bitNr) by omega]
          simp [hge, hge', BitVec.getLsbD_of_ge (report idx) (bitShift + (k - bitNr)) (by omega)]

/-- `__extract` reads the `n` bits at `offset`. -/
theorem getLsbD_extract (report : ℕ → BitVec 8) (offset : ℕ) {n : ℕ} (hn : n ≤ 32) (k : ℕ) :
    (extract report offset n).getLsbD k = (decide (k < n) && bitAt report (offset + k)) := by
  rcases Nat.lt_or_ge k n with hk | hk
  · have hloop := getLsbD_extractLoop report n n (offset / 8) 0 (offset % 8) 0 k (Nat.le_refl n)
      (by omega) (by omega) (by omega)
    have hmask : ((if n < 32 then shl 1 n - 1 else BitVec.allOnes 32) : BitVec 32).getLsbD k =
        true := by
      split
      · rename_i h; rw [getLsbD_mask h]; simp [hk]
      · rw [BitVec.getLsbD_allOnes]; simp; omega
    rw [extract, BitVec.getLsbD_and, hloop, hmask]
    simp [hk, show 8 * (offset / 8) + offset % 8 + k = offset + k by omega]
  · have hmask : ((if n < 32 then shl 1 n - 1 else BitVec.allOnes 32) : BitVec 32).getLsbD k =
        false := by
      split
      · rename_i h; rw [getLsbD_mask h]; simp; omega
      · rw [BitVec.getLsbD_allOnes]; simp; omega
    rw [extract, BitVec.getLsbD_and, hmask]
    simp [show ¬ k < n by omega]

/-- `__implement` writes the low `n` bits of the value at the given position
and nothing else, provided the value has no more than `n` bits. -/
theorem bitAt_implementLoop (fuel : ℕ) (report : ℕ → BitVec 8) (n idx bitShift : ℕ)
    (value : BitVec 32) (j : ℕ) (hfuel : n < fuel) (hshift : bitShift < 8)
    (hvalue : ∀ k, n ≤ k → value.getLsbD k = false) :
    bitAt (implementLoop fuel report n idx bitShift value) j =
      if 8 * idx + bitShift ≤ j ∧ j < 8 * idx + bitShift + n then
        value.getLsbD (j - (8 * idx + bitShift))
      else bitAt report j := by
  induction fuel generalizing report n idx bitShift value with
  | zero => omega
  | succ fuel ih =>
    have hr : j % 8 < 8 := Nat.mod_lt _ (by decide)
    by_cases hfull : 8 - bitShift ≤ n
    · rw [implementLoop, if_pos hfull,
        ih _ (n - (8 - bitShift)) (idx + 1) 0 _ (by omega) (by omega)
          (fun k hk => by rw [BitVec.getLsbD_ushiftRight]; exact hvalue _ (by omega)),
        bitAt_update]
      simp only [BitVec.getLsbD_ushiftRight]
      by_cases hbyte : j / 8 = idx
      · -- within the byte of this round
        have hlo : ¬ (8 * (idx + 1) + 0 ≤ j ∧
            j < 8 * (idx + 1) + 0 + (n - (8 - bitShift))) := by omega
        rw [if_neg hlo, if_pos hbyte]
        simp only [BitVec.getLsbD_or, BitVec.getLsbD_and, BitVec.getLsbD_not,
          BitVec.getLsbD_shiftLeft, BitVec.getLsbD_setWidth, hr, decide_true, Bool.true_and]
        rcases Nat.lt_or_ge (j % 8) bitShift with hs | hs
        · rw [if_neg (by omega)]
          simp [hs, bitAt, hbyte]
        · rw [if_pos (by omega),
            show j - (8 * idx + bitShift) = j % 8 - bitShift by omega]
          have hones : (255#8).getLsbD (j % 8 - bitShift) = true := by
            rw [show (255#8 : BitVec 8) = BitVec.allOnes 8 from rfl, BitVec.getLsbD_allOnes]
            simp; omega
          simp [hones, show ¬ j % 8 < bitShift by omega, show j % 8 < 32 by omega]
      · rw [if_neg hbyte]
        by_cases hin : 8 * idx + bitShift ≤ j ∧ j < 8 * idx + bitShift + n
        · rw [if_pos hin, if_pos (by omega)]
          congr 1
          omega
        · rw [if_neg hin, if_neg (by omega)]
    · by_cases hn : n = 0
      · subst hn
        rw [implementLoop, if_neg hfull, if_neg (not_not_intro rfl), if_neg (by omega)]
      · simp only [implementLoop, hfull, if_false, hn, ne_eq, not_false_eq_true, if_true]
        rw [bitAt_update]
        by_cases hbyte : j / 8 = idx
        · rw [if_pos hbyte]
          simp only [BitVec.getLsbD_or, BitVec.getLsbD_and, BitVec.getLsbD_not,
            BitVec.getLsbD_shiftLeft, BitVec.getLsbD_setWidth, hr, decide_true, Bool.true_and,
            getLsbD_mask (show n < 32 by omega)]
          rcases Nat.lt_or_ge (j % 8) bitShift with hs | hs
          · rw [if_neg (by omega)]
            simp [hs, bitAt, hbyte]
          · rcases Nat.lt_or_ge (j % 8 - bitShift) n with hlt | hge
            · rw [if_pos (by omega),
                show j - (8 * idx + bitShift) = j % 8 - bitShift by omega]
              simp [hlt, show ¬ j % 8 < bitShift by omega, show j % 8 < 32 by omega,
                show j % 8 - bitShift < 8 by omega]
            · rw [if_neg (by omega)]
              simp [hvalue _ hge, show ¬ j % 8 - bitShift < n by omega, bitAt, hbyte]
        · rw [if_neg hbyte, if_neg (by omega)]

/-- The value fits in `n` bits. -/
def FitsIn (value : BitVec 32) (n : ℕ) : Prop := ∀ k, n ≤ k → value.getLsbD k = false

theorem fitsIn_of_lt {value : BitVec 32} {n : ℕ} (h : value.toNat < 2 ^ n) : FitsIn value n := by
  intro k hk
  rw [← BitVec.testBit_toNat]
  exact Nat.testBit_lt_two_pow (Nat.lt_of_lt_of_le h (Nat.pow_le_pow_right (by decide) hk))

/-- `implement` writes a value that fits to the `n` bits at `offset`. -/
theorem bitAt_implement (report : ℕ → BitVec 8) (offset : ℕ) {n : ℕ} (hn : n ≤ 32)
    {value : BitVec 32} (hvalue : FitsIn value n) (j : ℕ) :
    bitAt (implement report offset n value) j =
      if offset ≤ j ∧ j < offset + n then value.getLsbD (j - offset) else bitAt report j := by
  have hoff : 8 * (offset / 8) + offset % 8 = offset := by omega
  have hloop := fun v hv => bitAt_implementLoop (n + 1) report n (offset / 8) (offset % 8) v j
    (Nat.lt_succ_self n) (Nat.mod_lt _ (by decide)) hv
  rw [hoff] at hloop
  unfold implement
  rw [if_neg (by omega)]
  split
  · rename_i hlt
    have hmask : (if (shl 1 n - 1).toNat < value.toNat then value &&& (shl 1 n - 1) else value) =
        value := by
      split
      · apply BitVec.eq_of_getLsbD_eq
        intro i _
        rw [BitVec.getLsbD_and, getLsbD_mask hlt]
        rcases Nat.lt_or_ge i n with h | h
        · simp [h]
        · simp [hvalue i h]
      · rfl
    simp only [hmask]
    exact hloop value hvalue
  · exact hloop value hvalue

/-- What `implement` wrote is what `hid_field_extract` reads. -/
theorem hidFieldExtract_eq {report : ℕ → BitVec 8} {offset n : ℕ} (hn : n ≤ 32)
    {value : BitVec 32} (hvalue : FitsIn value n)
    (hbits : ∀ k, k < n → bitAt report (offset + k) = value.getLsbD k) :
    hidFieldExtract report offset n = value := by
  rw [hidFieldExtract, if_neg (by omega)]
  apply BitVec.eq_of_getLsbD_eq
  intro k _
  rw [getLsbD_extract report offset hn]
  rcases Nat.lt_or_ge k n with h | h
  · simp [h, hbits k h]
  · simp [show ¬ k < n by omega, hvalue k h]

/-- `hid_field_extract` reads the number formed by the `n` bits at `offset`. -/
theorem toNat_hidFieldExtract (report : ℕ → BitVec 8) (offset : ℕ) {n : ℕ} (hn : n ≤ 32) :
    (hidFieldExtract report offset n).toNat = numberAt report offset n := by
  rw [hidFieldExtract, if_neg (by omega)]
  apply Nat.eq_of_testBit_eq
  intro k
  rw [BitVec.testBit_toNat, getLsbD_extract report offset hn, testBit_numberAt]

/-- **Writing a field and reading it back.** Of all bits of a buffer `implement` changes those of
the field, to the binary digits of the value, the lowest one first. `hid_field_extract` reads
the value back, as it reads the number that the bits of a field form in any buffer. -/
theorem implement_extract (report : ℕ → BitVec 8) (offset n : ℕ) (value : BitVec 32) (hn : n ≤ 32)
    (hvalue : value.toNat < 2 ^ n) :
    (∀ j, bitAt (implement report offset n value) j =
      if offset ≤ j ∧ j < offset + n then value.toNat.testBit (j - offset) else bitAt report j) ∧
    hidFieldExtract (implement report offset n value) offset n = value ∧
    (hidFieldExtract report offset n).toNat = numberAt report offset n := by
  have hbits := fun j => bitAt_implement report offset hn (fitsIn_of_lt hvalue) j
  refine ⟨fun j => ?_, ?_, toNat_hidFieldExtract report offset hn⟩
  · rw [hbits, BitVec.testBit_toNat]
  · refine hidFieldExtract_eq hn (fitsIn_of_lt hvalue) fun k hk => ?_
    rw [hbits, if_pos (by omega), Nat.add_sub_cancel_left]

/-- A 32-bit field that lies in five bytes. -/
theorem implement_extract_five_bytes :
    hidFieldExtract (implement (fun _ => 0xa5) 7 32 0xdeadbeef) 7 32 = 0xdeadbeef ∧
      bitAt (implement (fun _ => 0xa5) 7 32 0xdeadbeef) 6 = bitAt (fun _ => 0xa5) 6 := by
  obtain ⟨hbits, hread, -⟩ := implement_extract (fun _ => 0xa5) 7 32 0xdeadbeef (by decide) (by decide)
  exact ⟨hread, (hbits 6).trans (if_neg (by decide))⟩

/-! ### Signed values -/

/-- The `n`-bit two's complement numbers. -/
def InRange (n : ℕ) (value : BitVec 32) : Prop :=
  -2 ^ (n - 1) ≤ value.toInt ∧ value.toInt ≤ 2 ^ (n - 1) - 1

/-- On a value that fits, `snto32` is sign extension. -/
theorem snto32_eq_signExtend {n : ℕ} (hn : 1 ≤ n) (hn' : n ≤ 32) {value : BitVec 32}
    (hvalue : FitsIn value n) : snto32 value n = (value.setWidth n).signExtend 32 := by
  unfold snto32
  split
  · rename_i h
    rcases h with rfl | rfl
    · apply BitVec.eq_of_getLsbD_eq
      intro i hi
      simp [BitVec.getLsbD_signExtend, BitVec.msb_eq_getLsbD_last]
    · omega
  split
  · rename_i h; subst h; rfl
  split
  · rename_i h; subst h; rfl
  split
  · rename_i h; subst h; simp
  have hlt : n < 32 := by omega
  have hbit : (value &&& shl 1 (predCount n) ≠ 0) ↔ value.getLsbD (n - 1) = true := by
    have hpred : predCount n = n - 1 := by unfold predCount; omega
    rw [hpred, shl, Nat.mod_eq_of_lt (by omega),
      show (1 : BitVec 32) <<< (n - 1) = BitVec.twoPow 32 (n - 1) by
        rw [BitVec.twoPow_eq]; rfl]
    rw [BitVec.and_twoPow]
    split
    · rename_i h
      simp only [h, iff_true, ne_eq]
      intro hz
      have := congrArg (fun x => x.getLsbD (n - 1)) hz
      simp at this
      omega
    · simp_all
  have hmsb : (value.setWidth n).msb = value.getLsbD (n - 1) := by
    rw [BitVec.msb_eq_getLsbD_last, BitVec.getLsbD_setWidth]
    simp [show n - 1 < n by omega]
  apply BitVec.eq_of_getLsbD_eq
  intro i hi
  rw [BitVec.getLsbD_signExtend, hmsb]
  split
  · rename_i h
    rw [hbit] at h
    simp only [BitVec.getLsbD_or, shl, BitVec.getLsbD_shiftLeft, Nat.mod_eq_of_lt hlt, hi,
      decide_true, Bool.true_and, BitVec.getLsbD_setWidth, BitVec.getLsbD_allOnes, h]
    by_cases hin : i < n
    · simp [hin]
    · simp [hin, show i - n < 32 by omega]
  · rename_i h
    rw [hbit, Bool.not_eq_true] at h
    simp only [BitVec.getLsbD_setWidth, h]
    by_cases hin : i < n
    · simp [hin, hi]
    · simp [hin, hvalue i (by omega)]

theorem predCount_eq {n : ℕ} (hn : 1 ≤ n) (hn' : n ≤ 32) : predCount n = n - 1 := by
  unfold predCount
  omega

/-- Sign extension makes all bits from the sign bit on equal. -/
def SignBitsEqual (n : ℕ) (value : BitVec 32) : Prop :=
  ∀ i, n - 1 ≤ i → i < 32 → value.getLsbD i = value.getLsbD (n - 1)

theorem signBitsEqual_signExtend {n : ℕ} (hn : 1 ≤ n) (value : BitVec 32) :
    SignBitsEqual n ((value.setWidth n).signExtend 32) := by
  intro i hlo hi
  have hlast : (value.setWidth n).msb = (value.setWidth n).getLsbD (n - 1) :=
    BitVec.msb_eq_getLsbD_last _
  simp only [BitVec.getLsbD_signExtend, hi, show n - 1 < 32 by omega, show n - 1 < n by omega,
    decide_true, Bool.true_and, if_true]
  split
  · rw [show i = n - 1 by omega]
  · exact hlast

/-- The first test of `s32ton`. -/
theorem sshiftRight_eq_iff {n : ℕ} (hn : 1 ≤ n) (hn' : n ≤ 32) (value : BitVec 32) :
    (value.sshiftRight (predCount n) = 0 ∨ value.sshiftRight (predCount n) = -1) ↔
      SignBitsEqual n value := by
  rw [predCount_eq hn hn']
  have hbit : ∀ i, i < 32 → (value.sshiftRight (n - 1)).getLsbD i =
      if n - 1 + i < 32 then value.getLsbD (n - 1 + i) else value.msb := by
    intro i hi
    rw [BitVec.getLsbD_sshiftRight]
    simp [show ¬ 32 ≤ i by omega]
  have hmsb : value.msb = value.getLsbD 31 := BitVec.msb_eq_getLsbD_last _
  constructor
  · -- every sign bit is a bit of the shifted value, and those are all equal
    rintro h i hlo hi
    have h₁ := hbit (i - (n - 1)) (by omega)
    have h₂ := hbit 0 (by omega)
    rw [if_pos (by omega), show n - 1 + (i - (n - 1)) = i by omega] at h₁
    rw [if_pos (by omega), Nat.add_zero] at h₂
    rw [← h₁, ← h₂]
    rcases h with h | h
    · rw [h]; simp
    · rw [h, show (-1 : BitVec 32) = BitVec.allOnes 32 from rfl]
      simp only [BitVec.getLsbD_allOnes]
      simp; omega
  · intro h
    have hall : ∀ i, i < 32 → (value.sshiftRight (n - 1)).getLsbD i = value.getLsbD (n - 1) := by
      intro i hi
      rw [hbit i hi]
      split
      · exact h _ (by omega) (by omega)
      · rw [hmsb]; exact h _ (by omega) (by omega)
    cases hsign : value.getLsbD (n - 1) with
    | false =>
      left
      apply BitVec.eq_of_getLsbD_eq
      intro i hi
      rw [hall i hi, hsign]
      simp
    | true =>
      right
      apply BitVec.eq_of_getLsbD_eq
      intro i hi
      rw [hall i hi, hsign, show (-1 : BitVec 32) = BitVec.allOnes 32 from rfl,
        BitVec.getLsbD_allOnes]
      simp [hi]

/-- All sign bits are equal exactly on the `n`-bit numbers. -/
theorem signBitsEqual_iff_inRange {n : ℕ} (hn : 1 ≤ n) (hn' : n ≤ 32) (value : BitVec 32) :
    SignBitsEqual n value ↔ InRange n value := by
  rw [← sshiftRight_eq_iff hn hn', predCount_eq hn hn']
  have hshift : (value.sshiftRight (n - 1)).toInt = value.toInt / 2 ^ (n - 1) := by
    rw [BitVec.toInt_sshiftRight, Int.shiftRight_eq_div_pow]
    rfl
  have hzero : value.sshiftRight (n - 1) = 0 ↔ value.toInt / 2 ^ (n - 1) = 0 := by
    rw [← hshift, ← BitVec.toInt_inj]
    rfl
  have hneg : value.sshiftRight (n - 1) = -1 ↔ value.toInt / 2 ^ (n - 1) = -1 := by
    rw [← hshift, ← BitVec.toInt_inj]
    rfl
  have hpos : (0 : ℤ) < 2 ^ (n - 1) := by exact Int.pow_pos (by decide)
  rw [hzero, hneg, InRange]
  generalize (2 : ℤ) ^ (n - 1) = p at hpos ⊢
  generalize value.toInt = v
  have hdiv := Int.mul_ediv_add_emod v p
  have hmod := Int.emod_nonneg v (show p ≠ 0 by omega)
  have hmod' := Int.emod_lt_of_pos v hpos
  constructor
  · rintro (h | h) <;> rw [h] at hdiv <;> omega
  · rintro ⟨h₁, h₂⟩
    rcases Int.lt_or_le v 0 with hv | hv
    · right
      exact Int.ediv_eq_neg_one_of_neg_of_le hv (by omega)
    · left
      exact Int.ediv_eq_zero_of_lt hv (by omega)

/-- The result of `s32ton` has at most `n` bits. -/
theorem fitsIn_s32ton {n : ℕ} (hn : 1 ≤ n) (hn' : n ≤ 32) (value : BitVec 32) :
    FitsIn (s32ton value n) n := by
  intro k hk
  rcases Nat.lt_or_ge n 32 with hlt | hge
  · simp only [s32ton, predCount_eq hn hn']
    split
    · split
      · simp only [shl, BitVec.getLsbD_shiftLeft, Nat.mod_eq_of_lt (show n - 1 < 32 by omega)]
        rw [show (1 : BitVec 32) = BitVec.twoPow 32 0 from rfl, BitVec.getLsbD_twoPow]
        simp [show ¬ 0 = k - (n - 1) by omega]
      · rw [getLsbD_mask (by omega)]
        simp; omega
    · rw [BitVec.getLsbD_and, getLsbD_mask hlt]
      simp [show ¬ k < n by omega]
  · exact BitVec.getLsbD_of_ge _ _ (by omega)

theorem signExtend_setWidth_mask {n : ℕ} (hn : 1 ≤ n) (hlt : n < 32) {value : BitVec 32}
    (h : SignBitsEqual n value) :
    ((value &&& (shl 1 n - 1)).setWidth n).signExtend 32 = value := by
  have hmsb : ((value &&& (shl 1 n - 1)).setWidth n).msb = value.getLsbD (n - 1) := by
    rw [BitVec.msb_eq_getLsbD_last, BitVec.getLsbD_setWidth, BitVec.getLsbD_and,
      getLsbD_mask hlt]
    simp [show n - 1 < n by omega]
  apply BitVec.eq_of_getLsbD_eq
  intro i hi
  rw [BitVec.getLsbD_signExtend, hmsb]
  by_cases hin : i < n
  · simp only [hi, hin, decide_true, Bool.true_and, if_true, BitVec.getLsbD_setWidth,
      BitVec.getLsbD_and, getLsbD_mask hlt, Bool.and_true]
  · simp only [hi, hin, decide_true, Bool.true_and, if_false]
    exact (h i (by omega) hi).symm

/-- The range test of `hid_set_field` on fewer than 32 bits. -/
theorem eq_snto32_s32ton_iff {n : ℕ} (hn : 1 ≤ n) (hlt : n < 32) (value : BitVec 32) :
    value = snto32 (s32ton value n) n ↔ InRange n value := by
  have hle : n ≤ 32 := Nat.le_of_lt hlt
  rw [snto32_eq_signExtend hn hle (fitsIn_s32ton hn hle value),
    ← signBitsEqual_iff_inRange hn hle]
  constructor
  · intro h
    rw [h]
    exact signBitsEqual_signExtend hn _
  · intro h
    have hton : s32ton value n = value &&& (shl 1 n - 1) := by
      unfold s32ton
      rw [if_neg]
      rintro ⟨h₁, h₂⟩
      exact ((sshiftRight_eq_iff hn hle value).mpr h).elim h₁ h₂
    rw [hton, signExtend_setWidth_mask hn hlt h]

/-- On 32 bits the mask of `s32ton` is empty, and every value becomes 0. -/
theorem s32ton_32 (value : BitVec 32) : s32ton value 32 = 0 := by
  have htest : value.sshiftRight (predCount 32) = 0 ∨ value.sshiftRight (predCount 32) = -1 := by
    rw [sshiftRight_eq_iff (by decide) (by decide)]
    intro i hlo hi
    rw [show i = 32 - 1 by omega]
  unfold s32ton
  rw [if_neg (fun h => htest.elim h.1 h.2)]
  simp [shl]

theorem inRange_32 (value : BitVec 32) : InRange 32 value := by
  have h₁ := BitVec.le_toInt value
  have h₂ := BitVec.toInt_lt (x := value)
  constructor <;> simp at * <;> omega

/-- When the range test of `hid_set_field` does what it is for. -/
theorem range_test_iff {n : ℕ} (hn : 1 ≤ n) (hn' : n ≤ 32) (value : BitVec 32) :
    (value = snto32 (s32ton value n) n ↔ InRange n value) ↔ (n < 32 ∨ value = 0) := by
  rcases Nat.lt_or_ge n 32 with hlt | hge
  · simp [hlt, eq_snto32_s32ton_iff hn hlt value]
  · obtain rfl : n = 32 := by omega
    rw [s32ton_32]
    simp [snto32, inRange_32]

end GfpDrivers.Hid
