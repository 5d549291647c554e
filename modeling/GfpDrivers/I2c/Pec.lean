import GfpDrivers.Basic
import GfpDrivers.Lib.BitPoly
import Mathlib.Tactic.ComputeDegree

/-!
Packet error checking on the SMBus (`i2c-core-smbus.c`). The byte that is sent after a message is its CRC: the
remainder of the message, moved up by 8 bits, modulo `x^8 + x^2 + x + 1`. The polynomial is kept at the upper end of 16
bits and the data is moved up under it.

The bytes are counted in an `int`. When it gets negative it is no longer below the count, which is a `size_t`.
-/

namespace GfpDrivers.I2c

open Lib Polynomial

def EBADMSG : ℤ := 74

/-- A value that is put into an `int`. -/
def toInt (z : ℤ) : ℤ := z.bmod (2 ^ 32)

/-- `POLY` -/
def POLY : BitVec 16 := 0x1070 <<< 3

/-- The body of the loop of `crc8`. -/
def crcBit (data : BitVec 16) : BitVec 16 := (if data.getLsbD 15 then data ^^^ POLY else data) <<< 1

/-- `crc8` -/
def crc8 (data : BitVec 16) : BitVec 8 := ((crcBit^[8] data) >>> 8).setWidth 8

/-- The loop of `i2c_smbus_pec`, where the bytes are those from `p[i]` on. -/
def pecLoop : ℤ → BitVec 8 → List (BitVec 8) → BitVec 8
  | _, crc, [] => crc
  | i, crc, b :: bytes =>
      if i < 0 then crc else pecLoop (toInt (i + 1)) (crc8 ((crc ^^^ b).setWidth 16 <<< 8)) bytes

/-- `i2c_smbus_pec` -/
def i2cSmbusPec (crc : BitVec 8) (bytes : List (BitVec 8)) : BitVec 8 := pecLoop 0 crc bytes

/-- `struct i2c_msg` -/
structure I2cMsg where
  addr : BitVec 16
  flags : BitVec 16
  len : ℕ
  buf : List (BitVec 8)

/-- `i2c_8bit_addr_from_msg` -/
def i2c8bitAddrFromMsg (msg : I2cMsg) : BitVec 8 :=
  (msg.addr <<< 1 ||| if msg.flags.getLsbD 0 then 1 else 0).setWidth 8

/-- `i2c_smbus_msg_pec` -/
def i2cSmbusMsgPec (pec : BitVec 8) (msg : I2cMsg) : BitVec 8 :=
  i2cSmbusPec (i2cSmbusPec pec [i2c8bitAddrFromMsg msg]) (msg.buf.take msg.len)

/-- `i2c_smbus_check_pec`: the message is shortened by the byte that is checked. -/
def i2cSmbusCheckPec (cpec : BitVec 8) (msg : I2cMsg) : I2cMsg × ℤ :=
  let msg := { msg with len := (msg.len + 2 ^ 16 - 1) % 2 ^ 16 }
  let rpec := msg.buf.getD msg.len 0
  (msg, if rpec ≠ i2cSmbusMsgPec cpec msg then -EBADMSG else 0)

/-! ### The CRC of one byte -/

/-- `x^8 + x^2 + x + 1` -/
noncomputable def crcPoly : BitPoly := X ^ 8 + X ^ 2 + X + 1

variable {crc : BitVec 8} {bytes : List (BitVec 8)} {data : BitVec 16} {i : ℤ} {n : ℕ}

theorem monic_crcPoly : crcPoly.Monic := by
  have hlow : (X ^ 2 + X + 1 : BitPoly).degree < (8 : ℕ) := by compute_degree!
  have hmonic := monic_X_pow_add hlow
  rwa [← add_assoc, ← add_assoc] at hmonic

theorem natDegree_crcPoly : crcPoly.natDegree = 8 := by
  unfold crcPoly
  compute_degree!

theorem coeff_zero_crcPoly : crcPoly.coeff 0 = 1 := by
  simp [crcPoly, coeff_one]

theorem toPoly_POLY : toPoly POLY = X ^ 7 * crcPoly := by
  have hbits : toPoly POLY = X ^ 7 + X ^ 8 + X ^ 9 + X ^ 15 := by
    simp [toPoly, Finset.sum_range_succ, POLY]
  rw [hbits, crcPoly]
  ring

/-- A step multiplies by `X` and takes the polynomial off, once if the highest bit is set. -/
theorem toPoly_crcBit (data : BitVec 16) : ∃ q : BitPoly, toPoly (crcBit data) = X * toPoly data + X ^ 8 * crcPoly * q := by
  unfold crcBit
  cases hbit : data.getLsbD 15 with
  | false => exact ⟨0, by rw [if_neg Bool.false_ne_true, toPoly_shiftLeft_one hbit, mul_zero, add_zero]⟩
  | true =>
    have hclear : (data ^^^ POLY).getLsbD 15 = false := by
      rw [BitVec.getLsbD_xor, hbit]
      decide
    refine ⟨1, ?_⟩
    rw [if_pos rfl, toPoly_shiftLeft_one hclear, toPoly_xor, toPoly_POLY]
    ring

theorem toPoly_iterate_crcBit (n : ℕ) (data : BitVec 16) :
    ∃ q : BitPoly, toPoly (crcBit^[n] data) = X ^ n * toPoly data + X ^ 8 * crcPoly * q := by
  induction n generalizing data with
  | zero => exact ⟨0, by simp⟩
  | succ n ih =>
    obtain ⟨q, hq⟩ := ih (crcBit data)
    obtain ⟨q', hq'⟩ := toPoly_crcBit data
    refine ⟨X ^ n * q' + q, ?_⟩
    rw [Function.iterate_succ_apply, hq, hq']
    ring

/-- `crc8` of a byte in the upper half is its remainder, moved up by 8 bits. -/
theorem toPoly_crc8 (b : BitVec 8) :
    ∃ q : BitPoly, toPoly (crc8 (b.setWidth 16 <<< 8)) = X ^ 8 * toPoly b + crcPoly * q := by
  obtain ⟨q, hq⟩ := toPoly_iterate_crcBit 8 (b.setWidth 16 <<< 8)
  refine ⟨q, toPoly_ushiftRight (w := 8) (k := 8) ?_⟩
  rw [hq, toPoly_setWidth_shiftLeft b (Nat.le_refl 16)]
  ring

/-! ### The CRC of a string of bytes -/

/-- The CRC goes on by one byte. -/
def pecStep (crc b : BitVec 8) : BitVec 8 := crc8 ((crc ^^^ b).setWidth 16 <<< 8)

theorem pecLoop_of_neg (hi : i < 0) (crc : BitVec 8) (bytes : List (BitVec 8)) : pecLoop i crc bytes = crc := by
  cases bytes with
  | nil => rfl
  | cons b bytes => rw [pecLoop, if_pos hi]

theorem pecLoop_eq (n : ℕ) (hn : n < 2 ^ 31) (crc : BitVec 8) (bytes : List (BitVec 8)) :
    pecLoop n crc bytes = (bytes.take (2 ^ 31 - n)).foldl pecStep crc := by
  induction bytes generalizing n crc with
  | nil => rw [List.take_nil]; rfl
  | cons b bytes ih =>
    obtain ⟨k, hk⟩ := Nat.exists_eq_add_of_lt hn
    have htake : 2 ^ 31 - n = k + 1 := by omega
    rw [pecLoop, if_neg (by omega), htake, List.take_succ_cons, List.foldl_cons, pecStep]
    rcases Nat.eq_zero_or_pos k with rfl | hpos
    · have hneg : toInt ((n : ℤ) + 1) < 0 := by
        unfold toInt
        rw [Int.bmod_def]
        split_ifs <;> omega
      rw [pecLoop_of_neg hneg]
      rfl
    · have hsucc : toInt ((n : ℤ) + 1) = ((n + 1 : ℕ) : ℤ) := by
        unfold toInt
        rw [Int.bmod_def, if_pos (by omega)]
        omega
      have hk' : k = 2 ^ 31 - (n + 1) := by omega
      rw [hsucc, ih (n + 1) (by omega), ← hk']

theorem i2cSmbusPec_eq (crc : BitVec 8) (bytes : List (BitVec 8)) :
    i2cSmbusPec crc bytes = (bytes.take (2 ^ 31)).foldl pecStep crc := by
  have hloop := pecLoop_eq 0 (by decide) crc bytes
  rwa [Nat.cast_zero, Nat.sub_zero] at hloop

theorem i2cSmbusPec_of_le (h : bytes.length ≤ 2 ^ 31) (crc : BitVec 8) :
    i2cSmbusPec crc bytes = bytes.foldl pecStep crc := by
  rw [i2cSmbusPec_eq, List.take_of_length_le h]

theorem toPoly_foldl_pecStep (crc : BitVec 8) (bytes : List (BitVec 8)) :
    ∃ q : BitPoly, toPoly (bytes.foldl pecStep crc) =
      toPoly crc * X ^ (8 * bytes.length) + bytesPoly bytes * X ^ 8 + crcPoly * q := by
  induction bytes generalizing crc with
  | nil => exact ⟨0, by simp [bytesPoly]⟩
  | cons b bytes ih =>
    obtain ⟨q, hq⟩ := ih (pecStep crc b)
    obtain ⟨q', hq'⟩ := toPoly_crc8 (crc ^^^ b)
    refine ⟨q' * X ^ (8 * bytes.length) + q, ?_⟩
    rw [List.foldl_cons, hq, pecStep, hq', toPoly_xor, bytesPoly_cons, List.length_cons]
    ring

theorem modByMonic_crcPoly_toPoly (v : BitVec 8) : toPoly v %ₘ crcPoly = toPoly v := by
  refine (modByMonic_eq_self_iff monic_crcPoly).mpr ?_
  rw [degree_eq_natDegree monic_crcPoly.ne_zero, natDegree_crcPoly]
  exact degree_toPoly_lt v

theorem toPoly_foldl_eq_mod (bytes : List (BitVec 8)) :
    toPoly (bytes.foldl pecStep 0) = (bytesPoly bytes * X ^ 8) %ₘ crcPoly := by
  obtain ⟨q, hq⟩ := toPoly_foldl_pecStep 0 bytes
  rw [toPoly_zero, zero_mul, zero_add] at hq
  rw [← modByMonic_crcPoly_toPoly, hq, add_modByMonic, (modByMonic_eq_zero_iff_dvd monic_crcPoly).mpr (dvd_mul_right ..),
    add_zero]

/-- The CRC of a string is a given byte exactly if the string with this byte behind it is divided. -/
theorem foldl_pecStep_eq_iff (crc r : BitVec 8) (bytes : List (BitVec 8)) :
    bytes.foldl pecStep crc = r ↔ crcPoly ∣ toPoly crc * X ^ (8 * bytes.length) + bytesPoly (bytes ++ [r]) := by
  obtain ⟨q, hq⟩ := toPoly_foldl_pecStep crc bytes
  have hsum : toPoly crc * X ^ (8 * bytes.length) + bytesPoly (bytes ++ [r]) + crcPoly * q =
      toPoly (bytes.foldl pecStep crc ^^^ r) := by
    rw [bytesPoly_concat, toPoly_xor, hq]
    ring
  have hzero : toPoly (0#8) = 0 := toPoly_zero
  rw [← (dvd_add_left (dvd_mul_right crcPoly q)), hsum, ← BitVec.xor_eq_zero_iff, ← toPoly_inj, hzero]
  refine ⟨fun h => h ▸ dvd_zero _, fun h => ?_⟩
  have hmod := modByMonic_crcPoly_toPoly (bytes.foldl pecStep crc ^^^ r)
  rw [← hmod]
  exact (modByMonic_eq_zero_iff_dvd monic_crcPoly).mpr h

/-! ### Messages -/

/-- Some bits are wrong, and all of them are among 8 consecutive ones. -/
def ShortBurst (e : List (BitVec 8)) : Prop :=
  (∃ b ∈ e, b ≠ 0) ∧
    ∃ k, ∀ j i, i < 8 → (e.reverse.getD j 0).getLsbD i = true → k ≤ 8 * j + i ∧ 8 * j + i < k + 8

theorem ShortBurst.isBurst {e : List (BitVec 8)} (h : ShortBurst e) : IsBurst 8 (bytesPoly e) := by
  obtain ⟨⟨b, hb, hne⟩, k, hk⟩ := h
  refine ⟨fun hzero => hne ?_, k, fun i hi => ?_⟩
  · obtain ⟨j, hj⟩ := List.mem_iff_getElem?.mp (List.mem_reverse.mpr hb)
    refine BitVec.eq_of_getLsbD_eq fun i hi => ?_
    have hcoeff := coeff_bytesPoly e j hi
    rw [hzero, coeff_zero, List.getD_eq_getElem?_getD, hj, Option.getD_some] at hcoeff
    cases hbit : b.getLsbD i with
    | false => simp
    | true => simp [hbit] at hcoeff
  · have hcoeff := coeff_bytesPoly e (i / 8) (Nat.mod_lt i (by decide : 0 < 8))
    rw [Nat.div_add_mod] at hcoeff
    rw [hcoeff] at hi
    have hbit : (e.reverse.getD (i / 8) 0).getLsbD (i % 8) = true := by
      by_contra hfalse
      exact hi (if_neg hfalse)
    have hbound := hk (i / 8) (i % 8) (Nat.mod_lt i (by decide)) hbit
    rwa [Nat.div_add_mod] at hbound

variable {cpec : BitVec 8} {msg : I2cMsg} {recv rest data : List (BitVec 8)}

/-- The CRC after the address. -/
def addrPec (cpec : BitVec 8) (msg : I2cMsg) : BitVec 8 := i2cSmbusPec cpec [i2c8bitAddrFromMsg msg]

theorem msgPec_eq (cpec : BitVec 8) {front tail : List (BitVec 8)} (hbuf : msg.buf = front ++ tail) (hfront : front.length = n)
    (hn : n ≤ 2 ^ 31) : i2cSmbusMsgPec cpec { msg with len := n } = front.foldl pecStep (addrPec cpec msg) := by
  have htake : msg.buf.take n = front := by
    rw [hbuf, ← hfront]
    exact List.take_left
  rw [i2cSmbusMsgPec, htake, i2cSmbusPec_of_le (by omega)]
  rfl

theorem checkPec_eq_zero_iff (hlen : msg.len = n + 1) (hmax : msg.len < 2 ^ 16) (hbuf : msg.buf = recv ++ rest)
    (hrecv : recv.length = n + 1) :
    (i2cSmbusCheckPec cpec msg).2 = 0 ↔ crcPoly ∣ toPoly (addrPec cpec msg) * X ^ (8 * n) + bytesPoly recv := by
  obtain ⟨front, r, rfl⟩ : ∃ front r, recv = front ++ [r] :=
    ⟨_, _, (List.dropLast_append_getLast (List.ne_nil_of_length_eq_add_one hrecv)).symm⟩
  have hfront : front.length = n := by simpa using hrecv
  have hshort : (msg.len + 2 ^ 16 - 1) % 2 ^ 16 = n := by omega
  have hr : msg.buf.getD n 0 = r := by
    rw [hbuf, List.append_assoc, ← hfront]
    simp
  have hpec : i2cSmbusMsgPec cpec { msg with len := n } = front.foldl pecStep (addrPec cpec msg) :=
    msgPec_eq cpec (hbuf.trans (List.append_assoc ..)) hfront (by omega)
  rw [i2cSmbusCheckPec]
  dsimp only
  rw [hshort, hr, hpec, ← hfront, ← foldl_pecStep_eq_iff]
  split_ifs with hne
  · exact iff_of_false (by decide) (Ne.symm hne)
  · exact iff_of_true rfl (not_not.mp hne).symm

theorem checkPec_ret (cpec : BitVec 8) (msg : I2cMsg) (h : (i2cSmbusCheckPec cpec msg).2 ≠ 0) :
    (i2cSmbusCheckPec cpec msg).2 = -EBADMSG := by
  rw [i2cSmbusCheckPec] at h ⊢
  dsimp only at h ⊢
  split_ifs at h ⊢
  · rfl
  · exact absurd rfl h

/-- The CRC of every string of `n` bytes is its remainder, and can be computed in two parts. -/
def PecRight (n : ℕ) : Prop :=
  ∀ bytes : List (BitVec 8), bytes.length = n →
    toPoly (i2cSmbusPec 0 bytes) = (bytesPoly bytes * X ^ 8) %ₘ crcPoly ∧
      ∀ crc a b, bytes = a ++ b → i2cSmbusPec crc bytes = i2cSmbusPec (i2cSmbusPec crc a) b

theorem pecRight_of_le (h : n ≤ 2 ^ 31) : PecRight n := by
  rintro bytes rfl
  refine ⟨by rw [i2cSmbusPec_of_le h, toPoly_foldl_eq_mod], ?_⟩
  rintro crc a b rfl
  rw [List.length_append] at h
  rw [i2cSmbusPec_of_le (by rwa [List.length_append]), List.foldl_append, i2cSmbusPec_of_le (by omega),
    i2cSmbusPec_of_le (by omega)]

theorem foldl_pecStep_zeros (n : ℕ) : (List.replicate n 0).foldl pecStep 0 = 0 := by
  have hstep : pecStep 0 0 = 0 := by decide
  induction n with
  | zero => rfl
  | succ n ih => rw [List.replicate_succ, List.foldl_cons, hstep, ih]

theorem bytesPoly_zeros (n : ℕ) : bytesPoly (List.replicate n 0) = 0 := by
  induction n with
  | zero => rfl
  | succ n ih => rw [List.replicate_succ, bytesPoly_cons, ih, toPoly_zero, zero_mul, add_zero]

/-- The last byte of a string that is too long is not looked at. -/
theorem lastByte_unseen (h : 2 ^ 31 ≤ n) :
    toPoly (i2cSmbusPec 0 (List.replicate n 0 ++ [1])) ≠
      (bytesPoly (List.replicate n 0 ++ [1]) * X ^ 8) %ₘ crcPoly := by
  have hpoly : bytesPoly (List.replicate n 0 ++ [1]) * X ^ 8 = X ^ 8 := by
    have hone : toPoly (1 : BitVec 8) = 1 := by simp [toPoly]
    rw [bytesPoly_concat, bytesPoly_zeros, hone]
    ring
  have hzero : i2cSmbusPec 0 (List.replicate n 0 ++ [1]) = 0 := by
    rw [i2cSmbusPec_eq, List.take_append_of_le_length (by rwa [List.length_replicate]), List.take_replicate]
    exact foldl_pecStep_zeros _
  have hburst : IsBurst 8 (X ^ 8 : BitPoly) := by
    refine ⟨pow_ne_zero 8 X_ne_zero, 8, fun i hi => ?_⟩
    rw [coeff_X_pow] at hi
    have heq : i = 8 := by
      by_contra hne
      exact hi (if_neg hne)
    omega
  rw [hpoly, hzero, toPoly_zero]
  intro hmod
  exact not_dvd_burst coeff_zero_crcPoly (Nat.le_of_eq natDegree_crcPoly.symm) hburst
    ((modByMonic_eq_zero_iff_dvd monic_crcPoly).mp hmod.symm)

/-- The CRC is the remainder for all strings of up to 2^31 bytes and no longer ones. A message that is read without an
error passes the check, and one with a burst of up to 8 wrong bits does not. -/
theorem smbusPec_iff (n : ℕ) :
    (PecRight n ↔ n ≤ 2 ^ 31) ∧
      ∀ (cpec : BitVec 8) (msg : I2cMsg) (data rest : List (BitVec 8)), msg.len = data.length + 1 → msg.len < 2 ^ 16 →
        msg.buf = data ++ [i2cSmbusMsgPec cpec { msg with len := data.length }] ++ rest →
        (i2cSmbusCheckPec cpec msg).2 = 0 ∧
          ∀ e : List (BitVec 8), e.length = msg.len → ShortBurst e →
            (i2cSmbusCheckPec cpec { msg with buf := List.zipWith (· ^^^ ·) (msg.buf.take msg.len) e ++ rest }).2 =
              -EBADMSG := by
  refine ⟨⟨fun h => ?_, pecRight_of_le⟩, fun cpec msg data rest hlen hmax hbuf => ?_⟩
  · by_contra hgt
    obtain ⟨m, rfl⟩ := Nat.exists_eq_add_of_le' (Nat.one_le_of_lt (not_le.mp hgt))
    exact lastByte_unseen (by omega) (h (List.replicate m 0 ++ [1]) (by simp)).1
  · have hpec := msgPec_eq cpec (hbuf.trans (List.append_assoc ..)) rfl (by omega)
    rw [hpec] at hbuf
    have hdvd := (foldl_pecStep_eq_iff (addrPec cpec msg) _ data).mp rfl
    refine ⟨(checkPec_eq_zero_iff hlen hmax hbuf (by simp)).mpr hdvd, fun e he hburst => checkPec_ret _ _ fun hzero => ?_⟩
    have htake : msg.buf.take msg.len = data ++ [data.foldl pecStep (addrPec cpec msg)] := by
      rw [hbuf, hlen]
      exact List.take_left' (by simp)
    have hrecv : (List.zipWith (· ^^^ ·) (msg.buf.take msg.len) e).length = data.length + 1 := by
      rw [htake, List.length_zipWith, he, hlen]
      simp
    have hpoly : bytesPoly (List.zipWith (· ^^^ ·) (msg.buf.take msg.len) e) =
        bytesPoly (data ++ [data.foldl pecStep (addrPec cpec msg)]) + bytesPoly e := by
      rw [htake, bytesPoly_zipWith_xor (by simp [he, hlen])]
    generalize List.zipWith (· ^^^ ·) (msg.buf.take msg.len) e = recv at hzero hrecv hpoly
    have hlen' : ({ msg with buf := recv ++ rest } : I2cMsg).len = data.length + 1 := hlen
    have hbad : crcPoly ∣ toPoly (addrPec cpec msg) * X ^ (8 * data.length) + bytesPoly recv :=
      (checkPec_eq_zero_iff hlen' hmax rfl hrecv).mp hzero
    rw [hpoly, ← add_assoc] at hbad
    exact not_dvd_burst coeff_zero_crcPoly (Nat.le_of_eq natDegree_crcPoly.symm) hburst.isBurst
      ((dvd_add_right hdvd).mp hbad)

/-- One byte that is read, and its CRC. -/
def oneByte : I2cMsg := ⟨0x50, 1, 2, [0x12, i2cSmbusMsgPec 0 ⟨0x50, 1, 1, [0x12]⟩]⟩

theorem oneByte_checked :
    (i2cSmbusCheckPec 0 oneByte).2 = 0 ∧
      (i2cSmbusCheckPec 0 { oneByte with buf := List.zipWith (· ^^^ ·) (oneByte.buf.take 2) [0x01, 0x80] ++ [] }).2 =
        -EBADMSG := by
  obtain ⟨hgood, hbad⟩ := (smbusPec_iff 2).2 0 oneByte [0x12] [] rfl (by decide) rfl
  refine ⟨hgood, hbad [0x01, 0x80] rfl ⟨⟨0x01, by decide, by decide⟩, 7, fun j i hi hbit => ?_⟩⟩
  -- the last bit of the first byte and the first one of the second
  rcases j with _ | _ | j
  · have hseven : ∀ i < 8, (0x80 : BitVec 8).getLsbD i = true → i = 7 := by decide
    have heq := hseven i hi hbit
    omega
  · have hzero : ∀ i < 8, (0x01 : BitVec 8).getLsbD i = true → i = 0 := by decide
    have heq := hzero i hi hbit
    omega
  · simp at hbit

/-- The CRC of 2^31 + 1 bytes need not be the remainder. -/
theorem longString_not_pecRight : ¬PecRight (2 ^ 31 + 1) := fun h =>
  lastByte_unseen (Nat.le_refl (2 ^ 31)) (h (List.replicate (2 ^ 31) 0 ++ [1])
    (by rw [List.length_append, List.length_replicate, List.length_singleton])).1

end GfpDrivers.I2c
