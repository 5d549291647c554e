import GfpDrivers.Nvmem.Cell

/-!
Writing a cell and reading it back. The reader returns the bits of the cell
and nothing else. The writer carries one bit too many over each byte border,
and a cell that starts at a byte border gets the bits above its last byte
merged into its first one; `Kept` says for which values and contents neither
shows.
-/

namespace GfpDrivers.Nvmem

open GfpDrivers.Lib Function

theorem foldl_range'_invariant {σ : Type*} {f : σ → ℕ → σ} (P : ℕ → σ → Prop) {s : σ} {n : ℕ} (hzero : P 0 s)
    (hstep : ∀ m t, P m t → P (m + 1) (f t (m + 1))) : P n ((List.range' 1 n).foldl f s) := by
  induction n with
  | zero => exact hzero
  | succ n ih =>
    rw [List.range'_1_concat, List.foldl_append, List.foldl_cons, List.foldl_nil, Nat.add_comm 1 n]
    exact hstep n _ ih

theorem getLsbD_genmask {h l k : ℕ} (hh : h < 8) (hl : l < 8) (hk : k < 8) :
    ((genmask h l).setWidth 8).getLsbD k = decide (l ≤ k ∧ k ≤ h) := by
  have hall : ∀ h < 8, ∀ l < 8, ∀ k < 8, ((genmask h l).setWidth 8).getLsbD k = decide (l ≤ k ∧ k ≤ h) := by
    decide
  exact hall h hh l hl k hk

theorem bitAt_mul_add (buf : Buf) (i : ℕ) {k : ℕ} (hk : k < 8) : bitAt buf (8 * i + k) = (buf i).getLsbD k := by
  rw [bitAt, show (8 * i + k) / 8 = i by omega, show (8 * i + k) % 8 = k by omega]

theorem bitAt_of_zero {buf : Buf} {j : ℕ} (h : buf (j / 8) = 0) : bitAt buf j = false := by
  rw [bitAt, h]
  exact BitVec.getLsbD_zero

/-! ### The reader -/

theorem getLsbD_join (x y : BitVec 8) {o k : ℕ} (ho : o < 8) (hk : k < 8) :
    (x >>> o ||| y <<< (8 - o)).getLsbD k = if o + k < 8 then x.getLsbD (o + k) else y.getLsbD (o + k - 8) := by
  rw [BitVec.getLsbD_or, BitVec.getLsbD_ushiftRight, BitVec.getLsbD_shiftLeft]
  by_cases h : o + k < 8
  · rw [if_pos h]
    have : k < 8 - o := by omega
    simp [this]
  · rw [if_neg h, BitVec.getLsbD_of_ge x _ (by omega)]
    have : ¬k < 8 - o := by omega
    simp [hk, this, show k - (8 - o) = o + k - 8 by omega]

theorem foldl_shiftDown (d : Buf) (o n : ℕ) :
    let s := (List.range' 1 n).foldl (shiftDown o) { buf := update d 0 (d 0 >>> o), p := 0 }
    s.p = n ∧ ∀ i, s.buf i =
      if i < n then d i >>> o ||| d (i + 1) <<< (8 - o) else if i = n then d i >>> o else d i := by
  refine foldl_range'_invariant (fun m (s : Cursor) => s.p = m ∧ ∀ i, s.buf i =
    if i < m then d i >>> o ||| d (i + 1) <<< (8 - o) else if i = m then d i >>> o else d i) ?_ ?_
  · refine ⟨rfl, fun i => ?_⟩
    by_cases hi : i = 0 <;> simp [hi]
  · rintro m s ⟨hp, hbuf⟩
    refine ⟨rfl, fun i => ?_⟩
    have hm : s.buf m = d m >>> o := by simp [hbuf]
    have hnext : s.buf (m + 1) = d (m + 1) := by simp [hbuf]
    simp only [shiftDown, hp, hm, hnext]
    rcases Nat.lt_trichotomy i m with hlt | rfl | hgt
    · rw [update_of_ne (by omega), update_of_ne (by omega), hbuf, if_pos hlt, if_pos (by omega)]
    · rw [update_of_ne (by omega), update_self, if_pos (by omega)]
    · rcases Nat.eq_or_lt_of_le hgt with rfl | hgt
      · rw [update_self, update_of_ne (by omega), hnext, if_neg (by omega), if_pos rfl]
      · rw [update_of_ne (by omega), update_of_ne (by omega), hbuf, if_neg (by omega),
          if_neg (by omega), if_neg (by omega), if_neg (by omega)]

theorem bitAt_clearExtra {extra : ℕ} {s : Cursor} (h : extra ≤ s.p) :
    (clearExtra extra s).p = s.p - extra ∧ ∀ j, bitAt (clearExtra extra s).buf j =
      if s.p - extra < j / 8 ∧ j / 8 ≤ s.p then false else bitAt s.buf j := by
  induction extra generalizing s with
  | zero =>
    refine ⟨rfl, fun j => ?_⟩
    rw [clearExtra, if_neg (by omega)]
  | succ extra ih =>
    obtain ⟨hp, hbuf⟩ := ih (s := { buf := update s.buf s.p 0, p := s.p - 1 }) (show extra ≤ s.p - 1 by omega)
    dsimp only at hp hbuf
    refine ⟨by rw [clearExtra, hp]; omega, fun j => ?_⟩
    rw [clearExtra, hbuf, bitAt_update, show (0 : BitVec 8).getLsbD (j % 8) = false from BitVec.getLsbD_zero]
    split_ifs <;> first | rfl | omega

/-- A cell as `nvmem_cell_info_to_nvmem_cell_entry_nodup` makes it of a range of bits. -/
structure NvmemCellEntry.IsBits (cell : NvmemCellEntry) : Prop where
  bitOffset : cell.bitOffset < 8
  nbits : 1 ≤ cell.nbits
  bytes : cell.bytes = (cell.nbits + cell.bitOffset + 7) / 8

section

variable {cell : NvmemCellEntry} (h : cell.IsBits) {d : Buf} (hd : ∀ i, cell.bytes ≤ i → d i = 0)

include h hd

/-- All bytes are shifted by `bit_offset`, and `p` points to the last one. -/
theorem shiftedDown (s : Cursor)
    (hs : s = if cell.bitOffset ≠ 0 then
        (List.range' 1 (cell.bytes - 1)).foldl (shiftDown cell.bitOffset)
          { buf := update d 0 (d 0 >>> cell.bitOffset), p := 0 }
      else { buf := d, p := cell.bytes - 1 }) :
    s.p = cell.bytes - 1 ∧ ∀ j, bitAt s.buf j = bitAt d (j + cell.bitOffset) := by
  by_cases hz : cell.bitOffset = 0
  · rw [if_neg (not_not_intro hz)] at hs
    rw [hs, hz]
    exact ⟨rfl, fun j => rfl⟩
  · rw [if_pos hz] at hs
    obtain ⟨hp, hbuf⟩ := foldl_shiftDown d cell.bitOffset (cell.bytes - 1)
    rw [← hs] at hp hbuf
    refine ⟨hp, fun j => ?_⟩
    -- the last byte has no successor; what the loop would join to it is zero
    have hbyte : s.buf (j / 8) = d (j / 8) >>> cell.bitOffset ||| d (j / 8 + 1) <<< (8 - cell.bitOffset) := by
      rw [hbuf]
      rcases Nat.lt_trichotomy (j / 8) (cell.bytes - 1) with hlt | heq | hge
      · rw [if_pos hlt]
      · rw [if_neg (by omega), if_pos heq, hd (j / 8 + 1) (by omega)]
        simp
      · rw [if_neg (by omega), if_neg (by omega), hd _ (by omega), hd _ (by omega)]
        simp
    rw [bitAt, hbyte, getLsbD_join _ _ h.bitOffset (by omega), bitAt]
    have ho := h.bitOffset
    split_ifs with hlt
    · rw [show (j + cell.bitOffset) / 8 = j / 8 by omega,
        show (j + cell.bitOffset) % 8 = cell.bitOffset + j % 8 by omega]
    · rw [show (j + cell.bitOffset) / 8 = j / 8 + 1 by omega,
        show (j + cell.bitOffset) % 8 = cell.bitOffset + j % 8 - 8 by omega]

/-- The reader leaves the bits of the cell, moved to the front, and nothing else. -/
theorem bitAt_nvmemShiftReadBufferInPlace (j : ℕ) :
    bitAt (nvmemShiftReadBufferInPlace cell d) j = (decide (j < cell.nbits) && bitAt d (j + cell.bitOffset)) := by
  obtain ⟨hp, hbuf⟩ := shiftedDown h hd _ rfl
  have ⟨ho, hn, hbytes⟩ := h
  rw [nvmemShiftReadBufferInPlace]
  generalize (if cell.bitOffset ≠ 0 then _ else _ : Cursor) = s at hp hbuf ⊢
  have hpos : cell.bytes - bytesOf cell.nbits ≤ s.p := by
    rw [hp, bytesOf]
    omega
  obtain ⟨hp', hclear⟩ := bitAt_clearExtra hpos
  have hlast : (clearExtra (cell.bytes - bytesOf cell.nbits) s).p = (cell.nbits - 1) / 8 := by
    rw [hp', hp, bytesOf]
    omega
  have hcleared : bitAt (clearExtra (cell.bytes - bytesOf cell.nbits) s).buf j =
      (decide (j / 8 ≤ (cell.nbits - 1) / 8) && bitAt d (j + cell.bitOffset)) := by
    rw [hclear, hp, hbuf, bytesOf]
    by_cases hlt : j / 8 ≤ (cell.nbits - 1) / 8
    · rw [if_neg (by omega)]
      simp [hlt]
    · by_cases hin : j / 8 ≤ cell.bytes - 1
      · rw [if_pos (by omega)]
        simp [hlt]
      · rw [if_neg (by omega), bitAt_of_zero (hd ((j + cell.bitOffset) / 8) (by omega)), Bool.and_false]
  by_cases hz : cell.nbits % 8 = 0
  · rw [if_neg (not_not_intro hz), hcleared,
      decide_eq_decide.mpr (show j / 8 ≤ (cell.nbits - 1) / 8 ↔ j < cell.nbits by omega)]
  · rw [if_pos hz, bitAt_update, hlast]
    by_cases heq : j / 8 = (cell.nbits - 1) / 8
    · have hmask : decide (0 ≤ j % 8 ∧ j % 8 ≤ cell.nbits % 8 - 1) = decide (j < cell.nbits) :=
        decide_eq_decide.mpr (by omega)
      rw [if_pos heq, BitVec.getLsbD_and, getLsbD_genmask (by omega) (by omega) (by omega), ← heq, ← bitAt,
        hcleared, hmask, heq]
      simp [Bool.and_comm]
    · rw [if_neg heq, hcleared,
        decide_eq_decide.mpr (show j / 8 ≤ (cell.nbits - 1) / 8 ↔ j < cell.nbits by omega)]

end

/-! ### The writer -/

theorem foldl_shiftUp (v : Buf) (first : BitVec 8) (o n : ℕ) :
    let s := (List.range' 1 n).foldl (shiftUp o)
      { buf := update v 0 first, p := 0, pbyte := v 0 }
    s.p = n ∧ s.pbyte = v n ∧ ∀ i, s.buf i =
      if i = 0 then first else if i ≤ n then v i <<< o ||| v (i - 1) >>> (8 - 1 - o) else v i := by
  refine foldl_range'_invariant (fun m (s : Carry) => s.p = m ∧ s.pbyte = v m ∧ ∀ i, s.buf i =
    if i = 0 then first else if i ≤ m then v i <<< o ||| v (i - 1) >>> (8 - 1 - o) else v i) ?_ ?_
  · refine ⟨rfl, rfl, fun i => ?_⟩
    by_cases hi : i = 0 <;> simp [hi]
  · rintro m s ⟨-, hpbyte, hbuf⟩
    have hnext : s.buf (m + 1) = v (m + 1) := by simp [hbuf]
    refine ⟨rfl, hnext, fun i => ?_⟩
    simp only [shiftUp, hpbyte, hnext]
    by_cases heq : i = m + 1
    · rw [heq, update_self, if_neg (by omega), if_pos le_rfl, Nat.add_sub_cancel]
    · rw [update_of_ne heq, hbuf]
      split_ifs <;> first | rfl | omega

theorem not_decide_lt (k o : ℕ) : (!decide (k < o)) = decide (o ≤ k) := Bool.eq_iff_iff.mpr (by simp)

/-- The carry of the byte before is one bit longer than the gap that the shift leaves. -/
theorem getLsbD_carry (x y : BitVec 8) {o k : ℕ} (ho : o < 8) (hk : k < 8) :
    (x <<< o ||| y >>> (8 - 1 - o)).getLsbD k =
      ((decide (o ≤ k) && x.getLsbD (k - o)) || (decide (k ≤ o) && y.getLsbD (7 - o + k))) := by
  rw [BitVec.getLsbD_or, BitVec.getLsbD_shiftLeft, BitVec.getLsbD_ushiftRight]
  simp only [hk, decide_true, Bool.true_and, not_decide_lt]
  by_cases h : k ≤ o
  · simp [h]
  · simp [h, BitVec.getLsbD_of_ge y (7 - o + k) (by omega)]

section

variable {env : Env} {cell : NvmemCellEntry} {content w : Buf} {value : List (BitVec 8)}

/-- The bits of the device that the writer merges into the byte at `p`. -/
def tail (cell : NvmemCellEntry) (content : Buf) (k : ℕ) : Bool :=
  decide ((cell.nbits + cell.bitOffset) % 8 ≠ 0 ∧ (cell.nbits + cell.bitOffset) % 8 ≤ k) &&
    bitAt content (8 * (cell.offset + cell.bytes - 1) + k)

theorem nvmemRegRead_cases (env : Env) (i : ℕ) (content : Buf) (offset bytes : ℕ) :
    (∃ rc, nvmemRegRead env i content offset bytes = .error rc) ∨
      nvmemRegRead env i content offset bytes = .ok fun j => if j < bytes then content (offset + j) else 0 := by
  rw [nvmemRegRead]
  split_ifs with h
  · exact .inl ⟨_, rfl⟩
  · exact .inr rfl

theorem getLsbD_mergeLast {s : Cursor} (hw : mergeLast env cell content s = .ok w) (i : ℕ) {k : ℕ} (hk : k < 8) :
    (w i).getLsbD k = ((s.buf i).getLsbD k || (decide (i = s.p) && tail cell content k)) := by
  rw [mergeLast] at hw
  by_cases hz : (cell.nbits + cell.bitOffset) % 8 = 0
  · rw [if_neg (not_not_intro hz)] at hw
    cases hw
    simp [tail, hz]
  · rw [if_pos hz] at hw
    obtain ⟨rc, hread⟩ | hread := nvmemRegRead_cases env 1 content (cell.offset + cell.bytes - 1) 1
    · rw [hread] at hw
      cases hw
    · rw [hread] at hw
      cases hw
      by_cases hi : i = s.p
      · rw [hi, update_self, BitVec.getLsbD_or, BitVec.getLsbD_and,
          getLsbD_genmask (by omega) (by omega) hk, tail, bitAt_mul_add _ _ hk]
        simp [hz, show k ≤ 7 by omega]
      · rw [update_of_ne hi]
        simp [hi]

theorem getLsbD_shiftIn (h : cell.IsBits) {v : Buf} {s : Cursor} (hs : shiftIn env cell content v = .ok s) :
    (s.p = if cell.bitOffset = 0 then 0 else cell.bytes - 1) ∧ ∀ i k, i < cell.bytes → k < 8 →
      (s.buf i).getLsbD k = ((decide (cell.bitOffset ≤ k) && (v i).getLsbD (k - cell.bitOffset)) ||
        (decide (cell.bitOffset ≠ 0) && if i = 0 then decide (k < cell.bitOffset) && bitAt content (8 * cell.offset + k)
          else decide (k ≤ cell.bitOffset) && (v (i - 1)).getLsbD (7 - cell.bitOffset + k))) := by
  rw [shiftIn] at hs
  by_cases hz : cell.bitOffset = 0
  · rw [if_neg (not_not_intro hz)] at hs
    cases hs
    refine ⟨by rw [if_pos hz], fun i k _ _ => ?_⟩
    simp [hz]
  · rw [if_pos hz] at hs
    obtain ⟨rc, hread⟩ | hread := nvmemRegRead_cases env 0 content cell.offset 1
    · rw [hread] at hs
      cases hs
    · rw [hread] at hs
      cases hs
      refine ⟨by rw [if_neg hz]; exact (foldl_shiftUp v _ cell.bitOffset (cell.bytes - 1)).1, fun i k hi hk => ?_⟩
      have ho := h.bitOffset
      rw [(foldl_shiftUp v _ cell.bitOffset (cell.bytes - 1)).2.2 i]
      by_cases hi0 : i = 0
      · rw [if_pos hi0, if_pos hi0, BitVec.getLsbD_or, BitVec.getLsbD_and, BitVec.getLsbD_shiftLeft,
          getLsbD_genmask (by omega) (by omega) hk, bitAt_mul_add _ _ hk, hi0]
        simp [hk, hz, not_decide_lt, show k ≤ cell.bitOffset - 1 ↔ k < cell.bitOffset by omega]
      · rw [if_neg hi0, if_pos (by omega), if_neg hi0, getLsbD_carry _ _ ho hk]
        simp [hz]

end

/-- The bits of the cell hold the value and all others are as before. -/
def Stored (cell : NvmemCellEntry) (value : List (BitVec 8)) (content content' : Buf) : Prop :=
  ∀ j, bitAt content' j =
    if 8 * cell.offset + cell.bitOffset ≤ j ∧ j < 8 * cell.offset + cell.bitOffset + cell.nbits then
      bitAt (ofBytes value) (j - (8 * cell.offset + cell.bitOffset))
    else bitAt content j

/-- The bits that belong into the cell's bytes: the value in the cell, around it what the device has. -/
def wanted (cell : NvmemCellEntry) (value : List (BitVec 8)) (content : Buf) (q : ℕ) : Bool :=
  if cell.bitOffset ≤ q ∧ q < cell.bitOffset + cell.nbits then bitAt (ofBytes value) (q - cell.bitOffset)
  else bitAt content (8 * cell.offset + q)

/-- When the writer's mistakes do not show. -/
structure Kept (cell : NvmemCellEntry) (value : List (BitVec 8)) (content : Buf) : Prop where
  /-- At a byte border inside the cell, the value's bits next to it repeat the one the carry takes in excess. -/
  carry : cell.bitOffset ≠ 0 → ∀ g < cell.nbits, 8 ≤ g + cell.bitOffset → (g + cell.bitOffset) % 8 ≤ cell.bitOffset →
    (bitAt (ofBytes value) (g - 1) = true → bitAt (ofBytes value) g = true) ∧
      ((g + cell.bitOffset) % 8 < cell.bitOffset → bitAt (ofBytes value) g = true →
        bitAt (ofBytes value) (g - 1) = true)
  /-- Where the carry runs over the end of the cell, the device has the value's last bit there already. -/
  above : cell.bitOffset ≠ 0 → 8 < cell.nbits + cell.bitOffset → (cell.nbits + cell.bitOffset) % 8 ≠ 0 →
    (cell.nbits + cell.bitOffset) % 8 ≤ cell.bitOffset → bitAt (ofBytes value) (cell.nbits - 1) = true →
      bitAt content (8 * cell.offset + cell.bitOffset + cell.nbits) = true
  /-- A cell of several bytes that starts at a byte border has nothing above it in its last byte. -/
  last : cell.bitOffset = 0 → 1 < cell.bytes → ∀ k < 8, tail cell content k = false

section

variable {env : Env} {cell : NvmemCellEntry} {content w : Buf} {value : List (BitVec 8)}
  (h : cell.IsBits) (hw : nvmemCellPrepareWriteBuffer env cell content value = .ok w)

include h hw

/-- The bits that the writer puts into the cell's bytes. -/
theorem bitAt_prepared {q : ℕ} (hq : q < 8 * cell.bytes) :
    bitAt w q = ((decide (cell.bitOffset ≤ q % 8) && bitAt (ofBytes value) (q - cell.bitOffset)) ||
      (decide (cell.bitOffset ≠ 0) && if q < 8 then decide (q < cell.bitOffset) && bitAt content (8 * cell.offset + q)
        else decide (q % 8 ≤ cell.bitOffset) && bitAt (ofBytes value) (q - cell.bitOffset - 1)) ||
      (decide (q / 8 = if cell.bitOffset = 0 then 0 else cell.bytes - 1) && tail cell content (q % 8))) := by
  have ho := h.bitOffset
  rw [nvmemCellPrepareWriteBuffer] at hw
  split_ifs at hw
  obtain ⟨s, hs⟩ : ∃ s, shiftIn env cell content (ofBytes value) = .ok s := by
    cases hs : shiftIn env cell content (ofBytes value) with
    | error rc =>
      rw [hs] at hw
      cases hw
    | ok s => exact ⟨s, rfl⟩
  rw [hs] at hw
  obtain ⟨hp, hbuf⟩ := getLsbD_shiftIn h hs
  rw [bitAt, getLsbD_mergeLast hw (q / 8) (by omega), hbuf (q / 8) (q % 8) (by omega) (by omega), hp]
  -- both sides read the same bits; only their addresses are written differently
  have hhere : (decide (cell.bitOffset ≤ q % 8) && (ofBytes value (q / 8)).getLsbD (q % 8 - cell.bitOffset)) =
      (decide (cell.bitOffset ≤ q % 8) && bitAt (ofBytes value) (q - cell.bitOffset)) := by
    by_cases hle : cell.bitOffset ≤ q % 8
    · rw [← bitAt_mul_add _ _ (by omega), show 8 * (q / 8) + (q % 8 - cell.bitOffset) = q - cell.bitOffset by omega]
    · simp [hle]
  have hbefore : ¬q < 8 →
      (decide (q % 8 ≤ cell.bitOffset) && (ofBytes value (q / 8 - 1)).getLsbD (7 - cell.bitOffset + q % 8)) =
      (decide (q % 8 ≤ cell.bitOffset) && bitAt (ofBytes value) (q - cell.bitOffset - 1)) := by
    intro hge
    by_cases hle : q % 8 ≤ cell.bitOffset
    · rw [← bitAt_mul_add _ _ (by omega),
        show 8 * (q / 8 - 1) + (7 - cell.bitOffset + q % 8) = q - cell.bitOffset - 1 by omega]
    · simp [hle]
  rw [hhere]
  by_cases hlt : q < 8
  · rw [if_pos hlt, if_pos (by omega), Nat.mod_eq_of_lt hlt]
  · rw [if_neg hlt, if_neg (by omega), hbefore hlt]

theorem prepared_aligned (hz : cell.bitOffset = 0) (hvalue : ∀ j, cell.nbits ≤ j → bitAt (ofBytes value) j = false) :
    (∀ q < 8 * cell.bytes, bitAt w q = wanted cell value content q) ↔
      (1 < cell.bytes → ∀ k < 8, tail cell content k = false) := by
  have hbit : ∀ q < 8 * cell.bytes, bitAt w q =
      (bitAt (ofBytes value) q || (decide (q < 8) && tail cell content (q % 8))) := by
    intro q hq
    rw [bitAt_prepared h hw hq]
    simp [hz, Nat.div_eq_zero_iff]
  have ⟨ho, hn, hbytes⟩ := h
  -- a bit above the cell can only be in the last byte
  have htail : ∀ q < 8 * cell.bytes, cell.nbits ≤ q →
      tail cell content (q % 8) = bitAt content (8 * cell.offset + q) := by
    intro q hq hle
    rw [tail, hz, show 8 * (cell.offset + cell.bytes - 1) + q % 8 = 8 * cell.offset + q by omega]
    simp [show ¬cell.nbits % 8 = 0 by omega, show cell.nbits % 8 ≤ q % 8 by omega]
  constructor
  · intro hall hone k hk
    by_cases hin : (cell.nbits + cell.bitOffset) % 8 ≠ 0 ∧ (cell.nbits + cell.bitOffset) % 8 ≤ k
    · have hq : 8 * (cell.bytes - 1) + k < 8 * cell.bytes := by omega
      have hle : cell.nbits ≤ 8 * (cell.bytes - 1) + k := by omega
      have hsame := hall _ hq
      rw [hbit _ hq, wanted, if_neg (by omega), ← htail _ hq hle, hvalue _ hle,
        show (8 * (cell.bytes - 1) + k) % 8 = k by omega] at hsame
      simpa [show ¬8 * (cell.bytes - 1) + k < 8 by omega] using hsame.symm
    · rw [tail]
      simp only [hin, decide_false, Bool.false_and]
  · intro hclear q hq
    rw [hbit q hq, wanted, hz]
    by_cases hlt : q < cell.nbits
    · rw [if_pos (by omega), Nat.sub_zero]
      by_cases hone : 1 < cell.bytes
      · rw [hclear hone _ (by omega), Bool.and_false, Bool.or_false]
      · rw [tail]
        simp [hz, show ¬(¬cell.nbits % 8 = 0 ∧ cell.nbits % 8 ≤ q % 8) by omega]
    · rw [if_neg (by omega), hvalue q (by omega), Bool.false_or, ← htail q hq (by omega)]
      by_cases hone : 1 < cell.bytes
      · rw [hclear hone _ (by omega), Bool.and_false]
      · simp [show q < 8 by omega]

theorem prepared_shifted (hz : cell.bitOffset ≠ 0) (hvalue : ∀ j, cell.nbits ≤ j → bitAt (ofBytes value) j = false) :
    (∀ q < 8 * cell.bytes, bitAt w q = wanted cell value content q) ↔
      (∀ g < cell.nbits, 8 ≤ g + cell.bitOffset → (g + cell.bitOffset) % 8 ≤ cell.bitOffset →
        (bitAt (ofBytes value) (g - 1) = true → bitAt (ofBytes value) g = true) ∧
          ((g + cell.bitOffset) % 8 < cell.bitOffset → bitAt (ofBytes value) g = true →
            bitAt (ofBytes value) (g - 1) = true)) ∧
      (8 < cell.nbits + cell.bitOffset → (cell.nbits + cell.bitOffset) % 8 ≠ 0 →
        (cell.nbits + cell.bitOffset) % 8 ≤ cell.bitOffset → bitAt (ofBytes value) (cell.nbits - 1) = true →
          bitAt content (8 * cell.offset + cell.bitOffset + cell.nbits) = true) := by
  have ⟨ho, hn, hbytes⟩ := h
  have htail : ∀ q < 8 * cell.bytes, (decide (q / 8 = cell.bytes - 1) && tail cell content (q % 8)) =
      (decide (cell.nbits + cell.bitOffset ≤ q) && bitAt content (8 * cell.offset + q)) := by
    intro q hq
    rw [tail, ← Bool.and_assoc, ← Bool.decide_and]
    by_cases hle : cell.nbits + cell.bitOffset ≤ q
    · rw [show 8 * (cell.offset + cell.bytes - 1) + q % 8 = 8 * cell.offset + q by omega]
      simp [hle, show q / 8 = cell.bytes - 1 by omega, show ¬(cell.nbits + cell.bitOffset) % 8 = 0 by omega,
        show (cell.nbits + cell.bitOffset) % 8 ≤ q % 8 by omega]
    · rw [decide_eq_false hle, decide_eq_false (by omega), Bool.false_and, Bool.false_and]
  -- the first byte is always right
  have hfirst : ∀ q < 8 * cell.bytes, q < 8 → bitAt w q = wanted cell value content q := by
    intro q hq hlt
    have hprepared := bitAt_prepared h hw hq
    rw [if_neg hz, htail q hq, if_pos hlt, Nat.mod_eq_of_lt hlt] at hprepared
    rw [hprepared, wanted]
    by_cases hle : cell.bitOffset ≤ q
    · by_cases hin : q < cell.bitOffset + cell.nbits
      · simp [hle, hin, show ¬q < cell.bitOffset by omega, show ¬cell.nbits + cell.bitOffset ≤ q by omega]
      · simp [hle, hin, hvalue (q - cell.bitOffset) (by omega), show ¬q < cell.bitOffset by omega,
          show cell.nbits + cell.bitOffset ≤ q by omega]
    · simp [hz, hle, show q < cell.bitOffset by omega, show ¬cell.nbits + cell.bitOffset ≤ q by omega]
  have hrest : ∀ q < 8 * cell.bytes, 8 ≤ q → bitAt w q =
      ((decide (cell.bitOffset ≤ q % 8) && bitAt (ofBytes value) (q - cell.bitOffset)) ||
        (decide (q % 8 ≤ cell.bitOffset) && bitAt (ofBytes value) (q - cell.bitOffset - 1)) ||
        (decide (cell.nbits + cell.bitOffset ≤ q) && bitAt content (8 * cell.offset + q))) := by
    intro q hq hle
    rw [bitAt_prepared h hw hq, if_neg hz, htail q hq, if_neg (by omega), decide_eq_true hz, Bool.true_and]
  constructor
  · intro hall
    refine ⟨fun g hg hge hk => ?_, fun hlt hm hk hlast => ?_⟩
    · have hsame := hall (g + cell.bitOffset) (by omega)
      rw [hrest _ (by omega) hge, wanted, if_pos (by omega), Nat.add_sub_cancel] at hsame
      simp only [hk, decide_true, Bool.true_and, show ¬cell.nbits + cell.bitOffset ≤ g + cell.bitOffset by omega,
        decide_false, Bool.false_and, Bool.or_false] at hsame
      refine ⟨fun hset => ?_, fun hk' hset => ?_⟩
      · rw [hset, Bool.or_true] at hsame
        exact hsame.symm
      · simpa [show ¬cell.bitOffset ≤ (g + cell.bitOffset) % 8 by omega, hset] using hsame
    · have hsame := hall (cell.nbits + cell.bitOffset) (by omega)
      rw [hrest _ (by omega) (by omega), wanted, if_neg (by omega), Nat.add_sub_cancel, hlast] at hsame
      simp only [hk, decide_true, Bool.true_and, Bool.or_true, Bool.true_or] at hsame
      rw [Nat.add_assoc, Nat.add_comm cell.bitOffset, ← hsame]
  · rintro ⟨hcarry, habove⟩ q hq
    by_cases hlt : q < 8
    · exact hfirst q hq hlt
    · rw [hrest q hq (by omega), wanted]
      by_cases hin : q < cell.bitOffset + cell.nbits
      · rw [if_pos ⟨by omega, hin⟩, decide_eq_false (show ¬cell.nbits + cell.bitOffset ≤ q by omega), Bool.false_and,
          Bool.or_false]
        by_cases hk : q % 8 ≤ cell.bitOffset
        · obtain ⟨hup, hdown⟩ := hcarry (q - cell.bitOffset) (by omega) (by omega) (by rwa [Nat.sub_add_cancel (by omega)])
          rw [Nat.sub_add_cancel (by omega)] at hdown
          by_cases hk' : q % 8 < cell.bitOffset
          · simpa [hk, show ¬cell.bitOffset ≤ q % 8 by omega] using Bool.eq_iff_iff.mpr ⟨hup, hdown hk'⟩
          · simpa [hk, show cell.bitOffset ≤ q % 8 by omega] using hup
        · simp [hk, show cell.bitOffset ≤ q % 8 by omega]
      · rw [if_neg (by omega), hvalue (q - cell.bitOffset) (by omega), Bool.and_false, Bool.false_or,
          decide_eq_true (show cell.nbits + cell.bitOffset ≤ q by omega), Bool.true_and]
        by_cases heq : q = cell.nbits + cell.bitOffset
        · have hup := habove (by omega) (by omega)
          rw [← heq, show 8 * cell.offset + cell.bitOffset + cell.nbits = 8 * cell.offset + q by omega] at hup
          rw [show q - cell.bitOffset - 1 = cell.nbits - 1 by omega]
          simpa using hup
        · rw [hvalue _ (by omega), Bool.and_false, Bool.false_or]

/-- The prepared bytes are the wanted ones exactly if no mistake shows. -/
theorem prepared_iff_kept (hvalue : ∀ j, cell.nbits ≤ j → bitAt (ofBytes value) j = false) :
    (∀ q < 8 * cell.bytes, bitAt w q = wanted cell value content q) ↔ Kept cell value content := by
  by_cases hz : cell.bitOffset = 0
  · rw [prepared_aligned h hw hz hvalue]
    exact ⟨fun hlast => ⟨fun hne => absurd hz hne, fun hne => absurd hz hne, fun _ => hlast⟩, fun hkept => hkept.last hz⟩
  · rw [prepared_shifted h hw hz hvalue]
    exact ⟨fun hboth => ⟨fun _ => hboth.1, fun _ => hboth.2, fun heq => absurd heq hz⟩,
      fun hkept => ⟨hkept.carry hz, hkept.above hz⟩⟩

end

/-! ### A write and a read -/

section

variable {env : Env} {nvmem : NvmemDevice} {info : NvmemCellInfo} {cell : NvmemCellEntry} {content content' : Buf}
  {value : List (BitVec 8)}

theorem isBits_of_info (hcell : nvmemCellInfoToNvmemCellEntryNodup nvmem info = .ok cell) (ho : info.bitOffset < 8)
    (hn : 1 ≤ info.nbits) : cell.IsBits := by
  rw [nvmemCellInfoToNvmemCellEntryNodup] at hcell
  split_ifs at hcell with hstride hzero
  · cases hcell
    exact ⟨ho, hn, rfl⟩
  · omega

/-- A successful write has prepared the cell's bytes and stored them. -/
theorem nvmemCellEntryWrite_ok (h : cell.IsBits)
    (hwrite : nvmemCellEntryWrite env nvmem cell content value = (content', .ok value.length)) :
    ∃ w, nvmemCellPrepareWriteBuffer env cell content value = .ok w ∧
      ∀ i, content' i = if cell.offset ≤ i ∧ i < cell.offset + cell.bytes then w (i - cell.offset) else content i := by
  have hn := h.nbits
  rw [nvmemCellEntryWrite] at hwrite
  split_ifs at hwrite with hreject hprepare
  · cases hwrite
  · cases hw : nvmemCellPrepareWriteBuffer env cell content value with
    | error rc =>
      rw [hw] at hwrite
      cases hwrite
    | ok w =>
      rw [hw] at hwrite
      refine ⟨w, rfl, fun i => ?_⟩
      dsimp only at hwrite
      rw [nvmemRegWrite] at hwrite
      by_cases hrc : env.regWrite = 0
      · rw [if_neg (not_not_intro hrc)] at hwrite
        cases hwrite
        rfl
      · rw [if_pos hrc] at hwrite
        dsimp only at hwrite
        rw [if_pos hrc] at hwrite
        cases hwrite
  · omega

theorem stored_iff_kept (h : cell.IsBits) (hvalue : ∀ j, cell.nbits ≤ j → bitAt (ofBytes value) j = false)
    (hwrite : nvmemCellEntryWrite env nvmem cell content value = (content', .ok value.length)) :
    Stored cell value content content' ↔ Kept cell value content := by
  obtain ⟨w, hw, hcontent⟩ := nvmemCellEntryWrite_ok h hwrite
  have ⟨ho, hn, hbytes⟩ := h
  rw [← prepared_iff_kept h hw hvalue]
  have hin : ∀ q < 8 * cell.bytes, bitAt content' (8 * cell.offset + q) = bitAt w q := by
    intro q hq
    rw [bitAt, hcontent, if_pos (by omega), bitAt, show (8 * cell.offset + q) / 8 - cell.offset = q / 8 by omega,
      show (8 * cell.offset + q) % 8 = q % 8 by omega]
  constructor
  · intro hstored q hq
    rw [← hin q hq, hstored, wanted]
    by_cases hcell : cell.bitOffset ≤ q ∧ q < cell.bitOffset + cell.nbits
    · rw [if_pos hcell, if_pos (by omega),
        show 8 * cell.offset + q - (8 * cell.offset + cell.bitOffset) = q - cell.bitOffset by omega]
    · rw [if_neg hcell, if_neg (by omega)]
  · intro hall j
    by_cases hj : 8 * cell.offset ≤ j ∧ j < 8 * cell.offset + 8 * cell.bytes
    · obtain ⟨q, rfl⟩ : ∃ q, j = 8 * cell.offset + q := ⟨j - 8 * cell.offset, by omega⟩
      rw [hin q (by omega), hall q (by omega), wanted]
      by_cases hcell : cell.bitOffset ≤ q ∧ q < cell.bitOffset + cell.nbits
      · rw [if_pos hcell, if_pos (by omega),
          show 8 * cell.offset + q - (8 * cell.offset + cell.bitOffset) = q - cell.bitOffset by omega]
      · rw [if_neg hcell, if_neg (by omega)]
    · rw [if_neg (by omega), bitAt, hcontent, if_neg (by omega), ← bitAt]

/-- The hook of the device, if it has one, leaves the value as it is when it succeeds. -/
def HookKeeps (nvmem : NvmemDevice) (cell : NvmemCellEntry) (value : List (BitVec 8)) : Prop :=
  ∀ post, nvmem.cellPostProcess = some post → (post cell.offset (ofBytes value) cell.bytes).2 = 0 →
    ∀ i < cell.bytes, (post cell.offset (ofBytes value) cell.bytes).1 i = ofBytes value i

/-- Every successful read of the cell returns the value, zero-extended. -/
def ReadsBack (nvmem : NvmemDevice) (cell : NvmemCellEntry) (value : List (BitVec 8)) (content : Buf) : Prop :=
  ∀ env buf len, nvmemCellRead env nvmem cell content = .ok (buf, len) →
    len = cell.bytes ∧ ∀ i < cell.bytes, buf i = ofBytes value i

theorem buf_ext {a b : Buf} (hbits : ∀ j, bitAt a j = bitAt b j) : a = b := by
  funext i
  apply BitVec.eq_of_getLsbD_eq
  intro k hk
  rw [← bitAt_mul_add a i hk, ← bitAt_mul_add b i hk, hbits]

/-- The buffer that the reader hands to the hook is the value. -/
theorem shiftRead_stored (h : cell.IsBits) (hvalue : ∀ j, cell.nbits ≤ j → bitAt (ofBytes value) j = false)
    (hstored : Stored cell value content content') :
    nvmemShiftReadBufferInPlace cell (fun j => if j < cell.bytes then content' (cell.offset + j) else 0) =
      ofBytes value := by
  have ⟨ho, hn, hbytes⟩ := h
  refine buf_ext fun j => ?_
  rw [bitAt_nvmemShiftReadBufferInPlace h (fun i hi => if_neg (by omega))]
  by_cases hj : j < cell.nbits
  · have hcell := hstored (8 * cell.offset + cell.bitOffset + j)
    rw [if_pos (by omega), Nat.add_sub_cancel_left] at hcell
    rw [decide_eq_true hj, Bool.true_and, ← hcell, bitAt, if_pos (by omega), bitAt,
      show (8 * cell.offset + cell.bitOffset + j) / 8 = cell.offset + (j + cell.bitOffset) / 8 by omega,
      show (8 * cell.offset + cell.bitOffset + j) % 8 = (j + cell.bitOffset) % 8 by omega]
  · rw [decide_eq_false hj, Bool.false_and, hvalue j (by omega)]

theorem readsBack_iff_hookKeeps (h : cell.IsBits)
    (hvalue : ∀ j, cell.nbits ≤ j → bitAt (ofBytes value) j = false) (hstored : Stored cell value content content') :
    ReadsBack nvmem cell value content' ↔ HookKeeps nvmem cell value := by
  have hbits : cell.bitOffset ≠ 0 ∨ cell.nbits ≠ 0 := .inr (Nat.one_le_iff_ne_zero.mp h.nbits)
  have hbuf := shiftRead_stored h hvalue hstored
  constructor
  · intro hread post hpost hrc
    refine (hread ⟨true, fun _ => 0, 0, content'⟩ _ cell.bytes ?_).2
    simp only [nvmemCellRead, nvmemRegRead, hpost, if_pos hbits]
    change (if (post cell.offset (nvmemShiftReadBufferInPlace cell _) cell.bytes).2 ≠ 0 then _ else _) = _
    rw [hbuf, if_neg (not_not_intro hrc)]
  · intro hhook env buf len hread
    rw [nvmemCellRead] at hread
    split_ifs at hread
    obtain ⟨rc, hreg⟩ | hreg := nvmemRegRead_cases env 0 content' cell.offset cell.bytes
    · rw [hreg] at hread
      cases hread
    · rw [hreg] at hread
      cases hpost : nvmem.cellPostProcess with
      | none =>
        simp only [hpost] at hread
        cases hread
        exact ⟨rfl, fun i _ => congrFun hbuf i⟩
      | some post =>
        simp only [hpost] at hread
        change (if (post cell.offset (nvmemShiftReadBufferInPlace cell _) cell.bytes).2 ≠ 0 then _ else _) = _ at hread
        rw [hbuf] at hread
        split_ifs at hread with hrc
        cases hread
        exact ⟨rfl, hhook post hpost (not_not.mp hrc)⟩

/-- A value of the cell's bits in a buffer as the write takes it, zero-padded and not longer than the cell. -/
structure IsValue (cell : NvmemCellEntry) (value : List (BitVec 8)) : Prop where
  le_length : bytesOf cell.nbits ≤ value.length
  length_le : value.length ≤ cell.bytes
  padded : ∀ j, cell.nbits ≤ j → bitAt (ofBytes value) j = false

end

/-- A device that can be written and has no hook. -/
def plain : NvmemDevice where
  readOnly := false
  stride := 1
  cellPostProcess := none

def answering : Env := ⟨true, fun _ => 0, 0, fun _ => 0⟩

theorem padded_of_length {value : List (BitVec 8)} {n : ℕ}
    (h : ∀ j < 8 * value.length, n ≤ j → bitAt (ofBytes value) j = false) (j : ℕ) (hj : n ≤ j) :
    bitAt (ofBytes value) j = false := by
  by_cases hlt : j < 8 * value.length
  · exact h j hlt hj
  · apply bitAt_of_zero
    rw [ofBytes, List.getD_eq_getElem?_getD, List.getElem?_eq_none (by omega), Option.getD_none]

/-- Twelve bits from bit 4 on. -/
def twelveBits : NvmemCellEntry := ⟨2, 2, 4, 12⟩

end GfpDrivers.Nvmem
