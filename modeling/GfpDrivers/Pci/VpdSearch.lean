import GfpDrivers.Basic
import GfpDrivers.Lib.Traced
import Mathlib.Tactic.NormNum

/-!
The search for a keyword in an image of the vital product data (`vpd.c`). The image is a list of items with a length
each, and the read-only item is a list of fields with a length each; both are walked by these lengths.

The length of the buffer is unsigned and the place in it is an `int`, which gets negative at `2^31`.
-/

namespace GfpDrivers.Pci.Vpd

open Lib List

def EILSEQ : ℤ := 84

def PCI_VPD_LRDT : BitVec 8 := 0x80
def PCI_VPD_LRDT_RO_DATA : BitVec 8 := 0x90
def PCI_VPD_STIN_END : BitVec 8 := 0x0f

/-- A value that is put into an `int`. -/
def toInt (z : ℤ) : ℤ := z.bmod (2 ^ 32)

/-- A value that is put into an `unsigned int`. -/
def toU32 (z : ℤ) : ℕ := (z % 2 ^ 32).toNat

/-- What lies at an index of the buffer, which may be outside of it. -/
abbrev Buf := ℤ → BitVec 8

/-- The first two characters of a keyword, as the values that they are compared as. -/
abbrev Keyword := ℤ × ℤ

/-- `"RV"` -/
def PCI_VPD_RO_KEYWORD_CHKSUM : Keyword := (0x52, 0x56)

/-- What a search returns, and the size if it is stored. -/
structure Found where
  ret : ℤ
  size : Option ℕ

variable (buf : Buf) (len : ℕ)

/-- `buf[i]` -/
def readAt (i : ℤ) : Traced ℤ (BitVec 8) := do
  Traced.emit i
  pure (buf i)

/-- `pci_vpd_lrdt_size(buf + i)` -/
def pciVpdLrdtSize (i : ℤ) : Traced ℤ ℕ := do
  let lo ← readAt buf (i + 1)
  let hi ← readAt buf (i + 2)
  pure (lo.toNat + 2 ^ 8 * hi.toNat)

/-- `pci_vpd_info_field_size(buf + i)` -/
def pciVpdInfoFieldSize (i : ℤ) : Traced ℤ ℕ := do
  let size ← readAt buf (i + 2)
  pure size.toNat

/-- What of an item is in the buffer, if its data starts at `i`. -/
def clipLen (i : ℤ) (lrdtLen : ℕ) : ℕ := if len < toU32 (i + lrdtLen) then toU32 (len - i) else lrdtLen

/-- The loop of `pci_vpd_find_tag`. -/
def findTagLoop (rdt : BitVec 8) : ℕ → ℤ → Traced ℤ Found
  | 0, _ => Traced.unfinished
  | fuel + 1, i =>
      if len < toU32 (i + 3) then pure ⟨-ENOENT, none⟩
      else do
        let lead ← readAt buf i
        if lead &&& PCI_VPD_LRDT = 0 then pure ⟨-ENOENT, none⟩
        else do
          let lrdtLen ← pciVpdLrdtSize buf i
          let tag ← readAt buf i
          if tag = rdt then pure ⟨toInt (i + 3), some (clipLen len (toInt (i + 3)) lrdtLen)⟩
          else findTagLoop rdt fuel (toInt (toInt (i + 3) + lrdtLen))

/-- `pci_vpd_find_tag` -/
def pciVpdFindTag (fuel : ℕ) (rdt : BitVec 8) : Traced ℤ Found := findTagLoop buf len rdt fuel 0

/-- Whether the field at `i` has the keyword. The second character is only read if the first one is right. -/
def hasKeyword (kw : Keyword) (i : ℤ) : Traced ℤ Bool := do
  let first ← readAt buf i
  if (first.toNat : ℤ) = kw.1 then do
    let second ← readAt buf (toInt (i + 1))
    pure (decide ((second.toNat : ℤ) = kw.2))
  else pure false

/-- The loop of `pci_vpd_find_info_keyword`, up to `off + len`. -/
def findInfoKeywordLoop (stop : ℕ) (kw : Keyword) : ℕ → ℤ → Traced ℤ ℤ
  | 0, _ => Traced.unfinished
  | fuel + 1, i =>
      if stop < toU32 (i + 3) then pure (-ENOENT)
      else do
        let hit ← hasKeyword buf kw i
        if hit then pure i
        else do
          let size ← pciVpdInfoFieldSize buf i
          findInfoKeywordLoop stop kw fuel (toInt (i + 3 + size))

/-- `pci_vpd_find_info_keyword` -/
def pciVpdFindInfoKeyword (fuel off len : ℕ) (kw : Keyword) : Traced ℤ ℤ :=
  findInfoKeywordLoop buf ((off + len) % 2 ^ 32) kw fuel (toInt off)

/-- `pci_vpd_find_ro_info_keyword`. The size is stored whenever a tag is found. -/
def pciVpdFindRoInfoKeyword (fuel : ℕ) (kw : Keyword) : Traced ℤ Found := do
  let ro ← pciVpdFindTag buf len fuel PCI_VPD_LRDT_RO_DATA
  if ro.ret < 0 then pure ⟨ro.ret, none⟩
  else do
    let infokwStart ← pciVpdFindInfoKeyword buf fuel (toU32 ro.ret) (ro.size.getD 0) kw
    if infokwStart < 0 then pure ⟨infokwStart, none⟩
    else do
      let infokwSize ← pciVpdInfoFieldSize buf infokwStart
      if len < toU32 (toInt (infokwStart + 3) + infokwSize) then pure ⟨-EINVAL, none⟩
      else pure ⟨toInt (infokwStart + 3), some infokwSize⟩

/-- The loop of `pci_vpd_check_csum`. -/
def csumLoop : ℕ → ℤ → BitVec 8 → Traced ℤ (BitVec 8)
  | 0, _, _ => Traced.unfinished
  | fuel + 1, rvStart, csum =>
      if 0 ≤ rvStart then do
        let b ← readAt buf rvStart
        csumLoop fuel (rvStart - 1) (csum + b)
      else pure csum

/-- `pci_vpd_check_csum` -/
def pciVpdCheckCsum (fuel : ℕ) : Traced ℤ ℤ := do
  let rv ← pciVpdFindRoInfoKeyword buf len fuel PCI_VPD_RO_KEYWORD_CHKSUM
  if rv.ret = -ENOENT then pure 1
  else if rv.ret < 0 then pure rv.ret
  else if rv.size.getD 0 = 0 then pure (-EINVAL)
  else do
    let csum ← csumLoop buf fuel rv.ret 0
    pure (if csum ≠ 0 then -EILSEQ else 0)

/-! ### Images -/

/-- A field of the read-only item. -/
structure InfoField where
  kw : BitVec 8 × BitVec 8
  data : List (BitVec 8)
  size_lt : data.length < 2 ^ 8

namespace InfoField

def bytes (f : InfoField) : List (BitVec 8) := f.kw.1 :: f.kw.2 :: BitVec.ofNat 8 f.data.length :: f.data

def Named (kw : Keyword) (f : InfoField) : Prop := (f.kw.1.toNat : ℤ) = kw.1 ∧ (f.kw.2.toNat : ℤ) = kw.2

instance (kw : Keyword) (f : InfoField) : Decidable (f.Named kw) := inferInstanceAs (Decidable (_ ∧ _))

/-- The offset and the size of the data of the first field with the keyword, among fields that start at `off`. -/
def find (kw : Keyword) : ℕ → List InfoField → Option (ℕ × ℕ)
  | _, [] => none
  | off, f :: fs => if f.Named kw then some (off + 3, f.data.length) else find kw (off + 3 + f.data.length) fs

end InfoField

/-- A large resource item. -/
inductive Item where
  | readOnly (fields : List InfoField) (size_lt : (fields.flatMap InfoField.bytes).length < 2 ^ 16)
  | other (tag : BitVec 8) (data : List (BitVec 8)) (large : tag &&& PCI_VPD_LRDT ≠ 0) (ne : tag ≠ PCI_VPD_LRDT_RO_DATA)
      (size_lt : data.length < 2 ^ 16)

namespace Item

def tag : Item → BitVec 8
  | readOnly _ _ => PCI_VPD_LRDT_RO_DATA
  | other tag _ _ _ _ => tag

def data : Item → List (BitVec 8)
  | readOnly fields _ => fields.flatMap InfoField.bytes
  | other _ data _ _ _ => data

def bytes (item : Item) : List (BitVec 8) :=
  item.tag :: BitVec.ofNat 8 item.data.length :: BitVec.ofNat 8 (item.data.length / 2 ^ 8) :: item.data

/-- The first read-only item among items that start at `off`: where its data starts, and its fields. -/
def findReadOnly : ℕ → List Item → Option (ℕ × List InfoField)
  | _, [] => none
  | off, readOnly fields _ :: _ => some (off + 3, fields)
  | off, other _ data _ _ _ :: items => findReadOnly (off + 3 + data.length) items

end Item

/-- Items and the end tag. -/
structure Image where
  items : List Item
  stop : BitVec 8
  isEnd : stop >>> 3 = PCI_VPD_STIN_END

namespace Image

def bytes (image : Image) : List (BitVec 8) := image.items.flatMap Item.bytes ++ [image.stop]

def readOnly (image : Image) : Option (ℕ × List InfoField) := Item.findReadOnly 0 image.items

/-- What the search is to return. -/
def lookup (image : Image) (kw : Keyword) : Option (ℕ × ℕ) := image.readOnly.bind fun ro => InfoField.find kw ro.1 ro.2

end Image

/-- The bytes lie in the buffer from `i` on. -/
def Holds (buf : Buf) : ℤ → List (BitVec 8) → Prop
  | _, [] => True
  | i, b :: bytes => buf i = b ∧ Holds buf (i + 1) bytes

/-- The data lies inside the read-only item. -/
def Image.Inside (image : Image) (data : ℕ × ℕ) : Prop :=
  ∃ ro ∈ image.readOnly, ro.1 ≤ data.1 ∧ data.1 + data.2 ≤ ro.1 + (ro.2.flatMap InfoField.bytes).length

def InBuf (len : ℕ) (i : ℤ) : Prop := 0 ≤ i ∧ i < len

/-- The program ends and reads only bytes of the buffer. -/
def Safe {α : Type} (len : ℕ) (x : Traced ℤ α) : Prop := x.AllEvents (InBuf len) ∧ x.result.isSome

/-- The search finds what it is to find in the image, and that is inside the read-only item. -/
def Exact (image : Image) (kw : Keyword) (x : Traced ℤ Found) : Prop :=
  ∃ r ∈ x.result, (r.ret = -ENOENT ∧ image.lookup kw = none) ∨
    ∃ data ∈ image.lookup kw, r = ⟨data.1, some data.2⟩ ∧ image.Inside data

/-- The search is right in every buffer of `len` bytes. -/
def SearchRight (len : ℕ) : Prop :=
  ∀ (buf : Buf) (kw : Keyword) (fuel : ℕ), len < fuel →
    Safe len (pciVpdFindRoInfoKeyword buf len fuel kw) ∧ Safe len (pciVpdCheckCsum buf len fuel) ∧
      ∀ image : Image, image.bytes.length ≤ len → Holds buf 0 image.bytes →
        Exact image kw (pciVpdFindRoInfoKeyword buf len fuel kw)

/-! ### Arithmetic and single reads -/

section

variable {buf : Buf} {len n m fuel stop size : ℕ} {i z w : ℤ} {kw : Keyword} {rdt : BitVec 8} {bytes bytes' : List (BitVec 8)}
  {b : BitVec 8}

theorem toInt_of_lt (h : n < 2 ^ 31) : toInt n = n := by
  rw [toInt, Int.bmod_eq_of_le (by omega) (by omega)]

theorem toInt_zero : toInt (0 : ℕ) = 0 := toInt_of_lt (by decide)

theorem toInt_lt : toInt z < 2 ^ 31 := by
  have := Int.bmod_lt (x := z) (m := 2 ^ 32) (by decide)
  unfold toInt
  omega

theorem toInt_lt_zero (h : 2 ^ 31 ≤ n) (h' : n < 2 ^ 32) : toInt n < 0 := by
  rw [toInt, Int.bmod_def]
  omega

theorem toU32_of_lt (h : n < 2 ^ 32) : toU32 n = n := by
  rw [toU32, Int.emod_eq_of_lt (by omega) (by omega), Int.toNat_natCast]

theorem toInt_emod : toInt z % 2 ^ 32 = z % 2 ^ 32 := Int.bmod_emod

/-- A value may be put into an `int` in between. -/
theorem toU32_toInt_add : toU32 (toInt z + w) = toU32 (z + w) := by
  rw [toU32, Int.add_emod, toInt_emod, ← Int.add_emod, toU32]

theorem toU32_sub_toInt : toU32 (z - toInt w) = toU32 (z - w) := by
  rw [toU32, Int.sub_emod, toInt_emod, ← Int.sub_emod, toU32]

theorem toInt_toInt_add : toInt (toInt z + w) = toInt (z + w) := Int.bmod_add_bmod

/-- The end of what starts at `n`. -/
theorem toU32_end (h : n + m < 2 ^ 32) : toU32 (toInt n + m) = n + m := by
  rw [toU32_toInt_add]
  exact_mod_cast toU32_of_lt h

theorem clipLen_eq (hsize : n + size < 2 ^ 32) (hn : n ≤ len) (hlen : len < 2 ^ 32) :
    clipLen len (toInt n) size = min size (len - n) := by
  rw [clipLen, toU32_end hsize, toU32_sub_toInt, ← Int.ofNat_sub hn, toU32_of_lt (by omega)]
  split <;> omega

theorem Total.readAt (hi : InBuf len i) : (readAt buf i).Total (InBuf len) (· = buf i) :=
  .bind (Q := fun _ => True) (.emit hi trivial) fun _ _ => .pure rfl

@[simp] theorem result_readAt : (readAt buf i).result = some (buf i) := rfl

/-- The value of `pci_vpd_lrdt_size(buf + i)`. -/
def lrdtSize (buf : Buf) (i : ℤ) : ℕ := (buf (i + 1)).toNat + 2 ^ 8 * (buf (i + 2)).toNat

theorem lrdtSize_lt : lrdtSize buf i < 2 ^ 16 := by
  have := (buf (i + 1)).isLt
  have := (buf (i + 2)).isLt
  unfold lrdtSize
  omega

theorem Total.pciVpdLrdtSize (h1 : InBuf len (i + 1)) (h2 : InBuf len (i + 2)) :
    (pciVpdLrdtSize buf i).Total (InBuf len) (· = lrdtSize buf i) := by
  refine .bind (Total.readAt h1) fun lo hlo => .bind (Total.readAt h2) fun hi hhi => .pure ?_
  rw [hlo, hhi, lrdtSize]

@[simp] theorem result_pciVpdLrdtSize : (pciVpdLrdtSize buf i).result = some (lrdtSize buf i) := by
  simp [pciVpdLrdtSize, lrdtSize]

theorem Total.pciVpdInfoFieldSize (h : InBuf len (i + 2)) : (pciVpdInfoFieldSize buf i).Total (InBuf len) (· = (buf (i + 2)).toNat) :=
  .bind (Total.readAt h) fun _ hsize => .pure (congrArg _ hsize)

@[simp] theorem result_pciVpdInfoFieldSize : (pciVpdInfoFieldSize buf i).result = some (buf (i + 2)).toNat := by
  simp [pciVpdInfoFieldSize]

theorem Total.hasKeyword (h : InBuf len i) (h1 : InBuf len (toInt (i + 1))) :
    (hasKeyword buf kw i).Total (InBuf len) fun _ => True := by
  refine .bind (Total.readAt h) fun first _ => ?_
  split
  · exact .bind (Total.readAt h1) fun _ _ => .pure trivial
  · exact .pure trivial

theorem result_hasKeyword : (hasKeyword buf kw i).result =
    some (decide (((buf i).toNat : ℤ) = kw.1 ∧ ((buf (toInt (i + 1))).toNat : ℤ) = kw.2)) := by
  simp only [hasKeyword, Traced.result_bind, result_readAt, Option.bind_some]
  split
  · next h => simp [h]
  · next h => simp [h]

/-! ### Safety -/

/-- What the search for a tag returns: an error, or an item with what of its data is in the buffer. -/
def TagFound (len : ℕ) (r : Found) : Prop := r.ret = -ENOENT ∨ ∃ m s : ℕ, r = ⟨toInt m, some s⟩ ∧ m + s ≤ len

theorem findTagLoop_total (hlen : len ≤ 2 ^ 31) (hfuel : len ≤ n + fuel) (hn : n + 3 < 2 ^ 32) :
    (findTagLoop buf len rdt (fuel + 1) (toInt n)).Total (InBuf len) (TagFound len) := by
  induction fuel generalizing n with
  | zero =>
    rw [findTagLoop, if_pos (by rw [show (3 : ℤ) = (3 : ℕ) from rfl, toU32_end hn]; omega)]
    exact .pure (.inl rfl)
  | succ fuel ih =>
    rw [findTagLoop, show (3 : ℤ) = (3 : ℕ) from rfl, toU32_end hn]
    split
    · exact .pure (.inl rfl)
    next hle =>
    rw [toInt_of_lt (by omega)]
    refine .bind (Total.readAt ⟨by omega, by omega⟩) fun lead _ => ?_
    split
    · exact .pure (.inl rfl)
    refine .bind (Total.pciVpdLrdtSize ⟨by omega, by omega⟩ ⟨by omega, by omega⟩) fun size hsize => ?_
    refine .bind (Total.readAt ⟨by omega, by omega⟩) fun tag _ => ?_
    have hlt : size < 2 ^ 16 := hsize ▸ lrdtSize_lt
    rw [← Int.natCast_add]
    split
    · refine .pure (.inr ⟨n + 3, _, rfl, ?_⟩)
      rw [clipLen_eq (by omega) (by omega) (by omega)]
      omega
    · rw [toInt_toInt_add, ← Int.natCast_add]
      exact ih (by omega) (by omega)

theorem pciVpdFindTag_total (hlen : len ≤ 2 ^ 31) (hfuel : len < fuel) :
    (pciVpdFindTag buf len fuel rdt).Total (InBuf len) (TagFound len) := by
  obtain ⟨rounds, rfl⟩ : ∃ rounds, fuel = rounds + 1 := ⟨fuel - 1, by omega⟩
  rw [pciVpdFindTag, ← toInt_zero]
  exact findTagLoop_total hlen (by omega) (by omega)

/-- A field that is found starts before `stop` with all of its header. -/
theorem findInfoKeywordLoop_total (hlen : len ≤ 2 ^ 31) (hstop : stop ≤ len) (hfuel : stop ≤ n + fuel)
    (hn : n + 3 < 2 ^ 32) :
    (findInfoKeywordLoop buf stop kw (fuel + 1) (toInt n)).Total (InBuf len) fun r =>
      r = -ENOENT ∨ ∃ k : ℕ, r = k ∧ k + 3 ≤ stop := by
  induction fuel generalizing n with
  | zero =>
    rw [findInfoKeywordLoop, if_pos (by rw [show (3 : ℤ) = (3 : ℕ) from rfl, toU32_end hn]; omega)]
    exact .pure (.inl rfl)
  | succ fuel ih =>
    rw [findInfoKeywordLoop, show (3 : ℤ) = (3 : ℕ) from rfl, toU32_end hn]
    split
    · exact .pure (.inl rfl)
    next hle =>
    rw [toInt_of_lt (by omega)]
    have hsecond : toInt (n + 1) = (n + 1 : ℕ) := toInt_of_lt (n := n + 1) (by omega)
    refine .bind (Total.hasKeyword ⟨by omega, by omega⟩ ⟨by omega, by omega⟩) fun hit _ => ?_
    split
    · exact .pure (.inr ⟨n, rfl, by omega⟩)
    · refine .bind (Total.pciVpdInfoFieldSize ⟨by omega, by omega⟩) fun size hsize => ?_
      have := (buf (n + 2)).isLt
      rw [← Int.natCast_add, ← Int.natCast_add]
      exact ih (by omega) (by omega)

/-- What the search for a keyword returns: an error, or data in the buffer. -/
def DataFound (len : ℕ) (r : Found) : Prop := r.ret < 0 ∨ ∃ o s : ℕ, r = ⟨o, some s⟩ ∧ o + s ≤ len

theorem pciVpdFindRoInfoKeyword_total (hlen : len ≤ 2 ^ 31) (hfuel : len < fuel) :
    (pciVpdFindRoInfoKeyword buf len fuel kw).Total (InBuf len) (DataFound len) := by
  refine .bind (pciVpdFindTag_total hlen hfuel) fun ro hro => ?_
  split
  next hneg => exact .pure (.inl hneg)
  next hpos =>
  obtain hnone | ⟨m, s, rfl, hms⟩ := hro
  · exact absurd (hnone ▸ by decide) hpos
  dsimp only at hpos ⊢
  have hm : m < 2 ^ 31 := Nat.lt_of_not_le fun hle => hpos (toInt_lt_zero hle (by omega))
  rw [pciVpdFindInfoKeyword, Option.getD_some, toInt_of_lt hm, toU32_of_lt (by omega), Nat.mod_eq_of_lt (by omega)]
  obtain ⟨rounds, rfl⟩ : ∃ rounds, fuel = rounds + 1 := ⟨fuel - 1, by omega⟩
  refine .bind (findInfoKeywordLoop_total hlen hms (by omega) (by omega)) fun start hstart => ?_
  split
  next hneg => exact .pure (.inl hneg)
  next hpos' =>
  obtain rfl | ⟨k, rfl, hk⟩ := hstart
  · exact absurd (by decide) hpos'
  refine .bind (Total.pciVpdInfoFieldSize ⟨by omega, by omega⟩) fun size hsize => ?_
  have := (buf (k + 2)).isLt
  rw [show (3 : ℤ) = (3 : ℕ) from rfl, ← Int.natCast_add, toU32_end (by omega)]
  split
  · exact .pure (.inl (by decide))
  next hle =>
  refine .pure ?_
  obtain hlt | hge := Nat.lt_or_ge (k + 3) (2 ^ 31)
  · exact .inr ⟨k + 3, size, by rw [toInt_of_lt hlt], by omega⟩
  · refine .inl ?_
    dsimp only
    exact toInt_lt_zero hge (by omega)

theorem csumLoop_total (hfuel : n < fuel) (hn : n < len) {csum : BitVec 8} :
    (csumLoop buf (fuel + 1) n csum).Total (InBuf len) fun _ => True := by
  induction fuel generalizing n csum with
  | zero => omega
  | succ fuel ih =>
    rw [csumLoop, if_pos (Int.natCast_nonneg n)]
    refine .bind (Total.readAt ⟨by omega, by omega⟩) fun b _ => ?_
    cases n with
    | zero =>
      rw [csumLoop, if_neg (by decide)]
      exact .pure trivial
    | succ n =>
      rw [Int.natCast_add, Int.natCast_one, Int.add_sub_cancel]
      exact ih (by omega) (by omega)

theorem pciVpdCheckCsum_total (hlen : len ≤ 2 ^ 31) (hfuel : len < fuel) :
    (pciVpdCheckCsum buf len fuel).Total (InBuf len) fun _ => True := by
  refine .bind (pciVpdFindRoInfoKeyword_total hlen hfuel) fun rv hrv => ?_
  split
  · exact .pure trivial
  split
  · exact .pure trivial
  next hpos =>
  obtain hneg | ⟨o, s, rfl, hos⟩ := hrv
  · exact absurd hneg hpos
  rw [Option.getD_some]
  split
  · exact .pure trivial
  · obtain ⟨rounds, rfl⟩ : ∃ rounds, fuel = rounds + 1 := ⟨fuel - 1, by omega⟩
    exact .bind (csumLoop_total (by omega) (by omega)) fun _ _ => .pure trivial

/-! ### What lies in the buffer -/

theorem holds_append : Holds buf i (bytes ++ bytes') ↔ Holds buf i bytes ∧ Holds buf (i + bytes.length) bytes' := by
  induction bytes generalizing i with
  | nil => simp [Holds]
  | cons b bytes ih =>
    rw [cons_append, Holds, Holds, ih, and_assoc, length_cons, Int.natCast_add, Int.natCast_one,
      Int.add_right_comm, ← Int.add_assoc]

theorem not_large_of_isEnd (h : b >>> 3 = PCI_VPD_STIN_END) : b &&& PCI_VPD_LRDT = 0 := by
  revert b
  decide

namespace InfoField

theorem length_bytes (f : InfoField) : f.bytes.length = 3 + f.data.length := by
  simp only [bytes, length_cons]
  omega

theorem holds_bytes {f : InfoField} : Holds buf i f.bytes ↔
    buf i = f.kw.1 ∧ buf (i + 1) = f.kw.2 ∧ (buf (i + 2)).toNat = f.data.length ∧ Holds buf (i + 3) f.data := by
  have hsize : buf (i + 2) = BitVec.ofNat 8 f.data.length ↔ (buf (i + 2)).toNat = f.data.length := by
    rw [← BitVec.toNat_inj, BitVec.toNat_ofNat, Nat.mod_eq_of_lt f.size_lt]
  simp only [InfoField.bytes, Holds, Int.add_assoc, ← hsize]
  rfl

/-- The data of a field that is found lies among the fields, and is preceded by its size. -/
theorem find_spec {fields : List InfoField} (h : (m, size) ∈ find kw n fields) :
    n + 3 ≤ m ∧ m + size ≤ n + (fields.flatMap InfoField.bytes).length := by
  induction fields generalizing n with
  | nil => exact nomatch h
  | cons f fields ih =>
    rw [flatMap_cons, length_append, length_bytes]
    rw [find, Option.mem_def] at h
    split at h
    · obtain ⟨rfl, rfl⟩ := Prod.mk.inj (Option.some.inj h)
      omega
    · have := ih h
      omega

end InfoField

namespace Item

theorem length_bytes (item : Item) : item.bytes.length = 3 + item.data.length := by
  simp only [bytes, length_cons]
  omega

theorem data_length_lt (item : Item) : item.data.length < 2 ^ 16 := by
  cases item with
  | readOnly fields size_lt => exact size_lt
  | other tag data large ne size_lt => exact size_lt

theorem large (item : Item) : item.tag &&& PCI_VPD_LRDT ≠ 0 := by
  cases item with
  | readOnly fields size_lt => exact show PCI_VPD_LRDT_RO_DATA &&& PCI_VPD_LRDT ≠ 0 by decide
  | other tag data large ne size_lt => exact large

theorem of_holds_bytes {item : Item} (h : Holds buf i item.bytes) :
    buf i = item.tag ∧ lrdtSize buf i = item.data.length ∧ Holds buf (i + 3) item.data := by
  obtain ⟨htag, hlo, hhi, hdata⟩ := h
  rw [Int.add_assoc, Int.add_assoc] at hdata
  rw [Int.add_assoc] at hhi
  refine ⟨htag, ?_, hdata⟩
  have hlt := item.data_length_lt
  rw [lrdtSize, hlo, show (2 : ℤ) = 1 + 1 from rfl, hhi, BitVec.toNat_ofNat, BitVec.toNat_ofNat]
  omega

end Item

/-! ### The search in an image -/

theorem result_findTagLoop (hlen : len ≤ 2 ^ 31) (hle : n + 3 ≤ len) (hlarge : buf n &&& PCI_VPD_LRDT ≠ 0) :
    (findTagLoop buf len rdt (fuel + 1) (toInt n)).result =
      if buf n = rdt then some ⟨toInt (n + 3 : ℕ), some (min (lrdtSize buf n) (len - (n + 3)))⟩
      else (findTagLoop buf len rdt fuel (toInt (n + 3 + lrdtSize buf n : ℕ))).result := by
  have hlt : lrdtSize buf n < 2 ^ 16 := lrdtSize_lt
  rw [findTagLoop, show (3 : ℤ) = (3 : ℕ) from rfl, toU32_end (by omega), if_neg (by omega), toInt_of_lt (by omega),
    Traced.result_bind, result_readAt, Option.bind_some, if_neg hlarge, Traced.result_bind, result_pciVpdLrdtSize,
    Option.bind_some, Traced.result_bind, result_readAt, Option.bind_some, ← Int.natCast_add, toInt_toInt_add,
    ← Int.natCast_add, clipLen_eq (by omega) (by omega) (by omega)]
  split <;> rfl

theorem result_findTagLoop_end (hlt : n < 2 ^ 31) (hlarge : buf n &&& PCI_VPD_LRDT = 0) :
    (findTagLoop buf len rdt (fuel + 1) (toInt n)).result = some ⟨-ENOENT, none⟩ := by
  rw [findTagLoop, toInt_of_lt hlt]
  split
  · rfl
  · rw [Traced.result_bind, result_readAt, Option.bind_some, if_pos hlarge]
    rfl

/-- The search for the tag of the read-only item, among items that start at `n`. -/
theorem findTagLoop_items (hlen : len ≤ 2 ^ 31) (items : List Item) (hend : b >>> 3 = PCI_VPD_STIN_END)
    (hbuf : Holds buf n (items.flatMap Item.bytes ++ [b])) (hle : n + (items.flatMap Item.bytes).length < len)
    (hfuel : len ≤ n + fuel) :
    ((findTagLoop buf len PCI_VPD_LRDT_RO_DATA (fuel + 1) (toInt n)).result = some ⟨-ENOENT, none⟩ ∧
        Item.findReadOnly n items = none) ∨
      ∃ m fields, Item.findReadOnly n items = some (m, fields) ∧
        m + (fields.flatMap InfoField.bytes).length < len ∧ Holds buf m (fields.flatMap InfoField.bytes) ∧
        (findTagLoop buf len PCI_VPD_LRDT_RO_DATA (fuel + 1) (toInt n)).result =
          some ⟨m, some (fields.flatMap InfoField.bytes).length⟩ := by
  induction items generalizing n fuel with
  | nil =>
    rw [flatMap_nil, nil_append, Holds] at hbuf
    rw [flatMap_nil, length_nil] at hle
    exact .inl ⟨result_findTagLoop_end (by omega) (hbuf.1 ▸ not_large_of_isEnd hend), rfl⟩
  | cons item items ih =>
    rw [flatMap_cons, append_assoc, holds_append] at hbuf
    obtain ⟨hitem, hrest⟩ := hbuf
    obtain ⟨htag, hsize, hdata⟩ := Item.of_holds_bytes hitem
    rw [flatMap_cons, length_append, Item.length_bytes] at hle
    have hloop : (findTagLoop buf len PCI_VPD_LRDT_RO_DATA (fuel + 1) (toInt n)).result = _ :=
      result_findTagLoop hlen (by omega) (htag ▸ item.large)
    rw [htag, hsize] at hloop
    rw [hloop]
    cases item with
    | readOnly fields size_lt =>
      rw [Item.data] at hdata hle
      refine .inr ⟨n + 3, fields, rfl, by omega, hdata, ?_⟩
      rw [Item.tag, if_pos rfl, toInt_of_lt (by omega), Item.data, Nat.min_eq_left (by omega)]
    | other tag data large ne size_lt =>
      rw [Item.length_bytes, ← Int.natCast_add, Item.data, ← Nat.add_assoc] at hrest
      rw [Item.data] at hle
      obtain ⟨rounds, rfl⟩ : ∃ rounds, fuel = rounds + 1 := ⟨fuel - 1, by omega⟩
      rw [Item.tag, if_neg ne, Item.data, Item.findReadOnly]
      exact ih hrest (by omega) (by omega)

/-- The search for the keyword, among fields that start at `n`. -/
theorem findInfoKeywordLoop_fields (kw : Keyword) (fields : List InfoField) (hbuf : Holds buf n (fields.flatMap InfoField.bytes))
    (hstop : n + (fields.flatMap InfoField.bytes).length = stop) (hlt : stop < 2 ^ 31) (hfuel : stop ≤ n + fuel) :
    ((findInfoKeywordLoop buf stop kw (fuel + 1) (toInt n)).result = some (-ENOENT) ∧ InfoField.find kw n fields = none) ∨
      ∃ m size, InfoField.find kw n fields = some (m + 3, size) ∧ (buf (m + 2 : ℕ)).toNat = size ∧
        (findInfoKeywordLoop buf stop kw (fuel + 1) (toInt n)).result = some (m : ℤ) := by
  induction fields generalizing n fuel with
  | nil =>
    rw [flatMap_nil, length_nil] at hstop
    rw [findInfoKeywordLoop, show (3 : ℤ) = (3 : ℕ) from rfl, toU32_end (by omega), if_pos (by omega)]
    exact .inl ⟨rfl, rfl⟩
  | cons f fields ih =>
    rw [flatMap_cons, holds_append] at hbuf
    obtain ⟨hfield, hrest⟩ := hbuf
    obtain ⟨hfirst, hsecond, hsize, hdata⟩ := InfoField.holds_bytes.mp hfield
    rw [flatMap_cons, length_append, InfoField.length_bytes] at hstop
    rw [InfoField.length_bytes, ← Int.natCast_add, ← Nat.add_assoc] at hrest
    have hnext : toInt (n + 1) = n + 1 := toInt_of_lt (n := n + 1) (by omega)
    have hhit : (hasKeyword buf kw n).result = some (decide (f.Named kw)) := by
      rw [result_hasKeyword, hnext, hfirst, hsecond]
      rfl
    rw [findInfoKeywordLoop, show (3 : ℤ) = (3 : ℕ) from rfl, toU32_end (by omega), if_neg (by omega),
      toInt_of_lt (by omega), Traced.result_bind, hhit, Option.bind_some, InfoField.find]
    by_cases hkw : f.Named kw
    · rw [if_pos (decide_eq_true hkw), if_pos hkw]
      exact .inr ⟨n, f.data.length, rfl, by exact_mod_cast hsize, rfl⟩
    · obtain ⟨rounds, rfl⟩ : ∃ rounds, fuel = rounds + 1 := ⟨fuel - 1, by omega⟩
      rw [if_neg (by rw [decide_eq_true_iff]; exact hkw), if_neg hkw, Traced.result_bind, result_pciVpdInfoFieldSize,
        Option.bind_some, hsize, ← Int.natCast_add, ← Int.natCast_add]
      exact ih hrest (by omega) (by omega)

theorem result_pciVpdFindRoInfoKeyword
    (htag : (pciVpdFindTag buf len fuel PCI_VPD_LRDT_RO_DATA).result = some ⟨m, some size⟩) (hm : m < 2 ^ 31)
    (hsize : m + size < 2 ^ 32) :
    (pciVpdFindRoInfoKeyword buf len fuel kw).result =
      (findInfoKeywordLoop buf (m + size) kw fuel (toInt m)).result.bind fun start =>
        if start < 0 then some ⟨start, none⟩
        else if len < toU32 (toInt (start + 3) + (buf (start + 2)).toNat) then some ⟨-EINVAL, none⟩
        else some ⟨toInt (start + 3), some (buf (start + 2)).toNat⟩ := by
  rw [pciVpdFindRoInfoKeyword, Traced.result_bind, htag, Option.bind_some, if_neg (by simp), Option.getD_some,
    toU32_of_lt (by omega), pciVpdFindInfoKeyword, Nat.mod_eq_of_lt hsize, Traced.result_bind]
  congr 1
  funext start
  split
  · rfl
  · rw [Traced.result_bind, result_pciVpdInfoFieldSize, Option.bind_some]
    split <;> rfl

theorem exact_of_le (hlen : len ≤ 2 ^ 31) (hfuel : len < fuel) {image : Image} (hle : image.bytes.length ≤ len)
    (hbuf : Holds buf 0 image.bytes) : Exact image kw (pciVpdFindRoInfoKeyword buf len fuel kw) := by
  obtain ⟨rounds, rfl⟩ : ∃ rounds, fuel = rounds + 1 := ⟨fuel - 1, by omega⟩
  rw [Image.bytes, length_append, length_singleton] at hle
  have htag := findTagLoop_items hlen image.items image.isEnd hbuf
    (show 0 + (image.items.flatMap Item.bytes).length < len by omega) (show len ≤ 0 + rounds by omega)
  rw [toInt_zero] at htag
  obtain ⟨hresult, hnone⟩ | ⟨m, fields, hsome, hfits, hfields, hresult⟩ := htag
  · refine ⟨⟨-ENOENT, none⟩, ?_, .inl ⟨rfl, ?_⟩⟩
    · rw [Option.mem_def, pciVpdFindRoInfoKeyword, Traced.result_bind, pciVpdFindTag, hresult, Option.bind_some,
        if_pos (by decide)]
      rfl
    · rw [Image.lookup, Image.readOnly, hnone]
      rfl
  have hfind := findInfoKeywordLoop_fields kw fields hfields rfl (by omega)
    (show m + (fields.flatMap InfoField.bytes).length ≤ m + rounds by omega)
  have hlookup : image.lookup kw = InfoField.find kw m fields := by
    rw [Image.lookup, Image.readOnly, hsome, Option.bind_some]
  have hrun : (pciVpdFindRoInfoKeyword buf len (rounds + 1) kw).result = _ :=
    result_pciVpdFindRoInfoKeyword hresult (by omega) (by omega)
  obtain ⟨hkey, hnone⟩ | ⟨start, size, hsome', hsize, hkey⟩ := hfind
  · rw [hkey, Option.bind_some, if_pos (by decide)] at hrun
    exact ⟨_, hrun, .inl ⟨rfl, hlookup.trans hnone⟩⟩
  · have hin := InfoField.find_spec hsome'
    rw [show buf (start + 2 : ℕ) = buf (start + 2) from rfl] at hsize
    rw [hkey, Option.bind_some, if_neg (by omega), hsize, show (start : ℤ) + 3 = (start + 3 : ℕ) from rfl,
      toU32_end (by omega), if_neg (by omega), toInt_of_lt (by omega)] at hrun
    exact ⟨_, hrun, .inr ⟨_, hlookup.trans hsome', rfl, _, hsome, by omega, hin.2⟩⟩

/-! ### The search in a longer buffer -/

/-- An offset that is returned is an `int`. -/
theorem ret_lt {r : Found} (h : r ∈ (pciVpdFindRoInfoKeyword buf len fuel kw).result) : r.ret < 2 ^ 31 := by
  have hends : (pciVpdFindRoInfoKeyword buf len fuel kw).Ends fun r _ => r.ret < 2 ^ 31 := by
    refine .bind (Q := fun _ _ => True) (fun _ _ => trivial) fun ro _ _ => ?_
    split
    next hneg => exact .pure (by dsimp only; omega)
    refine .bind (Q := fun _ _ => True) (fun _ _ => trivial) fun start _ _ => ?_
    split
    next hneg => exact .pure (by dsimp only; omega)
    refine .bind (Q := fun _ _ => True) (fun _ _ => trivial) fun size _ _ => ?_
    split
    · exact .pure (by dsimp only [EINVAL]; omega)
    · exact .pure (by dsimp only; exact toInt_lt)
  exact hends r h

theorem not_exact {image : Image} (h : image.lookup kw = some (2 ^ 31, size)) :
    ¬Exact image kw (pciVpdFindRoInfoKeyword buf len fuel kw) := by
  rintro ⟨r, hr, ⟨-, hnone⟩ | ⟨data, hdata, rfl, -⟩⟩
  · exact nomatch h.symm.trans hnone
  · obtain rfl : (2 ^ 31, size) = data := Option.some.inj (h.symm.trans hdata)
    have := ret_lt hr
    dsimp only at this
    omega

/-- The bytes at the start of a buffer. -/
def bufOf (bytes : List (BitVec 8)) : Buf := fun i => bytes.getD i.toNat 0

theorem holds_bufOf (n : ℕ) (bytes : List (BitVec 8)) : Holds (bufOf bytes) n (bytes.drop n) := by
  generalize hrest : bytes.drop n = rest
  induction rest generalizing n with
  | nil => trivial
  | cons b rest ih =>
    have hget : bytes[n]? = some b := by rw [← List.head?_drop, hrest, List.head?_cons]
    refine ⟨?_, ih (n + 1) ?_⟩
    · rw [bufOf, Int.toNat_natCast, getD_eq_getElem?_getD, hget, Option.getD_some]
    · rw [← tail_drop, hrest, tail_cons]

theorem findReadOnly_replicate {tag : BitVec 8} {data : List (BitVec 8)} {large : tag &&& PCI_VPD_LRDT ≠ 0}
    {ne : tag ≠ PCI_VPD_LRDT_RO_DATA} {size_lt : data.length < 2 ^ 16} (k : ℕ) (items : List Item) :
    Item.findReadOnly n (List.replicate k (.other tag data large ne size_lt) ++ items) =
      Item.findReadOnly (n + k * (3 + data.length)) items := by
  induction k generalizing n with
  | zero => rw [replicate_zero, nil_append, Nat.zero_mul, Nat.add_zero]
  | succ k ih =>
    rw [replicate_succ, cons_append, Item.findReadOnly, ih]
    congr 1
    rw [Nat.succ_mul]
    omega

/-- An item with an identifier, all zeros. -/
def idItem (size : ℕ) (h : size < 2 ^ 16) : Item :=
  .other 0x82 (List.replicate size 0) (by decide) (by decide) (by rwa [List.length_replicate])

/-- The field `V0` without data. -/
def emptyField : InfoField := ⟨(0x56, 0x30), [], by decide⟩

def emptyFieldItem : Item := .readOnly [emptyField] (by decide)

/-- A field whose data starts at `2^31`. -/
def farImage : Image where
  items := List.replicate 32767 (idItem 65533 (by decide)) ++ [idItem 65527 (by decide), emptyFieldItem]
  stop := 0x78
  isEnd := by decide

/-- `"V0"` -/
def V0 : Keyword := (0x56, 0x30)

theorem farImage_lookup : farImage.lookup V0 = some (2 ^ 31, 0) := by
  have hro : farImage.readOnly = some (2 ^ 31 - 3, [emptyField]) := by
    rw [Image.readOnly, farImage, idItem, findReadOnly_replicate, idItem, Item.findReadOnly, emptyFieldItem,
      Item.findReadOnly, length_replicate, length_replicate]
    norm_num
  rw [Image.lookup, hro]
  decide

theorem length_farImage : farImage.bytes.length = 2 ^ 31 + 1 := by
  simp only [Image.bytes, farImage, flatMap_append, length_append, length_flatMap, map_replicate,
    sum_replicate, flatMap_cons, flatMap_nil, Item.length_bytes, idItem, Item.data, length_replicate]
  decide

theorem not_searchRight (hlen : 2 ^ 31 < len) : ¬SearchRight len := fun h =>
  not_exact farImage_lookup
    ((h (bufOf farImage.bytes) V0 (len + 1) (Nat.lt_succ_self _)).2.2 farImage (length_farImage ▸ hlen)
      (holds_bufOf 0 farImage.bytes))

/-- The search is right as long as every offset in the buffer is an `int`. -/
theorem searchRight_iff (len : ℕ) : SearchRight len ↔ len ≤ 2 ^ 31 := by
  constructor
  · intro h
    exact Nat.le_of_not_lt fun hlt => not_searchRight hlt h
  · intro hlen buf kw fuel hfuel
    obtain ⟨hread, r, hr, -⟩ : (pciVpdFindRoInfoKeyword buf len fuel kw).Total _ _ := pciVpdFindRoInfoKeyword_total hlen hfuel
    obtain ⟨hread', r', hr', -⟩ : (pciVpdCheckCsum buf len fuel).Total _ _ := pciVpdCheckCsum_total hlen hfuel
    exact ⟨⟨hread, Option.isSome_of_mem hr⟩, ⟨hread', Option.isSome_of_mem hr'⟩,
      fun image hle hbuf => exact_of_le hlen hfuel hle hbuf⟩

/-- In a buffer that holds the image with a field at `2^31`, that field is not found. -/
theorem farImage_not_searchRight : ¬SearchRight (2 ^ 31 + 1) := not_searchRight (Nat.lt_succ_self _)

end

end GfpDrivers.Pci.Vpd
