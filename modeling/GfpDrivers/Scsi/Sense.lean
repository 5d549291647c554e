import GfpDrivers.Basic
import GfpDrivers.Lib.Traced

/-!
Descriptors of SCSI sense data (`scsi_common.c`). After a header of eight bytes, whose last one is the
length of the rest, descriptors lie one after the other. `scsi_sense_desc_find` walks along them, and
`scsi_set_sense_information` and `scsi_set_sense_field_pointer` replace a descriptor or append one.

Programs leave a trace of the bytes that they read and write. A buffer is a function from index to
byte: what lies behind its end is there, but a program must not touch it.
-/

namespace GfpDrivers.Scsi

open Lib Traced Function List

abbrev SenseBuf := ℕ → BitVec 8

inductive SenseEvent where
  | read (i : ℕ)
  | write (i : ℕ)
  deriving DecidableEq

/-! ### The code -/

def getByte (buf : SenseBuf) (i : ℕ) : Traced SenseEvent (BitVec 8) := do
  emit (.read i)
  pure (buf i)

def putByte (buf : SenseBuf) (i : ℕ) (v : BitVec 8) : Traced SenseEvent SenseBuf := do
  emit (.write i)
  pure (Function.update buf i v)

/-- The bytes are written at places relative to `ucp`. -/
def putBytes (ucp : ℕ) : SenseBuf → List (ℕ × BitVec 8) → Traced SenseEvent SenseBuf
  | buf, [] => pure buf
  | buf, (i, v) :: rest => do
      let buf ← putByte buf (ucp + i) v
      putBytes ucp buf rest

/-- The additional length of the descriptor at `8 + k`, or -1 if it is cut off. -/
def getAddLen (buf : SenseBuf) (addSenLen k : ℕ) : Traced SenseEvent ℤ :=
  if (k : ℤ) < addSenLen - 1 then do
    let len ← getByte buf (8 + k + 1)
    pure len.toNat
  else pure (-1)

/-- The loop of `scsi_sense_desc_find`, where `descp` is `8 + k`. -/
def findLoop (buf : SenseBuf) (addSenLen : ℕ) (descType : ℤ) : ℕ → ℕ → Traced SenseEvent (Option ℕ)
  | 0, _ => unfinished
  | rounds + 1, k =>
      if k < addSenLen then do
        let addLen ← getAddLen buf addSenLen k
        let type ← getByte buf (8 + k)
        if (type.toNat : ℤ) = descType then pure (some (8 + k))
        else if addLen < 0 then pure none
        else findLoop buf addSenLen descType rounds (k + (addLen + 2).toNat)
      else pure none

/-- `scsi_sense_desc_find`, which returns the index of the descriptor. -/
def scsiSenseDescFind (rounds : ℕ) (buf : SenseBuf) (sbLen descType : ℤ) : Traced SenseEvent (Option ℕ) :=
  if sbLen < 8 then pure none
  else do
    let addSenLen ← getByte buf 7
    if addSenLen = 0 then pure none
    else do
      let responseCode ← getByte buf 0
      if responseCode < 0x72 ∨ responseCode > 0x73 then pure none
      else findLoop buf (min addSenLen.toNat (sbLen - 8).toNat) descType rounds 0

/-- Where the bytes of a descriptor go: over the one that was found, or behind the last one, for which the length
grows. -/
def placeDescriptor (buf : SenseBuf) (len size : BitVec 8) : Option ℕ → Traced SenseEvent (SenseBuf × ℕ)
  | some ucp => pure (buf, ucp)
  | none => do
      let buf ← putByte buf 7 (len + size)
      pure (buf, 8 + len.toNat)

/-- The part of the builders for descriptor format: a descriptor with a type and a size is looked for or
appended, and its bytes are written. -/
def setDescriptor (rounds : ℕ) (buf : SenseBuf) (bufLen : ℤ) (type size : BitVec 8) (bytes : List (ℕ × BitVec 8)) :
    Traced SenseEvent (SenseBuf × ℤ) := do
  let len ← getByte buf 7
  let found ← scsiSenseDescFind rounds buf (len.toNat + 8) type.toNat
  let (buf, ucp) ← placeDescriptor buf len size found
  if bufLen < len.toNat + size.toNat then pure (buf, -EINVAL)
  else do
    let buf ← putBytes ucp buf bytes
    pure (buf, 0)

/-- The bytes of `put_unaligned_be16`, from the place `i` on. -/
def be16 (i : ℕ) (v : BitVec 16) : List (ℕ × BitVec 8) := [(i, (v >>> 8).setWidth 8), (i + 1, v.setWidth 8)]

/-- The bytes of `put_unaligned_be32`. -/
def be32 (i : ℕ) (v : BitVec 32) : List (ℕ × BitVec 8) := be16 i ((v >>> 16).setWidth 16) ++ be16 (i + 2) (v.setWidth 16)

/-- The bytes of `put_unaligned_be64`. -/
def be64 (i : ℕ) (v : BitVec 64) : List (ℕ × BitVec 8) := be32 i ((v >>> 32).setWidth 32) ++ be32 (i + 4) (v.setWidth 32)

/-- The bytes of an information descriptor. -/
def informationBytes (info : BitVec 64) : List (ℕ × BitVec 8) := [(0, 0), (1, 0xa), (2, 0x80), (3, 0)] ++ be64 4 info

/-- The byte with the flags `SKSV`, `C/D` and `BPV` and the bit pointer. -/
def pointerFlags (bp : BitVec 8) (cd : Bool) : BitVec 8 :=
  0x80 ||| (if cd then 0x40 else 0) ||| (if bp < 8 then 0x8 ||| bp else 0)

/-- The bytes of a sense key specific descriptor that are written. -/
def pointerBytes (fp : BitVec 16) (bp : BitVec 8) (cd : Bool) : List (ℕ × BitVec 8) :=
  [(0, 2), (1, 6), (4, pointerFlags bp cd)] ++ be16 5 fp

/-- `scsi_set_sense_information` -/
def scsiSetSenseInformation (rounds : ℕ) (buf : SenseBuf) (bufLen : ℤ) (info : BitVec 64) :
    Traced SenseEvent (SenseBuf × ℤ) := do
  let responseCode ← getByte buf 0
  if responseCode &&& 0x7f = 0x72 then setDescriptor rounds buf bufLen 0 0xc (informationBytes info)
  else if responseCode &&& 0x7f = 0x70 then do
    let buf ← putByte buf 0 (if info ≤ 0xffffffff then responseCode ||| 0x80 else responseCode &&& 0x7f)
    let buf ← putBytes 0 buf (be32 3 (info.setWidth 32))
    pure (buf, 0)
  else pure (buf, 0)

/-- `if (len < 18) buf[7] = 18;` -/
def growLength (buf : SenseBuf) (len : BitVec 8) : Traced SenseEvent SenseBuf :=
  if len < 18 then putByte buf 7 18 else pure buf

/-- `scsi_set_sense_field_pointer` -/
def scsiSetSenseFieldPointer (rounds : ℕ) (buf : SenseBuf) (bufLen : ℤ) (fp : BitVec 16) (bp : BitVec 8) (cd : Bool) :
    Traced SenseEvent (SenseBuf × ℤ) := do
  let responseCode ← getByte buf 0
  if responseCode &&& 0x7f = 0x72 then setDescriptor rounds buf bufLen 2 8 (pointerBytes fp bp cd)
  else if responseCode &&& 0x7f = 0x70 then do
    let len ← getByte buf 7
    let buf ← growLength buf len
    let buf ← putBytes 0 buf ((15, pointerFlags bp cd) :: be16 16 fp)
    pure (buf, 0)
  else pure (buf, 0)

/-! ### The search -/

variable {buf buf' : SenseBuf} {rounds n k i a ucp : ℕ} {t : ℤ} {P : SenseEvent → Prop}

theorem getByte_result : (getByte buf i).result = some (buf i) := rfl

/-- The event is a read below `n`. -/
def SenseEvent.ReadsBelow (n : ℕ) : SenseEvent → Prop
  | .read i => i < n
  | .write _ => False

theorem getByte_allEvents (h : P (.read i)) : AllEvents P (getByte buf i) :=
  (AllEvents.emit h).bind fun _ _ => .pure

theorem getAddLen_reads : AllEvents (SenseEvent.ReadsBelow (8 + n)) (getAddLen buf n k) := by
  rw [getAddLen]
  split
  · next hk =>
    have hlt : 8 + k + 1 < 8 + n := by omega
    exact (getByte_allEvents hlt).bind fun _ _ => .pure
  · exact .pure

theorem getAddLen_result (buf : SenseBuf) (n k : ℕ) :
    (getAddLen buf n k).result = some (if k + 1 < n then ((buf (8 + k + 1)).toNat : ℤ) else -1) := by
  rw [getAddLen]
  by_cases hk : k + 1 < n
  · rw [if_pos (by omega), if_pos hk]
    rfl
  · rw [if_neg (by omega), if_neg hk]
    rfl

theorem findLoop_reads : AllEvents (SenseEvent.ReadsBelow (8 + n)) (findLoop buf n t rounds k) := by
  induction rounds generalizing k with
  | zero => exact .unfinished
  | succ rounds ih =>
    rw [findLoop]
    split
    · next hk =>
      have hlt : 8 + k < 8 + n := by omega
      refine (getAddLen_reads).bind fun addLen _ => (getByte_allEvents hlt).bind fun type _ => ?_
      split
      · exact .pure
      split
      · exact .pure
      · exact ih
    · exact .pure

theorem findLoop_result (buf : SenseBuf) (n rounds k : ℕ) (t : ℤ) :
    (findLoop buf n t (rounds + 1) k).result =
      if n ≤ k then some none
      else if ((buf (8 + k)).toNat : ℤ) = t then some (some (8 + k))
      else if n ≤ k + 1 then some none
      else (findLoop buf n t rounds (k + 2 + (buf (8 + k + 1)).toNat)).result := by
  rw [findLoop]
  by_cases hk : k < n
  · rw [if_pos hk, if_neg (by omega), result_bind, getAddLen_result, Option.bind_some, result_bind, getByte_result,
      Option.bind_some]
    split
    · rfl
    · by_cases hnext : k + 1 < n
      · rw [if_pos hnext, if_neg (by omega), if_neg (by omega)]
        congr 2
        omega
      · rw [if_neg hnext, if_pos (by decide), if_pos (by omega)]
        rfl
  · rw [if_neg hk, if_pos (by omega)]
    rfl

theorem findLoop_returns (h : n - k < rounds) : (findLoop buf n t rounds k).result ≠ none := by
  induction rounds generalizing k with
  | zero => exact absurd h (Nat.not_lt_zero _)
  | succ rounds ih =>
    rw [findLoop_result]
    split
    · nofun
    split
    · nofun
    split
    · nofun
    · exact ih (by omega)

theorem scsiSenseDescFind_returns (h : 256 ≤ rounds) (buf : SenseBuf) (sbLen t : ℤ) :
    (scsiSenseDescFind rounds buf sbLen t).result ≠ none := by
  rw [scsiSenseDescFind]
  split
  · nofun
  rw [result_bind, getByte_result, Option.bind_some]
  split
  · nofun
  rw [result_bind, getByte_result, Option.bind_some]
  split
  · nofun
  · have := (buf 7).isLt
    exact findLoop_returns (by omega)

theorem scsiSenseDescFind_reads (rounds : ℕ) (buf : SenseBuf) (sbLen t : ℤ) :
    AllEvents (SenseEvent.ReadsBelow sbLen.toNat) (scsiSenseDescFind rounds buf sbLen t) := by
  rw [scsiSenseDescFind]
  split
  · exact .pure
  · next hlen =>
    have h7 : 7 < sbLen.toNat := by omega
    have h0 : 0 < sbLen.toNat := by omega
    refine (getByte_allEvents h7).bind fun len _ => ?_
    split
    · exact .pure
    refine (getByte_allEvents h0).bind fun code _ => ?_
    split
    · exact .pure
    · intro e he
      have hbelow := findLoop_reads e he
      cases e with
      | read i => exact Nat.lt_of_lt_of_le hbelow (by omega)
      | write i => exact hbelow

/-! ### Lists of descriptors -/

structure SenseDesc where
  type : BitVec 8
  data : List (BitVec 8)
  deriving DecidableEq

/-- The size of a descriptor with its type and its length. -/
def SenseDesc.size (d : SenseDesc) : ℕ := d.data.length + 2

def totalSize (descs : List SenseDesc) : ℕ := (descs.map SenseDesc.size).sum

variable {d : SenseDesc} {descs pre post l l' : List SenseDesc} {bufLen : ℕ}

@[simp] theorem totalSize_nil : totalSize [] = 0 := rfl

@[simp] theorem totalSize_cons : totalSize (d :: descs) = d.size + totalSize descs := by simp [totalSize]

@[simp] theorem totalSize_append : totalSize (l ++ l') = totalSize l + totalSize l' := by simp [totalSize]

/-- The descriptors lie one after the other, from `a` on. -/
def Laid (buf : SenseBuf) : ℕ → List SenseDesc → Prop
  | _, [] => True
  | a, d :: rest =>
      buf a = d.type ∧ (buf (a + 1)).toNat = d.data.length ∧ (∀ i (h : i < d.data.length), buf (a + 2 + i) = d.data[i]) ∧
        Laid buf (a + d.size) rest

theorem laid_append : Laid buf a (l ++ l') ↔ Laid buf a l ∧ Laid buf (a + totalSize l) l' := by
  induction l generalizing a with
  | nil => exact (and_iff_right trivial).symm
  | cons d l ih =>
    rw [cons_append, Laid, Laid, ih, totalSize_cons, Nat.add_assoc]
    simp only [and_assoc]

theorem Laid.congr (h : Laid buf a l) (hsame : ∀ i, a ≤ i → i < a + totalSize l → buf' i = buf i) : Laid buf' a l := by
  induction l generalizing a with
  | nil => trivial
  | cons d l ih =>
    obtain ⟨htype, hlen, hdata, hrest⟩ := h
    rw [totalSize_cons, SenseDesc.size] at hsame
    refine ⟨(hsame a le_rfl (by omega)).trans htype, ?_, fun i hi => ?_, ih hrest fun i hlo hhi => hsame i ?_ ?_⟩
    · rw [hsame (a + 1) (by omega) (by omega), hlen]
    · rw [hsame (a + 2 + i) (by omega) (by omega), hdata i hi]
    · omega
    · rw [SenseDesc.size] at hhi
      omega

/-- The descriptor with `n` bytes of data that a buffer holds. -/
def readDesc (buf : SenseBuf) (a n : ℕ) : SenseDesc := ⟨buf a, (List.range n).map fun i => buf (a + 2 + i)⟩

@[simp] theorem readDesc_size : (readDesc buf a n).size = n + 2 := by simp [readDesc, SenseDesc.size]

theorem laid_readDesc (h : (buf (a + 1)).toNat = n) : Laid buf a [readDesc buf a n] :=
  ⟨rfl, by simpa [readDesc] using h, fun i hi => by simp [readDesc], trivial⟩

theorem Laid.suffix (h : Laid buf a pre) (h' : Laid buf a l) (hle : totalSize pre ≤ totalSize l) :
    ∃ rest, l = pre ++ rest ∧ Laid buf (a + totalSize pre) rest := by
  induction pre generalizing a l with
  | nil => exact ⟨l, rfl, h'⟩
  | cons d pre ih =>
    obtain ⟨htype, hlen, hdata, hpre⟩ := h
    cases l with
    | nil =>
      rw [totalSize_cons, totalSize_nil, SenseDesc.size] at hle
      omega
    | cons d' l =>
      obtain ⟨htype', hlen', hdata', hl⟩ := h'
      have hd : d' = d := by
        obtain ⟨type, data⟩ := d
        obtain ⟨type', data'⟩ := d'
        obtain rfl : type' = type := htype'.symm.trans htype
        have hsame : data' = data := ext_getElem (hlen'.symm.trans hlen) fun i hi' hi =>
          (hdata' i hi').symm.trans (hdata i hi)
        rw [hsame]
      subst hd
      rw [totalSize_cons, totalSize_cons] at hle
      obtain ⟨rest, rfl, hrest⟩ := ih hpre hl (by omega)
      exact ⟨rest, rfl, by rwa [totalSize_cons, ← Nat.add_assoc]⟩

/-- Sense data in descriptor format with some descriptors. -/
structure WellFormed (buf : SenseBuf) (bufLen : ℕ) (descs : List SenseDesc) : Prop where
  code : buf 0 = 0x72
  len : (buf 7).toNat = totalSize descs
  fits : 8 + totalSize descs ≤ bufLen
  laid : Laid buf 8 descs

theorem findLoop_pass (h : Laid buf (8 + k) (d :: l)) (hother : (d.type.toNat : ℤ) ≠ t) :
    (findLoop buf n t (rounds + 1) k).result =
      if n ≤ k + 1 then some none else (findLoop buf n t rounds (k + d.size)).result := by
  obtain ⟨htype, hlen, -, -⟩ := h
  rw [findLoop_result, htype, if_neg hother, hlen, SenseDesc.size, Nat.add_assoc k, Nat.add_comm 2]
  by_cases hk : n ≤ k
  · rw [if_pos hk, if_pos (by omega)]
  · rw [if_neg hk]

theorem Laid.tail (h : Laid buf (8 + k) (d :: l)) : Laid buf (8 + (k + d.size)) l := by
  obtain ⟨-, -, -, hrest⟩ := h
  rwa [← Nat.add_assoc]

theorem findLoop_none (h : Laid buf (8 + k) l) (hother : ∀ d ∈ l, (d.type.toNat : ℤ) ≠ t) (hn : n ≤ k + totalSize l)
    (hrounds : n - k < rounds) : (findLoop buf n t rounds k).result = some none := by
  induction l generalizing k rounds with
  | nil =>
    obtain ⟨rounds, rfl⟩ := Nat.exists_eq_add_of_lt hrounds
    rw [totalSize_nil, Nat.add_zero] at hn
    rw [findLoop_result, if_pos hn]
  | cons d l ih =>
    obtain ⟨rounds, rfl⟩ := Nat.exists_eq_add_of_lt hrounds
    obtain ⟨hd, hothers⟩ := forall_mem_cons.mp hother
    rw [findLoop_pass h hd]
    split
    · rfl
    · rw [totalSize_cons] at hn
      refine ih h.tail hothers (by omega) ?_
      rw [SenseDesc.size]
      omega

theorem findLoop_first (h : Laid buf (8 + k) (pre ++ d :: post)) (hother : ∀ d ∈ pre, (d.type.toNat : ℤ) ≠ t)
    (hd : (d.type.toNat : ℤ) = t) (hn : k + totalSize pre < n) (hrounds : n - k < rounds) :
    (findLoop buf n t rounds k).result = some (some (8 + k + totalSize pre)) := by
  induction pre generalizing k rounds with
  | nil =>
    obtain ⟨rounds, rfl⟩ := Nat.exists_eq_add_of_lt hrounds
    rw [totalSize_nil] at hn
    rw [findLoop_result, if_neg (by omega), h.1, if_pos hd]
    rfl
  | cons d' pre ih =>
    obtain ⟨rounds, rfl⟩ := Nat.exists_eq_add_of_lt hrounds
    obtain ⟨hd', hothers⟩ := forall_mem_cons.mp hother
    rw [totalSize_cons] at hn ⊢
    have hsize : d'.size = d'.data.length + 2 := rfl
    rw [findLoop_pass h hd', if_neg (by omega), ih h.tail hothers (by omega) (by omega)]
    congr 2
    omega

/-- The search in sense data with the length `n` and at least as many bytes. -/
theorem scsiSenseDescFind_eq {sbLen : ℤ} (hcode : buf 0 = 0x72) (hlen : (buf 7).toNat = n) (hn : (8 + n : ℤ) ≤ sbLen) :
    (scsiSenseDescFind rounds buf sbLen t).result = if n = 0 then some none else (findLoop buf n t rounds 0).result := by
  rw [scsiSenseDescFind, if_neg (by omega), result_bind, getByte_result, Option.bind_some]
  by_cases h0 : n = 0
  · have hzero : buf 7 = 0 := BitVec.eq_of_toNat_eq (by rw [hlen, h0]; rfl)
    rw [if_pos hzero, if_pos h0]
    rfl
  · have hne : buf 7 ≠ 0 := fun h => h0 (hlen.symm.trans (by rw [h]; rfl))
    rw [if_neg hne, if_neg h0, result_bind, getByte_result, Option.bind_some, hcode, if_neg (by decide), hlen,
      Nat.min_eq_left (by omega)]

/-- A type that no descriptor has is not found, also if the length says that there are fewer. -/
theorem scsiSenseDescFind_none (sbLen : ℤ) (hrounds : 256 ≤ rounds) (hcode : buf 0 = 0x72) (hlaid : Laid buf 8 l)
    (hother : ∀ d ∈ l, (d.type.toNat : ℤ) ≠ t) (hlen : (buf 7).toNat ≤ totalSize l)
    (hn : (8 + (buf 7).toNat : ℤ) ≤ sbLen) : (scsiSenseDescFind rounds buf sbLen t).result = some none := by
  have hlt := (buf 7).isLt
  rw [scsiSenseDescFind_eq hcode rfl hn]
  split
  · rfl
  · exact findLoop_none hlaid hother (by omega) (by omega)

theorem scsiSenseDescFind_first (sbLen : ℤ) (hrounds : 256 ≤ rounds) (hcode : buf 0 = 0x72)
    (hlaid : Laid buf 8 (pre ++ d :: post)) (hother : ∀ d ∈ pre, (d.type.toNat : ℤ) ≠ t) (hd : (d.type.toNat : ℤ) = t)
    (hlen : (buf 7).toNat = totalSize (pre ++ d :: post)) (hn : (8 + totalSize (pre ++ d :: post) : ℤ) ≤ sbLen) :
    (scsiSenseDescFind rounds buf sbLen t).result = some (some (8 + totalSize pre)) := by
  have hlt := (buf 7).isLt
  have hsize : d.size = d.data.length + 2 := rfl
  rw [totalSize_append, totalSize_cons] at hlen hn
  rw [scsiSenseDescFind_eq hcode hlen (by omega), if_neg (by omega)]
  exact findLoop_first hlaid hother hd (by omega) (by omega)

/-! ### Writing -/

variable {bytes : List (ℕ × BitVec 8)} {v type size : BitVec 8}

/-- The event is no write, or one below `n`. -/
def SenseEvent.WritesBelow (n : ℕ) : SenseEvent → Prop
  | .read _ => True
  | .write i => i < n

/-- The buffer with some bytes at places relative to `ucp`. -/
def written (ucp : ℕ) : SenseBuf → List (ℕ × BitVec 8) → SenseBuf
  | buf, [] => buf
  | buf, (i, v) :: rest => written ucp (Function.update buf (ucp + i) v) rest

theorem putBytes_result : (putBytes ucp buf bytes).result = some (written ucp buf bytes) := by
  induction bytes generalizing buf with
  | nil => rfl
  | cons b rest ih => exact ih

theorem putByte_writes (h : i < n) : AllEvents (SenseEvent.WritesBelow n) (putByte buf i v) :=
  have hwrite : SenseEvent.WritesBelow n (.write i) := h
  (AllEvents.emit hwrite).bind fun _ _ => .pure

theorem putBytes_writes (h : ∀ b ∈ bytes, ucp + b.1 < n) :
    AllEvents (SenseEvent.WritesBelow n) (putBytes ucp buf bytes) := by
  induction bytes generalizing buf with
  | nil => exact .pure
  | cons b rest ih =>
    obtain ⟨hb, hrest⟩ := forall_mem_cons.mp h
    exact (putByte_writes hb).bind fun _ _ => ih hrest

theorem written_of_ne (h : ∀ b ∈ bytes, i ≠ ucp + b.1) : written ucp buf bytes i = buf i := by
  induction bytes generalizing buf with
  | nil => rfl
  | cons b rest ih =>
    obtain ⟨hb, hrest⟩ := forall_mem_cons.mp h
    rw [written, ih hrest, update_of_ne hb]

theorem written_of_mem (hnodup : (bytes.map Prod.fst).Nodup) (h : (i, v) ∈ bytes) :
    written ucp buf bytes (ucp + i) = v := by
  induction bytes generalizing buf with
  | nil => cases h
  | cons b rest ih =>
    rw [map_cons, nodup_cons] at hnodup
    rcases mem_cons.mp h with rfl | h
    · rw [written, written_of_ne, update_self]
      intro b hb heq
      exact hnodup.1 (mem_map.mpr ⟨b, hb, (Nat.add_left_cancel heq).symm⟩)
    · exact ih hnodup.2 h

/-- The bytes make a descriptor with a type and a size. -/
structure DescBytes (type size : BitVec 8) (bytes : List (ℕ × BitVec 8)) : Prop where
  nodup : (bytes.map Prod.fst).Nodup
  within : ∀ b ∈ bytes, b.1 < size.toNat
  type : (0, type) ∈ bytes
  len : (1, size - 2) ∈ bytes
  two_le : 2 ≤ size.toNat

theorem DescBytes.written_type (h : DescBytes type size bytes) : written ucp buf bytes ucp = type :=
  written_of_mem h.nodup h.type

theorem DescBytes.written_len (h : DescBytes type size bytes) :
    (written ucp buf bytes (ucp + 1)).toNat = size.toNat - 2 := by
  rw [written_of_mem h.nodup h.len]
  exact BitVec.toNat_sub_of_le h.two_le

theorem DescBytes.written_outside (h : DescBytes type size bytes) (hi : i < ucp ∨ ucp + size.toNat ≤ i) :
    written ucp buf bytes i = buf i :=
  written_of_ne fun b hb => by
    have := h.within b hb
    omega

theorem DescBytes.laid (h : DescBytes type size bytes) :
    Laid (written ucp buf bytes) ucp [readDesc (written ucp buf bytes) ucp (size.toNat - 2)] :=
  laid_readDesc h.written_len

/-! ### The builders -/

/-- The buffer and the place that `placeDescriptor` gives. -/
def placed (buf : SenseBuf) (size : BitVec 8) : Option ℕ → SenseBuf × ℕ
  | some ucp => (buf, ucp)
  | none => (Function.update buf 7 (buf 7 + size), 8 + (buf 7).toNat)

theorem placeDescriptor_result (found : Option ℕ) :
    (placeDescriptor buf (buf 7) size found).result = some (placed buf size found) := by
  cases found <;> rfl

theorem setDescriptor_result {bufLen : ℤ} {found : Option ℕ}
    (hfind : (scsiSenseDescFind rounds buf ((buf 7).toNat + 8) type.toNat).result = some found) :
    (setDescriptor rounds buf bufLen type size bytes).result = some (
      if bufLen < (buf 7).toNat + size.toNat then ((placed buf size found).1, -EINVAL)
      else (written (placed buf size found).2 (placed buf size found).1 bytes, 0)) := by
  rw [setDescriptor, result_bind, getByte_result, Option.bind_some, result_bind, hfind, Option.bind_some, result_bind,
    placeDescriptor_result, Option.bind_some]
  generalize placed buf size found = p
  obtain ⟨buf', ucp⟩ := p
  dsimp only
  split
  · rfl
  · rw [result_bind, putBytes_result]
    rfl

/-- The writes of a builder, whose bytes fit if it finds that there is room. -/
theorem setDescriptor_writes {found : Option ℕ}
    (hfind : (scsiSenseDescFind rounds buf ((buf 7).toNat + 8) type.toNat).result = some found) (h7 : 7 < n)
    {bufLen : ℤ} (hplace : (buf 7).toNat + size.toNat ≤ bufLen → ∀ b ∈ bytes, (placed buf size found).2 + b.1 < n) :
    AllEvents (SenseEvent.WritesBelow n) (setDescriptor rounds buf bufLen type size bytes) := by
  have hread : ∀ i, AllEvents (SenseEvent.WritesBelow n) (getByte buf i) := fun _ => getByte_allEvents trivial
  refine (hread 7).bind fun len hlen => AllEvents.bind (fun e he => ?_) fun found' hfound' => ?_
  · have hreads := scsiSenseDescFind_reads _ _ _ _ e he
    cases e with
    | read i => trivial
    | write i => exact hreads.elim
  · obtain rfl : len = buf 7 := Option.some.inj (hlen.symm.trans getByte_result)
    obtain rfl : found' = found := Option.some.inj (hfound'.symm.trans hfind)
    refine AllEvents.bind ?_ fun p hp => ?_
    · cases found' with
      | some ucp => exact .pure
      | none => exact (putByte_writes h7).bind fun _ _ => .pure
    · obtain rfl : p = placed buf size found' := Option.some.inj (hp.symm.trans (placeDescriptor_result _))
      generalize placed buf size found' = p at hplace
      obtain ⟨buf', ucp⟩ := p
      dsimp only
      split
      · exact .pure
      · next hroom => exact (putBytes_writes (hplace (Int.not_lt.mp hroom))).bind fun _ _ => .pure

/-- What a builder promises for sense data with the descriptors `descs`: it stays in the buffer, and it changes the
descriptor of its type or nothing. -/
def Sound (type : BitVec 8) (Holds : SenseBuf → ℕ → Prop) (buf : SenseBuf) (bufLen : ℕ) (descs : List SenseDesc)
    (run : Traced SenseEvent (SenseBuf × ℤ)) : Prop :=
  AllEvents (SenseEvent.WritesBelow bufLen) run ∧ ∃ buf' ret, run.result = some (buf', ret) ∧ (ret = 0 ∨ ret = -EINVAL) ∧
    (ret = 0 → ∃ descs', WellFormed buf' bufLen descs' ∧
      (∃ ucp, Holds buf' ucp ∧
        ∀ rounds ≥ 256, (scsiSenseDescFind rounds buf' bufLen type.toNat).result = some (some ucp)) ∧
      descs'.filter (·.type ≠ type) = descs.filter (·.type ≠ type)) ∧
    (ret = -EINVAL → buf' = buf)

theorem type_eq_iff : (d.type.toNat : ℤ) = type.toNat ↔ d.type = type := Int.natCast_inj.trans BitVec.toNat_inj

/-- The list around a descriptor that has been written between `pre` and `post`. -/
theorem written_wellFormed (hbytes : DescBytes type size bytes) (hcode : buf 0 = 0x72)
    (hlen : (buf 7).toNat = totalSize pre + size.toNat + totalSize post)
    (hfits : 8 + (totalSize pre + size.toNat + totalSize post) ≤ bufLen) (hpre : Laid buf 8 pre)
    (hpost : Laid buf (8 + totalSize pre + size.toNat) post) (hother : ∀ d ∈ pre, d.type ≠ type) :
    WellFormed (written (8 + totalSize pre) buf bytes) bufLen
        (pre ++ readDesc (written (8 + totalSize pre) buf bytes) (8 + totalSize pre) (size.toNat - 2) :: post) ∧
      ∀ rounds ≥ 256, (scsiSenseDescFind rounds (written (8 + totalSize pre) buf bytes) bufLen type.toNat).result =
        some (some (8 + totalSize pre)) := by
  generalize hucp : 8 + totalSize pre = ucp at hpost ⊢
  have hout : ∀ i, i < ucp ∨ ucp + size.toNat ≤ i → written ucp buf bytes i = buf i := fun i => hbytes.written_outside
  have htwo := hbytes.two_le
  generalize hnew : readDesc (written ucp buf bytes) ucp (size.toNat - 2) = new
  have htype : new.type = type := hnew ▸ hbytes.written_type
  have hsize : new.size = size.toNat := by
    rw [← hnew, readDesc_size]
    omega
  have htotal : totalSize (pre ++ new :: post) = totalSize pre + size.toNat + totalSize post := by
    rw [totalSize_append, totalSize_cons, hsize, Nat.add_assoc]
  have hlaid : Laid (written ucp buf bytes) 8 (pre ++ new :: post) := by
    refine laid_append.mpr ⟨hpre.congr fun i _ hi => hout i (.inl (by omega)), ?_⟩
    rw [hucp, ← singleton_append, laid_append]
    refine ⟨hnew ▸ hbytes.laid, ?_⟩
    rw [totalSize_cons, totalSize_nil, Nat.add_zero, hsize]
    exact hpost.congr fun i hi _ => hout i (.inr hi)
  have hcode' : written ucp buf bytes 0 = 0x72 := (hout 0 (.inl (by omega))).trans hcode
  have hlen' : (written ucp buf bytes 7).toNat = totalSize (pre ++ new :: post) := by
    rw [hout 7 (.inl (by omega)), hlen, htotal]
  refine ⟨⟨hcode', hlen', by omega, hlaid⟩, fun rounds hrounds => ?_⟩
  rw [scsiSenseDescFind_first bufLen hrounds hcode' hlaid (fun d hd h => hother d hd (type_eq_iff.mp h))
    (type_eq_iff.mpr htype) hlen' (by omega), hucp]

/-- The descriptors of other types, when the one of the type stands between `pre` and `post`. -/
theorem filter_around (hd : d.type = type) :
    (pre ++ d :: post).filter (·.type ≠ type) = pre.filter (·.type ≠ type) ++ post.filter (·.type ≠ type) := by
  rw [filter_append, filter_cons_of_neg (by simpa using hd)]

/-- The first descriptor of a type may be replaced by one with another size: the bytes behind the new one are
descriptors again, and those of other types are the same as before. -/
def Replaceable (buf : SenseBuf) (descs : List SenseDesc) (type : BitVec 8) (size : ℕ) : Prop :=
  ∃ pre d post rest, descs = pre ++ d :: post ∧ (∀ d ∈ pre, d.type ≠ type) ∧ d.type = type ∧
    totalSize pre + size + totalSize rest = totalSize descs ∧ Laid buf (8 + totalSize pre + size) rest ∧
    rest.filter (·.type ≠ type) = post.filter (·.type ≠ type)

/-- Sense data can get a descriptor of a type and a size: one of the type can be replaced, unless the buffer is too
short for the length of all and one more, or there is room for one more. -/
def CanHold (buf : SenseBuf) (bufLen : ℕ) (descs : List SenseDesc) (type : BitVec 8) (size : ℕ) : Prop :=
  if ∃ d ∈ descs, d.type = type then bufLen < totalSize descs + size ∨ Replaceable buf descs type size
  else totalSize descs + size + 8 ≤ bufLen ∧ totalSize descs + size < 256

theorem exists_first (h : ∃ d ∈ descs, d.type = type) :
    ∃ pre d post, descs = pre ++ d :: post ∧ (∀ d ∈ pre, d.type ≠ type) ∧ d.type = type := by
  induction descs with
  | nil => exact absurd h (by simp)
  | cons d l ih =>
    by_cases hd : d.type = type
    · exact ⟨[], d, l, rfl, by simp, hd⟩
    · have hl : ∃ d ∈ l, d.type = type := by
        obtain ⟨d', hd', htype⟩ := h
        rcases mem_cons.mp hd' with rfl | hd'
        · exact absurd htype hd
        · exact ⟨d', hd', htype⟩
      obtain ⟨pre, d', post, rfl, hpre, htype⟩ := ih hl
      exact ⟨d :: pre, d', post, rfl, forall_mem_cons.mpr ⟨hd, hpre⟩, htype⟩

/-- The first descriptor of the type is one place only. -/
theorem first_unique {pre' post' : List SenseDesc} {d' : SenseDesc} (h : pre ++ d :: post = pre' ++ d' :: post')
    (hpre : ∀ d ∈ pre, d.type ≠ type) (hd : d.type = type) (hpre' : ∀ d ∈ pre', d.type ≠ type) (hd' : d'.type = type) :
    pre = pre' ∧ post = post' := by
  induction pre generalizing pre' with
  | nil =>
    cases pre' with
    | nil => exact ⟨rfl, (List.cons.inj h).2⟩
    | cons e pre' => exact absurd hd ((List.cons.inj h).1 ▸ hpre' e mem_cons_self)
  | cons e pre ih =>
    cases pre' with
    | nil => exact absurd hd' ((List.cons.inj h).1 ▸ hpre e mem_cons_self)
    | cons e' pre' =>
      obtain ⟨rfl, hrest⟩ := List.cons.inj h
      obtain ⟨rfl, rfl⟩ := ih hrest (fun d hd => hpre d (mem_cons_of_mem _ hd)) fun d hd =>
        hpre' d (mem_cons_of_mem _ hd)
      exact ⟨rfl, rfl⟩

section Builder

variable {Holds : SenseBuf → ℕ → Prop}

theorem setDescriptor_sound_iff_of_found (hwf : WellFormed buf bufLen (pre ++ d :: post))
    (hbytes : DescBytes type size bytes) (hrounds : 256 ≤ rounds)
    (hholds : ∀ buf ucp, Holds (written ucp buf bytes) ucp) (hother : ∀ d ∈ pre, d.type ≠ type) (hd : d.type = type) :
    Sound type Holds buf bufLen (pre ++ d :: post) (setDescriptor rounds buf bufLen type size bytes) ↔
      bufLen < totalSize (pre ++ d :: post) + size.toNat ∨ Replaceable buf (pre ++ d :: post) type size.toNat := by
  have hlen := hwf.len
  have hfits := hwf.fits
  have hfind := scsiSenseDescFind_first ((buf 7).toNat + 8) hrounds hwf.code hwf.laid
    (fun d hd h => hother d hd (type_eq_iff.mp h)) (type_eq_iff.mpr hd) hlen (by omega)
  have hpre : Laid buf 8 pre := (laid_append.mp hwf.laid).1
  have hresult : (setDescriptor rounds buf bufLen type size bytes).result = _ := setDescriptor_result hfind
  rw [hlen] at hresult
  by_cases hroom : (bufLen : ℤ) < totalSize (pre ++ d :: post) + size.toNat
  · rw [if_pos hroom] at hresult
    refine iff_of_true ⟨setDescriptor_writes hfind (by omega) fun h => ?_, _, _, hresult, .inr rfl, nofun, fun _ => rfl⟩
      (.inl (by omega))
    rw [hlen] at h
    exact absurd hroom (Int.not_lt.mpr h)
  rw [if_neg hroom, placed] at hresult
  rw [or_iff_right (by omega)]
  constructor
  · rintro ⟨-, buf', ret, hrun, -, hdone, -⟩
    obtain ⟨rfl, rfl⟩ := Prod.mk.inj (Option.some.inj (hresult.symm.trans hrun))
    obtain ⟨descs', hwf', -, hfilter⟩ := hdone rfl
    have hout : ∀ i, i < 8 + totalSize pre ∨ 8 + totalSize pre + size.toNat ≤ i →
        written (8 + totalSize pre) buf bytes i = buf i := fun i => hbytes.written_outside
    have htotal : totalSize descs' = totalSize (pre ++ d :: post) := by
      rw [← hwf'.len, hout 7 (.inl (by omega)), hlen]
    have hpre' := hpre.congr fun i _ hi => hout i (.inl hi)
    obtain ⟨l, rfl, hl⟩ := hpre'.suffix hwf'.laid (by rw [htotal, totalSize_append]; omega)
    cases l with
    | nil =>
      simp only [append_nil, totalSize_append, totalSize_cons, SenseDesc.size] at htotal
      omega
    | cons new rest =>
      obtain ⟨htype, hnewLen, -, hrest⟩ := hl
      have hnewType : new.type = type := htype.symm.trans hbytes.written_type
      have hnewSize : new.size = size.toNat := by
        have := hbytes.two_le
        rw [SenseDesc.size, ← hnewLen, hbytes.written_len]
        omega
      rw [filter_around hnewType, filter_around hd] at hfilter
      rw [hnewSize] at hrest
      rw [totalSize_append, totalSize_cons, hnewSize, ← Nat.add_assoc] at htotal
      exact ⟨pre, d, post, rest, rfl, hother, hd, htotal, hrest.congr fun i hi _ => (hout i (.inr hi)).symm,
        append_cancel_left hfilter⟩
  · rintro ⟨pre', d', post', rest, heq, hother', hd', htotal, hrest, hfilter⟩
    obtain ⟨rfl, rfl⟩ := first_unique heq hother hd hother' hd'
    rw [← htotal] at hlen hfits
    have hplace : ∀ b ∈ bytes, (placed buf size (some (8 + totalSize pre))).2 + b.1 < bufLen := fun b hb => by
      have := hbytes.within b hb
      rw [placed]
      omega
    have hwrites : AllEvents (SenseEvent.WritesBelow bufLen) (setDescriptor rounds buf bufLen type size bytes) :=
      setDescriptor_writes hfind (by omega) fun _ => hplace
    obtain ⟨hwf', hfind'⟩ := written_wellFormed hbytes hwf.code hlen hfits hpre hrest hother
    refine ⟨hwrites, _, _, hresult, .inl rfl, fun _ => ⟨_, hwf', ⟨_, hholds _ _, hfind'⟩, ?_⟩, nofun⟩
    rw [filter_around hbytes.written_type, filter_around hd, hfilter]

/-- A builder that does not find its descriptor does what it promises if there is room for one more. -/
theorem setDescriptor_sound_iff_of_not_found (hwf : WellFormed buf bufLen descs)
    (hbytes : DescBytes type size bytes) (hrounds : 256 ≤ rounds)
    (hholds : ∀ buf ucp, Holds (written ucp buf bytes) ucp) (hother : ∀ d ∈ descs, d.type ≠ type) :
    Sound type Holds buf bufLen descs (setDescriptor rounds buf bufLen type size bytes) ↔
      totalSize descs + size.toNat + 8 ≤ bufLen ∧ totalSize descs + size.toNat < 256 := by
  have hlen := hwf.len
  have hfits := hwf.fits
  have htwo := hbytes.two_le
  have hfind := scsiSenseDescFind_none ((buf 7).toNat + 8) hrounds hwf.code hwf.laid
    (fun d hd h => hother d hd (type_eq_iff.mp h)) hlen.le (by omega)
  have hresult : (setDescriptor rounds buf bufLen type size bytes).result = _ := setDescriptor_result hfind
  rw [placed, hlen] at hresult
  -- the buffer with the new length
  obtain ⟨grown, hgrown⟩ : ∃ grown, grown = update buf 7 (buf 7 + size) := ⟨_, rfl⟩
  have hgrownLen : (grown 7).toNat = (totalSize descs + size.toNat) % 256 := by
    rw [hgrown, update_self, BitVec.toNat_add, hlen]
  have hkeep : ∀ i ≠ 7, grown i = buf i := fun i hi => by rw [hgrown, update_of_ne hi]
  have hcode : grown 0 = 0x72 := (hkeep 0 (by decide)).trans hwf.code
  have hlaid : Laid grown 8 descs := hwf.laid.congr fun i hi _ => hkeep i (by omega)
  rw [← hgrown] at hresult
  dsimp only at hresult
  by_cases hroom : (bufLen : ℤ) < totalSize descs + size.toNat
  · rw [if_pos hroom] at hresult
    refine iff_of_false (fun h => ?_) (by omega)
    obtain ⟨-, buf', ret, hrun, -, -, hkept⟩ := h
    obtain ⟨rfl, rfl⟩ := Prod.mk.inj (Option.some.inj (hresult.symm.trans hrun))
    have hsame := hgrownLen
    rw [hkept rfl, hlen] at hsame
    have := size.isLt
    omega
  rw [if_neg hroom] at hresult
  have hwritten7 : written (8 + totalSize descs) grown bytes 7 = grown 7 := hbytes.written_outside (.inl (by omega))
  by_cases hfit : totalSize descs + size.toNat + 8 ≤ bufLen ∧ totalSize descs + size.toNat < 256
  · refine iff_of_true ?_ hfit
    obtain ⟨hfit, hbyte⟩ := hfit
    have hplace : ∀ b ∈ bytes, (placed buf size none).2 + b.1 < bufLen := fun b hb => by
      have := hbytes.within b hb
      rw [placed, hlen]
      omega
    have hwrites : AllEvents (SenseEvent.WritesBelow bufLen) (setDescriptor rounds buf bufLen type size bytes) :=
      setDescriptor_writes hfind (by omega) fun _ => hplace
    rw [Nat.mod_eq_of_lt hbyte] at hgrownLen
    have hnil : Laid grown (8 + totalSize descs + size.toNat) [] := trivial
    have hlen' : (grown 7).toNat = totalSize descs + size.toNat + totalSize [] := hgrownLen
    have hfit' : 8 + (totalSize descs + size.toNat + totalSize []) ≤ bufLen := by
      rw [totalSize_nil]
      omega
    obtain ⟨hwf', hfind'⟩ := written_wellFormed hbytes hcode hlen' hfit' hlaid hnil hother
    refine ⟨hwrites, _, _, hresult, .inl rfl, fun _ => ⟨_, hwf', ⟨_, hholds _ _, hfind'⟩, ?_⟩, nofun⟩
    rw [filter_around hbytes.written_type, filter_nil, append_nil]
  · refine iff_of_false (fun h => hfit ?_) hfit
    obtain ⟨-, buf', ret, hrun, -, hdone, -⟩ := h
    obtain ⟨rfl, rfl⟩ := Prod.mk.inj (Option.some.inj (hresult.symm.trans hrun))
    obtain ⟨descs', hwf', ⟨ucp, -, hfind'⟩, -⟩ := hdone rfl
    have hlen' := hwf'.len
    have hfits' := hwf'.fits
    by_cases hbyte : totalSize descs + size.toNat < 256
    · rw [hwritten7, hgrownLen, Nat.mod_eq_of_lt hbyte] at hlen'
      exact ⟨by omega, hbyte⟩
    · -- the length has wrapped, so that the new descriptor is not found
      have hshort : (written (8 + totalSize descs) grown bytes 7).toNat ≤ totalSize descs := by
        have := size.isLt
        rw [hwritten7, hgrownLen]
        omega
      have hkept : ∀ i, 8 ≤ i → i < 8 + totalSize descs → written (8 + totalSize descs) grown bytes i = grown i :=
        fun i _ hi => hbytes.written_outside (.inl hi)
      have hnone := scsiSenseDescFind_none bufLen le_rfl
        ((hbytes.written_outside (.inl (by omega))).trans hcode) (hlaid.congr hkept)
        (fun d hd h => hother d hd (type_eq_iff.mp h)) hshort (by omega)
      cases (hfind' 256 le_rfl).symm.trans hnone

/-- When a builder of a descriptor does what it promises. -/
theorem setDescriptor_sound_iff (hwf : WellFormed buf bufLen descs) (hbytes : DescBytes type size bytes)
    (hrounds : 256 ≤ rounds) (hholds : ∀ buf ucp, Holds (written ucp buf bytes) ucp) :
    Sound type Holds buf bufLen descs (setDescriptor rounds buf bufLen type size bytes) ↔
      CanHold buf bufLen descs type size.toNat := by
  by_cases hmem : ∃ d ∈ descs, d.type = type
  · obtain ⟨pre, d, post, rfl, hother, hd⟩ := exists_first hmem
    rw [setDescriptor_sound_iff_of_found hwf hbytes hrounds hholds hother hd, CanHold, if_pos hmem]
  · have hother : ∀ d ∈ descs, d.type ≠ type := fun d hd htype => hmem ⟨d, hd, htype⟩
    rw [setDescriptor_sound_iff_of_not_found hwf hbytes hrounds hholds hother, CanHold, if_neg hmem]

end Builder

/-! ### Big-endian values -/

def getBe16 (buf : SenseBuf) (i : ℕ) : BitVec 16 := buf i ++ buf (i + 1)

def getBe32 (buf : SenseBuf) (i : ℕ) : BitVec 32 := getBe16 buf i ++ getBe16 buf (i + 2)

def getBe64 (buf : SenseBuf) (i : ℕ) : BitVec 64 := getBe32 buf i ++ getBe32 buf (i + 4)

theorem append_halves {m : ℕ} (w : ℕ) (v : BitVec m) : (v >>> w).setWidth w ++ v.setWidth w = v.setWidth (w + w) := by
  ext i hi
  rw [BitVec.getElem_append]
  split
  · simp
  · next hw => simp [Nat.add_sub_cancel' (Nat.not_lt.mp hw)]

theorem append_halves16 (v : BitVec 16) : (v >>> 8).setWidth 8 ++ v.setWidth 8 = v :=
  (append_halves 8 v).trans (BitVec.setWidth_eq v)

theorem append_halves32 (v : BitVec 32) : (v >>> 16).setWidth 16 ++ v.setWidth 16 = v :=
  (append_halves 16 v).trans (BitVec.setWidth_eq v)

theorem append_halves64 (v : BitVec 64) : (v >>> 32).setWidth 32 ++ v.setWidth 32 = v :=
  (append_halves 32 v).trans (BitVec.setWidth_eq v)

theorem getBe16_written {v : BitVec 16} (hnodup : (bytes.map Prod.fst).Nodup) (buf : SenseBuf) (ucp : ℕ)
    (h : ∀ b ∈ be16 i v, b ∈ bytes) : getBe16 (written ucp buf bytes) (ucp + i) = v := by
  obtain ⟨hhigh, hlow⟩ := forall_mem_cons.mp h
  obtain ⟨hlow, -⟩ := forall_mem_cons.mp hlow
  rw [getBe16, Nat.add_assoc, written_of_mem hnodup hhigh, written_of_mem hnodup hlow, append_halves16]

theorem getBe32_written {v : BitVec 32} (hnodup : (bytes.map Prod.fst).Nodup) (buf : SenseBuf) (ucp : ℕ)
    (h : ∀ b ∈ be32 i v, b ∈ bytes) : getBe32 (written ucp buf bytes) (ucp + i) = v := by
  obtain ⟨hhigh, hlow⟩ := forall_mem_append.mp h
  rw [getBe32, Nat.add_assoc, getBe16_written hnodup buf ucp hhigh, getBe16_written hnodup buf ucp hlow,
    append_halves32]

theorem getBe64_written {v : BitVec 64} (hnodup : (bytes.map Prod.fst).Nodup) (buf : SenseBuf) (ucp : ℕ)
    (h : ∀ b ∈ be64 i v, b ∈ bytes) : getBe64 (written ucp buf bytes) (ucp + i) = v := by
  obtain ⟨hhigh, hlow⟩ := forall_mem_append.mp h
  rw [getBe64, Nat.add_assoc, getBe32_written hnodup buf ucp hhigh, getBe32_written hnodup buf ucp hlow,
    append_halves64]

/-! ### The two builders -/

theorem informationBytes_desc (info : BitVec 64) : DescBytes 0 0xc (informationBytes info) where
  nodup := by
    change (List.range 12).Nodup
    exact nodup_range
  within b hb := by
    have hmem : b.1 ∈ List.range 12 := mem_map_of_mem hb
    exact mem_range.mp hmem
  type := mem_cons_self
  len := mem_cons_of_mem _ mem_cons_self
  two_le := by decide

theorem pointerBytes_desc (fp : BitVec 16) (bp : BitVec 8) (cd : Bool) : DescBytes 2 8 (pointerBytes fp bp cd) where
  nodup := by
    change [0, 1, 4, 5, 6].Nodup
    decide
  within b hb := by
    have hmem : b.1 ∈ [0, 1, 4, 5, 6] := mem_map_of_mem hb
    exact (by decide : ∀ i ∈ [0, 1, 4, 5, 6], i < 8) _ hmem
  type := mem_cons_self
  len := mem_cons_of_mem _ mem_cons_self
  two_le := by decide

/-- The descriptor has the flag for a valid value and the value. -/
def HoldsInformation (info : BitVec 64) (buf : SenseBuf) (ucp : ℕ) : Prop :=
  buf (ucp + 2) = 0x80 ∧ getBe64 buf (ucp + 4) = info

/-- The descriptor has the flags and the field pointer. -/
def HoldsPointer (fp : BitVec 16) (bp : BitVec 8) (cd : Bool) (buf : SenseBuf) (ucp : ℕ) : Prop :=
  buf (ucp + 4) = pointerFlags bp cd ∧ getBe16 buf (ucp + 5) = fp

theorem informationBytes_holds (info : BitVec 64) (buf : SenseBuf) (ucp : ℕ) :
    HoldsInformation info (written ucp buf (informationBytes info)) ucp := by
  have hnodup := (informationBytes_desc info).nodup
  refine ⟨written_of_mem hnodup ?_, getBe64_written hnodup buf ucp fun b hb => mem_append_right _ hb⟩
  exact mem_cons_of_mem _ (mem_cons_of_mem _ mem_cons_self)

theorem pointerBytes_holds (fp : BitVec 16) (bp : BitVec 8) (cd : Bool) (buf : SenseBuf) (ucp : ℕ) :
    HoldsPointer fp bp cd (written ucp buf (pointerBytes fp bp cd)) ucp := by
  have hnodup := (pointerBytes_desc fp bp cd).nodup
  refine ⟨written_of_mem hnodup ?_, getBe16_written hnodup buf ucp fun b hb => mem_append_right _ hb⟩
  exact mem_cons_of_mem _ (mem_cons_of_mem _ mem_cons_self)

theorem sound_read {Holds : SenseBuf → ℕ → Prop} {f : BitVec 8 → Traced SenseEvent (SenseBuf × ℤ)} :
    Sound type Holds buf bufLen descs (getByte buf i >>= f) ↔ Sound type Holds buf bufLen descs (f (buf i)) := by
  rw [Sound, Sound, allEvents_bind_iff, result_bind, getByte_result, Option.bind_some]
  refine and_congr_left' ⟨fun h => h.2 _ rfl, fun h => ⟨getByte_allEvents trivial, fun a ha => ?_⟩⟩
  exact Option.some.inj ha ▸ h

theorem scsiSetSenseInformation_sound_iff (hwf : WellFormed buf bufLen descs) (hrounds : 256 ≤ rounds)
    (info : BitVec 64) :
    Sound 0 (HoldsInformation info) buf bufLen descs (scsiSetSenseInformation rounds buf bufLen info) ↔
      CanHold buf bufLen descs 0 12 := by
  rw [scsiSetSenseInformation, sound_read, hwf.code, if_pos (by decide)]
  exact setDescriptor_sound_iff hwf (informationBytes_desc info) hrounds (informationBytes_holds info)

theorem scsiSetSenseFieldPointer_sound_iff (hwf : WellFormed buf bufLen descs) (hrounds : 256 ≤ rounds)
    (fp : BitVec 16) (bp : BitVec 8) (cd : Bool) :
    Sound 2 (HoldsPointer fp bp cd) buf bufLen descs (scsiSetSenseFieldPointer rounds buf bufLen fp bp cd) ↔
      CanHold buf bufLen descs 2 8 := by
  rw [scsiSetSenseFieldPointer, sound_read, hwf.code, if_pos (by decide)]
  exact setDescriptor_sound_iff hwf (pointerBytes_desc fp bp cd) hrounds (pointerBytes_holds fp bp cd)

/-- When the builders stay in the buffer and keep the other descriptors. The search always ends and stays in the
buffer. -/
theorem senseBuilders_sound_iff (hwf : WellFormed buf bufLen descs) (hrounds : 256 ≤ rounds) :
    (∀ info, Sound 0 (HoldsInformation info) buf bufLen descs (scsiSetSenseInformation rounds buf bufLen info) ↔
        CanHold buf bufLen descs 0 12) ∧
      (∀ fp bp cd,
        Sound 2 (HoldsPointer fp bp cd) buf bufLen descs (scsiSetSenseFieldPointer rounds buf bufLen fp bp cd) ↔
          CanHold buf bufLen descs 2 8) ∧
      ∀ sbuf sbLen t, (scsiSenseDescFind rounds sbuf sbLen t).result ≠ none ∧
        AllEvents (SenseEvent.ReadsBelow sbLen.toNat) (scsiSenseDescFind rounds sbuf sbLen t) :=
  ⟨scsiSetSenseInformation_sound_iff hwf hrounds, scsiSetSenseFieldPointer_sound_iff hwf hrounds,
    fun sbuf sbLen t => ⟨scsiSenseDescFind_returns hrounds sbuf sbLen t, scsiSenseDescFind_reads rounds sbuf sbLen t⟩⟩

/-- Sense data without descriptors. -/
def emptySense : SenseBuf := fun i => if i = 0 then 0x72 else 0

theorem emptySense_wellFormed (h : 8 ≤ bufLen) : WellFormed emptySense bufLen [] where
  code := rfl
  len := rfl
  fits := h
  laid := trivial

theorem canHold_nil {size : ℕ} : CanHold buf bufLen [] type size ↔ size + 8 ≤ bufLen ∧ size < 256 := by
  rw [CanHold, if_neg (by simp), totalSize_nil, Nat.zero_add]

/-- In a buffer of twenty bytes there is room for an information descriptor. -/
theorem emptySense_holdsInformation :
    Sound 0 (HoldsInformation 0x1234) emptySense 20 [] (scsiSetSenseInformation 256 emptySense 20 0x1234) :=
  ((senseBuilders_sound_iff (emptySense_wellFormed (by decide)) le_rfl).1 0x1234).mpr (canHold_nil.mpr (by decide))

/-- In a buffer of eighteen bytes there is not, but the descriptor is written. -/
theorem emptySense_overrun :
    WellFormed emptySense 18 [] ∧ (scsiSetSenseInformation 256 emptySense 18 0).trace.contains (.write 19) ∧
      ¬Sound 0 (HoldsInformation 0) emptySense 18 [] (scsiSetSenseInformation 256 emptySense 18 0) := by
  have hwf : WellFormed emptySense 18 [] := emptySense_wellFormed (by decide)
  refine ⟨hwf, by decide, fun h => ?_⟩
  have hcan := (canHold_nil).mp ((scsiSetSenseInformation_sound_iff hwf le_rfl 0).mp h)
  omega

end GfpDrivers.Scsi
