import GfpDrivers.Basic
import GfpDrivers.Lib.BitStream
import Mathlib.Data.List.Range

/-!
Cells of an NVMEM device (`nvmem/core.c`): a cell is a range of `nbits` bits
that starts `bit_offset` bits into a byte. The writer shifts the value up and
merges it with what the device holds around the cell, the reader shifts the
bytes down and clears what is above the cell.

The device has no keepouts, so `nvmem_reg_read` and `nvmem_reg_write` are the
callbacks of its driver. What these answer is given by an `Env`; a device
without the callback answers `-EINVAL`. A buffer is a function from byte index
to byte and a pointer into it is an index.
-/

namespace GfpDrivers.Nvmem

open GfpDrivers.Lib

abbrev Buf := ℕ → BitVec 8

/-- `GENMASK` -/
def genmask (h l : ℕ) : BitVec 64 :=
  (BitVec.allOnes 64 - (1#64 <<< l) + 1) &&& (BitVec.allOnes 64 >>> (63 - h))

/-- `struct nvmem_cell_info` -/
structure NvmemCellInfo where
  offset : ℕ
  bytes : ℕ
  bitOffset : ℕ
  nbits : ℕ

/-- `struct nvmem_cell_entry` -/
structure NvmemCellEntry where
  offset : ℕ
  bytes : ℕ
  bitOffset : ℕ
  nbits : ℕ

/-- `struct nvmem_device`. The hook gets the offset, the buffer and its length. -/
structure NvmemDevice where
  readOnly : Bool
  stride : ℕ
  cellPostProcess : Option (ℕ → Buf → ℕ → Buf × ℤ)

/-- What a call meets: whether `kzalloc` finds memory, the answers of the
callbacks (`regRead i` that of read `i`) and what a failed write leaves. -/
structure Env where
  kzalloc : Bool
  regRead : ℕ → ℤ
  regWrite : ℤ
  torn : Buf

/-- `DIV_ROUND_UP(n, BITS_PER_BYTE)` -/
def bytesOf (n : ℕ) : ℕ := (n + 7) / 8

/-- `nvmem_cell_info_to_nvmem_cell_entry_nodup` -/
def nvmemCellInfoToNvmemCellEntryNodup (nvmem : NvmemDevice) (info : NvmemCellInfo) : Except ℤ NvmemCellEntry :=
  if info.offset % nvmem.stride ≠ 0 then .error (-EINVAL)
  else .ok
    { offset := info.offset
      bytes := if info.nbits ≠ 0 then bytesOf (info.nbits + info.bitOffset) else info.bytes
      bitOffset := info.bitOffset
      nbits := info.nbits }

/-- `nvmem_reg_read` of `bytes` bytes into a zeroed buffer; the read is read `i` of the call. -/
def nvmemRegRead (env : Env) (i : ℕ) (content : Buf) (offset bytes : ℕ) : Except ℤ Buf :=
  if env.regRead i ≠ 0 then .error (env.regRead i)
  else .ok fun j => if j < bytes then content (offset + j) else 0

/-- `nvmem_reg_write` -/
def nvmemRegWrite (env : Env) (content : Buf) (offset : ℕ) (buf : Buf) (bytes : ℕ) : Buf × ℤ :=
  if env.regWrite ≠ 0 then (env.torn, env.regWrite)
  else (fun i => if offset ≤ i ∧ i < offset + bytes then buf (i - offset) else content i, 0)

/-! ### Reading -/

/-- A buffer with the pointer `p`. -/
structure Cursor where
  buf : Buf
  p : ℕ

/-- One turn of the loop of `nvmem_shift_read_buffer_in_place`; `b` is the loop's `b`. -/
def shiftDown (bitOffset : ℕ) (s : Cursor) (b : ℕ) : Cursor :=
  let buf := Function.update s.buf s.p (s.buf s.p ||| s.buf b <<< (8 - bitOffset))
  { buf := Function.update buf b (buf b >>> bitOffset), p := b }

/-- `while (--extra >= 0) *p-- = 0` -/
def clearExtra : ℕ → Cursor → Cursor
  | 0, s => s
  | extra + 1, s => clearExtra extra { buf := Function.update s.buf s.p 0, p := s.p - 1 }

/-- `nvmem_shift_read_buffer_in_place` -/
def nvmemShiftReadBufferInPlace (cell : NvmemCellEntry) (buf : Buf) : Buf :=
  let s : Cursor :=
    if cell.bitOffset ≠ 0 then
      (List.range' 1 (cell.bytes - 1)).foldl (shiftDown cell.bitOffset)
        { buf := Function.update buf 0 (buf 0 >>> cell.bitOffset), p := 0 }
    else { buf := buf, p := cell.bytes - 1 }
  let s := clearExtra (cell.bytes - bytesOf cell.nbits) s
  if cell.nbits % 8 ≠ 0 then
    Function.update s.buf s.p (s.buf s.p &&& (genmask (cell.nbits % 8 - 1) 0).setWidth 8)
  else s.buf

/-- `nvmem_cell_read`: the buffer and its length. -/
def nvmemCellRead (env : Env) (nvmem : NvmemDevice) (cell : NvmemCellEntry) (content : Buf) : Except ℤ (Buf × ℕ) :=
  if env.kzalloc = false then .error (-ENOMEM)
  else do
    let buf ← nvmemRegRead env 0 content cell.offset cell.bytes
    let buf := if cell.bitOffset ≠ 0 ∨ cell.nbits ≠ 0 then nvmemShiftReadBufferInPlace cell buf else buf
    match nvmem.cellPostProcess with
    | none => .ok (buf, cell.bytes)
    | some post =>
        let (buf, rc) := post cell.offset buf cell.bytes
        if rc ≠ 0 then .error rc else .ok (buf, cell.bytes)

/-! ### Writing -/

/-- A buffer with the pointer `p` and the byte `pbyte` that the last shift replaced. -/
structure Carry extends Cursor where
  pbyte : BitVec 8

/-- One turn of the loop of `nvmem_cell_prepare_write_buffer`; `b` is the loop's `b`. -/
def shiftUp (bitOffset : ℕ) (s : Carry) (b : ℕ) : Carry :=
  let pbits := s.pbyte >>> (8 - 1 - bitOffset)
  { buf := Function.update s.buf b (s.buf b <<< bitOffset ||| pbits), p := b, pbyte := s.buf b }

/-- What `memcpy` leaves in a zeroed buffer. -/
def ofBytes (bytes : List (BitVec 8)) : Buf := fun i => bytes.getD i 0

/-- The first half of `nvmem_cell_prepare_write_buffer`: make room for the bits below the cell. -/
def shiftIn (env : Env) (cell : NvmemCellEntry) (content buf : Buf) : Except ℤ Cursor :=
  if cell.bitOffset ≠ 0 then do
    let v ← nvmemRegRead env 0 content cell.offset 1
    let first := buf 0 <<< cell.bitOffset ||| ((genmask (cell.bitOffset - 1) 0).setWidth 8 &&& v 0)
    let start : Carry := { buf := Function.update buf 0 first, p := 0, pbyte := buf 0 }
    .ok ((List.range' 1 (cell.bytes - 1)).foldl (shiftUp cell.bitOffset) start).toCursor
  else .ok { buf := buf, p := 0 }

/-- The second half: the bits of the device above the cell go to `*p`. -/
def mergeLast (env : Env) (cell : NvmemCellEntry) (content : Buf) (s : Cursor) : Except ℤ Buf :=
  if (cell.nbits + cell.bitOffset) % 8 ≠ 0 then do
    let v ← nvmemRegRead env 1 content (cell.offset + cell.bytes - 1) 1
    .ok (Function.update s.buf s.p
      (s.buf s.p ||| ((genmask 7 ((cell.nbits + cell.bitOffset) % 8)).setWidth 8 &&& v 0)))
  else .ok s.buf

/-- `nvmem_cell_prepare_write_buffer` -/
def nvmemCellPrepareWriteBuffer (env : Env) (cell : NvmemCellEntry) (content : Buf) (value : List (BitVec 8)) :
    Except ℤ Buf :=
  if env.kzalloc = false then .error (-ENOMEM)
  else shiftIn env cell content (ofBytes value) >>= mergeLast env cell content

/-- `__nvmem_cell_entry_write`: the new content of the device and the length written. -/
def nvmemCellEntryWrite (env : Env) (nvmem : NvmemDevice) (cell : NvmemCellEntry) (content : Buf)
    (value : List (BitVec 8)) : Buf × Except ℤ ℕ :=
  if nvmem.readOnly ∨ (cell.bitOffset = 0 ∧ value.length ≠ cell.bytes) then (content, .error (-EINVAL))
  else
    let prepared :=
      if cell.bitOffset ≠ 0 ∨ cell.nbits ≠ 0 then nvmemCellPrepareWriteBuffer env cell content value
      else .ok (ofBytes value)
    match prepared with
    | .error rc => (content, .error rc)
    | .ok buf =>
        let (content, rc) := nvmemRegWrite env content cell.offset buf cell.bytes
        if rc ≠ 0 then (content, .error rc) else (content, .ok value.length)

end GfpDrivers.Nvmem
