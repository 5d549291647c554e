import GfpDrivers.Of.FindNode

/-!
Translation of bus addresses (`address.c`, `fdt_address.c`). The two
translators go up from a node to the root and apply the `ranges` of each bus
on the way; one works on the live tree, the other on the flat blob. All buses
are default buses. They look for the number of address and size cells of a
bus in different places.

Addresses are arrays of 32-bit cells. A `u64` is a number below `2 ^ 64` and
an `int` an integer; conversions and overflow are written out.
-/

namespace GfpDrivers.Of

open Lib

/-! ### Cells -/

def OF_MAX_ADDR_CELLS : ℕ := 4

/-- `OF_BAD_ADDR` -/
def OF_BAD_ADDR : ℕ := 2 ^ 64 - 1

/-- The conversion of an unsigned 32-bit number, or of the result of a sum, to `int`. -/
def toInt (x : ℕ) : ℤ := if x % 2 ^ 32 < 2 ^ 31 then (x % 2 ^ 32 : ℕ) else (x % 2 ^ 32 : ℕ) - 2 ^ 32

/-- The cells from a pointer to big-endian numbers on. -/
def cells (b : Bytes) (i : ℕ) : ℕ := be32ToCpup fun j => b (4 * i + j)

/-- `of_read_number` -/
def ofReadNumber (cell : ℕ → ℕ) : ℕ → ℕ
  | 0 => 0
  | size + 1 => (ofReadNumber cell size * 2 ^ 32 + cell size) % 2 ^ 64

/-- `OF_CHECK_COUNTS` -/
def ofCheckCounts (na ns : ℤ) : Bool := 0 < na ∧ na ≤ OF_MAX_ADDR_CELLS ∧ 0 < ns

/-- `of_bus_default_map` and `fdt_bus_default_map` -/
def ofBusDefaultMap (addr range : ℕ → ℕ) (na ns pna : ℕ) : ℕ :=
  let cp := ofReadNumber range na
  let s := ofReadNumber (fun i => range (na + pna + i)) ns
  let da := ofReadNumber addr na
  if da < cp ∨ da ≥ (cp + s) % 2 ^ 64 then OF_BAD_ADDR else da - cp

/-- `of_bus_default_translate` and `fdt_bus_default_translate` -/
def ofBusDefaultTranslate (addr : ℕ → ℕ) (offset na : ℕ) : ℕ → ℕ :=
  let a := (ofReadNumber addr na + offset) % 2 ^ 64
  let addr := fun i => if i < na then 0 else addr i
  let addr := if 1 < na then Function.update addr (na - 2) (a / 2 ^ 32) else addr
  Function.update addr (na - 1) (a % 2 ^ 32)

/-! ### One bus -/

/-- The loop over the `ranges` of a bus. `fits` compares what is left of the
property, in cells, with the size of one range. The result is the range that
holds the address and the offset in it, if there is one. -/
def walkRanges (fits : ℕ → ℤ → Bool) (addr : ℕ → ℕ) (na ns pna : ℕ) (rone : ℤ) :
    ℕ → (ℕ → ℕ) → ℕ → Option (Option ((ℕ → ℕ) × ℕ))
  | 0, _, _ => none
  | fuel + 1, ranges, rlen =>
      if fits rlen rone then
        let offset := ofBusDefaultMap addr ranges na ns pna
        if offset ≠ OF_BAD_ADDR then some (some (ranges, offset))
        else walkRanges fits addr na ns pna rone fuel (fun i => ranges (rone.toNat + i))
          (rlen - rone.toNat)
      else some none

/-- The body of `of_translate_one` and `fdt_translate_one`, for the value and
the length of `ranges`. The inner `none` is the return value 1. -/
def translateOne (fits : ℕ → ℤ → Bool) (fuel : ℕ) (ranges : Option (Bytes × ℕ)) (addr : ℕ → ℕ)
    (na ns pna : ℕ) : Option (Option (ℕ → ℕ)) :=
  match ranges with
  | none => some none
  | some (ranges, rlen) =>
      if rlen = 0 then
        let offset := ofReadNumber addr na
        let addr := fun i => if i < pna then 0 else addr i
        some (some (ofBusDefaultTranslate addr offset pna))
      else
        (walkRanges fits addr na ns pna (toInt (na + pna + ns)) fuel (cells ranges) (rlen / 4)).map
          fun found => found.map fun (range, offset) =>
            let addr := fun i => if i < pna then range (na + i) else addr i
            ofBusDefaultTranslate addr offset pna

/-- `of_translate_one` compares unsigned numbers. -/
def ofTranslateOne := translateOne fun rlen rone => (rlen : ℤ) ≥ rone % 2 ^ 32

/-- `fdt_translate_one` compares signed numbers. -/
def fdtTranslateOne := translateOne fun rlen rone => (rlen : ℤ) ≥ rone

/-! ### The live tree -/

/-- `of_get_property`: the value and the length of a property. -/
def ofGetProperty (fuel : ℕ) (s : DevTree) (np : ℕ) (name : String) : Option (Option (Bytes × ℕ)) :=
  (ofFindProperty fuel s np name).map fun pp =>
    pp.map fun pp => ((s.prop pp).value, (s.prop pp).length)

/-- `of_property_read_u32` -/
def ofPropertyReadU32 (fuel : ℕ) (s : DevTree) (np : ℕ) (name : String) : Option (Option ℕ) :=
  (ofGetProperty fuel s np name).map fun prop =>
    match prop with
    | none => none
    | some (value, length) => if length < 4 then none else some (be32ToCpup value)

/-- `of_bus_n_addr_cells` and `of_bus_n_size_cells`, with the default for the root. -/
def ofBusNCells (s : DevTree) (name : String) (default : ℕ) : ℕ → ℕ → Option ℤ
  | 0, _ => none
  | fuel + 1, np =>
      (ofPropertyReadU32 (fuel + 1) s np name).bind fun cells =>
        match cells with
        | some cells => some (toInt cells)
        | none =>
            match (s.node np).parent with
            | none => some default
            | some parent => ofBusNCells s name default fuel parent

/-- `of_bus_n_addr_cells` -/
def ofBusNAddrCells (fuel : ℕ) (s : DevTree) (np : ℕ) : Option ℤ :=
  ofBusNCells s "#address-cells" 1 fuel np

/-- `of_bus_n_size_cells` -/
def ofBusNSizeCells (fuel : ℕ) (s : DevTree) (np : ℕ) : Option ℤ :=
  ofBusNCells s "#size-cells" 1 fuel np

/-- `of_bus_default_count_cells` of a node with the parent `parent`. -/
def ofBusDefaultCountCells (fuel : ℕ) (s : DevTree) (parent : ℕ) : Option (ℤ × ℤ) :=
  (ofBusNAddrCells fuel s parent).bind fun na => (ofBusNSizeCells fuel s parent).map fun ns => (na, ns)

/-- The loop of `__of_translate_address`: the address `addr` on the bus `dev`. -/
def ofTranslateLoop (fuel : ℕ) (s : DevTree) : ℕ → ℕ → (ℕ → ℕ) → ℤ → ℤ → Option ℕ
  | 0, _, _, _, _ => none
  | rounds + 1, dev, addr, na, ns =>
      match (s.node dev).parent with
      | none => some (ofReadNumber addr na.toNat)
      | some parent =>
          (ofBusDefaultCountCells fuel s parent).bind fun (pna, pns) =>
            if ofCheckCounts pna pns = false then some OF_BAD_ADDR
            else
              (ofGetProperty fuel s dev "ranges").bind fun ranges =>
                (ofTranslateOne fuel ranges addr na.toNat ns.toNat pna.toNat).bind fun one =>
                  match one with
                  | none => some OF_BAD_ADDR
                  | some addr => ofTranslateLoop fuel s rounds parent addr pna pns

/-- `of_translate_address` -/
def ofTranslateAddress (fuel : ℕ) (s : DevTree) (dev : ℕ) (inAddr : Bytes) : Option ℕ :=
  match (s.node dev).parent with
  | none => some OF_BAD_ADDR
  | some parent =>
      (ofBusDefaultCountCells fuel s parent).bind fun (na, ns) =>
        if ofCheckCounts na ns = false then some OF_BAD_ADDR
        else ofTranslateLoop fuel s fuel parent (cells inAddr) na ns

/-! ### The flat tree -/

/-- What libfdt reads from the blob: properties with their lengths, and parents. -/
structure Blob where
  fdtGetprop : ℕ → String → Option (Bytes × ℕ)
  fdtParentOffset : ℕ → Option ℕ
  root : ℕ

/-- `dt_root_addr_cells` and `dt_root_size_cells`, as set by `early_init_dt_scan_root`. -/
def dtRootCells (blob : Blob) (name : String) : ℕ :=
  match blob.fdtGetprop blob.root name with
  | some (value, _) => be32ToCpup value
  | none => 1

/-- One half of `fdt_bus_default_count_cells`. -/
def fdtBusNCells (blob : Blob) (parent : ℕ) (name : String) : ℤ :=
  match blob.fdtGetprop parent name with
  | some (value, _) => toInt (be32ToCpup value)
  | none => toInt (dtRootCells blob name)

/-- `fdt_bus_default_count_cells` -/
def fdtBusDefaultCountCells (blob : Blob) (parent : ℕ) : ℤ × ℤ :=
  (fdtBusNCells blob parent "#address-cells", fdtBusNCells blob parent "#size-cells")

/-- The loop of `fdt_translate_address`. -/
def fdtTranslateLoop (fuel : ℕ) (blob : Blob) : ℕ → ℕ → (ℕ → ℕ) → ℤ → ℤ → Option ℕ
  | 0, _, _, _, _ => none
  | rounds + 1, node, addr, na, ns =>
      match blob.fdtParentOffset node with
      | none => some (ofReadNumber addr na.toNat)
      | some parent =>
          let (pna, pns) := fdtBusDefaultCountCells blob parent
          if ofCheckCounts pna pns = false then some OF_BAD_ADDR
          else
            (fdtTranslateOne fuel (blob.fdtGetprop node "ranges") addr na.toNat ns.toNat
              pna.toNat).bind fun one =>
                match one with
                | none => some OF_BAD_ADDR
                | some addr => fdtTranslateLoop fuel blob rounds parent addr pna pns

/-- `fdt_translate_address` -/
def fdtTranslateAddress (fuel : ℕ) (blob : Blob) (node : ℕ) : Option ℕ :=
  match blob.fdtGetprop node "reg" with
  | none => some OF_BAD_ADDR
  | some (reg, _) =>
      match blob.fdtParentOffset node with
      | none => some OF_BAD_ADDR
      | some parent =>
          let (na, ns) := fdtBusDefaultCountCells blob parent
          if ofCheckCounts na ns = false then some OF_BAD_ADDR
          else fdtTranslateLoop fuel blob fuel parent (cells reg) na ns

/-- `of_flat_dt_translate_address` -/
def ofFlatDtTranslateAddress (fuel : ℕ) (initialBootParams : Blob) (node : ℕ) : Option ℕ :=
  fdtTranslateAddress fuel initialBootParams node

end GfpDrivers.Of
