import GfpDrivers.Of.AddressPath

/-!
From the `reg` property of a node to a resource (`address.c`). The loop of `__of_get_address`
over the entries of the property is compiled out, so that no entry is ever found. All buses
are default buses, and a resource is modelled without its name.
-/

namespace GfpDrivers.Of

open Lib

def IORESOURCE_MEM : ℕ := 0x00000200

/-- `struct resource` -/
structure Resource where
  start : ℕ
  end_ : ℕ
  flags : ℕ
deriving DecidableEq

/-- What `__of_get_address` finds: the pointer that it returns, `*size` and `*flags`. -/
structure RegEntry where
  addr : Bytes
  size : ℕ
  flags : ℕ

/-- `__of_get_address`. The last branch has the property, and the loop over it is left out
in the source. -/
def ofGetAddress (fuel : ℕ) (s : DevTree) (dev : ℕ) (barNo : ℤ) : Option (Option RegEntry) :=
  match (s.node dev).parent with
  | none => some none
  | some parent =>
      if 0 ≤ barNo then some none
      else
        (ofBusDefaultCountCells fuel s parent).bind fun (na, _) =>
          if ¬(0 < na ∧ na ≤ OF_MAX_ADDR_CELLS) then some none
          else
            (ofGetProperty fuel s dev "reg").map fun prop =>
              match prop with
              | none => none
              | some _ => none

/-- `__of_address_to_resource`. The result is the return value and what `*r` is set to. -/
def ofAddressToResourceBar (fuel : ℕ) (s : DevTree) (dev : ℕ) (barNo : ℤ) : Option (ℤ × Option Resource) :=
  (ofGetAddress fuel s dev barNo).bind fun entry =>
    match entry with
    | none => some (-EINVAL, none)
    | some entry =>
        if entry.flags &&& IORESOURCE_MEM ≠ 0 then
          (ofTranslateAddress fuel s dev entry.addr).map fun taddr =>
            if taddr = OF_BAD_ADDR then (-EINVAL, none)
            else (0, some ⟨taddr, (taddr + entry.size + (2 ^ 64 - 1)) % 2 ^ 64, entry.flags⟩)
        else some (-EINVAL, none)

/-- `of_address_to_resource`. The index is only looked at in the loop that is left out. -/
def ofAddressToResource (fuel : ℕ) (s : DevTree) (dev : ℕ) (_index : ℤ) : Option (ℤ × Option Resource) :=
  ofAddressToResourceBar fuel s dev (-1)

/-- The address of the `i`-th entry of `reg`. -/
def regAddr (reg : Bytes) (na ns i : ℕ) : Bytes := fun j => reg (4 * ((na + ns) * i) + j)

/-- Its size. -/
def regSize (reg : Bytes) (na ns i : ℕ) : ℕ := ofReadNumber (fun j => cells reg ((na + ns) * i + na + j)) ns

/-- There is an entry with this index, and its address is translated to `t`. -/
def RegTranslates (s : DevTree) (dev : ℕ) (reg : Bytes) (len na ns : ℕ) (index : ℤ) (i t : ℕ) : Prop :=
  index = i ∧ i < len / 4 / (na + ns) ∧
    Returns (fun fuel => ofTranslateAddress fuel s dev (regAddr reg na ns i)) t ∧ t ≠ OF_BAD_ADDR

/-- The result is the resource of the entry if there is one that is translated, and a
failure otherwise. -/
def BecomesResource (s : DevTree) (dev : ℕ) (reg : Bytes) (len na ns : ℕ) (index : ℤ)
    (res : ℤ × Option Resource) : Prop :=
  (res.1 = 0 ↔ ∃ i t, RegTranslates s dev reg len na ns index i t) ∧
    ∀ i t, RegTranslates s dev reg len na ns index i t →
      res.2 = some ⟨t, t + regSize reg na ns i - 1, IORESOURCE_MEM⟩

variable {s : DevTree} {dev bus na ns len : ℕ} {reg : Bytes}

theorem ofAddressToResource_fails (index : ℤ) (hdev : (s.node dev).parent = some bus)
    (hcounts : Returns (fun fuel => ofBusDefaultCountCells fuel s bus) ((na : ℤ), (ns : ℤ)))
    (hreg : Returns (fun fuel => ofGetProperty fuel s dev "reg") (some (reg, len))) :
    Returns (fun fuel => ofAddressToResource fuel s dev index) (-EINVAL, none) := by
  obtain ⟨k, hk⟩ := hcounts
  obtain ⟨k', hk'⟩ := hreg
  refine ⟨max k k', fun fuel hfuel => ?_⟩
  have hcount : ofBusDefaultCountCells fuel s bus = some ((na : ℤ), (ns : ℤ)) := hk fuel (by omega)
  have hget : ofGetProperty fuel s dev "reg" = some (some (reg, len)) := hk' fuel (by omega)
  have hnone : ofGetAddress fuel s dev (-1) = some none := by
    simp only [ofGetAddress, hdev, hcount, hget, Option.bind_some, Option.map_some]
    split_ifs <;> rfl
  simp only [ofAddressToResource, ofAddressToResourceBar, hnone, Option.bind_some]

/-- A node on a default bus gets the resources of its `reg` only where there are none: for
an index without an entry, or an entry whose address is not translated. -/
theorem ofAddressToResource_reg (s : DevTree) (dev bus na ns len : ℕ) (reg : Bytes) (index : ℤ)
    (hdev : (s.node dev).parent = some bus)
    (hcounts : Returns (fun fuel => ofBusDefaultCountCells fuel s bus) ((na : ℤ), (ns : ℤ)))
    (hreg : Returns (fun fuel => ofGetProperty fuel s dev "reg") (some (reg, len))) :
    ∃ res, Returns (fun fuel => ofAddressToResource fuel s dev index) res ∧
      (BecomesResource s dev reg len na ns index res ↔ ¬ ∃ i t, RegTranslates s dev reg len na ns index i t) := by
  refine ⟨_, ofAddressToResource_fails index hdev hcounts hreg, ?_⟩
  constructor
  · rintro ⟨hret, -⟩ hsome
    exact absurd (hret.2 hsome) (by decide)
  · intro hnone
    exact ⟨⟨fun h => absurd h (by decide), fun h => absurd h hnone⟩, fun i t h => absurd ⟨i, t, h⟩ hnone⟩

theorem topWindow_reg : Returns (fun fuel => ofGetProperty fuel topWindow 2 "reg") (some (cellBytes [0, 0x10, 4], 12)) := by
  have hreg : Returns (fun fuel => ofGetProperty fuel topWindow 2 "reg")
      (([15].find? fun p => (topWindow.prop p).name = "reg").map fun p =>
        ((topWindow.prop p).value, (topWindow.prop p).length)) :=
    ofGetProperty_chain "reg" ⟨rfl, rfl⟩
  exact hreg

/-- The device has one entry, and a call for the one after it fails as it should. -/
theorem ofAddressToResource_reg_second :
    BecomesResource topWindow 2 (cellBytes [0, 0x10, 4]) 12 2 1 1 (-EINVAL, none) := by
  obtain ⟨res, hres, hiff⟩ := ofAddressToResource_reg topWindow 2 1 2 1 12 (cellBytes [0, 0x10, 4]) 1 rfl
    topWindow_counts_bus topWindow_reg
  have hnone : ¬ ∃ i t, RegTranslates topWindow 2 (cellBytes [0, 0x10, 4]) 12 2 1 1 i t := by
    rintro ⟨i, t, hindex, hlt, -⟩
    have hi : i < 1 := hlt
    omega
  obtain rfl := hres.unique (ofAddressToResource_fails 1 rfl topWindow_counts_bus topWindow_reg)
  exact hiff.2 hnone

/-- Its first entry is translated, and a call for it fails all the same. -/
theorem ofAddressToResource_misses_first :
    RegTranslates topWindow 2 (cellBytes [0, 0x10, 4]) 12 2 1 0 0 0x40000010 ∧
    Returns (fun fuel => ofAddressToResource fuel topWindow 2 0) (-EINVAL, none) := by
  have hspec := ofTranslateAddress_spec (s := topWindow) 2 (regAddr (cellBytes [0, 0x10, 4]) 2 1 0) rfl
    topWindow_counts_bus ⟨by decide, le_refl 2⟩ ⟨le_refl 1, by decide⟩ topWindow_path topWindow_inside (topWindow_fits _)
  have haddr : ofReadNumber (cells (regAddr (cellBytes [0, 0x10, 4]) 2 1 0)) 2 = 0x10 := by decide
  have hbelow : throughBusesBelow [topWindowLevel] 0x10 = some 0x40000010 := by decide
  rw [haddr, hbelow] at hspec
  exact ⟨⟨rfl, by decide, hspec, by decide⟩, ofAddressToResource_fails 0 rfl topWindow_counts_bus topWindow_reg⟩

end GfpDrivers.Of
