import GfpDrivers.Lib.AddressMap
import GfpDrivers.Of.AddressAgree
import Mathlib.Data.List.Find

/-!
Translation of a bus address as the composition of the `ranges` of the buses up to the root.

A window is tested with its end as a number of 64 bits. The end of a window at the top of the
address space is then zero, and the window contains no address. Nor is the highest address a
possible result, as it stands for a failure.
-/

namespace GfpDrivers.Of

open Lib Function

/-! ### The windows of a bus -/

/-- Pointers to the entries of a property, `rone` cells each. -/
def entryPointers (rone : ℕ) : ℕ → (ℕ → ℕ) → List (ℕ → ℕ)
  | 0, _ => []
  | k + 1, ranges => ranges :: entryPointers rone k fun i => ranges (rone + i)

/-- The window an entry of `ranges` stands for. -/
def windowAt (na ns pna : ℕ) (range : ℕ → ℕ) : AddressWindow where
  child := ofReadNumber range na
  parent := ofReadNumber (fun i => range (na + i)) pna
  size := ofReadNumber (fun i => range (na + pna + i)) ns

/-- A bus on the way: its own counts of cells, the count of address cells of its parent, and
its `ranges`. -/
structure BusLevel where
  na : ℕ
  ns : ℕ
  pna : ℕ
  ranges : Option (Bytes × ℕ)

/-- What `ranges` means: addresses pass as they are if it is empty, and not at all if it is
missing. -/
def BusLevel.map (l : BusLevel) : AddressMap :=
  match l.ranges with
  | none => .closed
  | some (value, len) =>
      if len = 0 then .identity
      else
        .windows ((entryPointers (l.na + l.pna + l.ns) (len / 4 / (l.na + l.pna + l.ns)) (cells value)).map
          (windowAt l.na l.ns l.pna))

/-- The buses from `bus`, which has `na` and `ns` cells, up to the root. -/
inductive BusPath (s : DevTree) : ℕ → ℕ → ℕ → List BusLevel → Prop
  | root {bus na ns : ℕ} : (s.node bus).parent = none → BusPath s bus na ns []
  | up {bus parent na ns pna pns : ℕ} {ranges : Option (Bytes × ℕ)} {rest : List BusLevel} :
      (s.node bus).parent = some parent →
      Returns (fun fuel => ofBusDefaultCountCells fuel s parent) ((pna : ℤ), (pns : ℤ)) →
      (1 ≤ pna ∧ pna ≤ 2) ∧ 1 ≤ pns ∧ pns ≤ 2 →
      Returns (fun fuel => ofGetProperty fuel s bus "ranges") ranges →
      BusPath s parent pna pns rest → BusPath s bus na ns (⟨na, ns, pna, ranges⟩ :: rest)

/-- No window goes beyond the top of the address space. -/
def WindowsInside (levels : List BusLevel) : Prop :=
  ∀ l ∈ levels, ∀ ws, l.map = .windows ws → ∀ w ∈ ws, w.child + w.size ≤ 2 ^ 64

/-- Wherever the address can get on the path, it fits the cells there. -/
def Fits : List BusLevel → ℕ → Prop
  | [], _ => True
  | l :: rest, a => ∀ b, l.map.Reaches a b → b < 2 ^ (32 * l.pna) ∧ Fits rest b

/-- The composition of the maps. -/
def throughBuses (levels : List BusLevel) : ℕ → Option ℕ := AddressMap.compose (levels.map BusLevel.map)

/-- The same, but for the windows at the top of the address space. -/
def throughBusesBelow (levels : List BusLevel) : ℕ → Option ℕ :=
  AddressMap.compose (levels.map fun l => l.map.without (2 ^ 64))

variable {s : DevTree} {na ns pna rlen fuel : ℕ} {addr range ranges : ℕ → ℕ}

theorem ofReadNumber_lt (cell : ℕ → ℕ) (size : ℕ) : ofReadNumber cell size < 2 ^ 64 := by
  cases size with
  | zero => exact Nat.two_pow_pos 64
  | succ size => exact Nat.mod_lt _ (Nat.two_pow_pos 64)

/-- `of_bus_default_map` finds the address in a window, unless the window ends at the top. -/
theorem ofBusDefaultMap_ne_iff (addr : ℕ → ℕ)
    (h : (windowAt na ns pna range).child + (windowAt na ns pna range).size ≤ 2 ^ 64) :
    ofBusDefaultMap addr range na ns pna ≠ OF_BAD_ADDR ↔
      (windowAt na ns pna range).Contains (ofReadNumber addr na) ∧
        (windowAt na ns pna range).child + (windowAt na ns pna range).size ≠ 2 ^ 64 := by
  have hsize : (windowAt na ns pna range).size < 2 ^ 64 := ofReadNumber_lt _ _
  simp only [ofBusDefaultMap, AddressWindow.Contains, windowAt, OF_BAD_ADDR] at h hsize ⊢
  split_ifs with hout <;> omega

theorem ofBusDefaultMap_eq (h : ofBusDefaultMap addr range na ns pna ≠ OF_BAD_ADDR) :
    ofBusDefaultMap addr range na ns pna = ofReadNumber addr na - (windowAt na ns pna range).child := by
  simp only [ofBusDefaultMap, windowAt] at h ⊢
  split_ifs at h ⊢ with hout
  · exact absurd rfl h
  · rfl

/-- The loop over the ranges finds the first entry that holds the address. -/
theorem walkRanges_eq_find (addr ranges : ℕ → ℕ) (na ns pna : ℕ) {rone : ℕ} (hrone : 0 < rone) (hfuel : rlen < fuel) :
    walkRanges (fun rlen rone => (rlen : ℤ) ≥ rone) addr na ns pna rone fuel ranges rlen =
      some (((entryPointers rone (rlen / rone) ranges).find?
        fun range => ofBusDefaultMap addr range na ns pna ≠ OF_BAD_ADDR).map
          fun range => (range, ofBusDefaultMap addr range na ns pna)) := by
  induction fuel generalizing rlen ranges with
  | zero => omega
  | succ fuel ih =>
    by_cases hfit : rone ≤ rlen
    · have hdiv : rlen / rone = (rlen - rone) / rone + 1 := Nat.div_eq_sub_div hrone hfit
      rw [hdiv, entryPointers, List.find?_cons]
      by_cases hbad : ofBusDefaultMap addr ranges na ns pna = OF_BAD_ADDR
      · have hrest : rlen - rone < fuel := by omega
        have hfit' : (rlen : ℤ) ≥ rone := by omega
        simp only [walkRanges, hfit', hbad, decide_true, if_true, ne_eq, not_true_eq_false, if_false,
          Int.toNat_natCast, decide_false]
        exact ih (fun i => ranges (rone + i)) hrest
      · simp [walkRanges, hfit, hbad]
    · have hdiv : rlen / rone = 0 := Nat.div_eq_of_lt (by omega)
      simp [walkRanges, hfit, hdiv, entryPointers]

/-- The number in the cells after an address was translated. -/
theorem ofReadNumber_translate {offset value : ℕ} (hna : na = 1 ∨ na = 2)
    (hvalue : ofReadNumber addr na + offset = value) (hfits : value < 2 ^ (32 * na)) :
    ofReadNumber (ofBusDefaultTranslate addr offset na) na = value := by
  rw [ofBusDefaultTranslate, hvalue]
  obtain rfl | rfl := hna
  · have hlt : value < 2 ^ 32 := hfits
    simp only [ofReadNumber, update_self, Nat.sub_self]
    omega
  · have hlt : value < 2 ^ 64 := hfits
    have hhigh : ∀ (cell : ℕ → ℕ) (high low : ℕ), update (update cell 0 high) 1 low 0 = high :=
      fun cell high low => by rw [update_of_ne (by decide), update_self]
    simp only [ofReadNumber, update_self, Nat.sub_self, Nat.reduceSub, if_pos (by decide : 1 < 2), hhigh]
    omega

theorem ofReadNumber_zero (cell : ℕ → ℕ) (size : ℕ) (h : ∀ i < size, cell i = 0) : ofReadNumber cell size = 0 := by
  induction size with
  | zero => rfl
  | succ size ih =>
    rw [ofReadNumber, ih fun i hi => h i (by omega), h size (Nat.lt_succ_self size)]
    rfl

/-- One bus: the loop looks for the first window that contains the address, and overlooks the
ones at the top. -/
theorem find_entryPointers (addr : ℕ → ℕ) (l : BusLevel) {pointers : List (ℕ → ℕ)}
    (hin : ∀ range ∈ pointers, (windowAt l.na l.ns l.pna range).child + (windowAt l.na l.ns l.pna range).size ≤ 2 ^ 64) :
    (pointers.find? fun range => ofBusDefaultMap addr range l.na l.ns l.pna ≠ OF_BAD_ADDR).map
        (windowAt l.na l.ns l.pna) =
      ((pointers.map (windowAt l.na l.ns l.pna)).filter fun w => w.child + w.size ≠ 2 ^ 64).find?
        fun w => w.Contains (ofReadNumber addr l.na) := by
  rw [List.find?_filter, List.find?_map]
  congr 1
  refine List.find?_congr fun range hrange => ?_
  have hiff := ofBusDefaultMap_ne_iff addr (hin range hrange)
  rw [Bool.eq_iff_iff]
  simp only [decide_eq_true_eq, Function.comp_apply, hiff]
  exact and_comm

theorem ofTranslateOne_spec (addr : ℕ → ℕ) (l : BusLevel) (hna : 1 ≤ l.na ∧ l.na ≤ 2) (hns : 1 ≤ l.ns ∧ l.ns ≤ 2)
    (hpna : l.pna = 1 ∨ l.pna = 2)
    (hin : ∀ ws, l.map = .windows ws → ∀ w ∈ ws, w.child + w.size ≤ 2 ^ 64)
    (hfits : ∀ b, l.map.Reaches (ofReadNumber addr l.na) b → b < 2 ^ (32 * l.pna)) :
    ∃ res, Returns (fun fuel => ofTranslateOne fuel l.ranges addr l.na l.ns l.pna) res ∧
      res.map (fun addr => ofReadNumber addr l.pna) = (l.map.without (2 ^ 64)).apply (ofReadNumber addr l.na) := by
  obtain ⟨na, ns, pna, ranges⟩ := l
  dsimp only at hna hns hpna hin hfits ⊢
  cases ranges with
  | none => exact ⟨none, ⟨0, fun fuel _ => rfl⟩, rfl⟩
  | some prop =>
  obtain ⟨value, len⟩ := prop
  by_cases hlen : len = 0
  · subst hlen
    refine ⟨some _, ⟨0, fun fuel _ => rfl⟩, ?_⟩
    have hzero : ofReadNumber (fun i => if i < pna then 0 else addr i) pna = 0 :=
      ofReadNumber_zero _ pna fun i hi => if_pos hi
    have hsum : ofReadNumber (fun i => if i < pna then 0 else addr i) pna + ofReadNumber addr na = ofReadNumber addr na := by
      rw [hzero, Nat.zero_add]
    have hvalue := ofReadNumber_translate hpna hsum (hfits _ rfl)
    exact congrArg some hvalue
  · have hrone : 0 < na + pna + ns := by omega
    have hmap : BusLevel.map ⟨na, ns, pna, some (value, len)⟩ =
        .windows ((entryPointers (na + pna + ns) (len / 4 / (na + pna + ns)) (cells value)).map (windowAt na ns pna)) := by
      rw [BusLevel.map]
      exact if_neg hlen
    rw [hmap] at hin hfits ⊢
    have hwin : ∀ range ∈ entryPointers (na + pna + ns) (len / 4 / (na + pna + ns)) (cells value),
        (windowAt na ns pna range).child + (windowAt na ns pna range).size ≤ 2 ^ 64 :=
      fun range hrange => hin _ rfl _ (List.mem_map_of_mem hrange)
    have hfind := find_entryPointers addr ⟨na, ns, pna, some (value, len)⟩ hwin
    dsimp only at hfind
    refine ⟨((entryPointers (na + pna + ns) (len / 4 / (na + pna + ns)) (cells value)).find?
        fun range => ofBusDefaultMap addr range na ns pna ≠ OF_BAD_ADDR).map fun range =>
          ofBusDefaultTranslate (fun i => if i < pna then range (na + i) else addr i)
            (ofBusDefaultMap addr range na ns pna) pna, ⟨len / 4 + 1, fun fuel hfuel => ?_⟩, ?_⟩
    · have hwalk := walkRanges_eq_find addr (cells value) na ns pna hrone (Nat.lt_of_succ_le hfuel)
      simp only [ofTranslateOne_eq (by omega : na ≤ 4) (by omega : pna ≤ 4) (by omega : ns < 2 ^ 31 - 8),
        fdtTranslateOne, translateOne, hlen, if_false, toInt_rone (by omega : na ≤ 4) (by omega : pna ≤ 4)
        (by omega : ns < 2 ^ 31 - 8), hwalk, Option.map_some, Option.map_map]
      rfl
    · rw [AddressMap.without, AddressMap.apply, ← hfind, Option.map_map, Option.map_map]
      cases hfound : (entryPointers (na + pna + ns) (len / 4 / (na + pna + ns)) (cells value)).find?
          fun range => ofBusDefaultMap addr range na ns pna ≠ OF_BAD_ADDR with
      | none => rfl
      | some range =>
        have hmem := List.mem_of_find?_eq_some hfound
        have hne : ofBusDefaultMap addr range na ns pna ≠ OF_BAD_ADDR := by simpa using List.find?_some hfound
        have hcont := ((ofBusDefaultMap_ne_iff addr (hwin range hmem)).1 hne).1
        have hlt := hfits _ ⟨_, List.mem_map_of_mem hmem, hcont, rfl⟩
        have hbase : ofReadNumber (fun i => if i < pna then range (na + i) else addr i) pna =
            (windowAt na ns pna range).parent := by
          obtain rfl | rfl := hpna <;> rfl
        have hsum : ofReadNumber (fun i => if i < pna then range (na + i) else addr i) pna +
            ofBusDefaultMap addr range na ns pna = (windowAt na ns pna range).translate (ofReadNumber addr na) := by
          rw [hbase, ofBusDefaultMap_eq hne, AddressWindow.translate]
        have hvalue := ofReadNumber_translate hpna hsum hlt
        exact congrArg some hvalue

/-! ### The path to the root -/

theorem ofTranslateLoop_spec {bus : ℕ} {levels : List BusLevel} (hpath : BusPath s bus na ns levels)
    (hna : 1 ≤ na ∧ na ≤ 2) (hns : 1 ≤ ns ∧ ns ≤ 2) (hin : WindowsInside levels)
    (hfits : Fits levels (ofReadNumber addr na)) :
    ∃ k, ∀ fuel ≥ k, ∀ rounds ≥ k, ofTranslateLoop fuel s rounds bus addr na ns =
      some ((throughBusesBelow levels (ofReadNumber addr na)).getD OF_BAD_ADDR) := by
  induction hpath generalizing addr with
  | root hroot =>
    refine ⟨1, fun fuel _ rounds hrounds => ?_⟩
    obtain ⟨rounds, rfl⟩ := Nat.exists_eq_add_of_le' hrounds
    simp [ofTranslateLoop, hroot, throughBusesBelow, AddressMap.compose]
  | @up bus parent na ns pna pns ranges rest hparent hcounts hcells hranges hpath ih =>
    obtain ⟨hpna, hpns⟩ := hcells
    obtain ⟨k₁, hk₁⟩ := hcounts
    obtain ⟨k₂, hk₂⟩ := hranges
    have hcheck : ofCheckCounts pna pns = true := by
      rw [ofCheckCounts_iff]
      omega
    obtain ⟨one, ⟨k₃, hk₃⟩, hone⟩ := ofTranslateOne_spec addr ⟨na, ns, pna, ranges⟩ hna hns
      (by dsimp only; omega) (hin _ List.mem_cons_self) (fun b hb => (hfits b hb).1)
    have hcount : ∀ fuel ≥ k₁, ofBusDefaultCountCells fuel s parent = some ((pna : ℤ), (pns : ℤ)) := hk₁
    have hget : ∀ fuel ≥ k₂, ofGetProperty fuel s bus "ranges" = some ranges := hk₂
    have htranslate : ∀ fuel ≥ k₃, ofTranslateOne fuel ranges addr na ns pna = some one := hk₃
    have hbelow : throughBusesBelow (⟨na, ns, pna, ranges⟩ :: rest) (ofReadNumber addr na) =
        (one.map fun addr => ofReadNumber addr pna).bind (throughBusesBelow rest) := by
      rw [hone]
      rfl
    rw [hbelow]
    cases one with
    | none =>
      refine ⟨k₁ + k₂ + k₃ + 1, fun fuel hfuel rounds hrounds => ?_⟩
      obtain ⟨rounds, rfl⟩ := Nat.exists_eq_add_of_le' (Nat.one_le_of_lt hrounds)
      simp [ofTranslateLoop, hparent, hcount fuel (by omega), hcheck, hget fuel (by omega),
        htranslate fuel (by omega)]
    | some addr' =>
      have hreach : (BusLevel.map ⟨na, ns, pna, ranges⟩).Reaches (ofReadNumber addr na) (ofReadNumber addr' pna) :=
        (AddressMap.reaches_of_apply hone.symm).of_without
      obtain ⟨k₄, hk₄⟩ := ih hpna hpns (fun l hl => hin l (List.mem_cons_of_mem _ hl)) (hfits _ hreach).2
      refine ⟨k₁ + k₂ + k₃ + k₄ + 1, fun fuel hfuel rounds hrounds => ?_⟩
      obtain ⟨rounds, rfl⟩ := Nat.exists_eq_add_of_le' (Nat.one_le_of_lt hrounds)
      have hrest := hk₄ fuel (by omega) rounds (by omega)
      simp only [ofTranslateLoop, hparent, hcount fuel (by omega), hcheck, hget fuel (by omega), Option.bind_some,
        Bool.true_eq_false, if_false, Int.toNat_natCast, htranslate fuel (by omega)]
      exact hrest

/-- `of_translate_address` composes the maps of the buses without the windows at the top. -/
theorem ofTranslateAddress_spec (dev : ℕ) (inAddr : Bytes) {bus : ℕ} {levels : List BusLevel}
    (hdev : (s.node dev).parent = some bus)
    (hcounts : Returns (fun fuel => ofBusDefaultCountCells fuel s bus) ((na : ℤ), (ns : ℤ)))
    (hna : 1 ≤ na ∧ na ≤ 2) (hns : 1 ≤ ns ∧ ns ≤ 2) (hpath : BusPath s bus na ns levels)
    (hin : WindowsInside levels) (hfits : Fits levels (ofReadNumber (cells inAddr) na)) :
    Returns (fun fuel => ofTranslateAddress fuel s dev inAddr)
      ((throughBusesBelow levels (ofReadNumber (cells inAddr) na)).getD OF_BAD_ADDR) := by
  obtain ⟨k, hk⟩ := hcounts
  obtain ⟨k', hk'⟩ := ofTranslateLoop_spec hpath hna hns hin hfits
  have hcheck : ofCheckCounts na ns = true := by
    rw [ofCheckCounts_iff]
    omega
  refine ⟨k + k', fun fuel hfuel => ?_⟩
  have hcount : ofBusDefaultCountCells fuel s bus = some ((na : ℤ), (ns : ℤ)) := hk fuel (by omega)
  have hloop := hk' fuel (by omega) fuel (by omega)
  simp only [ofTranslateAddress, hdev, hcount, Option.bind_some, hcheck, Bool.true_eq_false, if_false, hloop]

/-- The result is the address that the composition of the maps gives, and a failure exactly
when it gives none. -/
def TranslatedAs (translated : Option ℕ) (r : ℕ) : Prop :=
  (∀ t, translated = some t → r = t) ∧ (r = OF_BAD_ADDR ↔ translated = none)

theorem translatedAs_iff {translated : Option ℕ} {r : ℕ} :
    TranslatedAs translated r ↔ r = translated.getD OF_BAD_ADDR ∧ translated ≠ some OF_BAD_ADDR := by
  cases translated with
  | none => simp [TranslatedAs]
  | some t =>
    simp only [TranslatedAs, Option.some.injEq, forall_eq', reduceCtorEq, iff_false, Option.getD_some, ne_eq]
    constructor
    · rintro ⟨rfl, hne⟩
      exact ⟨rfl, hne⟩
    · rintro ⟨rfl, hne⟩
      exact ⟨rfl, hne⟩

/-- On a path of default buses the translation is the composition of the `ranges`, unless a
window at the top of the address space matters or the result is the highest address. -/
theorem ofTranslateAddress_composition (s : DevTree) (dev bus na ns : ℕ) (levels : List BusLevel) (inAddr : Bytes)
    (hdev : (s.node dev).parent = some bus)
    (hcounts : Returns (fun fuel => ofBusDefaultCountCells fuel s bus) ((na : ℤ), (ns : ℤ)))
    (hna : 1 ≤ na ∧ na ≤ 2) (hns : 1 ≤ ns ∧ ns ≤ 2) (hpath : BusPath s bus na ns levels)
    (hin : WindowsInside levels) (hfits : Fits levels (ofReadNumber (cells inAddr) na)) :
    ∃ r, Returns (fun fuel => ofTranslateAddress fuel s dev inAddr) r ∧
      (TranslatedAs (throughBuses levels (ofReadNumber (cells inAddr) na)) r ↔
        (throughBusesBelow levels (ofReadNumber (cells inAddr) na)).getD OF_BAD_ADDR =
            (throughBuses levels (ofReadNumber (cells inAddr) na)).getD OF_BAD_ADDR ∧
          throughBuses levels (ofReadNumber (cells inAddr) na) ≠ some OF_BAD_ADDR) :=
  ⟨_, ofTranslateAddress_spec dev inAddr hdev hcounts hna hns hpath hin hfits, translatedAs_iff⟩

/-! ### A bus with a window at the top -/

theorem ofBusNCells_own {np len : ℕ} {name : String} {value : Bytes}
    (hget : Returns (fun fuel => ofGetProperty fuel s np name) (some (value, len))) (hlen : 4 ≤ len) :
    Returns (fun fuel => ofBusNCells s name 1 fuel np) (toInt (be32ToCpup value)) := by
  obtain ⟨k, hk⟩ := hget
  refine ⟨k + 1, fun fuel hfuel => ?_⟩
  obtain ⟨fuel, rfl⟩ := Nat.exists_eq_add_of_le' (Nat.one_le_of_lt hfuel)
  have hprop : ofGetProperty (fuel + 1) s np name = some (some (value, len)) := hk (fuel + 1) (by omega)
  simp [ofBusNCells, ofPropertyReadU32, hprop, Nat.not_lt.mpr hlen]

theorem ofBusDefaultCountCells_own {np alen slen : ℕ} {avalue svalue : Bytes}
    (haddr : Returns (fun fuel => ofGetProperty fuel s np "#address-cells") (some (avalue, alen)))
    (hsize : Returns (fun fuel => ofGetProperty fuel s np "#size-cells") (some (svalue, slen)))
    (halen : 4 ≤ alen) (hslen : 4 ≤ slen) :
    Returns (fun fuel => ofBusDefaultCountCells fuel s np) (toInt (be32ToCpup avalue), toInt (be32ToCpup svalue)) := by
  obtain ⟨k, hk⟩ := ofBusNCells_own haddr halen
  obtain ⟨k', hk'⟩ := ofBusNCells_own hsize hslen
  refine ⟨max k k', fun fuel hfuel => ?_⟩
  have ha : ofBusNAddrCells fuel s np = some (toInt (be32ToCpup avalue)) := hk fuel (by omega)
  have hs : ofBusNSizeCells fuel s np = some (toInt (be32ToCpup svalue)) := hk' fuel (by omega)
  simp [ofBusDefaultCountCells, ha, hs]

/-- The bytes of a list of cells. -/
def cellBytes (l : List ℕ) : Bytes := fun i => (l.getD (i / 4) 0 / 256 ^ (3 - i % 4)).toUInt8

/-- The root `0` with one address cell and a bus `1` on it with two, which has a window at
the bottom and one at the top, and a device `2` in the lower one. -/
def topWindow : DevTree where
  node n :=
    if n = 0 then { bareNode with properties := some 10, child := some 1, detached := false }
    else if n = 1 then
      { bareNode with properties := some 12, parent := some 0, child := some 2, detached := false }
    else if n = 2 then { bareNode with properties := some 15, parent := some 1, detached := false }
    else bareNode
  prop p :=
    if p = 10 then ⟨"#address-cells", 4, smallCell 1, some 11⟩
    else if p = 11 then ⟨"#size-cells", 4, smallCell 1, none⟩
    else if p = 12 then ⟨"#address-cells", 4, smallCell 2, some 13⟩
    else if p = 13 then ⟨"#size-cells", 4, smallCell 1, some 14⟩
    else if p = 14 then
      ⟨"ranges", 32, cellBytes [0, 0, 0x40000000, 0x1000, 0xffffffff, 0xfffff000, 0x80000000, 0x1000], none⟩
    else ⟨"reg", 12, cellBytes [0, 0x10, 4], none⟩
  root := some 0
  phandleCache _ := none

/-- The bus of `topWindow`. -/
def topWindowLevel : BusLevel := ⟨2, 1, 1, some ((topWindow.prop 14).value, 32)⟩

theorem topWindow_root_props (name : String) : Returns (fun fuel => ofGetProperty fuel topWindow 0 name)
    (([10, 11].find? fun p => (topWindow.prop p).name = name).map fun p =>
      ((topWindow.prop p).value, (topWindow.prop p).length)) :=
  ofGetProperty_chain name ⟨rfl, rfl, rfl⟩

theorem topWindow_bus_props (name : String) : Returns (fun fuel => ofGetProperty fuel topWindow 1 name)
    (([12, 13, 14].find? fun p => (topWindow.prop p).name = name).map fun p =>
      ((topWindow.prop p).value, (topWindow.prop p).length)) :=
  ofGetProperty_chain name ⟨rfl, rfl, rfl, rfl⟩

theorem topWindow_counts_root : Returns (fun fuel => ofBusDefaultCountCells fuel topWindow 0) ((1 : ℕ), (1 : ℕ)) := by
  have hone : toInt (be32ToCpup (smallCell 1)) = (1 : ℕ) := by decide
  have haddr : Returns (fun fuel => ofGetProperty fuel topWindow 0 "#address-cells") (some (smallCell 1, 4)) :=
    topWindow_root_props "#address-cells"
  have hsize : Returns (fun fuel => ofGetProperty fuel topWindow 0 "#size-cells") (some (smallCell 1, 4)) :=
    topWindow_root_props "#size-cells"
  have hcounts := ofBusDefaultCountCells_own haddr hsize (le_refl 4) (le_refl 4)
  rwa [hone] at hcounts

theorem topWindow_counts_bus : Returns (fun fuel => ofBusDefaultCountCells fuel topWindow 1) ((2 : ℕ), (1 : ℕ)) := by
  have hone : toInt (be32ToCpup (smallCell 1)) = (1 : ℕ) := by decide
  have htwo : toInt (be32ToCpup (smallCell 2)) = (2 : ℕ) := by decide
  have haddr : Returns (fun fuel => ofGetProperty fuel topWindow 1 "#address-cells") (some (smallCell 2, 4)) :=
    topWindow_bus_props "#address-cells"
  have hsize : Returns (fun fuel => ofGetProperty fuel topWindow 1 "#size-cells") (some (smallCell 1, 4)) :=
    topWindow_bus_props "#size-cells"
  have hcounts := ofBusDefaultCountCells_own haddr hsize (le_refl 4) (le_refl 4)
  rwa [hone, htwo] at hcounts

theorem topWindow_path : BusPath topWindow 1 2 1 [topWindowLevel] :=
  .up rfl topWindow_counts_root ⟨⟨le_refl 1, by decide⟩, le_refl 1, by decide⟩
    (topWindow_bus_props "ranges") (.root rfl)

theorem topWindow_map : topWindowLevel.map =
    .windows [⟨0, 0x40000000, 0x1000⟩, ⟨0xfffffffffffff000, 0x80000000, 0x1000⟩] := by
  have hlist : (entryPointers 4 2 (cells (topWindow.prop 14).value)).map (windowAt 2 1 1) =
      [⟨0, 0x40000000, 0x1000⟩, ⟨0xfffffffffffff000, 0x80000000, 0x1000⟩] := by decide
  exact congrArg AddressMap.windows hlist

theorem topWindow_inside : WindowsInside [topWindowLevel] := by
  intro l hl ws hws w hw
  rw [List.mem_singleton.1 hl, topWindow_map, AddressMap.windows.injEq] at hws
  subst hws
  simp only [List.mem_cons, List.not_mem_nil, or_false] at hw
  obtain rfl | rfl := hw <;> decide

theorem topWindow_fits (a : ℕ) : Fits [topWindowLevel] a := by
  intro b hb
  rw [topWindow_map] at hb
  obtain ⟨w, hw, hin, rfl⟩ := hb
  simp only [List.mem_cons, List.not_mem_nil, or_false] at hw
  refine ⟨?_, trivial⟩
  obtain rfl | rfl := hw <;> simp only [AddressWindow.Contains, AddressWindow.translate, topWindowLevel] at hin ⊢ <;> omega

/-- An address in the lower window is translated. -/
theorem ofTranslateAddress_composition_low :
    Returns (fun fuel => ofTranslateAddress fuel topWindow 2 (cellBytes [0, 0x10])) 0x40000010 := by
  obtain ⟨r, hr, hiff⟩ := ofTranslateAddress_composition topWindow 2 1 2 1 [topWindowLevel] (cellBytes [0, 0x10]) rfl
    topWindow_counts_bus ⟨by decide, le_refl 2⟩ ⟨le_refl 1, by decide⟩ topWindow_path topWindow_inside (topWindow_fits _)
  have haddr : ofReadNumber (cells (cellBytes [0, 0x10])) 2 = 0x10 := by decide
  have hthrough : throughBuses [topWindowLevel] 0x10 = some 0x40000010 := by decide
  have hbelow : throughBusesBelow [topWindowLevel] 0x10 = some 0x40000010 := by decide
  rw [haddr, hthrough, hbelow] at hiff
  have hr' := (hiff.2 ⟨rfl, by decide⟩).1 0x40000010 rfl
  exact hr' ▸ hr

/-- An address in the window at the top is not, though the window contains it. -/
theorem ofTranslateAddress_misses_top :
    BusPath topWindow 1 2 1 [topWindowLevel] ∧ WindowsInside [topWindowLevel] ∧
    Fits [topWindowLevel] 0xfffffffffffff010 ∧
    ofReadNumber (cells (cellBytes [0xffffffff, 0xfffff010])) 2 = 0xfffffffffffff010 ∧
    throughBuses [topWindowLevel] 0xfffffffffffff010 = some 0x80000010 ∧
    Returns (fun fuel => ofTranslateAddress fuel topWindow 2 (cellBytes [0xffffffff, 0xfffff010])) OF_BAD_ADDR := by
  have haddr : ofReadNumber (cells (cellBytes [0xffffffff, 0xfffff010])) 2 = 0xfffffffffffff010 := by decide
  have hspec := ofTranslateAddress_spec (s := topWindow) 2 (cellBytes [0xffffffff, 0xfffff010]) rfl
    topWindow_counts_bus ⟨by decide, le_refl 2⟩ ⟨le_refl 1, by decide⟩ topWindow_path topWindow_inside (topWindow_fits _)
  have hbelow : throughBusesBelow [topWindowLevel] 0xfffffffffffff010 = none := by decide
  rw [haddr, hbelow] at hspec
  exact ⟨topWindow_path, topWindow_inside, topWindow_fits _, haddr, by decide, hspec⟩

end GfpDrivers.Of
