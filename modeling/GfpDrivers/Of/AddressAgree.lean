import GfpDrivers.Of.Address

/-!
The two translators compared. A node of the blob and a node of the live tree
mirror each other if they have the same properties and if their parents, up to
the root, do. The translators then agree if each bus on the way has its own
cell counts, or gets them from the root.
-/

namespace GfpDrivers.Of

variable {b : Blob} {s : DevTree} {off np bus fuel na ns pna rlen : ℕ} {name : String}
  {addr ranges : ℕ → ℕ}

/-- The two nodes have the same properties. -/
def SameProps (b : Blob) (s : DevTree) (off np : ℕ) : Prop :=
  ∀ name, Returns (fun fuel => ofGetProperty fuel s np name) (b.fdtGetprop off name)

/-- The node `np` was made from the node at `off`, and so were their parents. -/
inductive Mirrors (b : Blob) (s : DevTree) : ℕ → ℕ → Prop
  | root {np : ℕ} : SameProps b s b.root np → b.fdtParentOffset b.root = none →
      (s.node np).parent = none → Mirrors b s b.root np
  | child {off np off' np' : ℕ} : SameProps b s off np → b.fdtParentOffset off = some off' →
      (s.node np).parent = some np' → Mirrors b s off' np' → Mirrors b s off np

/-- The buses above a node. -/
inductive Above (b : Blob) (off : ℕ) : ℕ → Prop
  | parent {bus : ℕ} : b.fdtParentOffset off = some bus → Above b off bus
  | trans {bus bus' : ℕ} : Above b off bus → b.fdtParentOffset bus = some bus' → Above b off bus'

/-- A cell count is not taken from a node between the bus and the root, and is
stored in at least four bytes. -/
def CellsKnown (b : Blob) (name : String) (bus : ℕ) : Prop :=
  match b.fdtGetprop bus name with
  | some (_, len) => 4 ≤ len
  | none => ∀ bus', Above b bus bus' →
      (b.fdtParentOffset bus' ≠ none → b.fdtGetprop bus' name = none) ∧
      ∀ value len, b.fdtGetprop bus' name = some (value, len) → 4 ≤ len

/-- The counts of all buses above a node are known, and one range has less
than `2 ^ 31` cells. -/
def BusesKnown (b : Blob) (off : ℕ) : Prop :=
  ∀ bus, Above b off bus → CellsKnown b "#address-cells" bus ∧ CellsKnown b "#size-cells" bus ∧
    fdtBusNCells b bus "#size-cells" < 2 ^ 31 - 8

theorem Above.head {off' : ℕ} (hp : b.fdtParentOffset off = some off') (h : Above b off' bus) :
    Above b off bus := by
  induction h with
  | parent h => exact .trans (.parent hp) h
  | trans _ h ih => exact .trans ih h

/-! ### Cell counts -/

/-- A node without the property takes the count of its parent. -/
theorem ofBusNCells_parent {np' : ℕ} {count : ℤ}
    (hget : Returns (fun fuel => ofGetProperty fuel s np name) none)
    (hnp : (s.node np).parent = some np')
    (hup : Returns (fun fuel => ofBusNCells s name 1 fuel np') count) :
    Returns (fun fuel => ofBusNCells s name 1 fuel np) count := by
  obtain ⟨k, hk⟩ := hget
  obtain ⟨k', hk'⟩ := hup
  refine ⟨max k k' + 1, fun fuel hfuel => ?_⟩
  obtain ⟨fuel, rfl⟩ := Nat.exists_eq_add_of_le' (Nat.one_le_of_lt hfuel)
  have hnone : ofGetProperty (fuel + 1) s np name = some none := hk (fuel + 1) (by omega)
  simp only [ofBusNCells, ofPropertyReadU32, hnone, hnp]
  exact hk' fuel (by omega)

/-- The count is looked for on the way up and found at the root, if at all. -/
theorem ofBusNCells_up (h : Mirrors b s off np)
    (hmid : ∀ bus, bus = off ∨ Above b off bus →
      (b.fdtParentOffset bus ≠ none → b.fdtGetprop bus name = none) ∧
      ∀ value len, b.fdtGetprop bus name = some (value, len) → 4 ≤ len) :
    Returns (fun fuel => ofBusNCells s name 1 fuel np) (toInt (dtRootCells b name)) := by
  induction h with
  | @root np hprops hoff hnp =>
    obtain ⟨k, hk⟩ := hprops name
    have hlen := (hmid b.root (.inl rfl)).2
    refine ⟨k + 1, fun fuel hfuel => ?_⟩
    obtain ⟨fuel, rfl⟩ := Nat.exists_eq_add_of_le' (Nat.one_le_of_lt hfuel)
    have hget : ofGetProperty (fuel + 1) s np name = some (b.fdtGetprop b.root name) :=
      hk (fuel + 1) (by omega)
    simp only [ofBusNCells, ofPropertyReadU32, hget, dtRootCells]
    cases hprop : b.fdtGetprop b.root name with
    | none => simp [hnp, toInt]
    | some vl =>
      obtain ⟨value, len⟩ := vl
      have hge := hlen value len hprop
      simp [Nat.not_lt.mpr hge]
  | @child off np off' np' hprops hoff hnp _ ih =>
    have hget := hprops name
    rw [(hmid off (.inl rfl)).1 (by simp [hoff])] at hget
    refine ofBusNCells_parent hget hnp (ih fun bus hbus => hmid bus (.inr ?_))
    rcases hbus with rfl | hbus
    · exact .parent hoff
    · exact hbus.head hoff

theorem ofBusNCells_eq (h : Mirrors b s off np) (hknown : CellsKnown b name off) :
    Returns (fun fuel => ofBusNCells s name 1 fuel np) (fdtBusNCells b off name) := by
  unfold CellsKnown at hknown
  unfold fdtBusNCells
  cases hprop : b.fdtGetprop off name with
  | some vl =>
    obtain ⟨value, len⟩ := vl
    simp only [hprop] at hknown ⊢
    have hprops : SameProps b s off np := by cases h <;> assumption
    obtain ⟨k, hk⟩ := hprops name
    refine ⟨k + 1, fun fuel hfuel => ?_⟩
    obtain ⟨fuel, rfl⟩ := Nat.exists_eq_add_of_le' (Nat.one_le_of_lt hfuel)
    have hget : ofGetProperty (fuel + 1) s np name = some (some (value, len)) := by
      rw [← hprop]
      exact hk (fuel + 1) (by omega)
    simp [ofBusNCells, ofPropertyReadU32, hget, Nat.not_lt.mpr hknown]
  | none =>
    simp only [hprop] at hknown ⊢
    refine ofBusNCells_up h fun bus hbus => ?_
    rcases hbus with rfl | hbus
    · exact ⟨fun _ => hprop, by simp [hprop]⟩
    · exact hknown bus hbus

theorem countCells_eq (h : Mirrors b s off np) (haddr : CellsKnown b "#address-cells" off)
    (hsize : CellsKnown b "#size-cells" off) :
    Returns (fun fuel => ofBusDefaultCountCells fuel s np) (fdtBusDefaultCountCells b off) := by
  obtain ⟨k, hk⟩ := ofBusNCells_eq h haddr
  obtain ⟨k', hk'⟩ := ofBusNCells_eq h hsize
  refine ⟨max k k', fun fuel hfuel => ?_⟩
  have ha : ofBusNAddrCells fuel s np = some (fdtBusNCells b off "#address-cells") :=
    hk fuel (by omega)
  have hs : ofBusNSizeCells fuel s np = some (fdtBusNCells b off "#size-cells") :=
    hk' fuel (by omega)
  simp [ofBusDefaultCountCells, ha, hs, fdtBusDefaultCountCells]

/-! ### One bus -/

theorem walkRanges_returns {rone : ℤ} (addr ranges : ℕ → ℕ) (na ns pna : ℕ) (hrone : 0 < rone)
    (hfuel : rlen < fuel) :
    ∃ r, ∀ fuel' ≥ fuel,
      walkRanges (fun rlen rone => (rlen : ℤ) ≥ rone) addr na ns pna rone fuel' ranges rlen = some r := by
  induction fuel generalizing rlen ranges with
  | zero => omega
  | succ fuel ih =>
    by_cases hfit : (rlen : ℤ) ≥ rone
    · by_cases hbad : ofBusDefaultMap addr ranges na ns pna = OF_BAD_ADDR
      · obtain ⟨r, hr⟩ := @ih (rlen - rone.toNat) (fun i => ranges (rone.toNat + i)) (by omega)
        refine ⟨r, fun fuel' hge => ?_⟩
        obtain ⟨fuel', rfl⟩ := Nat.exists_eq_add_of_le' (Nat.one_le_of_lt hge)
        simp only [walkRanges, hfit, hbad]
        exact hr fuel' (by omega)
      · refine ⟨some (ranges, ofBusDefaultMap addr ranges na ns pna), fun fuel' hge => ?_⟩
        obtain ⟨fuel', rfl⟩ := Nat.exists_eq_add_of_le' (Nat.one_le_of_lt hge)
        simp [walkRanges, hfit, hbad]
    · refine ⟨none, fun fuel' hge => ?_⟩
      obtain ⟨fuel', rfl⟩ := Nat.exists_eq_add_of_le' (Nat.one_le_of_lt hge)
      simp [walkRanges, hfit]

theorem walkRanges_congr (fits fits' : ℕ → ℤ → Bool) {rone : ℤ}
    (h : ∀ rlen, fits rlen rone = fits' rlen rone) :
    walkRanges fits addr na ns pna rone fuel ranges rlen =
      walkRanges fits' addr na ns pna rone fuel ranges rlen := by
  induction fuel generalizing ranges rlen with
  | zero => rfl
  | succ fuel ih => simp only [walkRanges, h, ih]

theorem toInt_rone (hna : na ≤ 4) (hpna : pna ≤ 4) (hns : ns < 2 ^ 31 - 8) :
    toInt (na + pna + ns) = (na + pna + ns : ℕ) := by
  have hlt : na + pna + ns < 2 ^ 31 := by omega
  rw [toInt, Nat.mod_eq_of_lt (by omega), if_pos hlt]

theorem ofTranslateOne_eq {prop : Option (Bytes × ℕ)} (hna : na ≤ 4) (hpna : pna ≤ 4)
    (hns : ns < 2 ^ 31 - 8) :
    ofTranslateOne fuel prop addr na ns pna = fdtTranslateOne fuel prop addr na ns pna := by
  cases prop with
  | none => rfl
  | some vl =>
    obtain ⟨value, len⟩ := vl
    have hsum : na + pna + ns < 2 ^ 31 := by omega
    have hmod : ((na + pna + ns : ℕ) : ℤ) % 2 ^ 32 = (na + pna + ns : ℕ) :=
      Int.emod_eq_of_lt (by omega) (by omega)
    simp only [ofTranslateOne, fdtTranslateOne, translateOne, toInt_rone hna hpna hns]
    rw [walkRanges_congr (fun rlen rone => (rlen : ℤ) ≥ rone % 2 ^ 32) (fun rlen rone => rlen ≥ rone)
      fun rlen => by rw [hmod]]

theorem fdtTranslateOne_returns (prop : Option (Bytes × ℕ)) (addr : ℕ → ℕ) (hna : 0 < na ∧ na ≤ 4)
    (hpna : pna ≤ 4) (hns : ns < 2 ^ 31 - 8) :
    ∃ r, Returns (fun fuel => fdtTranslateOne fuel prop addr na ns pna) r := by
  cases prop with
  | none => exact ⟨none, 0, fun _ _ => rfl⟩
  | some vl =>
    obtain ⟨value, len⟩ := vl
    by_cases hlen : len = 0
    · refine ⟨some (ofBusDefaultTranslate (fun i => if i < pna then 0 else addr i)
        (ofReadNumber addr na) pna), 0, fun _ _ => ?_⟩
      simp [fdtTranslateOne, translateOne, hlen]
    · obtain ⟨r, hr⟩ := walkRanges_returns addr (cells value) na ns pna
        (by omega : (0 : ℤ) < (na + pna + ns : ℕ)) (Nat.lt_succ_self (len / 4))
      refine ⟨r.map fun found => ofBusDefaultTranslate
        (fun i => if i < pna then found.1 (na + i) else addr i) found.2 pna, len / 4 + 1,
        fun fuel hfuel => ?_⟩
      simp only [fdtTranslateOne, translateOne, hlen, if_false, toInt_rone hna.2 hpna hns]
      rw [hr fuel hfuel]
      rfl

/-! ### The way to the root -/

theorem ofCheckCounts_iff {na ns : ℤ} : ofCheckCounts na ns = true ↔ 0 < na ∧ na ≤ 4 ∧ 0 < ns := by
  rw [ofCheckCounts, decide_eq_true_eq]
  rfl

theorem translateLoop_eq {na ns : ℤ} (addr : ℕ → ℕ) (h : Mirrors b s off np) (hbuses : BusesKnown b off)
    (hcheck : ofCheckCounts na ns = true) (hns : ns < 2 ^ 31 - 8) :
    ∃ k r, ∀ fuel ≥ k, ∀ rounds ≥ k, ofTranslateLoop fuel s rounds np addr na ns = some r ∧
      fdtTranslateLoop fuel b rounds off addr na ns = some r := by
  induction h generalizing addr na ns with
  | @root np hprops hoff hnp =>
    refine ⟨1, ofReadNumber addr na.toNat, fun fuel _ rounds hrounds => ?_⟩
    obtain ⟨rounds, rfl⟩ := Nat.exists_eq_add_of_le' hrounds
    simp [ofTranslateLoop, fdtTranslateLoop, hoff, hnp]
  | @child off np off' np' hprops hoff hnp hm ih =>
    obtain ⟨haddr, hsize, hsmall⟩ := hbuses off' (.parent hoff)
    obtain ⟨k₁, hk₁⟩ := countCells_eq hm haddr hsize
    obtain ⟨k₂, hk₂⟩ := hprops "ranges"
    obtain ⟨hna, hna4, hns0⟩ := ofCheckCounts_iff.mp hcheck
    cases hpcheck : ofCheckCounts (fdtBusDefaultCountCells b off').1
        (fdtBusDefaultCountCells b off').2 with
    | false =>
      refine ⟨k₁ + 1, OF_BAD_ADDR, fun fuel hfuel rounds hrounds => ?_⟩
      obtain ⟨rounds, rfl⟩ := Nat.exists_eq_add_of_le' (Nat.one_le_of_lt hrounds)
      have hcount : ofBusDefaultCountCells fuel s np' = some (fdtBusDefaultCountCells b off') :=
        hk₁ fuel (by omega)
      simp [ofTranslateLoop, fdtTranslateLoop, hoff, hnp, hcount, hpcheck]
    | true =>
      obtain ⟨hpna, hpna4, hpns⟩ := ofCheckCounts_iff.mp hpcheck
      obtain ⟨one, k₃, hk₃⟩ := fdtTranslateOne_returns (b.fdtGetprop off "ranges") addr
        (by omega : 0 < na.toNat ∧ na.toNat ≤ 4)
        (by omega : (fdtBusDefaultCountCells b off').1.toNat ≤ 4)
        (by omega : ns.toNat < 2 ^ 31 - 8)
      have hcount : ∀ fuel ≥ k₁,
          ofBusDefaultCountCells fuel s np' = some (fdtBusDefaultCountCells b off') := hk₁
      have hget : ∀ fuel ≥ k₂, ofGetProperty fuel s np "ranges" =
          some (b.fdtGetprop off "ranges") := hk₂
      have hfdt : ∀ fuel ≥ k₃, fdtTranslateOne fuel (b.fdtGetprop off "ranges") addr na.toNat
          ns.toNat (fdtBusDefaultCountCells b off').1.toNat = some one := hk₃
      have hof : ∀ fuel ≥ k₃, ofTranslateOne fuel (b.fdtGetprop off "ranges") addr na.toNat
          ns.toNat (fdtBusDefaultCountCells b off').1.toNat = some one := by
        intro fuel hfuel
        rw [ofTranslateOne_eq (by omega) (by omega) (by omega), hfdt fuel hfuel]
      cases one with
      | none =>
        refine ⟨k₁ + k₂ + k₃ + 1, OF_BAD_ADDR, fun fuel hfuel rounds hrounds => ?_⟩
        obtain ⟨rounds, rfl⟩ := Nat.exists_eq_add_of_le' (Nat.one_le_of_lt hrounds)
        simp [ofTranslateLoop, fdtTranslateLoop, hoff, hnp, hcount fuel (by omega), hpcheck,
          hget fuel (by omega), hof fuel (by omega), hfdt fuel (by omega)]
      | some addr' =>
        obtain ⟨k₄, r, hr⟩ := ih addr' (fun bus hbus => hbuses bus (hbus.head hoff)) hpcheck
          hsmall
        refine ⟨k₁ + k₂ + k₃ + k₄ + 1, r, fun fuel hfuel rounds hrounds => ?_⟩
        obtain ⟨rounds, rfl⟩ := Nat.exists_eq_add_of_le' (Nat.one_le_of_lt hrounds)
        have hrest := hr fuel (by omega) rounds (by omega)
        simp only [ofTranslateLoop, fdtTranslateLoop, hoff, hnp, hcount fuel (by omega), hpcheck,
          hget fuel (by omega), hof fuel (by omega), hfdt fuel (by omega), Option.bind_some,
          Bool.true_eq_false, if_false]
        exact hrest

theorem ofGetProperty_chain {l : List ℕ} (name : String)
    (h : Lib.Chain .next s.link (.properties np) l) :
    Returns (fun fuel => ofGetProperty fuel s np name)
      ((l.find? fun p => (s.prop p).name = name).map fun p => ((s.prop p).value, (s.prop p).length)) := by
  refine ⟨l.length + 1, fun fuel hfuel => ?_⟩
  obtain ⟨xs, ys, rfl, hxs, hys, hwalk⟩ :=
    h.walk_eq (fun pp => (s.prop pp).name = name) (by omega : _ < fuel)
  have hfind : ((xs ++ ys).find? fun p => (s.prop p).name = name) = ys.head? := by
    rw [List.find?_append, List.find?_eq_none.mpr (by simpa using hxs), Option.none_or]
    cases ys with
    | nil => rfl
    | cons y ys => rw [List.find?_cons, hys y rfl, List.head?_cons]
  have hread : PropSlot.read s (Lib.locAfter .next (.properties np) xs) = ys.head? := h.read
  simp only [ofGetProperty, ofFindProperty, walkProps, hwalk, Option.map_some, hread, hfind]

/-- Four bytes that hold a small number. -/
def smallCell (n : ℕ) : Bytes := fun i => if i = 3 then n.toUInt8 else 0

/-- The root `0` with one address cell, a bus `1` with two, a bus `2` on it
without counts of its own and a device `3` on this. -/
def nestedBuses : DevTree where
  node n :=
    if n = 0 then { bareNode with properties := some 10, child := some 1, detached := false }
    else if n = 1 then
      { bareNode with properties := some 12, parent := some 0, child := some 2, detached := false }
    else if n = 2 then
      { bareNode with properties := some 15, parent := some 1, child := some 3, detached := false }
    else if n = 3 then { bareNode with properties := some 16, parent := some 2, detached := false }
    else bareNode
  prop p :=
    if p = 10 then ⟨"#address-cells", 4, smallCell 1, some 11⟩
    else if p = 11 then ⟨"#size-cells", 4, smallCell 1, none⟩
    else if p = 12 then ⟨"#address-cells", 4, smallCell 2, some 13⟩
    else if p = 13 then ⟨"#size-cells", 4, smallCell 1, some 14⟩
    else if p = 14 then ⟨"ranges", 0, smallCell 0, none⟩
    else if p = 15 then ⟨"ranges", 0, smallCell 0, some 17⟩
    else ⟨"reg", 8, fun i => if i = 3 then 1 else if i = 7 then 2 else 0, none⟩
  root := some 0
  phandleCache _ := none

/-- The same tree as a blob. -/
def nestedBusesBlob : Blob where
  fdtGetprop off name :=
    let l := if off = 0 then [10, 11] else if off = 1 then [12, 13, 14] else
      if off = 2 then [15, 17] else if off = 3 then [16] else []
    (l.find? fun p => (nestedBuses.prop p).name = name).map fun p =>
      ((nestedBuses.prop p).value, (nestedBuses.prop p).length)
  fdtParentOffset off := if off = 0 then none else some (off - 1)
  root := 0

theorem nestedBuses_mirrors_root : Mirrors nestedBusesBlob nestedBuses 0 0 :=
  .root (fun name => ofGetProperty_chain (l := [10, 11]) name ⟨rfl, rfl, rfl⟩) rfl rfl

theorem nestedBuses_mirrors_outer : Mirrors nestedBusesBlob nestedBuses 1 1 :=
  .child (fun name => ofGetProperty_chain (l := [12, 13, 14]) name ⟨rfl, rfl, rfl, rfl⟩) rfl rfl
    nestedBuses_mirrors_root

theorem nestedBuses_mirrors_inner : Mirrors nestedBusesBlob nestedBuses 2 2 :=
  .child (fun name => ofGetProperty_chain (l := [15, 17]) name ⟨rfl, rfl, rfl⟩) rfl rfl
    nestedBuses_mirrors_outer

theorem nestedBuses_mirrors : Mirrors nestedBusesBlob nestedBuses 3 3 :=
  .child (fun name => ofGetProperty_chain (l := [16]) name ⟨rfl, rfl⟩) rfl rfl nestedBuses_mirrors_inner

theorem nestedBuses_known : BusesKnown nestedBusesBlob 2 := by
  have habove : ∀ bus, Above nestedBusesBlob 2 bus → bus = 0 ∨ bus = 1 := by
    intro bus h
    induction h with
    | parent h => exact .inr (Option.some.inj h).symm
    | trans _ h ih =>
      rcases ih with rfl | rfl
      · cases h
      · exact .inl (Option.some.inj h).symm
  intro bus hbus
  rcases habove bus hbus with rfl | rfl
  · exact ⟨le_refl 4, le_refl 4, by decide⟩
  · exact ⟨le_refl 4, le_refl 4, by decide⟩

theorem nestedBuses_count :
    Returns (fun fuel => ofBusDefaultCountCells fuel nestedBuses 2) (2, 1) := by
  have hmissing : ∀ name, nestedBusesBlob.fdtGetprop 2 name = none →
      Returns (fun fuel => ofGetProperty fuel nestedBuses 2 name) none := by
    intro name hnone
    have hchain : Lib.Chain .next nestedBuses.link (.properties 2) [15, 17] := ⟨rfl, rfl, rfl⟩
    exact hnone ▸ ofGetProperty_chain name hchain
  have haddr := ofBusNCells_parent (hmissing "#address-cells" rfl) rfl
    (ofBusNCells_eq nestedBuses_mirrors_outer (le_refl 4))
  have hsize := ofBusNCells_parent (hmissing "#size-cells" rfl) rfl
    (ofBusNCells_eq nestedBuses_mirrors_outer (le_refl 4))
  obtain ⟨k, hk⟩ := haddr
  obtain ⟨k', hk'⟩ := hsize
  refine ⟨max k k', fun fuel hfuel => ?_⟩
  have ha : ofBusNAddrCells fuel nestedBuses 2 =
      some (fdtBusNCells nestedBusesBlob 1 "#address-cells") := hk fuel (by omega)
  have hs : ofBusNSizeCells fuel nestedBuses 2 =
      some (fdtBusNCells nestedBusesBlob 1 "#size-cells") := hk' fuel (by omega)
  have hvalues : fdtBusNCells nestedBusesBlob 1 "#address-cells" = 2 ∧
      fdtBusNCells nestedBusesBlob 1 "#size-cells" = 1 := by decide
  simp [ofBusDefaultCountCells, ha, hs, hvalues]

theorem nestedBuses_flat :
    fdtTranslateLoop fuel nestedBusesBlob (fuel + 3) 2 (cells (nestedBuses.prop 16).value) 2 1 =
      some 2 := by
  have hparent : nestedBusesBlob.fdtParentOffset 2 = some 1 ∧
      nestedBusesBlob.fdtParentOffset 1 = some 0 ∧ nestedBusesBlob.fdtParentOffset 0 = none :=
    ⟨rfl, rfl, rfl⟩
  have hcounts : fdtBusDefaultCountCells nestedBusesBlob 1 = (2, 1) ∧
      fdtBusDefaultCountCells nestedBusesBlob 0 = (1, 1) := by decide
  have hranges : nestedBusesBlob.fdtGetprop 2 "ranges" = some (smallCell 0, 0) ∧
      nestedBusesBlob.fdtGetprop 1 "ranges" = some (smallCell 0, 0) := ⟨rfl, rfl⟩
  simp only [fdtTranslateLoop, hparent, hcounts, hranges, fdtTranslateOne, translateOne,
    Option.bind_some, if_true]
  decide

end GfpDrivers.Of
