import GfpDrivers.Pci.Attributes

/-!
Any sequence of writes to the configuration space of an emulated bridge, bit by
bit. What a register reads after a write depends only on what it read before, so
that each bit is a small machine of its own: the values written to it are taken in
one after another, in the way its masks say.
-/

namespace GfpDrivers.Pci

open Function

/-! ### Accesses -/

/-- An access of a valid size at a naturally aligned position. -/
structure Access where
  pos : ℕ
  size : ℕ
  valid : size = 1 ∨ size = 2 ∨ size = 4
  aligned : size ∣ pos

/-- The register of an access, and where in it the access starts. -/
def Access.reg (a : Access) : ℕ := a.pos / 4 * 4

def Access.shift (a : Access) : ℕ := a.pos % 4 * 8

def Access.covers (a : Access) (reg j : ℕ) : Bool :=
  a.reg == reg && (a.shift ≤ j && j < a.shift + 8 * a.size)

def run (bridge : PciBridgeEmul) (ws : List (Access × BitVec 32)) : PciBridgeEmul :=
  ws.foldl (fun b w => (pciBridgeEmulConfWrite b w.1.pos w.1.size w.2).1) bridge

/-- The values written to a bit of a register, in order. -/
def written (ws : List (Access × BitVec 32)) (reg j : ℕ) : List Bool :=
  ws.filterMap fun w => if w.1.covers reg j then some (w.2.getLsbD (j - w.1.shift)) else none

/-- The attribute of a bit of a register of the configuration space. -/
def attrAt (bridge : PciBridgeEmul) (noPrefmem noIo : Bool) (reg j : ℕ) : Attr :=
  if reg < PCI_BRIDGE_CONF_END then (bridgeLayout bridge.hasPcie noPrefmem noIo (reg / 4)).attr j
  else if reg < PCI_CAP_SSID_END ∧ bridge.subsystemVendorId ≠ 0 then .ro
  else if PCI_CAP_PCIE_START ≤ reg ∧ reg < PCI_CAP_PCIE_END ∧ bridge.hasPcie then
    (pcieCapLayout ((reg - PCI_CAP_PCIE_START) / 4)).attr j
  else .reserved

/-! ### Words -/

/-- What a register reads. -/
def PciBridgeEmul.word (bridge : PciBridgeEmul) (reg : ℕ) : BitVec 32 :=
  if reg < PCI_BRIDGE_CONF_END then bridge.conf (reg / 4) &&& (bridge.pciRegsBehavior (reg / 4)).declared
  else if reg < PCI_CAP_SSID_END ∧ bridge.subsystemVendorId ≠ 0 then
    pciBridgeEmulReadSsid bridge (reg - PCI_CAP_SSID_START)
  else if PCI_CAP_PCIE_START ≤ reg ∧ reg < PCI_CAP_PCIE_END ∧ bridge.hasPcie then
    bridge.pcieConf ((reg - PCI_CAP_PCIE_START) / 4) &&&
      (bridge.pcieCapRegsBehavior ((reg - PCI_CAP_PCIE_START) / 4)).declared
  else 0

/-- The masks of a register that is kept in memory. -/
def PciBridgeEmul.masks (bridge : PciBridgeEmul) (reg : ℕ) : Option PciBridgeRegBehavior :=
  if reg < PCI_BRIDGE_CONF_END then some (bridge.pciRegsBehavior (reg / 4))
  else if PCI_CAP_PCIE_START ≤ reg ∧ reg < PCI_CAP_PCIE_END ∧ bridge.hasPcie then
    some (bridge.pcieCapRegsBehavior ((reg - PCI_CAP_PCIE_START) / 4))
  else none

/-- Stores a register that is kept in memory. -/
def PciBridgeEmul.store (bridge : PciBridgeEmul) (reg : ℕ) (value : BitVec 32) : PciBridgeEmul :=
  if reg < PCI_BRIDGE_CONF_END then { bridge with conf := Function.update bridge.conf (reg / 4) value }
  else if PCI_CAP_PCIE_START ≤ reg ∧ reg < PCI_CAP_PCIE_END ∧ bridge.hasPcie then
    { bridge with pcieConf := Function.update bridge.pcieConf ((reg - PCI_CAP_PCIE_START) / 4) value }
  else bridge

variable {bridge : PciBridgeEmul} {reg reg' : ℕ} {value : BitVec 32} {m : PciBridgeRegBehavior} {j : ℕ}

/-- What does not change in the life of a bridge. -/
structure PciBridgeEmul.SameKind (b b' : PciBridgeEmul) : Prop where
  behavior : b'.pciRegsBehavior = b.pciRegsBehavior
  capBehavior : b'.pcieCapRegsBehavior = b.pcieCapRegsBehavior
  hasPcie : b'.hasPcie = b.hasPcie
  vendor : b'.subsystemVendorId = b.subsystemVendorId
  subsystem : b'.subsystemId = b.subsystemId

theorem PciBridgeEmul.SameKind.refl (b : PciBridgeEmul) : b.SameKind b := ⟨rfl, rfl, rfl, rfl, rfl⟩

theorem PciBridgeEmul.store_sameKind : bridge.SameKind (bridge.store reg value) := by
  unfold PciBridgeEmul.store
  split
  · exact ⟨rfl, rfl, rfl, rfl, rfl⟩
  · split
    · exact ⟨rfl, rfl, rfl, rfl, rfl⟩
    · exact .refl _

theorem PciBridgeEmul.SameKind.masks {b b' : PciBridgeEmul} (h : b.SameKind b') (reg : ℕ) :
    b'.masks reg = b.masks reg := by
  simp only [PciBridgeEmul.masks, h.behavior, h.capBehavior, h.hasPcie]

/-- The part of a register that an access of this size reads. -/
def sizedValue (pos size : ℕ) (value : BitVec 32) : BitVec 32 :=
  if size = 1 then (value >>> (8 * (pos % 4))) &&& 0xff
  else if size = 2 then (value >>> (8 * (pos % 4))) &&& 0xffff
  else value

theorem sizedValue_zero (pos size : ℕ) : sizedValue pos size 0 = 0 := by
  unfold sizedValue
  split_ifs <;> simp

theorem confRead_value (pos size : ℕ) :
    (pciBridgeEmulConfRead bridge pos size).1 = sizedValue pos size (bridge.word (pos / 4 * 4)) := by
  have hsized : ∀ value : BitVec 32, (if size = 1 then ((value >>> (8 * (pos % 4))) &&& 0xff, PCIBIOS_SUCCESSFUL)
      else if size = 2 then ((value >>> (8 * (pos % 4))) &&& 0xffff, PCIBIOS_SUCCESSFUL)
      else if size ≠ 4 then (value, PCIBIOS_BAD_REGISTER_NUMBER)
      else (value, PCIBIOS_SUCCESSFUL)).1 = sizedValue pos size value := by
    intro value
    unfold sizedValue
    split_ifs <;> rfl
  unfold pciBridgeEmulConfRead PciBridgeEmul.word
  dsimp only
  by_cases hconf : pos / 4 * 4 < PCI_BRIDGE_CONF_END
  · rw [if_pos hconf, if_pos hconf, hsized]
  · have hstart : PCI_CAP_SSID_START ≤ pos / 4 * 4 := Nat.le_of_not_lt hconf
    rw [if_neg hconf, if_neg hconf]
    simp only [hstart, true_and]
    by_cases hssid : pos / 4 * 4 < PCI_CAP_SSID_END ∧ bridge.subsystemVendorId ≠ 0
    · rw [if_pos hssid, if_pos hssid, hsized]
    · rw [if_neg hssid, if_neg hssid]
      by_cases hcap : PCI_CAP_PCIE_START ≤ pos / 4 * 4 ∧ pos / 4 * 4 < PCI_CAP_PCIE_END ∧ bridge.hasPcie
      · rw [if_pos hcap, if_pos hcap, hsized]
      · rw [if_neg hcap, if_neg hcap]
        by_cases hext : PCI_CFG_SPACE_SIZE ≤ pos / 4 * 4 ∧ bridge.hasPcie
        · rw [if_pos hext, hsized]
        · rw [if_neg hext, sizedValue_zero]

theorem confRead_word (hreg : 4 ∣ reg) : (pciBridgeEmulConfRead bridge reg 4).1 = bridge.word reg := by
  rw [confRead_value, Nat.div_mul_cancel hreg]
  rfl

theorem confRead_bit (a : Access) {i : ℕ} (hi : i < 8 * a.size) :
    (pciBridgeEmulConfRead bridge a.pos a.size).1.getLsbD i = (bridge.word a.reg).getLsbD (a.shift + i) := by
  have h8 : ∀ i < 8, (0xff : BitVec 32).getLsbD i = true := by decide
  have h16 : ∀ i < 16, (0xffff : BitVec 32).getLsbD i = true := by decide
  have haligned := a.aligned
  rw [confRead_value, sizedValue, Access.reg, Access.shift, Nat.mul_comm _ 8]
  obtain hsize | hsize | hsize := a.valid
  · rw [if_pos hsize, BitVec.getLsbD_and, h8 i (by omega), Bool.and_true, BitVec.getLsbD_ushiftRight]
  · rw [if_neg (by omega), if_pos hsize, BitVec.getLsbD_and, h16 i (by omega), Bool.and_true,
      BitVec.getLsbD_ushiftRight]
  · have hzero : a.pos % 4 = 0 := Nat.mod_eq_zero_of_dvd (hsize ▸ haligned)
    rw [if_neg (by omega), if_neg (by omega), hzero, Nat.mul_zero, Nat.zero_add]

/-! ### Writes -/

/-- The lowest `n` bits, shifted. -/
theorem getLsbD_shiftLeft_low {x : BitVec 32} {n : ℕ} (hx : ∀ i < 32, x.getLsbD i = decide (i < n)) (s : ℕ)
    (hj : j < 32) : (x <<< s).getLsbD j = (decide (s ≤ j) && decide (j < s + n)) := by
  rw [BitVec.getLsbD_shiftLeft, hx _ (by omega), decide_eq_true hj, Bool.true_and]
  by_cases hle : s ≤ j
  · rw [decide_eq_true hle, decide_eq_false (by omega), Bool.not_false]
    exact congrArg (true && ·) (decide_eq_decide.mpr (by omega))
  · rw [decide_eq_false hle, decide_eq_true (by omega)]
    rfl

theorem accessMask_covers (a : Access) : ∃ mask, accessMask a.pos a.size = some mask ∧
    ∀ j < 32, mask.getLsbD j = a.covers a.reg j := by
  have haligned := a.aligned
  have hcovers : ∀ j, a.covers a.reg j =
      (decide (a.pos % 4 * 8 ≤ j) && decide (j < a.pos % 4 * 8 + 8 * a.size)) := by
    intro j
    rw [Access.covers, beq_self_eq_true, Bool.true_and]
    rfl
  simp only [hcovers]
  obtain hsize | hsize | hsize := a.valid
  · refine ⟨(0xff : BitVec 32) <<< (a.pos % 4 * 8), ?_, fun j hj => ?_⟩
    · rw [accessMask, if_neg (by omega), if_neg (by omega), if_pos hsize]
    · rw [getLsbD_shiftLeft_low (n := 8) (by decide) _ hj, hsize]
  · refine ⟨(0xffff : BitVec 32) <<< (a.pos % 4 * 8), ?_, fun j hj => ?_⟩
    · rw [accessMask, if_neg (by omega), if_pos hsize]
    · rw [getLsbD_shiftLeft_low (n := 16) (by decide) _ hj, hsize]
  · have hzero : a.pos % 4 = 0 := Nat.mod_eq_zero_of_dvd (hsize ▸ haligned)
    refine ⟨0xffffffff, ?_, fun j hj => ?_⟩
    · rw [accessMask, if_pos hsize]
    · have hall : ∀ j < 32, (0xffffffff : BitVec 32).getLsbD j = true := by decide
      rw [hall j hj, hzero, hsize, decide_eq_true (by omega), decide_eq_true (by omega)]
      rfl

theorem Access.dvd_reg (a : Access) : 4 ∣ a.reg := Nat.dvd_mul_left ..

theorem confWrite_none {pos size : ℕ} (h : bridge.masks (pos / 4 * 4) = none) :
    (pciBridgeEmulConfWrite bridge pos size value).1 = bridge := by
  unfold PciBridgeEmul.masks at h
  by_cases hconf : pos / 4 * 4 < PCI_BRIDGE_CONF_END
  · rw [if_pos hconf] at h
    cases h
  · rw [if_neg hconf] at h
    by_cases hcap : PCI_CAP_PCIE_START ≤ pos / 4 * 4 ∧ pos / 4 * 4 < PCI_CAP_PCIE_END ∧ bridge.hasPcie = true
    · rw [if_pos hcap] at h
      cases h
    · unfold pciBridgeEmulConfWrite
      dsimp only
      rw [if_neg hconf, if_neg hcap]
      cases accessMask pos size <;> split <;> rfl

/-- A write to a register in memory stores the old word with what is written. -/
theorem confWrite_some {pos size : ℕ} (h : bridge.masks (pos / 4 * 4) = some m) {mask : BitVec 32}
    (hmask : accessMask pos size = some mask) :
    (pciBridgeEmulConfWrite bridge pos size value).1 =
      bridge.store (pos / 4 * 4) (mergeWrite m mask (bridge.word (pos / 4 * 4)) (value <<< (pos % 4 * 8))) := by
  unfold PciBridgeEmul.masks at h
  unfold pciBridgeEmulConfWrite PciBridgeEmul.store
  dsimp only
  rw [confRead_word (Nat.dvd_mul_left ..), hmask]
  by_cases hconf : pos / 4 * 4 < PCI_BRIDGE_CONF_END
  · rw [if_pos hconf, Option.some.injEq] at h
    rw [if_pos hconf, if_pos hconf, ← h]
  · rw [if_neg hconf] at h
    by_cases hcap : PCI_CAP_PCIE_START ≤ pos / 4 * 4 ∧ pos / 4 * 4 < PCI_CAP_PCIE_END ∧ bridge.hasPcie = true
    · rw [if_pos hcap, Option.some.injEq] at h
      rw [if_neg hconf, if_neg hconf, if_pos hcap, if_pos hcap, ← h]
    · rw [if_neg hcap] at h
      cases h

theorem PciBridgeEmul.word_store_self (h : bridge.masks reg = some m) :
    (bridge.store reg value).word reg = value &&& m.declared := by
  unfold PciBridgeEmul.masks at h
  unfold PciBridgeEmul.store PciBridgeEmul.word
  by_cases hconf : reg < PCI_BRIDGE_CONF_END
  · rw [if_pos hconf, Option.some.injEq] at h
    simp only [if_pos hconf, update_self, h]
  · rw [if_neg hconf] at h
    by_cases hcap : PCI_CAP_PCIE_START ≤ reg ∧ reg < PCI_CAP_PCIE_END ∧ bridge.hasPcie = true
    · have hssid : ¬reg < PCI_CAP_SSID_END := Nat.not_lt.mpr hcap.1
      rw [if_pos hcap, Option.some.injEq] at h
      simp only [if_neg hconf, hcap, hssid, if_true, if_false, false_and, and_self, update_self, h]
    · rw [if_neg hcap] at h
      cases h

theorem PciBridgeEmul.word_store_of_ne (hreg : 4 ∣ reg) (hreg' : 4 ∣ reg') (hne : reg' ≠ reg) :
    (bridge.store reg value).word reg' = bridge.word reg' := by
  have hidx : reg' / 4 ≠ reg / 4 := by omega
  unfold PciBridgeEmul.store
  by_cases hconf : reg < PCI_BRIDGE_CONF_END
  · rw [if_pos hconf]
    unfold PciBridgeEmul.word
    simp only [update_of_ne hidx]
    rfl
  · rw [if_neg hconf]
    by_cases hcap : PCI_CAP_PCIE_START ≤ reg ∧ reg < PCI_CAP_PCIE_END ∧ bridge.hasPcie = true
    · rw [if_pos hcap]
      unfold PciBridgeEmul.word
      by_cases hcap' : PCI_CAP_PCIE_START ≤ reg' ∧ reg' < PCI_CAP_PCIE_END ∧ bridge.hasPcie = true
      · have hidx' : (reg' - PCI_CAP_PCIE_START) / 4 ≠ (reg - PCI_CAP_PCIE_START) / 4 := by
          have := hcap.1
          have := hcap'.1
          unfold PCI_CAP_PCIE_START at *
          omega
        simp only [update_of_ne hidx']
        rfl
      · simp only [if_neg hcap']
        rfl
    · rw [if_neg hcap]

theorem PciBridgeEmul.store_store (x y : BitVec 32) : (bridge.store reg x).store reg y = bridge.store reg y := by
  unfold PciBridgeEmul.store
  by_cases hconf : reg < PCI_BRIDGE_CONF_END
  · simp only [if_pos hconf, update_idem]
  · by_cases hcap : PCI_CAP_PCIE_START ≤ reg ∧ reg < PCI_CAP_PCIE_END ∧ bridge.hasPcie = true
    · simp only [if_neg hconf, if_pos hcap, update_idem]
    · simp only [if_neg hconf, if_neg hcap]

/-! ### Bits -/

/-- A write of `v` to a bit. -/
def PciBridgeRegBehavior.bitWrite (m : PciBridgeRegBehavior) (j : ℕ) (old v : Bool) : Bool :=
  ((old && !m.rw.getLsbD j) || (v && m.rw.getLsbD j)) && !(v && m.w1c.getLsbD j)

theorem PciBridgeEmul.word_declared (h : bridge.masks reg = some m) :
    (bridge.word reg).getLsbD j = ((bridge.word reg).getLsbD j && m.declared.getLsbD j) := by
  rw [← BitVec.getLsbD_and]
  unfold PciBridgeEmul.masks at h
  unfold PciBridgeEmul.word
  by_cases hconf : reg < PCI_BRIDGE_CONF_END
  · rw [if_pos hconf, Option.some.injEq] at h
    rw [if_pos hconf, h, BitVec.and_assoc, BitVec.and_self]
  · rw [if_neg hconf] at h
    by_cases hcap : PCI_CAP_PCIE_START ≤ reg ∧ reg < PCI_CAP_PCIE_END ∧ bridge.hasPcie = true
    · have hssid : ¬(reg < PCI_CAP_SSID_END ∧ bridge.subsystemVendorId ≠ 0) :=
        fun hlt => Nat.not_lt.mpr hcap.1 hlt.1
      rw [if_pos hcap, Option.some.injEq] at h
      rw [if_neg hconf, if_neg hssid, if_pos hcap, h, BitVec.and_assoc, BitVec.and_self]
    · rw [if_neg hcap] at h
      cases h

theorem mergeWrite_bit (mask old value : BitVec 32) (hj : j < 32) :
    (mergeWrite m mask old value).getLsbD j =
      if mask.getLsbD j then m.bitWrite j (old.getLsbD j) (value.getLsbD j) else old.getLsbD j := by
  simp only [mergeWrite, BitVec.getLsbD_and, BitVec.getLsbD_or, BitVec.getLsbD_not, hj, decide_true, Bool.true_and,
    PciBridgeRegBehavior.bitWrite]
  cases mask.getLsbD j <;> simp

theorem bitWrite_declared (old v : Bool) (h : (old && m.declared.getLsbD j) = old) :
    (m.bitWrite j old v && m.declared.getLsbD j) = m.bitWrite j old v := by
  revert h
  simp only [PciBridgeRegBehavior.declared, BitVec.getLsbD_or, PciBridgeRegBehavior.bitWrite]
  cases m.ro.getLsbD j <;> cases m.rw.getLsbD j <;> cases m.w1c.getLsbD j <;> cases old <;> cases v <;> decide

theorem word_write (bridge : PciBridgeEmul) (a : Access) (value : BitVec 32) (hreg : 4 ∣ reg) (hj : j < 32) :
    ((pciBridgeEmulConfWrite bridge a.pos a.size value).1.word reg).getLsbD j =
      match bridge.masks reg with
      | none => (bridge.word reg).getLsbD j
      | some m =>
        if a.covers reg j then m.bitWrite j ((bridge.word reg).getLsbD j) (value.getLsbD (j - a.shift))
        else (bridge.word reg).getLsbD j := by
  by_cases heq : reg = a.reg
  · subst heq
    cases hmasks : bridge.masks a.reg with
    | none => rw [confWrite_none hmasks]
    | some m =>
      obtain ⟨mask, hmask, hbits⟩ := accessMask_covers a
      have hself := PciBridgeEmul.word_declared (j := j) hmasks
      have hvalue : a.covers a.reg j = true → (value <<< a.shift).getLsbD j = value.getLsbD (j - a.shift) := by
        intro hcovers
        rw [Access.covers, Bool.and_eq_true, Bool.and_eq_true, decide_eq_true_eq, decide_eq_true_eq] at hcovers
        rw [BitVec.getLsbD_shiftLeft, decide_eq_true hj, decide_eq_false (Nat.not_lt.mpr hcovers.2.1)]
        rfl
      rw [confWrite_some hmasks hmask]
      change ((bridge.store a.reg (mergeWrite m mask (bridge.word a.reg) (value <<< a.shift))).word a.reg).getLsbD j = _
      rw [PciBridgeEmul.word_store_self hmasks, BitVec.getLsbD_and, mergeWrite_bit _ _ _ hj, hbits j hj]
      dsimp only
      by_cases hcovers : a.covers a.reg j = true
      · rw [if_pos hcovers, if_pos hcovers, hvalue hcovers, bitWrite_declared _ _ hself.symm]
      · rw [if_neg hcovers, if_neg hcovers, ← hself]
  · have hother : a.covers reg j = false := by
      rw [Access.covers, beq_false_of_ne (Ne.symm heq), Bool.false_and]
    have hsame : (pciBridgeEmulConfWrite bridge a.pos a.size value).1.word reg = bridge.word reg := by
      cases hmasks : bridge.masks (a.pos / 4 * 4) with
      | none => rw [confWrite_none hmasks]
      | some m =>
        obtain ⟨mask, hmask, -⟩ := accessMask_covers a
        rw [confWrite_some hmasks hmask]
        exact PciBridgeEmul.word_store_of_ne a.dvd_reg hreg heq
    rw [hsame, hother]
    cases bridge.masks reg <;> rfl

theorem confWrite_sameKind (bridge : PciBridgeEmul) (a : Access) (value : BitVec 32) :
    bridge.SameKind (pciBridgeEmulConfWrite bridge a.pos a.size value).1 := by
  cases hmasks : bridge.masks (a.pos / 4 * 4) with
  | none =>
    rw [confWrite_none hmasks]
    exact .refl _
  | some m =>
    obtain ⟨mask, hmask, -⟩ := accessMask_covers a
    rw [confWrite_some hmasks hmask]
    exact PciBridgeEmul.store_sameKind

theorem PciBridgeEmul.SameKind.trans {b₁ b₂ b₃ : PciBridgeEmul} (h : b₁.SameKind b₂) (h' : b₂.SameKind b₃) :
    b₁.SameKind b₃ :=
  ⟨h'.behavior.trans h.behavior, h'.capBehavior.trans h.capBehavior, h'.hasPcie.trans h.hasPcie,
    h'.vendor.trans h.vendor, h'.subsystem.trans h.subsystem⟩

theorem run_sameKind (ws : List (Access × BitVec 32)) : bridge.SameKind (run bridge ws) := by
  induction ws generalizing bridge with
  | nil => exact .refl _
  | cons w ws ih => exact (confWrite_sameKind bridge w.1 w.2).trans ih

theorem written_cons (w : Access × BitVec 32) (ws : List (Access × BitVec 32)) (reg j : ℕ) :
    written (w :: ws) reg j =
      if w.1.covers reg j then w.2.getLsbD (j - w.1.shift) :: written ws reg j else written ws reg j := by
  unfold written
  by_cases hcovers : w.1.covers reg j = true
  · simp [hcovers]
  · simp [hcovers]

/-- A bit takes in what is written to it, one value after another. -/
theorem word_run (ws : List (Access × BitVec 32)) (hreg : 4 ∣ reg) (hj : j < 32) :
    ((run bridge ws).word reg).getLsbD j =
      match bridge.masks reg with
      | none => (bridge.word reg).getLsbD j
      | some m => (written ws reg j).foldl (m.bitWrite j) ((bridge.word reg).getLsbD j) := by
  induction ws generalizing bridge with
  | nil => cases bridge.masks reg <;> rfl
  | cons w ws ih =>
    have hstep := word_write bridge w.1 w.2 hreg hj
    have hmasks := (confWrite_sameKind bridge w.1 w.2).masks reg
    rw [run, List.foldl_cons]
    refine Eq.trans ih ?_
    rw [hmasks, hstep]
    cases bridge.masks reg with
    | none => rfl
    | some m =>
      dsimp only
      rw [written_cons]
      split <;> rfl

end GfpDrivers.Pci
