import Mathlib.Data.List.Induction
import Mathlib.Data.List.Perm.Basic
import GfpDrivers.Pci.ConfigSpace

/-!
The emulated bridge honours the attributes of its registers, over every sequence of
writes, in all bits but one. The bit is the lowest of the secondary latency timer,
which the mask of the bus numbers makes writable.
-/

namespace GfpDrivers.Pci

variable {bridge : PciBridgeEmul} {reg : ℕ} {value : BitVec 32} {m : PciBridgeRegBehavior} {j : ℕ}
  {ws : List (Access × BitVec 32)}

/-! ### Word writes and byte writes -/

/-- The four byte writes of a word, in some order of the bytes. -/
def byteWrites (reg : ℕ) (value : BitVec 32) (order : List ℕ) : List (Access × BitVec 32) :=
  order.map fun k => (⟨reg + k, 1, .inl rfl, Nat.one_dvd _⟩, (value >>> (8 * k)) &&& 0xff)

theorem run_append (ws' : List (Access × BitVec 32)) : run bridge (ws ++ ws') = run (run bridge ws) ws' :=
  List.foldl_append

/-- Writes to one register that is not in memory do nothing. -/
theorem run_of_masks_none (h : bridge.masks reg = none) (hws : ∀ w ∈ ws, w.1.reg = reg) : run bridge ws = bridge := by
  induction ws with
  | nil => rfl
  | cons w ws ih =>
    rw [List.forall_mem_cons] at hws
    have hnone : bridge.masks (w.1.pos / 4 * 4) = none := by
      rw [← h, ← hws.1]
      rfl
    rw [run, List.foldl_cons, confWrite_none hnone]
    exact ih hws.2

/-- Writes to one register in memory change this register only, and it holds what
it reads. -/
theorem run_of_masks_some (h : bridge.masks reg = some m) (hws : ∀ w ∈ ws, w.1.reg = reg) (hne : ws ≠ []) :
    run bridge ws = bridge.store reg ((run bridge ws).word reg) := by
  have hstored : ∃ x, run bridge ws = bridge.store reg x ∧ x &&& m.declared = x := by
    induction ws using List.reverseRecOn with
    | nil => exact absurd rfl hne
    | append_singleton ws w ih =>
      have hw : w.1.reg = reg := hws w (by simp)
      have hmasks : (run bridge ws).masks (w.1.pos / 4 * 4) = some m := by
        rw [(run_sameKind ws).masks, ← h, ← hw]
        rfl
      obtain ⟨mask, hmask, -⟩ := accessMask_covers w.1
      have hself : ∀ j, (((run bridge ws).word reg).getLsbD j && m.declared.getLsbD j) =
          ((run bridge ws).word reg).getLsbD j :=
        fun j => (PciBridgeEmul.word_declared (((run_sameKind ws).masks reg).trans h)).symm
      rw [run_append]
      refine ⟨mergeWrite m mask ((run bridge ws).word reg) (w.2 <<< (w.1.pos % 4 * 8)), ?_, ?_⟩
      · change (pciBridgeEmulConfWrite (run bridge ws) w.1.pos w.1.size w.2).1 = _
        rw [confWrite_some hmasks hmask]
        change (run bridge ws).store w.1.reg (mergeWrite m mask ((run bridge ws).word w.1.reg) _) = _
        rw [hw]
        cases ws with
        | nil => rfl
        | cons w' ws =>
          obtain ⟨x, hx, -⟩ := ih (fun v hv => hws v (List.mem_append_left _ hv)) (by simp)
          rw [hx, PciBridgeEmul.store_store]
      · refine BitVec.eq_of_getLsbD_eq fun j hj => ?_
        rw [BitVec.getLsbD_and, mergeWrite_bit _ _ _ hj]
        split
        · exact bitWrite_declared _ _ (hself j)
        · exact hself j
  obtain ⟨x, hx, hdeclared⟩ := hstored
  rw [hx, PciBridgeEmul.word_store_self h, hdeclared]

theorem written_byteWrites (hreg : 4 ∣ reg) (hj : j < 32) {order : List ℕ} (horder : order.Perm [0, 1, 2, 3]) :
    written (byteWrites reg value order) reg j = [value.getLsbD j] := by
  have hff : ∀ i < 8, (0xff : BitVec 32).getLsbD i = true := by decide
  have hwritten : ∀ order : List ℕ, (∀ k ∈ order, k < 4) → written (byteWrites reg value order) reg j =
      order.filterMap fun k => if j / 8 = k then some (value.getLsbD j) else none := by
    intro order hlt
    rw [written, byteWrites, List.filterMap_map]
    refine List.filterMap_congr fun k hk => ?_
    have hk := hlt k hk
    have hpos : (reg + k) / 4 * 4 = reg ∧ (reg + k) % 4 = k := by omega
    simp only [Function.comp_apply, Access.covers, Access.reg, Access.shift, hpos.1, hpos.2, beq_self_eq_true,
      true_and, Bool.and_eq_true, decide_eq_true_eq]
    by_cases heq : j / 8 = k
    · rw [if_pos (by omega), if_pos heq, BitVec.getLsbD_and, hff _ (by omega), Bool.and_true,
        BitVec.getLsbD_ushiftRight, show 8 * k + (j - k * 8) = j by omega]
    · rw [if_neg (by omega), if_neg heq]
  have hperm : ((order.filterMap fun k => if j / 8 = k then some (value.getLsbD j) else none)).Perm
      [value.getLsbD j] := by
    refine (horder.filterMap _).trans (List.Perm.of_eq ?_)
    have hbyte : j / 8 < 4 := by omega
    generalize j / 8 = b at hbyte
    obtain rfl | rfl | rfl | rfl : b = 0 ∨ b = 1 ∨ b = 2 ∨ b = 3 := by omega
    all_goals rfl
  rw [hwritten order fun k hk => by
    have := horder.subset hk
    simp at this
    omega]
  exact List.perm_singleton.mp hperm

/-- A word write has the effect of its four byte writes, in any order. -/
theorem run_byteWrites (bridge : PciBridgeEmul) (value : BitVec 32) (hreg : 4 ∣ reg) {order : List ℕ}
    (horder : order.Perm [0, 1, 2, 3]) :
    run bridge (byteWrites reg value order) = (pciBridgeEmulConfWrite bridge reg 4 value).1 := by
  let word : List (Access × BitVec 32) := [(⟨reg, 4, .inr (.inr rfl), hreg⟩, value)]
  change _ = run bridge word
  have hword : ∀ w ∈ word, w.1.reg = reg := by
    intro w hw
    rw [List.mem_singleton.mp hw]
    exact Nat.div_mul_cancel hreg
  have hbytes : ∀ w ∈ byteWrites reg value order, w.1.reg = reg := by
    intro w hw
    obtain ⟨k, hk, rfl⟩ := List.mem_map.mp hw
    have hlt : k < 4 := by
      have := horder.subset hk
      simp at this
      omega
    change (reg + k) / 4 * 4 = reg
    omega
  cases hmasks : bridge.masks reg with
  | none => rw [run_of_masks_none hmasks hword, run_of_masks_none hmasks hbytes]
  | some m =>
    have hne : byteWrites reg value order ≠ [] := by
      intro hnil
      have hlen := horder.length_eq
      rw [List.map_eq_nil_iff.mp hnil] at hlen
      simp at hlen
    rw [run_of_masks_some hmasks hword (by simp [word]), run_of_masks_some hmasks hbytes hne]
    refine congrArg (bridge.store reg) (BitVec.eq_of_getLsbD_eq fun j hj => ?_)
    have hsingle : written word reg j = [value.getLsbD j] := by
      have hmod : reg % 4 = 0 := Nat.mod_eq_zero_of_dvd hreg
      have hdiv : reg / 4 * 4 = reg := Nat.div_mul_cancel hreg
      simp [written, word, Access.covers, Access.reg, Access.shift, hmod, hdiv, hj]
    rw [word_run _ hreg hj, word_run _ hreg hj, hmasks, written_byteWrites hreg hj horder, hsingle]

/-! ### Attributes over a run -/

theorem foldl_last (initial : Bool) (writes : List Bool) :
    writes.foldl (fun _ v => v) initial = writes.getLast?.getD initial := by
  induction writes using List.reverseRecOn with
  | nil => rfl
  | append_singleton writes v _ => simp

/-- A bit with one attribute behaves as the attribute says. -/
theorem foldl_bitWrite {a : Attr} (hgives : m.Gives j a) {initial : Bool}
    (hinitial : (initial && m.declared.getLsbD j) = initial) (writes : List Bool) :
    writes.foldl (m.bitWrite j) initial = a.after initial writes := by
  obtain ⟨hro, hrw, hw1c⟩ := hgives
  rw [PciBridgeRegBehavior.declared, BitVec.getLsbD_or, BitVec.getLsbD_or, hro, hrw, hw1c] at hinitial
  cases a with
  | reserved =>
    have hkeep : m.bitWrite j = fun old _ => old := by
      funext old v
      simp [PciBridgeRegBehavior.bitWrite, hrw, hw1c]
    have hfalse : initial = false := by simpa using hinitial.symm
    rw [hkeep, List.foldl_fixed, hfalse]
    rfl
  | ro =>
    have hkeep : m.bitWrite j = fun old _ => old := by
      funext old v
      simp [PciBridgeRegBehavior.bitWrite, hrw, hw1c]
    rw [hkeep, List.foldl_fixed]
    rfl
  | rw =>
    have hset : m.bitWrite j = fun _ v => v := by
      funext old v
      simp [PciBridgeRegBehavior.bitWrite, hrw, hw1c]
    exact hset ▸ foldl_last initial writes
  | w1c =>
    have hclear : m.bitWrite j = fun old v => old && !v := by
      funext old v
      simp [PciBridgeRegBehavior.bitWrite, hrw, hw1c]
    rw [hclear]
    clear hinitial
    induction writes generalizing initial with
    | nil => simp [Attr.after]
    | cons v writes ih =>
      rw [List.foldl_cons, ih]
      cases v <;> simp [Attr.after]

/-- A bridge as `pci_bridge_emul_init` leaves it. -/
structure Initialised (bridge : PciBridgeEmul) (noPrefmem noIo : Bool) : Prop where
  behavior : bridge.pciRegsBehavior = initBehavior bridge.hasPcie noPrefmem noIo
  capBehavior : bridge.hasPcie = true → bridge.pcieCapRegsBehavior = pcieCapRegsBehavior

theorem pciBridgeEmulInit_initialised {alloc : Bool × Bool} {flags : BitVec 32} {raw : PciBridgeEmul}
    (h : pciBridgeEmulInit alloc flags raw = .ok bridge) :
    Initialised bridge (flags &&& bit 0 ≠ 0) (flags &&& bit 1 ≠ 0) := by
  unfold pciBridgeEmulInit at h
  dsimp only at h
  by_cases hregs : alloc.1 = false
  · rw [if_pos hregs] at h
    cases h
  · rw [if_neg hregs] at h
    by_cases hpcie : raw.hasPcie = true
    · rw [if_pos hpcie] at h
      by_cases hcap : alloc.2 = false
      · rw [if_pos hcap] at h
        cases h
      · rw [if_neg hcap] at h
        cases h
        refine ⟨?_, fun _ => rfl⟩
        simp only [initFlags, initPcie, initBehavior, hpcie, if_true, decide_eq_true_eq]
    · rw [if_neg hpcie] at h
      cases h
      refine ⟨?_, fun hpcie' => absurd hpcie' hpcie⟩
      simp only [initFlags, initBehavior, hpcie, decide_eq_true_eq]
      rfl

/-- The masks of a register in memory are those of its layout, with the lowest bit
of the secondary latency timer writable in addition. -/
theorem Initialised.follows {noPrefmem noIo : Bool} (h : Initialised bridge noPrefmem noIo)
    (hmasks : bridge.masks reg = some m) (hreg : 4 ∣ reg) :
    ∃ l : Layout, m.Follows l (if reg = 0x18 then bit 24 else 0) ∧
      ∀ j, attrAt bridge noPrefmem noIo reg j = l.attr j := by
  unfold PciBridgeEmul.masks at hmasks
  unfold attrAt
  by_cases hconf : reg < PCI_BRIDGE_CONF_END
  · rw [if_pos hconf, Option.some.injEq, h.behavior] at hmasks
    have hlt : reg / 4 < 16 := by
      unfold PCI_BRIDGE_CONF_END at hconf
      omega
    have hfollows := initBehavior_follows bridge.hasPcie noPrefmem noIo (reg / 4) hlt
    have hsix : reg / 4 = 6 ↔ reg = 0x18 := by omega
    rw [hmasks] at hfollows
    simp only [hsix] at hfollows
    exact ⟨_, hfollows, fun j => if_pos hconf⟩
  · rw [if_neg hconf] at hmasks
    by_cases hcap : PCI_CAP_PCIE_START ≤ reg ∧ reg < PCI_CAP_PCIE_END ∧ bridge.hasPcie = true
    · have hssid : ¬(reg < PCI_CAP_SSID_END ∧ bridge.subsystemVendorId ≠ 0) :=
        fun hlt => Nat.not_lt.mpr hcap.1 hlt.1
      rw [if_pos hcap, Option.some.injEq, h.capBehavior hcap.2.2] at hmasks
      have hlt : (reg - PCI_CAP_PCIE_START) / 4 < 15 := by
        have := hcap.2.1
        unfold PCI_CAP_PCIE_START PCI_CAP_PCIE_END at *
        omega
      have hne : reg ≠ 0x18 := by
        have := hcap.1
        unfold PCI_CAP_PCIE_START at this
        omega
      refine ⟨pcieCapLayout ((reg - PCI_CAP_PCIE_START) / 4), ?_, fun j => ?_⟩
      · rw [if_neg hne, ← hmasks]
        exact pcieCapRegsBehavior_follows _ hlt
      · rw [if_neg hconf, if_neg hssid, if_pos hcap]
    · rw [if_neg hcap] at hmasks
      cases hmasks

/-- A register that is not in memory always reads the same. -/
theorem attrAt_of_masks_none {noPrefmem noIo : Bool} (hmasks : bridge.masks reg = none) (writes : List Bool) :
    (attrAt bridge noPrefmem noIo reg j).after ((bridge.word reg).getLsbD j) writes = (bridge.word reg).getLsbD j := by
  unfold PciBridgeEmul.masks at hmasks
  unfold attrAt PciBridgeEmul.word
  by_cases hconf : reg < PCI_BRIDGE_CONF_END
  · rw [if_pos hconf] at hmasks
    cases hmasks
  · rw [if_neg hconf] at hmasks
    by_cases hcap : PCI_CAP_PCIE_START ≤ reg ∧ reg < PCI_CAP_PCIE_END ∧ bridge.hasPcie = true
    · rw [if_pos hcap] at hmasks
      cases hmasks
    · simp only [if_neg hconf, if_neg hcap]
      by_cases hssid : reg < PCI_CAP_SSID_END ∧ bridge.subsystemVendorId ≠ 0
      · simp only [if_pos hssid, Attr.after]
      · simp only [if_neg hssid, Attr.after]
        exact BitVec.getLsbD_zero.symm

/-- After the writes `ws`, every bit of every access reads what its attribute says,
and a word can be written byte by byte. -/
structure Honours (bridge : PciBridgeEmul) (noPrefmem noIo : Bool) (ws : List (Access × BitVec 32)) : Prop where
  bits : ∀ (a : Access) (i : ℕ), i < 8 * a.size →
    (pciBridgeEmulConfRead (run bridge ws) a.pos a.size).1.getLsbD i =
      (attrAt bridge noPrefmem noIo a.reg (a.shift + i)).after
        ((pciBridgeEmulConfRead bridge a.pos a.size).1.getLsbD i) (written ws a.reg (a.shift + i))
  bytes : ∀ (reg : ℕ) (value : BitVec 32) (order : List ℕ), 4 ∣ reg → order.Perm [0, 1, 2, 3] →
    run (run bridge ws) (byteWrites reg value order) = (pciBridgeEmulConfWrite (run bridge ws) reg 4 value).1

/-- The lowest bit of the secondary latency timer. -/
def PciBridgeEmul.latencyBit (bridge : PciBridgeEmul) : Bool := (bridge.conf 6).getLsbD 24

/-- All writes to the secondary latency timer leave its lowest bit as it was in the
beginning, which is `0` on a PCIe bridge. -/
def LatencyKept (bridge : PciBridgeEmul) (ws : List (Access × BitVec 32)) : Prop :=
  (bridge.hasPcie = true → bridge.latencyBit = false) ∧ ∀ v ∈ written ws 0x18 24, v = bridge.latencyBit

variable {noPrefmem noIo : Bool}

/-- All bits but the one behave as their attributes say. -/
theorem Initialised.word_run_after (h : Initialised bridge noPrefmem noIo) (ws : List (Access × BitVec 32))
    (hreg : 4 ∣ reg) (hj : j < 32) (hne : ¬(reg = 0x18 ∧ j = 24)) :
    ((run bridge ws).word reg).getLsbD j =
      (attrAt bridge noPrefmem noIo reg j).after ((bridge.word reg).getLsbD j) (written ws reg j) := by
  rw [word_run ws hreg hj]
  cases hmasks : bridge.masks reg with
  | none => exact (attrAt_of_masks_none hmasks _).symm
  | some m =>
    obtain ⟨l, hfollows, hattr⟩ := h.follows hmasks hreg
    have hextra : (if reg = 0x18 then bit 24 else 0).getLsbD j = false := by
      have hbit : ∀ j < 32, j ≠ 24 → (bit 24).getLsbD j = false := by decide
      split
      · exact hbit j hj fun h24 => hne ⟨‹_›, h24⟩
      · exact BitVec.getLsbD_zero
    rw [hattr j]
    exact foldl_bitWrite (hfollows.gives hextra) (PciBridgeEmul.word_declared hmasks).symm _

theorem Initialised.word_run_latency (h : Initialised bridge noPrefmem noIo) (ws : List (Access × BitVec 32)) :
    ((run bridge ws).word 0x18).getLsbD 24 = (written ws 0x18 24).getLast?.getD bridge.latencyBit := by
  have hmasks : bridge.masks 0x18 = some (bridge.pciRegsBehavior 6) := rfl
  obtain ⟨hrw, hw1c⟩ := initBehavior_latency bridge.hasPcie noPrefmem noIo
  rw [← h.behavior] at hrw hw1c
  have hinitial : (bridge.word 0x18).getLsbD 24 = bridge.latencyBit := by
    change (bridge.conf 6 &&& (bridge.pciRegsBehavior 6).declared).getLsbD 24 = (bridge.conf 6).getLsbD 24
    rw [PciBridgeRegBehavior.declared, BitVec.getLsbD_and, BitVec.getLsbD_or, BitVec.getLsbD_or, hrw]
    simp
  have hset : (bridge.pciRegsBehavior 6).bitWrite 24 = fun _ v => v := by
    funext old v
    rw [PciBridgeRegBehavior.bitWrite, hrw, hw1c]
    simp
  rw [word_run ws (by decide) (by decide), hmasks]
  dsimp only
  rw [hset, foldl_last, hinitial]

theorem attrAt_latency (bridge : PciBridgeEmul) (noPrefmem noIo initial : Bool) (writes : List Bool) :
    (attrAt bridge noPrefmem noIo 0x18 24).after initial writes =
      if bridge.hasPcie = true then false else initial := by
  have hattr : ∀ pcie noPrefmem noIo, (bridgeLayout pcie noPrefmem noIo 6).attr 24 =
      if pcie = true then .reserved else .ro := by decide
  change ((bridgeLayout bridge.hasPcie noPrefmem noIo 6).attr 24).after initial writes = _
  rw [hattr]
  split <;> rfl

theorem exists_prefix_of_mem_written {v : Bool} (h : v ∈ written ws reg j) :
    ∃ ws', ws' <+: ws ∧ (written ws' reg j).getLast? = some v := by
  obtain ⟨w, hw, hv⟩ := List.mem_filterMap.mp h
  obtain ⟨front, rest, rfl⟩ := List.append_of_mem hw
  refine ⟨front ++ [w], ⟨rest, by simp⟩, ?_⟩
  simp [written, List.filterMap_append, hv]

theorem written_mono {ws' : List (Access × BitVec 32)} (h : ws' <+: ws) :
    ∀ v ∈ written ws' reg j, v ∈ written ws reg j :=
  fun _ hv => (h.filterMap _).subset hv

/-- The access to the bus numbers and the secondary latency timer. -/
def busAccess : Access := ⟨0x18, 4, .inr (.inr rfl), by decide⟩

/-- A bridge before its initialisation. -/
def blankBridge : PciBridgeEmul where
  conf := fun _ => 0
  pcieConf := fun _ => 0
  pciRegsBehavior := fun _ => {}
  pcieCapRegsBehavior := fun _ => {}
  hasPcie := false
  subsystemVendorId := 0
  subsystemId := 0

/-- Bus numbers are set, with the latency timer left at `0`. -/
def busNumbers : List (Access × BitVec 32) := [(busAccess, 0x00020100)]

/-- A write to the secondary latency timer. -/
def latencyWrite : List (Access × BitVec 32) := [(⟨0x1b, 1, .inl rfl, by decide⟩, 1)]

end GfpDrivers.Pci
