import GfpDrivers.Basic

/-!
The configuration space of an emulated PCI bridge (`pci-bridge-emul.c`). The space
is an array of 32-bit registers in memory. A table says of each register which
bits are read-only, read-write and write-1-to-clear; reads and writes are filtered
with it, and `pci_bridge_emul_init` edits it for the kind of bridge.

The bridge has no callbacks of a driver, so that every access is emulated.
-/

namespace GfpDrivers.Pci

/-! ### Registers -/

/-- `GENMASK` -/
def genmask (h l : ℕ) : BitVec 32 := (BitVec.allOnes 32 <<< l) &&& (BitVec.allOnes 32 >>> (31 - h))

/-- `BIT` -/
def bit (n : ℕ) : BitVec 32 := 1#32 <<< n

def PCI_COMMAND_IO : BitVec 32 := 0x1
def PCI_COMMAND_MEMORY : BitVec 32 := 0x2
def PCI_COMMAND_MASTER : BitVec 32 := 0x4
def PCI_COMMAND_SPECIAL : BitVec 32 := 0x8
def PCI_COMMAND_INVALIDATE : BitVec 32 := 0x10
def PCI_COMMAND_VGA_PALETTE : BitVec 32 := 0x20
def PCI_COMMAND_PARITY : BitVec 32 := 0x40
def PCI_COMMAND_WAIT : BitVec 32 := 0x80
def PCI_COMMAND_SERR : BitVec 32 := 0x100
def PCI_COMMAND_FAST_BACK : BitVec 32 := 0x200

def PCI_STATUS_CAP_LIST : BitVec 32 := 0x10
def PCI_STATUS_66MHZ : BitVec 32 := 0x20
def PCI_STATUS_FAST_BACK : BitVec 32 := 0x80
def PCI_STATUS_PARITY : BitVec 32 := 0x100
def PCI_STATUS_DEVSEL_MASK : BitVec 32 := 0x600
def PCI_STATUS_SIG_TARGET_ABORT : BitVec 32 := 0x800
def PCI_STATUS_REC_TARGET_ABORT : BitVec 32 := 0x1000
def PCI_STATUS_REC_MASTER_ABORT : BitVec 32 := 0x2000
def PCI_STATUS_SIG_SYSTEM_ERROR : BitVec 32 := 0x4000
def PCI_STATUS_DETECTED_PARITY : BitVec 32 := 0x8000
def PCI_STATUS_ERROR_BITS : BitVec 32 :=
  PCI_STATUS_DETECTED_PARITY ||| PCI_STATUS_SIG_SYSTEM_ERROR ||| PCI_STATUS_REC_MASTER_ABORT |||
    PCI_STATUS_REC_TARGET_ABORT ||| PCI_STATUS_SIG_TARGET_ABORT ||| PCI_STATUS_PARITY

def PCI_BRIDGE_CTL_PARITY : BitVec 32 := 0x01
def PCI_BRIDGE_CTL_SERR : BitVec 32 := 0x02
def PCI_BRIDGE_CTL_ISA : BitVec 32 := 0x04
def PCI_BRIDGE_CTL_VGA : BitVec 32 := 0x08
def PCI_BRIDGE_CTL_MASTER_ABORT : BitVec 32 := 0x20
def PCI_BRIDGE_CTL_BUS_RESET : BitVec 32 := 0x40
def PCI_BRIDGE_CTL_FAST_BACK : BitVec 32 := 0x80

def PCI_EXP_LNKCAP_CLKPM : BitVec 32 := 0x00040000
def PCI_EXP_SLTSTA_ABP : BitVec 32 := 0x0001
def PCI_EXP_SLTSTA_PFD : BitVec 32 := 0x0002
def PCI_EXP_SLTSTA_MRLSC : BitVec 32 := 0x0004
def PCI_EXP_SLTSTA_PDC : BitVec 32 := 0x0008
def PCI_EXP_SLTSTA_CC : BitVec 32 := 0x0010
def PCI_EXP_SLTSTA_MRLSS : BitVec 32 := 0x0020
def PCI_EXP_SLTSTA_PDS : BitVec 32 := 0x0040
def PCI_EXP_SLTSTA_EIS : BitVec 32 := 0x0080
def PCI_EXP_SLTSTA_DLLSC : BitVec 32 := 0x0100
def PCI_EXP_RTCTL_SECEE : BitVec 32 := 0x0001
def PCI_EXP_RTCTL_SENFEE : BitVec 32 := 0x0002
def PCI_EXP_RTCTL_SEFEE : BitVec 32 := 0x0004
def PCI_EXP_RTCTL_PMEIE : BitVec 32 := 0x0008
def PCI_EXP_RTCTL_CRSSVE : BitVec 32 := 0x0010
def PCI_EXP_RTCAP_CRSVIS : BitVec 32 := 0x0001
def PCI_EXP_RTSTA_PME : BitVec 32 := 0x00010000
def PCI_EXP_RTSTA_PENDING : BitVec 32 := 0x00020000

/-- `struct pci_bridge_reg_behavior` -/
structure PciBridgeRegBehavior where
  ro : BitVec 32 := 0
  rw : BitVec 32 := 0
  w1c : BitVec 32 := 0

/-- The bits that are not reserved. -/
def PciBridgeRegBehavior.declared (m : PciBridgeRegBehavior) : BitVec 32 := m.ro ||| m.rw ||| m.w1c

/-- The command bits and the bits of both status registers that a PCIe bridge does
not have. -/
def pciCommandBits : BitVec 32 :=
  PCI_COMMAND_SPECIAL ||| PCI_COMMAND_INVALIDATE ||| PCI_COMMAND_VGA_PALETTE ||| PCI_COMMAND_WAIT |||
    PCI_COMMAND_FAST_BACK

def pciStatusBits : BitVec 32 := PCI_STATUS_66MHZ ||| PCI_STATUS_FAST_BACK ||| PCI_STATUS_DEVSEL_MASK

/-- `pci_regs_behavior` -/
def pciRegsBehavior : ℕ → PciBridgeRegBehavior
  | 0 => { ro := ~~~0 }
  | 1 =>
      { rw := PCI_COMMAND_IO ||| PCI_COMMAND_MEMORY ||| PCI_COMMAND_MASTER ||| PCI_COMMAND_PARITY |||
          PCI_COMMAND_SERR
        ro := pciCommandBits ||| (PCI_STATUS_CAP_LIST ||| pciStatusBits) <<< 16
        w1c := PCI_STATUS_ERROR_BITS <<< 16 }
  | 2 => { ro := ~~~0 }
  | 3 => { ro := ~~~0 }
  | 4 => { ro := ~~~0 }
  | 5 => { ro := ~~~0 }
  -- PCI_PRIMARY_BUS
  | 6 => { rw := genmask 24 0, ro := genmask 31 24 }
  -- PCI_IO_BASE
  | 7 =>
      { rw := genmask 15 12 ||| genmask 7 4
        ro := pciStatusBits <<< 16 ||| genmask 11 8 ||| genmask 3 0
        w1c := PCI_STATUS_ERROR_BITS <<< 16 }
  -- PCI_MEMORY_BASE and PCI_PREF_MEMORY_BASE
  | 8 => { rw := genmask 31 20 ||| genmask 15 4, ro := genmask 19 16 ||| genmask 3 0 }
  | 9 => { rw := genmask 31 20 ||| genmask 15 4, ro := genmask 19 16 ||| genmask 3 0 }
  | 10 => { rw := ~~~0 }
  | 11 => { rw := ~~~0 }
  -- PCI_IO_BASE_UPPER16
  | 12 => { rw := ~~~0 }
  -- PCI_CAPABILITY_LIST
  | 13 => { ro := genmask 7 0 }
  -- PCI_ROM_ADDRESS1
  | 14 => { ro := ~~~0 }
  -- PCI_INTERRUPT_LINE
  | 15 =>
      { rw := genmask 7 0 |||
          (PCI_BRIDGE_CTL_PARITY ||| PCI_BRIDGE_CTL_SERR ||| PCI_BRIDGE_CTL_ISA ||| PCI_BRIDGE_CTL_VGA |||
            PCI_BRIDGE_CTL_MASTER_ABORT ||| PCI_BRIDGE_CTL_BUS_RESET ||| bit 8 ||| bit 9 ||| bit 11) <<< 16
        ro := genmask 15 8 ||| PCI_BRIDGE_CTL_FAST_BACK <<< 16
        w1c := bit 10 <<< 16 }
  | _ => {}

/-- `pcie_cap_regs_behavior` -/
def pcieCapRegsBehavior : ℕ → PciBridgeRegBehavior
  | 0 => { ro := genmask 30 0 }
  -- PCI_EXP_DEVCAP, PCI_EXP_DEVCTL
  | 1 => { ro := bit 15 ||| genmask 5 0 }
  | 2 => { rw := genmask 14 0, w1c := genmask 3 0 <<< 16, ro := genmask 5 4 <<< 16 }
  -- PCI_EXP_LNKCAP, PCI_EXP_LNKCTL
  | 3 => { ro := ~~~(bit 23 ||| PCI_EXP_LNKCAP_CLKPM) }
  | 4 =>
      { rw := genmask 15 14 ||| genmask 11 9 ||| genmask 7 3 ||| genmask 1 0
        ro := genmask 13 0 <<< 16
        w1c := genmask 15 14 <<< 16 }
  -- PCI_EXP_SLTCAP, PCI_EXP_SLTCTL
  | 5 => { ro := ~~~0 }
  | 6 =>
      { rw := genmask 14 0
        w1c := (PCI_EXP_SLTSTA_ABP ||| PCI_EXP_SLTSTA_PFD ||| PCI_EXP_SLTSTA_MRLSC ||| PCI_EXP_SLTSTA_PDC |||
          PCI_EXP_SLTSTA_CC ||| PCI_EXP_SLTSTA_DLLSC) <<< 16
        ro := (PCI_EXP_SLTSTA_MRLSS ||| PCI_EXP_SLTSTA_PDS ||| PCI_EXP_SLTSTA_EIS) <<< 16 }
  -- PCI_EXP_RTCTL, PCI_EXP_RTSTA
  | 7 =>
      { rw := PCI_EXP_RTCTL_SECEE ||| PCI_EXP_RTCTL_SENFEE ||| PCI_EXP_RTCTL_SEFEE ||| PCI_EXP_RTCTL_PMEIE |||
          PCI_EXP_RTCTL_CRSSVE
        ro := PCI_EXP_RTCAP_CRSVIS <<< 16 }
  | 8 => { ro := genmask 15 0 ||| PCI_EXP_RTSTA_PENDING, w1c := PCI_EXP_RTSTA_PME }
  -- PCI_EXP_DEVCAP2, PCI_EXP_DEVCTL2
  | 9 => { ro := bit 31 ||| genmask 23 0 }
  | 10 => { rw := genmask 15 12 ||| genmask 10 0 }
  -- PCI_EXP_LNKCAP2, PCI_EXP_LNKCTL2
  | 11 => { ro := bit 31 ||| genmask 24 1 }
  | 12 =>
      { rw := genmask 15 0
        w1c := (bit 15 ||| bit 5) <<< 16
        ro := (genmask 14 12 ||| genmask 9 6 ||| genmask 4 0) <<< 16 }
  | _ => {}

/-! ### The bridge -/

def PCI_BRIDGE_CONF_END : ℕ := 0x40
def PCI_CAP_SSID_START : ℕ := 0x40
def PCI_CAP_SSID_END : ℕ := 0x48
def PCI_CAP_PCIE_START : ℕ := 0x48
def PCI_CAP_PCIE_END : ℕ := 0x84
def PCI_CFG_SPACE_SIZE : ℕ := 0x100

def PCIBIOS_SUCCESSFUL : ℤ := 0
def PCIBIOS_BAD_REGISTER_NUMBER : ℤ := 0x87

/-- `struct pci_bridge_emul`, where both configuration spaces are the arrays of
registers that the accesses see them as. -/
@[ext]
structure PciBridgeEmul where
  conf : ℕ → BitVec 32
  pcieConf : ℕ → BitVec 32
  pciRegsBehavior : ℕ → PciBridgeRegBehavior
  pcieCapRegsBehavior : ℕ → PciBridgeRegBehavior
  hasPcie : Bool
  subsystemVendorId : BitVec 16
  subsystemId : BitVec 16

def modify {α : Type} (f : ℕ → α) (i : ℕ) (g : α → α) : ℕ → α := Function.update f i (g (f i))

/-- Sets the field of a register that a mask selects. -/
def setField (mask value reg : BitVec 32) : BitVec 32 := (reg &&& ~~~mask) ||| value

/-- The table of a PCIe bridge: these bits are applicable only for PCI and reserved
on PCIe. -/
def reserveForPcie (regs : ℕ → PciBridgeRegBehavior) : ℕ → PciBridgeRegBehavior :=
  let regs := modify regs 3 fun m => { m with ro := m.ro &&& ~~~genmask 15 8 }
  let regs := modify regs 1 fun m => { m with ro := m.ro &&& ~~~(pciCommandBits ||| pciStatusBits <<< 16) }
  let regs := modify regs 6 fun m => { m with ro := m.ro &&& ~~~genmask 31 24 }
  let regs := modify regs 7 fun m => { m with ro := m.ro &&& ~~~(pciStatusBits <<< 16) }
  modify regs 15 fun m =>
    { rw := m.rw &&& ~~~((PCI_BRIDGE_CTL_MASTER_ABORT ||| bit 8 ||| bit 9 ||| bit 11) <<< 16)
      ro := m.ro &&& ~~~(PCI_BRIDGE_CTL_FAST_BACK <<< 16)
      w1c := m.w1c &&& ~~~(bit 10 <<< 16) }

/-- `PCI_BRIDGE_EMUL_NO_PREFMEM_FORWARD` -/
def noPrefmemForward (regs : ℕ → PciBridgeRegBehavior) : ℕ → PciBridgeRegBehavior :=
  modify regs 9 fun m => { m with ro := ~~~0, rw := 0 }

/-- `PCI_BRIDGE_EMUL_NO_IO_FORWARD` -/
def noIoForward (regs : ℕ → PciBridgeRegBehavior) : ℕ → PciBridgeRegBehavior :=
  let regs := modify regs 1 fun m =>
    { m with ro := m.ro ||| PCI_COMMAND_IO, rw := m.rw &&& ~~~ PCI_COMMAND_IO }
  let regs := modify regs 7 fun m => { m with ro := m.ro ||| genmask 15 0, rw := m.rw &&& ~~~genmask 15 0 }
  modify regs 12 fun m => { m with ro := ~~~0, rw := 0 }

/-- The part of `pci_bridge_emul_init` for a PCIe bridge. -/
def initPcie (bridge : PciBridgeEmul) : PciBridgeEmul :=
  -- cap_id is PCI_CAP_ID_EXP, and cap has the type of a root port
  let pcieConf := modify bridge.pcieConf 0 (setField 0xff 0x10)
  { bridge with
    pcieConf := modify pcieConf 0 fun r => r ||| (0x4 <<< 4) <<< 16
    pcieCapRegsBehavior := pcieCapRegsBehavior
    pciRegsBehavior := reserveForPcie bridge.pciRegsBehavior }

/-- The part of `pci_bridge_emul_init` for the flags. -/
def initFlags (flags : BitVec 32) (bridge : PciBridgeEmul) : PciBridgeEmul :=
  let regs := bridge.pciRegsBehavior
  let regs := if flags &&& bit 0 ≠ 0 then noPrefmemForward regs else regs
  { bridge with pciRegsBehavior := if flags &&& bit 1 ≠ 0 then noIoForward regs else regs }

/-- `pci_bridge_emul_init`, where `alloc` says whether the memory for the tables of
the bridge and of its PCIe capability is there. -/
def pciBridgeEmulInit (alloc : Bool × Bool) (flags : BitVec 32) (bridge : PciBridgeEmul) :
    Except ℤ PciBridgeEmul :=
  -- class_revision, header_type, cache_line_size and status
  let conf := modify bridge.conf 2 fun r => r ||| 0x060400 <<< 8
  let conf := modify conf 3 (setField 0xff0000 (1 <<< 16))
  let conf := modify conf 3 (setField 0xff 0x10)
  let conf := modify conf 1 (setField 0xffff0000 (PCI_STATUS_CAP_LIST <<< 16))
  if alloc.1 = false then .error (-ENOMEM)
  else
    let capabilitiesPointer : ℕ :=
      if bridge.subsystemVendorId ≠ 0 then PCI_CAP_SSID_START
      else if bridge.hasPcie then PCI_CAP_PCIE_START
      else 0
    let conf := modify conf 13 (setField 0xff (BitVec.ofNat 32 capabilitiesPointer))
    let conf := if capabilitiesPointer ≠ 0 then modify conf 1 fun r => r ||| PCI_STATUS_CAP_LIST <<< 16 else conf
    let bridge := { bridge with conf := conf, pciRegsBehavior := pciRegsBehavior }
    if bridge.hasPcie then
      if alloc.2 = false then .error (-ENOMEM) else .ok (initFlags flags (initPcie bridge))
    else .ok (initFlags flags bridge)

/-! ### Accesses -/

/-- `pci_bridge_emul_read_ssid`, with `0` for a register that it does not handle. -/
def pciBridgeEmulReadSsid (bridge : PciBridgeEmul) (reg : ℕ) : BitVec 32 :=
  if reg = 0 then 0x0d ||| (if bridge.hasPcie then BitVec.ofNat 32 PCI_CAP_PCIE_START <<< 8 else 0)
  else if reg = 4 then bridge.subsystemVendorId.setWidth 32 ||| bridge.subsystemId.setWidth 32 <<< 16
  else 0

/-- `pci_bridge_emul_conf_read`, with the value read and the result. -/
def pciBridgeEmulConfRead (bridge : PciBridgeEmul) (pos size : ℕ) : BitVec 32 × ℤ :=
  let reg := pos / 4 * 4
  -- the value of a register of this size
  let sized (value : BitVec 32) : BitVec 32 × ℤ :=
    if size = 1 then ((value >>> (8 * (pos % 4))) &&& 0xff, PCIBIOS_SUCCESSFUL)
    else if size = 2 then ((value >>> (8 * (pos % 4))) &&& 0xffff, PCIBIOS_SUCCESSFUL)
    else if size ≠ 4 then (value, PCIBIOS_BAD_REGISTER_NUMBER)
    else (value, PCIBIOS_SUCCESSFUL)
  if reg < PCI_BRIDGE_CONF_END then
    sized (bridge.conf (reg / 4) &&& (bridge.pciRegsBehavior (reg / 4)).declared)
  else if PCI_CAP_SSID_START ≤ reg ∧ reg < PCI_CAP_SSID_END ∧ bridge.subsystemVendorId ≠ 0 then
    sized (pciBridgeEmulReadSsid bridge (reg - PCI_CAP_SSID_START))
  else if PCI_CAP_PCIE_START ≤ reg ∧ reg < PCI_CAP_PCIE_END ∧ bridge.hasPcie then
    let reg := reg - PCI_CAP_PCIE_START
    sized (bridge.pcieConf (reg / 4) &&& (bridge.pcieCapRegsBehavior (reg / 4)).declared)
  else if PCI_CFG_SPACE_SIZE ≤ reg ∧ bridge.hasPcie then sized 0
  else (0, PCIBIOS_SUCCESSFUL)

/-- The mask of an access of a valid size. -/
def accessMask (pos size : ℕ) : Option (BitVec 32) :=
  let shift := pos % 4 * 8
  if size = 4 then some 0xffffffff
  else if size = 2 then some ((0xffff : BitVec 32) <<< shift)
  else if size = 1 then some ((0xff : BitVec 32) <<< shift)
  else none

/-- The new value of a register: the RW bits are updated, and the W1C bits that are
written as 1 are cleared. -/
def mergeWrite (behavior : PciBridgeRegBehavior) (mask old value : BitVec 32) : BitVec 32 :=
  let new := old &&& (~~~mask ||| ~~~behavior.rw)
  let new := new ||| (value &&& (behavior.rw &&& mask))
  new &&& ~~~(value &&& (behavior.w1c &&& mask))

/-- `pci_bridge_emul_conf_write` -/
def pciBridgeEmulConfWrite (bridge : PciBridgeEmul) (pos size : ℕ) (value : BitVec 32) : PciBridgeEmul × ℤ :=
  let reg := pos / 4 * 4
  let old := (pciBridgeEmulConfRead bridge reg 4).1
  let value := value <<< (pos % 4 * 8)
  if reg < PCI_BRIDGE_CONF_END then
    match accessMask pos size with
    | none => (bridge, PCIBIOS_BAD_REGISTER_NUMBER)
    | some mask =>
        let new := mergeWrite (bridge.pciRegsBehavior (reg / 4)) mask old value
        ({ bridge with conf := Function.update bridge.conf (reg / 4) new }, PCIBIOS_SUCCESSFUL)
  else if PCI_CAP_PCIE_START ≤ reg ∧ reg < PCI_CAP_PCIE_END ∧ bridge.hasPcie then
    let reg := reg - PCI_CAP_PCIE_START
    match accessMask pos size with
    | none => (bridge, PCIBIOS_BAD_REGISTER_NUMBER)
    | some mask =>
        let new := mergeWrite (bridge.pcieCapRegsBehavior (reg / 4)) mask old value
        ({ bridge with pcieConf := Function.update bridge.pcieConf (reg / 4) new }, PCIBIOS_SUCCESSFUL)
  else if PCI_CFG_SPACE_SIZE ≤ reg ∧ bridge.hasPcie then
    -- the extended space is not kept in memory
    match accessMask pos size with
    | none => (bridge, PCIBIOS_BAD_REGISTER_NUMBER)
    | some _ => (bridge, PCIBIOS_SUCCESSFUL)
  else (bridge, PCIBIOS_SUCCESSFUL)

end GfpDrivers.Pci
