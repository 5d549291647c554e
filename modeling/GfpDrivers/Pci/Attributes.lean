import GfpDrivers.Pci.BridgeEmul

/-!
The attributes of the register bits of an emulated bridge, as the comments of the
source and the PCI headers lay them out, and what software sees of a bit with a
given attribute after any sequence of writes.

The tables of the code agree with the layout in all bits but one: the lowest bit of
the secondary latency timer is writable.
-/

namespace GfpDrivers.Pci

/-! ### Attributes -/

inductive Attr where
  | reserved | ro | rw | w1c
deriving DecidableEq

/-- What a bit reads that read `initial` at first and to which the values
`writes` were written since, in this order. -/
def Attr.after (initial : Bool) (writes : List Bool) : Attr → Bool
  | .reserved => false
  | .ro => initial
  | .rw => writes.getLast?.getD initial
  | .w1c => initial && !writes.contains true

/-- The fields of a register, with their highest and lowest bit. -/
abbrev Layout := List (ℕ × ℕ × Attr)

/-- The bits of the fields with an attribute. -/
def Layout.mask (l : Layout) (a : Attr) : BitVec 32 :=
  l.foldr (fun f m => if f.2.2 = a then genmask f.1 f.2.1 ||| m else m) 0

/-- Bits of no field are reserved. -/
def Layout.attr (l : Layout) (j : ℕ) : Attr :=
  if (l.mask .ro).getLsbD j then .ro
  else if (l.mask .rw).getLsbD j then .rw
  else if (l.mask .w1c).getLsbD j then .w1c
  else .reserved

/-- The registers of a bridge. Some bits are there on a PCI bridge only, and windows
that the bridge does not forward are read-only. -/
def bridgeLayout (pcie noPrefmem noIo : Bool) : ℕ → Layout :=
  let pci (a : Attr) : Attr := if pcie then .reserved else a
  let pref : Attr := if noPrefmem then .ro else .rw
  let io : Attr := if noIo then .ro else .rw
  fun
  -- vendor and device
  | 0 => [(31, 0, .ro)]
  -- command and status
  | 1 => [(0, 0, io), (2, 1, .rw), (5, 3, pci .ro), (6, 6, .rw), (7, 7, pci .ro), (8, 8, .rw), (9, 9, pci .ro),
      (20, 20, .ro), (21, 21, pci .ro), (23, 23, pci .ro), (24, 24, .w1c), (26, 25, pci .ro), (31, 27, .w1c)]
  -- class and revision
  | 2 => [(31, 0, .ro)]
  -- cache line size, latency timer, header type and BIST
  | 3 => [(7, 0, .ro), (15, 8, pci .ro), (31, 16, .ro)]
  -- base addresses
  | 4 => [(31, 0, .ro)]
  | 5 => [(31, 0, .ro)]
  -- primary, secondary and subordinate bus, and secondary latency timer
  | 6 => [(23, 0, .rw), (31, 24, pci .ro)]
  -- I/O base and limit, and secondary status
  | 7 => [(3, 0, .ro), (7, 4, io), (11, 8, .ro), (15, 12, io), (21, 21, pci .ro), (23, 23, pci .ro),
      (24, 24, .w1c), (26, 25, pci .ro), (31, 27, .w1c)]
  -- memory and prefetchable memory base and limit
  | 8 => [(3, 0, .ro), (15, 4, .rw), (19, 16, .ro), (31, 20, .rw)]
  | 9 => [(3, 0, .ro), (15, 4, pref), (19, 16, .ro), (31, 20, pref)]
  | 10 => [(31, 0, .rw)]
  | 11 => [(31, 0, .rw)]
  -- upper half of the I/O addresses
  | 12 => [(31, 0, io)]
  -- capabilities pointer
  | 13 => [(7, 0, .ro)]
  -- expansion ROM
  | 14 => [(31, 0, .ro)]
  -- interrupt line and pin, and bridge control
  | 15 => [(7, 0, .rw), (15, 8, .ro), (19, 16, .rw), (21, 21, pci .rw), (22, 22, .rw), (23, 23, pci .ro),
      (25, 24, pci .rw), (26, 26, pci .w1c), (27, 27, pci .rw)]
  | _ => []

/-- The registers of the PCIe capability of a root port. -/
def pcieCapLayout : ℕ → Layout
  -- capability header
  | 0 => [(30, 0, .ro)]
  -- device
  | 1 => [(5, 0, .ro), (15, 15, .ro)]
  | 2 => [(14, 0, .rw), (19, 16, .w1c), (21, 20, .ro)]
  -- link
  | 3 => [(17, 0, .ro), (22, 19, .ro), (31, 24, .ro)]
  | 4 => [(1, 0, .rw), (7, 3, .rw), (11, 9, .rw), (15, 14, .rw), (29, 16, .ro), (31, 30, .w1c)]
  -- slot
  | 5 => [(31, 0, .ro)]
  | 6 => [(14, 0, .rw), (20, 16, .w1c), (23, 21, .ro), (24, 24, .w1c)]
  -- root
  | 7 => [(4, 0, .rw), (16, 16, .ro)]
  | 8 => [(15, 0, .ro), (16, 16, .w1c), (17, 17, .ro)]
  -- second device and link registers
  | 9 => [(23, 0, .ro), (31, 31, .ro)]
  | 10 => [(10, 0, .rw), (15, 12, .rw)]
  | 11 => [(24, 1, .ro), (31, 31, .ro)]
  | 12 => [(15, 0, .rw), (20, 16, .ro), (21, 21, .w1c), (25, 22, .ro), (30, 28, .ro), (31, 31, .w1c)]
  | _ => []

/-- The table of a bridge after its initialisation. -/
def initBehavior (pcie noPrefmem noIo : Bool) : ℕ → PciBridgeRegBehavior :=
  let regs := if pcie then reserveForPcie pciRegsBehavior else pciRegsBehavior
  let regs := if noPrefmem then noPrefmemForward regs else regs
  if noIo then noIoForward regs else regs

/-- The masks are those of a layout, where `extra` is writable in addition. -/
def PciBridgeRegBehavior.Follows (m : PciBridgeRegBehavior) (l : Layout) (extra : BitVec 32) : Prop :=
  (m.ro = l.mask .ro ∧ m.rw = l.mask .rw ||| extra ∧ m.w1c = l.mask .w1c) ∧
    l.mask .ro &&& l.mask .rw = 0 ∧ l.mask .ro &&& l.mask .w1c = 0 ∧ l.mask .rw &&& l.mask .w1c = 0

instance (m : PciBridgeRegBehavior) (l : Layout) (extra : BitVec 32) : Decidable (m.Follows l extra) :=
  inferInstanceAs (Decidable ((_ ∧ _ ∧ _) ∧ _ ∧ _ ∧ _))

/-- The mask of the bus numbers takes in the lowest bit of the secondary latency
timer; no other mask differs from the layout. -/
theorem initBehavior_follows : ∀ pcie noPrefmem noIo : Bool, ∀ r < 16,
    (initBehavior pcie noPrefmem noIo r).Follows (bridgeLayout pcie noPrefmem noIo r)
      (if r = 6 then bit 24 else 0) := by
  decide

theorem initBehavior_latency : ∀ pcie noPrefmem noIo : Bool,
    (initBehavior pcie noPrefmem noIo 6).rw.getLsbD 24 = true ∧
      (initBehavior pcie noPrefmem noIo 6).w1c.getLsbD 24 = false := by
  decide

theorem pcieCapRegsBehavior_follows : ∀ r < 15, (pcieCapRegsBehavior r).Follows (pcieCapLayout r) 0 := by
  decide

/-- The masks give the bit `j` the attribute `a`, and no other. -/
def PciBridgeRegBehavior.Gives (m : PciBridgeRegBehavior) (j : ℕ) (a : Attr) : Prop :=
  m.ro.getLsbD j = decide (a = .ro) ∧ m.rw.getLsbD j = decide (a = .rw) ∧ m.w1c.getLsbD j = decide (a = .w1c)

theorem PciBridgeRegBehavior.Follows.gives {m : PciBridgeRegBehavior} {l : Layout} {extra : BitVec 32}
    (h : m.Follows l extra) {j : ℕ} (hj : extra.getLsbD j = false) : m.Gives j (l.attr j) := by
  obtain ⟨⟨hro, hrw, hw1c⟩, h₁, h₂, h₃⟩ := h
  have hbit : ∀ {x y : BitVec 32}, x &&& y = 0 → (x.getLsbD j && y.getLsbD j) = false := by
    intro x y hxy
    rw [← BitVec.getLsbD_and, hxy]
    exact BitVec.getLsbD_zero
  have h₁ := hbit h₁
  have h₂ := hbit h₂
  have h₃ := hbit h₃
  rw [PciBridgeRegBehavior.Gives, hro, hrw, hw1c, BitVec.getLsbD_or, hj, Layout.attr]
  revert h₁ h₂ h₃
  cases (l.mask .ro).getLsbD j <;> cases (l.mask .rw).getLsbD j <;> cases (l.mask .w1c).getLsbD j <;> decide

end GfpDrivers.Pci
