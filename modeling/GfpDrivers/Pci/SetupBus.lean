import GfpDrivers.ResourceTree.Allocate

/-!
Sizing the memory window of a bridge (`pci/setup-bus.c`), sorting the
resources of the devices behind it by alignment, and allocating them in the
window.

Resources are kept by their addresses, as in the resource tree. What
`pci_resource_alignment` returns for a resource is given by `align`. There is
no list of optional sizes (`realloc_head` is `NULL`), so the size with and
without them is the same.
-/

namespace GfpDrivers.Pci

open ResourceTree

def IORESOURCE_PCI_FIXED : ℕ := 0x10
def IORESOURCE_IO : ℕ := 0x00000100
def IORESOURCE_MEM : ℕ := 0x00000200
def IORESOURCE_PREFETCH : ℕ := 0x00002000
def IORESOURCE_STARTALIGN : ℕ := 0x00080000

def PCI_P2P_DEFAULT_MEM_ALIGN : ℕ := 0x100000
def PCI_P2P_DEFAULT_IO_ALIGN : ℕ := 0x1000
def PCI_P2P_DEFAULT_IO_ALIGN_1K : ℕ := 0x400

/-- `struct pci_bus`: its windows, the resources of the devices on it, and whether its bridge
has `io_window_1k`. The roots are `ioport_resource` and `iomem_resource`. -/
structure PciBus where
  resource : List (Option ℕ)
  devices : List (List ℕ)
  ioWindow1k : Bool
  roots : List ℕ

/-- The arguments of `pbus_size_mem` that say which resources it counts. -/
structure MemType where
  mask : ℕ
  type : ℕ
  type2 : ℕ
  type3 : ℕ

/-- `resource_size` -/
def resourceSize (res : Resource) : ℕ := (res.end_ + 2 ^ 64 - res.start + 1) % 2 ^ 64

/-- The loop of `find_bus_resource_of_type`. -/
def findWindow (h : Heap) (roots : List ℕ) (typeMask type : ℕ) : List (Option ℕ) → Option ℕ → Option ℕ
  | [], assigned => assigned
  | none :: rs, assigned => findWindow h roots typeMask type rs assigned
  | some r :: rs, assigned =>
      if r ∈ roots then findWindow h roots typeMask type rs assigned
      else if (h r).flags &&& typeMask = type ∧ (h r).parent = none then some r
      else if (h r).flags &&& typeMask = type ∧ assigned = none then findWindow h roots typeMask type rs (some r)
      else findWindow h roots typeMask type rs assigned

/-- `find_bus_resource_of_type` -/
def findBusResourceOfType (h : Heap) (bus : PciBus) (typeMask type : ℕ) : Option ℕ :=
  findWindow h bus.roots typeMask type bus.resource none

/-- `pcibios_window_alignment` -/
def pcibiosWindowAlignment : ℕ := 1

/-- `window_alignment` -/
def windowAlignment (bus : PciBus) (type : ℕ) : ℕ :=
  let align :=
    if type &&& IORESOURCE_MEM ≠ 0 then PCI_P2P_DEFAULT_MEM_ALIGN
    else if type &&& IORESOURCE_IO ≠ 0 then
      if bus.ioWindow1k then PCI_P2P_DEFAULT_IO_ALIGN_1K else PCI_P2P_DEFAULT_IO_ALIGN
    else 1
  max align pcibiosWindowAlignment

/-- `calculate_memsize` -/
def calculateMemsize (size minSize addSize childrenAddSize oldSize align : ℕ) : ℕ :=
  let size := if size < minSize then minSize else size
  let oldSize := if oldSize = 1 then 0 else oldSize
  let size := if size < oldSize then oldSize else size
  align64 (max size addSize + childrenAddSize) align

/-- One turn of the loop of `calculate_mem_align`, on `align` and `min_align`. -/
def memAlignStep (aligns : ℕ → ℕ) (s : ℕ × ℕ) (order : ℕ) : ℕ × ℕ :=
  let align1 := 1 <<< (order + 20)
  (s.1 + aligns order,
    if s.1 = 0 then align1
    else if align64 (s.1 + s.2) s.2 < align1 then align1 >>> 1
    else s.2)

/-- `calculate_mem_align` -/
def calculateMemAlign (aligns : ℕ → ℕ) (maxOrder : ℕ) : ℕ :=
  ((List.range (maxOrder + 1)).foldl (memAlignStep aligns) (0, 0)).2

/-- `__ffs` -/
def ffs (n : ℕ) : ℕ := ((List.range 64).find? fun i => n.testBit i).getD 0

/-- The resources that `pbus_size_mem` counts: unassigned, movable and of the right type. -/
def counted (t : MemType) (res : Resource) : Bool :=
  decide (res.parent = none) && decide (res.flags &&& IORESOURCE_PCI_FIXED = 0) &&
    (decide (res.flags &&& t.mask = t.type) || decide (res.flags &&& t.mask = t.type2) ||
      decide (res.flags &&& t.mask = t.type3))

/-- What the loops of `pbus_size_mem` keep. -/
structure Sizing where
  heap : Heap
  aligns : ℕ → ℕ
  maxOrder : ℕ
  size : ℕ

/-- One turn of the inner loop of `pbus_size_mem`. -/
def sizeResource (t : MemType) (align : ℕ → ℕ) (s : Sizing) (r : ℕ) : Sizing :=
  if counted t (s.heap r) = false then s
  else
    let rSize := resourceSize (s.heap r)
    let order := ffs (align r) - 20
    if 24 ≤ order then { s with heap := Function.update s.heap r { s.heap r with flags := 0 } }
    else
      { heap := s.heap
        aligns := if rSize ≤ align r then Function.update s.aligns order (s.aligns order + align r) else s.aligns
        maxOrder := if s.maxOrder < order then order else s.maxOrder
        size := s.size + max rSize (align r) }

/-- `pbus_size_mem` -/
def pbusSizeMem (h : Heap) (bus : PciBus) (t : MemType) (align : ℕ → ℕ) (minSize : ℕ) : Heap × ℤ :=
  match findBusResourceOfType h bus (t.mask ||| IORESOURCE_PREFETCH) t.type with
  | none => (h, -ENOSPC)
  | some b =>
      if (h b).parent ≠ none then (h, 0)
      else
        let s := bus.devices.foldl (fun s dev => dev.foldl (sizeResource t align) s) ⟨h, fun _ => 0, 0, 0⟩
        let h := s.heap
        let minAlign := max (calculateMemAlign s.aligns s.maxOrder) (windowAlignment bus (h b).flags)
        let size0 := calculateMemsize s.size minSize 0 0 (resourceSize (h b)) minAlign
        if size0 = 0 then (Function.update h b { h b with flags := 0 }, 0)
        else
          (Function.update h b
            { h b with
              start := minAlign
              end_ := regionEnd minAlign size0
              flags := (h b).flags ||| IORESOURCE_STARTALIGN }, 0)

/-- `list_add_tail` in front of the first entry with a smaller alignment. -/
def insertByAlign (align : ℕ → ℕ) (r : ℕ) : List ℕ → List ℕ
  | [] => [r]
  | d :: l => if align d < align r then r :: d :: l else d :: insertByAlign align r l

/-- One turn of the loop of `pdev_sort_resources`. -/
def sortResource (h : Heap) (align : ℕ → ℕ) (head : List ℕ) (r : ℕ) : List ℕ :=
  if (h r).flags &&& IORESOURCE_PCI_FIXED ≠ 0 then head
  else if (h r).flags = 0 ∨ (h r).parent ≠ none then head
  else if align r = 0 then head
  else insertByAlign align r head

/-- `pdev_sort_resources` -/
def pdevSortResources (h : Heap) (align : ℕ → ℕ) (dev head : List ℕ) : List ℕ := dev.foldl (sortResource h align) head

/-- The list that is made of all devices on the bus. -/
def sortedResources (h : Heap) (align : ℕ → ℕ) (bus : PciBus) : List ℕ :=
  bus.devices.foldl (fun head dev => pdevSortResources h align dev head) []

/-- `allocate_resource` in the window `b` for one resource after the other, with the results. -/
def allocateAll (fuel : ℕ) (align : ℕ → ℕ) (b : ℕ) : List ℕ → Heap → Option (Heap × List ℤ)
  | [], h => some (h, [])
  | r :: rs, h =>
      (allocateResource fuel h b r ⟨resourceSize (h r), 0, 2 ^ 64 - 1, align r⟩).bind fun (h, rc) =>
        (allocateAll fuel align b rs h).map fun (h, rcs) => (h, rc :: rcs)

/-- The window moved to `base`. -/
def placeWindow (h : Heap) (b base : ℕ) : Heap :=
  Function.update h b { h b with start := base, end_ := regionEnd base (resourceSize (h b)) }

end GfpDrivers.Pci
