import GfpDrivers.Hid.Report

/-!
The parser of report descriptors (`hid-core.c`). A descriptor is a list of items: global
items describe the fields to come and can be pushed and popped, local items collect the
usages of the next field, and a main item registers the field in its report.

Collections are not opened or closed here; a parser starts with some collections open.
`unsigned` and `__s32` are both `BitVec 32`. The outcome of an allocation is an argument.
-/

namespace GfpDrivers.Hid

open GfpDrivers.Lib

def HID_MAX_USAGES : ℕ := 12288

def HID_MAX_FIELDS : ℕ := 256

def HID_MAX_IDS : ℕ := 256

def HID_MAX_BUFFER_SIZE : ℕ := 16384

def HID_GLOBAL_STACK_SIZE : ℕ := 4

inductive ReportType where
  | input
  | output
  | feature
deriving DecidableEq

inductive CollectionType where
  | physical
  | application
  | logical
  | other (type : ℕ)
deriving DecidableEq

inductive GlobalTag where
  | push
  | pop
  | usagePage
  | logicalMinimum
  | logicalMaximum
  | physicalMinimum
  | physicalMaximum
  | unitExponent
  | unit
  | reportSize
  | reportCount
  | reportId
  | unknown

inductive LocalTag where
  | delimiter
  | usage
  | usageMinimum
  | usageMaximum
  | unknown

inductive MainTag where
  | input
  | output
  | feature
  | unknown

/-- A short item. `data` are the bytes of the union, the first one being the lowest. -/
structure HidItem where
  size : ℕ
  data : BitVec 32

/-- `item_udata` -/
def itemUdata (item : HidItem) : BitVec 32 :=
  match item.size with
  | 1 => (item.data.setWidth 8).setWidth 32
  | 2 => (item.data.setWidth 16).setWidth 32
  | 4 => item.data
  | _ => 0

/-- `item_sdata` -/
def itemSdata (item : HidItem) : BitVec 32 :=
  match item.size with
  | 1 => (item.data.setWidth 8).signExtend 32
  | 2 => (item.data.setWidth 16).signExtend 32
  | 4 => item.data
  | _ => 0

structure HidGlobal where
  usagePage : BitVec 32
  logicalMinimum : BitVec 32
  logicalMaximum : BitVec 32
  physicalMinimum : BitVec 32
  physicalMaximum : BitVec 32
  unitExponent : BitVec 32
  unit : BitVec 32
  reportId : BitVec 32
  reportSize : BitVec 32
  reportCount : BitVec 32

/-- `struct hid_local`. The arrays have `HID_MAX_USAGES` slots. -/
@[ext] structure HidLocal where
  usage : ℕ → BitVec 32
  usageSize : ℕ → ℕ
  collectionIndex : ℕ → ℕ
  usageIndex : ℕ
  usageMinimum : BitVec 32
  delimiterDepth : BitVec 32
  delimiterBranch : BitVec 32

structure HidCollection where
  type : CollectionType
  usage : BitVec 32

/-- A field with what the parser stores in it beside what is read when reports come in.
`usageCollection i` is `usage[i].collection_index`. -/
structure ParsedField extends HidField where
  physical : BitVec 32
  logical : BitVec 32
  application : BitVec 32
  usageCollection : ℕ → ℕ
  reportType : ReportType
  physicalMinimum : BitVec 32
  physicalMaximum : BitVec 32
  unitExponent : BitVec 32
  unit : BitVec 32

/-- `field[0..maxfield)` is a list. -/
structure ParsedReport where
  id : BitVec 32
  type : ReportType
  application : BitVec 32
  size : BitVec 32
  field : List ParsedField

structure HidDevice where
  collection : ℕ → HidCollection
  numbered : ReportType → Bool
  reportIdHash : ReportType → BitVec 32 → Option ParsedReport

/-- The stacks have their top first. -/
@[ext] structure HidParser where
  global : HidGlobal
  globalStack : List HidGlobal
  local_ : HidLocal
  collectionStack : List ℕ
  device : HidDevice

/-- `parser->global` and `parser->local` after they are cleared. -/
def HidGlobal.zero : HidGlobal := ⟨0, 0, 0, 0, 0, 0, 0, 0, 0, 0⟩

def HidLocal.zero : HidLocal := ⟨fun _ => 0, fun _ => 0, fun _ => 0, 0, 0, 0, 0⟩

/-! ### Usages -/

/-- `complete_usage` -/
def completeUsage (p : HidParser) (index : ℕ) : HidParser :=
  let usage := p.local_.usage index &&& 0xFFFF ||| (p.global.usagePage &&& 0xFFFF) <<< 16
  { p with local_ := { p.local_ with usage := Function.update p.local_.usage index usage } }

/-- `hid_add_usage` -/
def hidAddUsage (p : HidParser) (usage : BitVec 32) (size : ℕ) : HidParser × ℤ :=
  let index := p.local_.usageIndex
  if HID_MAX_USAGES ≤ index then (p, -1)
  else
    let p := { p with local_ := { p.local_ with usage := Function.update p.local_.usage index usage } }
    let p := if size ≤ 2 then completeUsage p index else p
    ({ p with
        local_ := { p.local_ with
          usageSize := Function.update p.local_.usageSize index size
          collectionIndex := Function.update p.local_.collectionIndex index (p.collectionStack.head?.getD 0)
          usageIndex := index + 1 } }, 0)

/-- The loop over a range of usages, from `n` to `data`. -/
def addUsages (data : BitVec 32) (size : ℕ) : ℕ → BitVec 32 → HidParser → Option (HidParser × ℤ)
  | 0, _, _ => none
  | fuel + 1, n, p =>
      if n ≤ data then
        match hidAddUsage p n size with
        | (p, ret) => if ret ≠ 0 then some (p, -1) else addUsages data size fuel (n + 1) p
      else some (p, 0)

/-- `hid_parser_local` -/
def hidParserLocal (fuel : ℕ) (p : HidParser) (tag : LocalTag) (item : HidItem) : Option (HidParser × ℤ) :=
  let data := itemUdata item
  match tag with
  | .delimiter =>
      if data ≠ 0 then
        if p.local_.delimiterDepth ≠ 0 then some (p, -1)
        else
          some ({ p with
            local_ := { p.local_ with
              delimiterDepth := p.local_.delimiterDepth + 1
              delimiterBranch := p.local_.delimiterBranch + 1 } }, 0)
      else if p.local_.delimiterDepth < 1 then some (p, -1)
      else some ({ p with local_ := { p.local_ with delimiterDepth := p.local_.delimiterDepth - 1 } }, 0)
  | .usage =>
      if 1 < p.local_.delimiterBranch then some (p, 0) else some (hidAddUsage p data item.size)
  | .usageMinimum =>
      if 1 < p.local_.delimiterBranch then some (p, 0)
      else some ({ p with local_ := { p.local_ with usageMinimum := data } }, 0)
  | .usageMaximum =>
      if 1 < p.local_.delimiterBranch then some (p, 0)
      else
        let min := p.local_.usageMinimum
        let index := BitVec.ofNat 32 p.local_.usageIndex
        let count := data - min
        if BitVec.ofNat 32 HID_MAX_USAGES ≤ count + index then
          let data := BitVec.ofNat 32 HID_MAX_USAGES - index + min - 1
          if data ≤ 0 then some (p, -1) else addUsages data item.size fuel min p
        else addUsages data item.size fuel min p
  | .unknown => some (p, 0)

/-! ### Global items -/

/-- `hid_parser_global` -/
def hidParserGlobal (p : HidParser) (tag : GlobalTag) (item : HidItem) : HidParser × ℤ :=
  let g := p.global
  match tag with
  | .push =>
      if p.globalStack.length = HID_GLOBAL_STACK_SIZE then (p, -1)
      else ({ p with globalStack := g :: p.globalStack }, 0)
  | .pop =>
      match p.globalStack with
      | [] => (p, -1)
      | top :: rest => ({ p with global := top, globalStack := rest }, 0)
  | .usagePage => ({ p with global := { g with usagePage := itemUdata item } }, 0)
  | .logicalMinimum => ({ p with global := { g with logicalMinimum := itemSdata item } }, 0)
  | .logicalMaximum =>
      let maximum := if g.logicalMinimum.toInt < 0 then itemSdata item else itemUdata item
      ({ p with global := { g with logicalMaximum := maximum } }, 0)
  | .physicalMinimum => ({ p with global := { g with physicalMinimum := itemSdata item } }, 0)
  | .physicalMaximum =>
      let maximum := if g.physicalMinimum.toInt < 0 then itemSdata item else itemUdata item
      ({ p with global := { g with physicalMaximum := maximum } }, 0)
  | .unitExponent =>
      let raw := itemSdata item
      let exponent := if raw &&& 0xfffffff0 = 0 then snto32 raw 4 else raw
      ({ p with global := { g with unitExponent := exponent } }, 0)
  | .unit => ({ p with global := { g with unit := itemUdata item } }, 0)
  | .reportSize =>
      ({ p with global := { g with reportSize := itemUdata item } }, if 256 < (itemUdata item).toNat then -1 else 0)
  | .reportCount =>
      ({ p with global := { g with reportCount := itemUdata item } },
        if HID_MAX_USAGES < (itemUdata item).toNat then -1 else 0)
  | .reportId =>
      ({ p with global := { g with reportId := itemUdata item } },
        if itemUdata item = 0 ∨ HID_MAX_IDS ≤ (itemUdata item).toNat then -1 else 0)
  | .unknown => (p, -1)

/-! ### Fields -/

/-- `hid_lookup_collection` -/
def hidLookupCollection (p : HidParser) (type : CollectionType) : BitVec 32 :=
  match p.collectionStack.find? fun index => (p.device.collection index).type = type with
  | some index => (p.device.collection index).usage
  | none => 0

def HidDevice.setReport (device : HidDevice) (type : ReportType) (id : BitVec 32) (report : ParsedReport) : HidDevice :=
  { device with
    reportIdHash := Function.update device.reportIdHash type
      (Function.update (device.reportIdHash type) id (some report)) }

/-- `hid_register_report` -/
def hidRegisterReport (device : HidDevice) (type : ReportType) (id application : BitVec 32) (alloc : Bool) :
    HidDevice × Option ParsedReport :=
  if HID_MAX_IDS ≤ id.toNat then (device, none)
  else
    match device.reportIdHash type id with
    | some report => (device, some report)
    | none =>
        if alloc then
          let report := { id := id, type := type, application := application, size := 0, field := [] }
          let numbered := if id ≠ 0 then Function.update device.numbered type true else device.numbered
          ({ device.setReport type id report with numbered := numbered }, some report)
        else (device, none)

/-- Whether `hid_register_field` returns a field. -/
def hidRegisterField (report : ParsedReport) (alloc : Bool) : Bool :=
  if report.field.length = HID_MAX_FIELDS then false else alloc

/-- The field that `hid_add_field` fills in, with `usages` slots for usages. -/
def newField (p : HidParser) (type : ReportType) (flags : BitVec 32) (application offset : BitVec 32) (usages : ℕ) :
    ParsedField :=
  let g := p.global
  let last := fun i => if p.local_.usageIndex ≤ i then p.local_.usageIndex - 1 else i
  { flags := flags.toNat
    reportOffset := offset.toNat
    reportSize := g.reportSize.toNat
    reportCount := g.reportCount.toNat
    logicalMinimum := g.logicalMinimum
    logicalMaximum := g.logicalMaximum
    maxusage := usages
    usageHid := fun i => (p.local_.usage (last i)).toNat
    value := fun _ => 0
    newValue := fun _ => 0
    ignored := false
    physical := hidLookupCollection p .physical
    logical := hidLookupCollection p .logical
    application := application
    usageCollection := fun i => p.local_.collectionIndex (last i)
    reportType := type
    physicalMinimum := g.physicalMinimum
    physicalMaximum := g.physicalMaximum
    unitExponent := g.unitExponent
    unit := g.unit }

/-- `hid_add_field`; `allocReport` and `allocField` say whether there is memory for them. -/
def hidAddField (p : HidParser) (type : ReportType) (flags : BitVec 32) (allocReport allocField : Bool) :
    HidParser × ℤ :=
  let g := p.global
  let application := hidLookupCollection p .application
  match hidRegisterReport p.device type g.reportId application allocReport with
  | (device, none) => ({ p with device := device }, -1)
  | (device, some report) =>
      if (g.logicalMinimum.toInt < 0 ∧ g.logicalMaximum.toInt < g.logicalMinimum.toInt) ∨
          (0 ≤ g.logicalMinimum.toInt ∧ g.logicalMaximum < g.logicalMinimum) then
        ({ p with device := device }, -1)
      else
        let offset := report.size
        let report := { report with size := report.size + g.reportSize * g.reportCount }
        let put := fun report => { p with device := device.setReport type g.reportId report }
        if (HID_MAX_BUFFER_SIZE - 1) * 8 < report.size.toNat then (put report, -1)
        else if p.local_.usageIndex = 0 then (put report, 0)
        else if hidRegisterField report allocField then
          let usages := max p.local_.usageIndex g.reportCount.toNat
          let field := newField p type flags application offset usages
          (put { report with field := report.field ++ [field] }, 0)
        else (put report, 0)

/-- The loop of `hid_concatenate_last_usage_page`, down from `i - 1`. -/
def concatenateFrom (usagePage : BitVec 32) : ℕ → HidParser → HidParser
  | 0, p => p
  | i + 1, p =>
      if 2 < p.local_.usageSize i then concatenateFrom usagePage i p
      else if p.local_.usage i >>> 16 = usagePage then p
      else concatenateFrom usagePage i (completeUsage p i)

/-- `hid_concatenate_last_usage_page` -/
def hidConcatenateLastUsagePage (p : HidParser) : HidParser :=
  concatenateFrom p.global.usagePage p.local_.usageIndex p

/-- `hid_parser_main`, for the items that register fields and for unknown ones. -/
def hidParserMain (p : HidParser) (tag : MainTag) (item : HidItem) (allocReport allocField : Bool) : HidParser × ℤ :=
  let p := hidConcatenateLastUsagePage p
  let data := itemUdata item
  let res :=
    match tag with
    | .input => hidAddField p .input data allocReport allocField
    | .output => hidAddField p .output data allocReport allocField
    | .feature => hidAddField p .feature data allocReport allocField
    | .unknown => (p, 0)
  ({ res.1 with local_ := HidLocal.zero }, res.2)

end GfpDrivers.Hid
