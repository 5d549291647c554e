import GfpDrivers.Basic

/-!
Bandwidth requests of the interconnect framework (`interconnect/core.c`). A path has a
request at each of its nodes. Whenever the requests of a path change, every node of
the path is aggregated again over all requests at it, with the standard aggregation,
and the provider is told; if a provider refuses, the old bandwidth is put back.

The callbacks of the providers come from outside and change nothing here, so that the
second round of them, whose results are not looked at, is left out.
-/

namespace GfpDrivers.Interconnect

/-- `struct icc_req` -/
structure IccReq where
  enabled : Bool
  avgBw : ℕ
  peakBw : ℕ
deriving DecidableEq

/-- The nodes, and a fixed set of paths through them. The list of the requests at a
node has those of all paths through it, in some order. -/
structure Network (ν π κ : Type) where
  provider : ν → κ
  interSet : κ → Bool
  nodes : π → List ν
  reqList : ν → List (π × ℕ)
  nodup : ∀ v, (reqList v).Nodup
  mem_reqList : ∀ v p i, (p, i) ∈ reqList v ↔ (nodes p)[i]? = some v

/-- The aggregates of the nodes, and the requests. -/
@[ext]
structure IccState (ν π : Type) where
  avgBw : ν → ℕ
  peakBw : ν → ℕ
  req : π × ℕ → IccReq
  initAvg : ν → ℕ
  initPeak : ν → ℕ
  synced : Bool

variable {ν π κ : Type} [DecidableEq ν] [DecidableEq π] [DecidableEq κ]

/-- `icc_std_aggregate` -/
def iccStdAggregate (avgBw peakBw : ℕ) (agg : ℕ × ℕ) : ℕ × ℕ := ((agg.1 + avgBw) % 2 ^ 32, max agg.2 peakBw)

/-- One round of the loop of `aggregate_requests`. -/
def aggregateRequest (s : IccState ν π) (v : ν) (agg : ℕ × ℕ) (r : IccReq) : ℕ × ℕ :=
  let agg := if r.enabled then iccStdAggregate r.avgBw r.peakBw agg else iccStdAggregate 0 0 agg
  -- during boot use the initial bandwidth as a floor value
  if s.synced then agg else (max agg.1 (s.initAvg v), max agg.2 (s.initPeak v))

def aggregate (net : Network ν π κ) (s : IccState ν π) (v : ν) : ℕ × ℕ :=
  ((net.reqList v).map s.req).foldl (aggregateRequest s v) (0, 0)

/-- `aggregate_requests` -/
def aggregateRequests (net : Network ν π κ) (s : IccState ν π) (v : ν) : IccState ν π :=
  { s with
    avgBw := Function.update s.avgBw v (aggregate net s v).1
    peakBw := Function.update s.peakBw v (aggregate net s v).2 }

/-- The loop of `apply_constraints`, where `set i` is the result of the callback for
the node `i` and the one before. -/
def applyFrom (net : Network ν π κ) (set : ℕ → ℤ) : Option ν → List (ν × ℕ) → ℤ → ℤ
  | _, [], ret => ret
  | none, next :: rest, ret => applyFrom net set (some next.1) rest ret
  | some prev, next :: rest, ret =>
      if net.provider next.1 ≠ net.provider prev ∧ net.interSet (net.provider next.1) = false then
        applyFrom net set (some next.1) rest ret
      else if set next.2 ≠ 0 then set next.2
      else applyFrom net set (some next.1) rest 0

/-- `apply_constraints` -/
def applyConstraints (net : Network ν π κ) (set : ℕ → ℤ) (p : π) : ℤ :=
  applyFrom net set none (net.nodes p).zipIdx (-EINVAL)

/-- A pointer to a path. -/
inductive IccPath (π : Type) where
  | null
  | invalid
  | path (p : π)

/-- Sets the request of a path at one node, and aggregates the node. -/
def setRequest (net : Network ν π κ) (p : π) (avgBw peakBw : ℕ) (s : IccState ν π) (next : ν × ℕ) :
    IccState ν π :=
  let r := s.req (p, next.2)
  let s := { s with req := Function.update s.req (p, next.2) { r with avgBw := avgBw, peakBw := peakBw } }
  aggregateRequests net s next.1

def setRequests (net : Network ν π κ) (p : π) (avgBw peakBw : ℕ) (s : IccState ν π) : IccState ν π :=
  (net.nodes p).zipIdx.foldl (setRequest net p avgBw peakBw) s

/-- `icc_set_bw` of a path with nodes -/
def setBw (net : Network ν π κ) (set : ℕ → ℤ) (s : IccState ν π) (p : π) (avgBw peakBw : ℕ) : IccState ν π × ℤ :=
  let old := s.req (p, 0)
  let s := setRequests net p avgBw peakBw s
  let ret := applyConstraints net set p
  if ret ≠ 0 then (setRequests net p old.avgBw old.peakBw s, ret) else (s, ret)

/-- `icc_set_bw` -/
def iccSetBw (net : Network ν π κ) (set : ℕ → ℤ) (s : IccState ν π) (path : IccPath π) (avgBw peakBw : ℕ) :
    IccState ν π × ℤ :=
  match path with
  | .null => (s, 0)
  | .invalid => (s, -EINVAL)
  | .path p => if net.nodes p = [] then (s, -EINVAL) else setBw net set s p avgBw peakBw

/-- The loop of `__icc_enable`. -/
def setEnabled (net : Network ν π κ) (p : π) (enable : Bool) (s : IccState ν π) : IccState ν π :=
  let setOne (req : π × ℕ → IccReq) (next : ν × ℕ) : π × ℕ → IccReq :=
    let r := req (p, next.2)
    Function.update req (p, next.2) { r with enabled := enable }
  { s with req := (net.nodes p).zipIdx.foldl setOne s.req }

/-- `__icc_enable` -/
def iccEnableWith (net : Network ν π κ) (set : ℕ → ℤ) (s : IccState ν π) (path : IccPath π) (enable : Bool) :
    IccState ν π × ℤ :=
  match path with
  | .null => (s, 0)
  | .invalid => (s, -EINVAL)
  | .path p =>
      if net.nodes p = [] then (s, -EINVAL)
      else
        let s := setEnabled net p enable s
        iccSetBw net set s (.path p) (s.req (p, 0)).avgBw (s.req (p, 0)).peakBw

/-- `icc_enable` -/
def iccEnable (net : Network ν π κ) (set : ℕ → ℤ) (s : IccState ν π) (path : IccPath π) : IccState ν π × ℤ :=
  iccEnableWith net set s path true

/-- `icc_disable` -/
def iccDisable (net : Network ν π κ) (set : ℕ → ℤ) (s : IccState ν π) (path : IccPath π) : IccState ν π × ℤ :=
  iccEnableWith net set s path false

/-- `icc_sync_state`, called for the last provider. -/
def iccSyncState (net : Network ν π κ) (s : IccState ν π) : IccState ν π :=
  let booting (v : ν) : Bool := s.initAvg v ≠ 0 ∨ s.initPeak v ≠ 0
  let s := { s with synced := true, initAvg := fun _ => 0, initPeak := fun _ => 0 }
  { s with
    avgBw := fun v => if booting v then (aggregate net s v).1 else s.avgBw v
    peakBw := fun v => if booting v then (aggregate net s v).2 else s.peakBw v }

/-! ### Runs -/

inductive Call (π : Type) where
  | setBw (path : IccPath π) (avgBw peakBw : ℕ)
  | enable (path : IccPath π)
  | disable (path : IccPath π)
  | syncState

/-- A call, with the results of the callbacks of the providers. -/
def call (net : Network ν π κ) (set : ℕ → ℤ) (s : IccState ν π) : Call π → IccState ν π × ℤ
  | .setBw path avgBw peakBw => iccSetBw net set s path avgBw peakBw
  | .enable path => iccEnable net set s path
  | .disable path => iccDisable net set s path
  | .syncState => (iccSyncState net s, 0)

def step (net : Network ν π κ) (s : IccState ν π) (a : Call π × (ℕ → ℤ)) : Option (IccState ν π) :=
  some (call net a.2 s a.1).1

end GfpDrivers.Interconnect
