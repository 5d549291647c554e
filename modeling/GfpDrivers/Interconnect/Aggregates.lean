import Mathlib.Algebra.BigOperators.Group.List.Basic
import Mathlib.Algebra.Order.Group.Nat
import Mathlib.Data.List.Induction
import GfpDrivers.Lib.Runs
import GfpDrivers.Interconnect.Bandwidth

/-!
The aggregates of the nodes over whole runs. Every call leaves each node with what the
loop of `aggregate_requests` gives for the requests as they are. This is the sum and
the maximum of the enabled requests, with the initial values as a floor, unless the
floor is put in between two requests: it is applied in every round of the loop, and
what comes after the first request is then added to it.
-/

namespace GfpDrivers.Interconnect

open Lib Function

variable {ν π κ : Type} {net : Network ν π κ} {s t : IccState ν π} {p : π} {v : ν}

/-! ### The loop over the requests at a node -/

/-- What a request asks for. -/
def IccReq.avg (r : IccReq) : ℕ := if r.enabled then r.avgBw else 0

def IccReq.peak (r : IccReq) : ℕ := if r.enabled then r.peakBw else 0

def total (l : List IccReq) : ℕ := (l.map IccReq.avg).sum

def top (l : List IccReq) : ℕ := (l.map IccReq.peak).foldr max 0

/-- The initial values are a floor until the state is synced. -/
def IccState.floored (s : IccState ν π) (init : ℕ) (x : ℕ) : ℕ := if s.synced then x else max x init

theorem aggregateRequest_eq (agg : ℕ × ℕ) (r : IccReq) : aggregateRequest s v agg r =
    (s.floored (s.initAvg v) ((agg.1 + r.avg) % 2 ^ 32), s.floored (s.initPeak v) (max agg.2 r.peak)) := by
  unfold aggregateRequest iccStdAggregate IccState.floored IccReq.avg IccReq.peak
  cases r.enabled <;> cases s.synced <;> rfl

/-- Where the floor is passed, requests are added and their peaks taken in. -/
theorem foldl_aggregateRequest (l : List IccReq) {a b : ℕ} (hbound : a + total l < 2 ^ 32)
    (hpassed : s.synced = true ∨ s.initAvg v ≤ a ∧ s.initPeak v ≤ b) :
    l.foldl (aggregateRequest s v) (a, b) = (a + total l, max b (top l)) := by
  induction l generalizing a b with
  | nil => simp [total, top]
  | cons r l ih =>
    have htotal : total (r :: l) = r.avg + total l := List.sum_cons
    have htop : top (r :: l) = max r.peak (top l) := rfl
    rw [htotal] at hbound
    have hmod : (a + r.avg) % 2 ^ 32 = a + r.avg := Nat.mod_eq_of_lt (by omega)
    have hstep : aggregateRequest s v (a, b) r = (a + r.avg, max b r.peak) := by
      rw [aggregateRequest_eq]
      dsimp only
      rw [hmod, IccState.floored, IccState.floored]
      cases hpassed with
      | inl hsynced => rw [if_pos hsynced, if_pos hsynced]
      | inr hpassed =>
        split
        · rfl
        · rw [Nat.max_eq_left (by omega), Nat.max_eq_left (by omega)]
    rw [List.foldl_cons, hstep, ih (by omega) (hpassed.imp_right fun h => ⟨by omega, by omega⟩), htotal, htop]
    refine Prod.ext (by dsimp only; omega) (Nat.max_assoc ..)

/-- The requests at a node. -/
def IccState.requests (net : Network ν π κ) (s : IccState ν π) (v : ν) : List IccReq := (net.reqList v).map s.req

/-- The floor changes nothing but the sum and the maximum as wholes: the first request
reaches the initial average, or no other one asks for any. -/
def Harmless (net : Network ν π κ) (s : IccState ν π) (v : ν) : Prop :=
  s.synced = true ∨
    match s.requests net v with
    | [] => s.initAvg v = 0 ∧ s.initPeak v = 0
    | r :: rest => s.initAvg v ≤ r.avg ∨ total rest = 0

/-- Sums and initial values are in range. -/
def Bounded (net : Network ν π κ) (s : IccState ν π) (v : ν) : Prop :=
  total (s.requests net v) < 2 ^ 32 ∧ s.initAvg v < 2 ^ 32

theorem aggregate_eq_floored (hbound : Bounded net s v) (hharmless : Harmless net s v) :
    aggregate net s v = (s.floored (s.initAvg v) (total (s.requests net v)),
      s.floored (s.initPeak v) (top (s.requests net v))) := by
  obtain ⟨hbound, hinit⟩ := hbound
  change (s.requests net v).foldl (aggregateRequest s v) (0, 0) = _
  unfold Harmless at hharmless
  generalize s.requests net v = l at *
  cases hsynced : s.synced with
  | true =>
    rw [foldl_aggregateRequest l (by omega) (.inl hsynced), IccState.floored, IccState.floored, hsynced, if_pos rfl,
      if_pos rfl, Nat.zero_add, Nat.zero_max]
  | false =>
    have hharmless := hharmless.resolve_left (by simp [hsynced])
    have hfloor : ∀ init x, s.floored init x = max x init := fun init x => if_neg (by simp [hsynced])
    cases l with
    | nil => simp [hfloor, hharmless.1, hharmless.2, total, top]
    | cons r rest =>
      have htotal : total (r :: rest) = r.avg + total rest := List.sum_cons
      have htop : top (r :: rest) = max r.peak (top rest) := rfl
      rw [htotal] at hbound
      have hfirst : aggregateRequest s v (0, 0) r = (max r.avg (s.initAvg v), max r.peak (s.initPeak v)) := by
        rw [aggregateRequest_eq, hfloor, hfloor, Nat.zero_add, Nat.zero_max,
          Nat.mod_eq_of_lt (by omega)]
      have hrest : max r.avg (s.initAvg v) + total rest < 2 ^ 32 ∧
          max r.avg (s.initAvg v) + total rest = max (r.avg + total rest) (s.initAvg v) := by
        obtain hle | hzero := hharmless <;> omega
      rw [List.foldl_cons, hfirst, foldl_aggregateRequest rest hrest.1 (.inr ⟨by omega, by omega⟩), hfloor, hfloor,
        htotal, htop, hrest.2]
      refine Prod.ext rfl ?_
      dsimp only
      omega

/-! ### Setting the requests of a path -/

/-- The loop at a node looks at the requests there and the initial values. -/
theorem aggregate_congr (hreq : ∀ q ∈ net.reqList v, t.req q = s.req q) (havg : t.initAvg v = s.initAvg v)
    (hpeak : t.initPeak v = s.initPeak v) (hsynced : t.synced = s.synced) : aggregate net t v = aggregate net s v := by
  have hround : aggregateRequest t v = aggregateRequest s v := by
    funext agg r
    rw [aggregateRequest_eq, aggregateRequest_eq, havg, hpeak, IccState.floored, IccState.floored, hsynced]
    rfl
  rw [aggregate, aggregate, hround, List.map_congr_left hreq]

/-- The first `n` requests of a path are changed by `f`. -/
def changedUpTo [DecidableEq π] (p : π) (f : IccReq → IccReq) (req : π × ℕ → IccReq) (n : ℕ) : π × ℕ → IccReq :=
  fun q => if q.1 = p ∧ q.2 < n then f (req q) else req q

theorem changedUpTo_zero [DecidableEq π] (p : π) (f : IccReq → IccReq) (req : π × ℕ → IccReq) :
    changedUpTo p f req 0 = req := by
  funext q
  simp [changedUpTo]

theorem changedUpTo_succ [DecidableEq π] (p : π) (f : IccReq → IccReq) (req : π × ℕ → IccReq) (n : ℕ) :
    update (changedUpTo p f req n) (p, n) (f (changedUpTo p f req n (p, n))) = changedUpTo p f req (n + 1) := by
  funext q
  by_cases hq : q = (p, n)
  · subst hq
    simp [changedUpTo]
  · have hiff : (q.1 = p ∧ q.2 < n) ↔ q.1 = p ∧ q.2 < n + 1 := by
      refine and_congr_right fun hp => ⟨fun hlt => by omega, fun hlt => ?_⟩
      have hne : q.2 ≠ n := fun h => hq (Prod.ext hp h)
      omega
    rw [update_of_ne hq]
    simp only [changedUpTo, hiff]

/-- All requests of a path are changed by `f`. -/
def changed [DecidableEq π] (net : Network ν π κ) (p : π) (f : IccReq → IccReq) (req : π × ℕ → IccReq) :
    π × ℕ → IccReq :=
  changedUpTo p f req (net.nodes p).length

/-- A node that is not on the path has no request of it. -/
theorem changed_of_not_mem [DecidableEq π] (hv : v ∉ net.nodes p) (f : IccReq → IccReq) (req : π × ℕ → IccReq) :
    ∀ q ∈ net.reqList v, changed net p f req q = req q := by
  intro q hq
  have hnode := (net.mem_reqList v q.1 q.2).mp hq
  refine if_neg fun h => hv ?_
  rw [h.1] at hnode
  exact List.mem_of_getElem? hnode

def IccReq.setBw (avgBw peakBw : ℕ) (r : IccReq) : IccReq := { r with avgBw := avgBw, peakBw := peakBw }

def IccReq.setEnabled (enable : Bool) (r : IccReq) : IccReq := { r with enabled := enable }

variable [DecidableEq ν] [DecidableEq π]

theorem setRequests_prefix (net : Network ν π κ) (p : π) (avgBw peakBw : ℕ) (s : IccState ν π) {l : List ν}
    (hl : l <+: net.nodes p) :
    let t := l.zipIdx.foldl (setRequest net p avgBw peakBw) s
    t.req = changedUpTo p (IccReq.setBw avgBw peakBw) s.req l.length ∧
      t.initAvg = s.initAvg ∧ t.initPeak = s.initPeak ∧ t.synced = s.synced ∧
      ∀ v, (t.avgBw v, t.peakBw v) = if v ∈ l then aggregate net t v else (s.avgBw v, s.peakBw v) := by
  induction l using List.reverseRecOn with
  | nil => exact ⟨(changedUpTo_zero ..).symm, rfl, rfl, rfl, fun v => by simp⟩
  | append_singleton l w ih =>
    obtain ⟨hreq, havg, hpeak, hsynced, hagg⟩ := ih ((List.prefix_append ..).trans hl)
    rw [List.zipIdx_append, List.foldl_append]
    simp only [List.zipIdx_cons, List.zipIdx_nil, Nat.zero_add, List.foldl_cons, List.foldl_nil]
    generalize l.zipIdx.foldl (setRequest net p avgBw peakBw) s = t at *
    have hw : (net.nodes p)[l.length]? = some w := by
      obtain ⟨rest, hrest⟩ := hl
      rw [← hrest]
      simp
    have hstep : (setRequest net p avgBw peakBw t (w, l.length)).req =
        update t.req (p, l.length) ((t.req (p, l.length)).setBw avgBw peakBw) := rfl
    refine ⟨?_, havg, hpeak, hsynced, fun v => ?_⟩
    · rw [hstep, hreq, List.length_append, List.length_singleton]
      exact changedUpTo_succ p (IccReq.setBw avgBw peakBw) s.req l.length
    · have hsame : aggregate net (setRequest net p avgBw peakBw t (w, l.length)) w =
          aggregate net { t with req := (setRequest net p avgBw peakBw t (w, l.length)).req } w :=
        aggregate_congr (fun _ _ => rfl) rfl rfl rfl
      by_cases hvw : v = w
      · subst hvw
        rw [if_pos (by simp), hsame]
        simp [setRequest, aggregateRequests]
      · have hother : aggregate net (setRequest net p avgBw peakBw t (w, l.length)) v = aggregate net t v := by
          refine aggregate_congr (fun q hq => ?_) rfl rfl rfl
          rw [hstep]
          refine update_of_ne (fun heq => hvw ?_) ..
          have hnode := (net.mem_reqList v q.1 q.2).mp hq
          rw [heq, hw] at hnode
          exact (Option.some.inj hnode).symm
        have hkept : ((setRequest net p avgBw peakBw t (w, l.length)).avgBw v,
            (setRequest net p avgBw peakBw t (w, l.length)).peakBw v) = (t.avgBw v, t.peakBw v) := by
          simp [setRequest, aggregateRequests, hvw]
        rw [hkept, hagg v, hother]
        simp [hvw]

theorem setRequests_spec (net : Network ν π κ) (p : π) (avgBw peakBw : ℕ) (s : IccState ν π) :
    let t := setRequests net p avgBw peakBw s
    t.req = changed net p (IccReq.setBw avgBw peakBw) s.req ∧
      t.initAvg = s.initAvg ∧ t.initPeak = s.initPeak ∧ t.synced = s.synced ∧
      ∀ v, (t.avgBw v, t.peakBw v) = if v ∈ net.nodes p then aggregate net t v else (s.avgBw v, s.peakBw v) :=
  setRequests_prefix net p avgBw peakBw s List.prefix_rfl

/-- Every node has the aggregates of the requests as they are. -/
def Current (net : Network ν π κ) (s : IccState ν π) : Prop :=
  ∀ v, (s.avgBw v, s.peakBw v) = aggregate net s v

theorem setRequests_current (h : ∀ v, v ∉ net.nodes p → (s.avgBw v, s.peakBw v) = aggregate net s v) (avgBw peakBw : ℕ) :
    Current net (setRequests net p avgBw peakBw s) := by
  obtain ⟨hreq, havg, hpeak, hsynced, hagg⟩ := setRequests_spec net p avgBw peakBw s
  intro v
  by_cases hv : v ∈ net.nodes p
  · rw [hagg v, if_pos hv]
  · rw [hagg v, if_neg hv, h v hv]
    refine (aggregate_congr (fun q hq => ?_) (congrFun havg v) (congrFun hpeak v) hsynced).symm
    rw [hreq]
    exact changed_of_not_mem hv _ _ q hq

/-! ### Calls -/

/-- The requests of a path ask for the same bandwidth at all of its nodes. -/
def Uniform (net : Network ν π κ) (s : IccState ν π) : Prop :=
  ∀ p i, i < (net.nodes p).length →
    (s.req (p, i)).avgBw = (s.req (p, 0)).avgBw ∧ (s.req (p, i)).peakBw = (s.req (p, 0)).peakBw

def Fine (net : Network ν π κ) (s : IccState ν π) : Prop := ∀ v, Bounded net s v ∧ Harmless net s v

/-- Each node has the sum and the maximum of the requests of all paths through it,
with the initial values as a floor, in whatever order they are taken. -/
def Accurate (net : Network ν π κ) (s : IccState ν π) : Prop :=
  ∀ v (l : List (π × ℕ)), l.Perm (net.reqList v) → s.avgBw v = s.floored (s.initAvg v) (total (l.map s.req)) ∧
    s.peakBw v = s.floored (s.initPeak v) (top (l.map s.req))

theorem top_perm {l l' : List IccReq} (h : l.Perm l') : top l = top l' :=
  (h.map IccReq.peak).foldr_eq 0

theorem total_perm {l l' : List IccReq} (h : l.Perm l') : total l = total l' :=
  (h.map IccReq.avg).sum_eq

omit [DecidableEq ν] [DecidableEq π] in
theorem current_iff_accurate (hfine : Fine net s) : Current net s ↔ Accurate net s := by
  constructor
  · intro h v l hperm
    have hv := h v
    rw [aggregate_eq_floored (hfine v).1 (hfine v).2] at hv
    have hperm := hperm.map s.req
    rw [total_perm hperm, top_perm hperm]
    exact ⟨congrArg Prod.fst hv, congrArg Prod.snd hv⟩
  · intro h v
    obtain ⟨havg, hpeak⟩ := h v _ (List.Perm.refl _)
    rw [aggregate_eq_floored (hfine v).1 (hfine v).2]
    exact Prod.ext havg hpeak

omit [DecidableEq ν] in
/-- To set the bandwidth that a path has changes nothing. -/
theorem changed_same (huniform : Uniform net s) (p : π) :
    changed net p (IccReq.setBw (s.req (p, 0)).avgBw (s.req (p, 0)).peakBw) s.req = s.req := by
  funext ⟨q, i⟩
  by_cases hq : q = p ∧ i < (net.nodes p).length
  · obtain ⟨rfl, hi⟩ := hq
    obtain ⟨havg, hpeak⟩ := huniform q i hi
    simp only [changed, changedUpTo, hi, and_self, if_true, IccReq.setBw]
    rw [← havg, ← hpeak]
  · simp only [changed, changedUpTo, hq, if_false]

omit [DecidableEq ν] in
theorem changed_setBw_setBw (net : Network ν π κ) (p : π) (a b a' b' : ℕ) (req : π × ℕ → IccReq) :
    changed net p (IccReq.setBw a b) (changed net p (IccReq.setBw a' b') req) =
      changed net p (IccReq.setBw a b) req := by
  funext q
  simp only [changed, changedUpTo]
  split <;> rfl

theorem setRequests_back (huniform : Uniform net s) (hcurrent : Current net s) (p : π) (avgBw peakBw : ℕ) :
    setRequests net p (s.req (p, 0)).avgBw (s.req (p, 0)).peakBw (setRequests net p avgBw peakBw s) = s := by
  obtain ⟨hreq, havg, hpeak, hsynced, hagg⟩ := setRequests_spec net p avgBw peakBw s
  obtain ⟨hreq', havg', hpeak', hsynced', hagg'⟩ := setRequests_spec net p (s.req (p, 0)).avgBw (s.req (p, 0)).peakBw
    (setRequests net p avgBw peakBw s)
  rw [havg] at havg'
  rw [hpeak] at hpeak'
  rw [hsynced] at hsynced'
  rw [hreq, changed_setBw_setBw, changed_same huniform] at hreq'
  have hback : ∀ v, ((setRequests net p (s.req (p, 0)).avgBw (s.req (p, 0)).peakBw
      (setRequests net p avgBw peakBw s)).avgBw v, (setRequests net p (s.req (p, 0)).avgBw (s.req (p, 0)).peakBw
      (setRequests net p avgBw peakBw s)).peakBw v) = (s.avgBw v, s.peakBw v) := by
    intro v
    rw [hagg' v]
    by_cases hv : v ∈ net.nodes p
    · rw [if_pos hv, hcurrent v]
      exact aggregate_congr (fun q _ => congrFun hreq' q) (congrFun havg' v) (congrFun hpeak' v) hsynced'
    · rw [if_neg hv, hagg v, if_neg hv]
  ext v
  · exact congrArg Prod.fst (hback v)
  · exact congrArg Prod.snd (hback v)
  all_goals simp only [hreq', havg', hpeak', hsynced']

/-- A state with other requests on a path. -/
def IccState.ask (net : Network ν π κ) (s : IccState ν π) (p : π) (f : IccReq → IccReq) : IccState ν π :=
  { s with req := changed net p f s.req }

omit [DecidableEq ν] in
theorem setEnabled_eq (net : Network ν π κ) (p : π) (enable : Bool) (s : IccState ν π) :
    setEnabled net p enable s = s.ask net p (IccReq.setEnabled enable) := by
  have hpre : ∀ l : List ν, (l.zipIdx.foldl (fun req next =>
      update req (p, next.2) ((req (p, next.2)).setEnabled enable)) s.req) =
      changedUpTo p (IccReq.setEnabled enable) s.req l.length := by
    intro l
    induction l using List.reverseRecOn with
    | nil => exact (changedUpTo_zero ..).symm
    | append_singleton l w ih =>
      rw [List.zipIdx_append, List.foldl_append, ih, List.length_append, List.length_singleton, ← changedUpTo_succ]
      simp
  exact congrArg (fun req => { s with req := req }) (hpre (net.nodes p))

/-- What holds between the calls. -/
structure Sound (net : Network ν π κ) (s : IccState ν π) : Prop where
  uniform : Uniform net s
  current : Current net s
  fine : Fine net s

omit [DecidableEq ν] [DecidableEq π] in
theorem Fine.congr (h : Fine net s) (hreq : t.req = s.req) (havg : t.initAvg = s.initAvg)
    (hpeak : t.initPeak = s.initPeak) (hsynced : t.synced = s.synced) : Fine net t := by
  intro v
  have hv := h v
  simp only [Bounded, Harmless, IccState.requests, hreq, havg, hpeak, hsynced] at hv ⊢
  exact hv

theorem setRequests_sound (huniform : Uniform net s)
    (hcurrent : ∀ v, v ∉ net.nodes p → (s.avgBw v, s.peakBw v) = aggregate net s v) (avgBw peakBw : ℕ)
    (hfine : Fine net (s.ask net p (IccReq.setBw avgBw peakBw))) :
    Sound net (setRequests net p avgBw peakBw s) := by
  obtain ⟨hreq, havg, hpeak, hsynced, -⟩ := setRequests_spec net p avgBw peakBw s
  refine ⟨fun q i hi => ?_, setRequests_current hcurrent avgBw peakBw, hfine.congr hreq havg hpeak hsynced⟩
  rw [hreq]
  by_cases hq : q = p
  · subst hq
    have hpos : 0 < (net.nodes q).length := by omega
    simp [changed, changedUpTo, hi, hpos, IccReq.setBw]
  · simp only [changed, changedUpTo, hq, false_and, if_false]
    exact huniform q i hi

variable [DecidableEq κ]

/-- The requests of a path are enabled or disabled: if this is refused they were so
before, and otherwise the floor is harmless with the new requests. -/
def EnableAllowed (net : Network ν π κ) (set : ℕ → ℤ) (s : IccState ν π) (p : π) (enable : Bool) : Prop :=
  if applyConstraints net set p ≠ 0 then ∀ i < (net.nodes p).length, (s.req (p, i)).enabled = enable
  else Fine net (s.ask net p (IccReq.setEnabled enable))

/-- The floor is harmless with the requests that a call makes, and a call that is
refused does not enable or disable anything. -/
def Allowed (net : Network ν π κ) (s : IccState ν π) (a : Call π × (ℕ → ℤ)) : Prop :=
  match a.1 with
  | .setBw (.path p) avgBw peakBw =>
      applyConstraints net a.2 p = 0 → Fine net (s.ask net p (IccReq.setBw avgBw peakBw))
  | .enable (.path p) => EnableAllowed net a.2 s p true
  | .disable (.path p) => EnableAllowed net a.2 s p false
  | _ => True

theorem setBw_sound (h : Sound net s) (set : ℕ → ℤ) (p : π) (avgBw peakBw : ℕ)
    (hallowed : applyConstraints net set p = 0 →
      Fine net (s.ask net p (IccReq.setBw avgBw peakBw))) :
    Sound net (setBw net set s p avgBw peakBw).1 ∧
      ((setBw net set s p avgBw peakBw).2 ≠ 0 → (setBw net set s p avgBw peakBw).1 = s) := by
  unfold setBw
  dsimp only
  by_cases hret : applyConstraints net set p = 0
  · rw [if_neg (not_not.mpr hret)]
    exact ⟨setRequests_sound h.uniform (fun v _ => h.current v) avgBw peakBw (hallowed hret), fun hne => absurd hret hne⟩
  · rw [if_pos hret, setRequests_back h.uniform h.current]
    exact ⟨h, fun _ => rfl⟩

theorem iccEnableWith_sound (h : Sound net s) (set : ℕ → ℤ) (path : IccPath π) (enable : Bool)
    (hallowed : ∀ p, path = .path p → EnableAllowed net set s p enable) :
    Sound net (iccEnableWith net set s path enable).1 ∧
      ((iccEnableWith net set s path enable).2 ≠ 0 → (iccEnableWith net set s path enable).1 = s) := by
  cases path with
  | null => exact ⟨h, fun _ => rfl⟩
  | invalid => exact ⟨h, fun _ => rfl⟩
  | path p =>
    have hallowed := hallowed p rfl
    unfold EnableAllowed at hallowed
    rw [iccEnableWith]
    by_cases hnodes : net.nodes p = []
    · rw [if_pos hnodes]
      exact ⟨h, fun _ => rfl⟩
    · rw [if_neg hnodes]
      dsimp only
      rw [iccSetBw, if_neg hnodes]
      by_cases hret : applyConstraints net set p = 0
      · rw [if_neg (not_not.mpr hret)] at hallowed
        rw [setEnabled_eq]
        have huniform : Uniform net (s.ask net p (IccReq.setEnabled enable)) := by
          intro q i hi
          have hq := h.uniform q i hi
          have hpos : 0 < (net.nodes q).length := by omega
          by_cases heq : q = p
          · subst heq
            simpa [IccState.ask, changed, changedUpTo, hi, hpos, IccReq.setEnabled] using hq
          · simpa [IccState.ask, changed, changedUpTo, heq] using hq
        have hcurrent : ∀ v, v ∉ net.nodes p → (s.avgBw v, s.peakBw v) =
            aggregate net (s.ask net p (IccReq.setEnabled enable)) v := by
          intro v hv
          have hsame : ∀ q ∈ net.reqList v, (s.ask net p (IccReq.setEnabled enable)).req q = s.req q :=
            changed_of_not_mem hv _ s.req
          rw [h.current v, aggregate_congr hsame rfl rfl rfl]
        -- the bandwidth that is set again is the one the requests have
        have hfine := hallowed.congr (t := (s.ask net p (IccReq.setEnabled enable)).ask net p _)
          (changed_same huniform p) rfl rfl rfl
        unfold setBw
        dsimp only
        rw [if_neg (not_not.mpr hret)]
        exact ⟨setRequests_sound huniform hcurrent _ _ hfine, fun hne => absurd hret hne⟩
      · rw [if_pos hret] at hallowed
        have hkept : changed net p (IccReq.setEnabled enable) s.req = s.req := by
          funext ⟨q, i⟩
          by_cases hq : q = p ∧ i < (net.nodes p).length
          · obtain ⟨rfl, hi⟩ := hq
            simp only [changed, changedUpTo, hi, and_self, if_true, IccReq.setEnabled]
            rw [← hallowed i hi]
          · simp only [changed, changedUpTo, hq, if_false]
        have hsame : setEnabled net p enable s = s := by
          rw [setEnabled_eq, IccState.ask, hkept]
        rw [hsame]
        exact setBw_sound h set p _ _ fun h0 => absurd h0 hret

omit [DecidableEq ν] [DecidableEq π] [DecidableEq κ] in
theorem iccSyncState_sound (h : Sound net s) : Sound net (iccSyncState net s) := by
  have hsame : ∀ v, aggregate net (iccSyncState net s) v =
      aggregate net { s with synced := true, initAvg := fun _ => 0, initPeak := fun _ => 0 } v :=
    fun v => aggregate_congr (fun _ _ => rfl) rfl rfl rfl
  refine ⟨h.uniform, fun v => ?_, fun v => ⟨⟨(h.fine v).1.1, by simp [iccSyncState]⟩, .inl rfl⟩⟩
  rw [hsame]
  by_cases hboot : s.initAvg v ≠ 0 ∨ s.initPeak v ≠ 0
  · simp [iccSyncState, hboot]
  · simp only [iccSyncState, hboot, decide_false, Bool.false_eq_true, if_false]
    rw [not_or, not_not, not_not] at hboot
    rw [h.current v, aggregate, aggregate]
    -- without initial values the floor does nothing
    have hround : aggregateRequest s v =
        aggregateRequest { s with synced := true, initAvg := fun _ => 0, initPeak := fun _ => 0 } v := by
      funext agg r
      rw [aggregateRequest_eq, aggregateRequest_eq]
      simp [IccState.floored, hboot.1, hboot.2]
    rw [hround]

theorem call_sound (h : Sound net s) {a : Call π × (ℕ → ℤ)} (ha : Allowed net s a) :
    Sound net (call net a.2 s a.1).1 ∧ ((call net a.2 s a.1).2 ≠ 0 → (call net a.2 s a.1).1 = s) := by
  obtain ⟨a, set⟩ := a
  cases a with
  | setBw path avgBw peakBw =>
    cases path with
    | null => exact ⟨h, fun _ => rfl⟩
    | invalid => exact ⟨h, fun _ => rfl⟩
    | path p =>
      simp only [call, iccSetBw]
      by_cases hnodes : net.nodes p = []
      · rw [if_pos hnodes]
        exact ⟨h, fun _ => rfl⟩
      · rw [if_neg hnodes]
        exact setBw_sound h set p avgBw peakBw ha
  | enable path => exact iccEnableWith_sound h set path true fun p hp => by subst hp; exact ha
  | disable path => exact iccEnableWith_sound h set path false fun p hp => by subst hp; exact ha
  | syncState => exact ⟨iccSyncState_sound h, fun hne => absurd rfl hne⟩

/-- Two paths over the same two nodes of one provider. -/
def twoPaths : Network Bool Bool Unit where
  provider := fun _ => ()
  interSet := fun _ => false
  nodes := fun _ => [false, true]
  reqList := fun v => if v then [(true, 1), (false, 1)] else [(true, 0), (false, 0)]
  nodup := by decide
  mem_reqList := by
    intro v p i
    match v, p, i with
    | false, false, 0 | false, true, 0 | true, false, 0 | true, true, 0 => decide
    | false, false, 1 | false, true, 1 | true, false, 1 | true, true, 1 => decide
    | false, false, i + 2 | false, true, i + 2 | true, false, i + 2 | true, true, i + 2 => simp

/-- The nodes as `icc_node_add` leaves them, with requests for nothing. -/
def freshState (initAvg : ℕ) : IccState Bool Bool where
  avgBw := fun _ => 0
  peakBw := fun _ => 0
  req := fun _ => ⟨true, 0, 0⟩
  initAvg := fun _ => initAvg
  initPeak := fun _ => 0
  synced := false

end GfpDrivers.Interconnect
