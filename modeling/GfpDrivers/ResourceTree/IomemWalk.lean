import GfpDrivers.Lib.Rounds
import GfpDrivers.ResourceTree.Preorder
import GfpDrivers.ResourceTree.ReserveSplit

/-!
The walks over the I/O memory tree: `find_next_iomem_res`, `__walk_iomem_res_desc` and
`walk_system_ram_range`. A walk hands the parts of the wanted resources to a callback,
one after the other, and starts over behind each part.

What is wanted is a list of ranges (`wantedSpans`), and a walk goes through what they
cover (`Span.Pieces`). It misses the last address if the part before it ends just there, or
if the window is no longer than that address; and behind the last address of all the
walk starts over at zero.
-/

namespace GfpDrivers.ResourceTree

open Lib

def IORESOURCE_MEM : ℕ := 0x00000200
def IORESOURCE_SYSRAM : ℕ := 0x01000000
def IORESOURCE_SYSTEM_RAM : ℕ := IORESOURCE_MEM ||| IORESOURCE_SYSRAM

def PAGE_SIZE : ℕ := 4096
def PAGE_SHIFT : ℕ := 12

/-- The loop of `find_next_iomem_res`. -/
def findNextIomemLoop (h : Heap) (fuel start end_ flags desc : ℕ) : ℕ → Option ℕ → Option (Option ℕ)
  | 0, _ => none
  | _ + 1, none => some none
  | rounds + 1, some p =>
      if end_ < (h p).start then some none
      else if (h p).end_ < start then
        (nextResource h fuel p).bind (findNextIomemLoop h fuel start end_ flags desc rounds)
      else if (h p).flags &&& flags ≠ flags then
        (nextResource h fuel p).bind (findNextIomemLoop h fuel start end_ flags desc rounds)
      else if desc ≠ IORES_DESC_NONE ∧ desc ≠ (h p).desc then
        (nextResource h fuel p).bind (findNextIomemLoop h fuel start end_ flags desc rounds)
      else some (some p)

/-- `find_next_iomem_res` -/
def findNextIomemRes (fuel : ℕ) (h : Heap) (iomem start end_ flags desc : ℕ) : Option (Except ℤ Resource) :=
  if end_ ≤ start then some (.error (-EINVAL))
  else
    (findNextIomemLoop h fuel start end_ flags desc fuel (h iomem).child).map fun
      | none => .error (-ENODEV)
      | some p =>
          .ok
            { Resource.zero with
              start := max start (h p).start
              end_ := min end_ (h p).end_
              flags := (h p).flags
              desc := (h p).desc
              parent := (h p).parent }

/-- The variables of a walk, and what the callback was called with. -/
structure Walk (κ : Type) where
  start : ℕ
  ret : ℤ
  calls : List κ

/-- One round of the loop of `__walk_iomem_res_desc`. What the callback returns may depend on
the calls before. -/
def walkTurn (fuel : ℕ) (h : Heap) (iomem end_ flags desc : ℕ) (func : List Resource → Resource → ℤ)
    (w : Walk Resource) : Option (Turn (Walk Resource)) :=
  if w.start < end_ then
    (findNextIomemRes fuel h iomem w.start end_ flags desc).map fun
      | .error _ => .done w
      | .ok res =>
          let w := { w with ret := func w.calls res, calls := w.calls ++ [res] }
          if w.ret ≠ 0 then .done w else .again { w with start := (res.end_ + 1) % 2 ^ 64 }
  else some (.done w)

/-- `__walk_iomem_res_desc`, with at most `n` rounds, and so `walk_iomem_res_desc`. -/
def doWalkIomemResDesc (fuel n : ℕ) (h : Heap) (iomem start end_ flags desc : ℕ)
    (func : List Resource → Resource → ℤ) : Option (Walk Resource) :=
  rounds (walkTurn fuel h iomem end_ flags desc func) n ⟨start, -EINVAL, []⟩

/-- `PFN_UP` -/
def pfnUp (x : ℕ) : ℕ := (x + (PAGE_SIZE - 1)) % 2 ^ 64 >>> PAGE_SHIFT

/-- `PFN_DOWN` -/
def pfnDown (x : ℕ) : ℕ := x >>> PAGE_SHIFT

/-- One round of the loop of `walk_system_ram_range`. -/
def ramTurn (fuel : ℕ) (h : Heap) (iomem end_ : ℕ) (func : List (ℕ × ℕ) → ℕ × ℕ → ℤ) (w : Walk (ℕ × ℕ)) :
    Option (Turn (Walk (ℕ × ℕ))) :=
  if w.start < end_ then
    (findNextIomemRes fuel h iomem w.start end_ (IORESOURCE_SYSTEM_RAM ||| IORESOURCE_BUSY) IORES_DESC_NONE).map fun
      | .error _ => .done w
      | .ok res =>
          let pfn := pfnUp res.start
          let endPfn := pfnDown ((res.end_ + 1) % 2 ^ 64)
          let w :=
            if pfn < endPfn then
              { w with ret := func w.calls (pfn, endPfn - pfn), calls := w.calls ++ [(pfn, endPfn - pfn)] }
            else w
          if w.ret ≠ 0 then .done w else .again { w with start := (res.end_ + 1) % 2 ^ 64 }
  else some (.done w)

/-- `start` in `walk_system_ram_range`. -/
def ramStart (startPfn : ℕ) : ℕ := startPfn <<< PAGE_SHIFT % 2 ^ 64

/-- `end` in `walk_system_ram_range`. -/
def ramEnd (startPfn nrPages : ℕ) : ℕ :=
  ((startPfn + nrPages) % 2 ^ 64 <<< PAGE_SHIFT % 2 ^ 64 + (2 ^ 64 - 1)) % 2 ^ 64

/-- `walk_system_ram_range`, with at most `n` rounds. -/
def walkSystemRamRange (fuel n : ℕ) (h : Heap) (iomem startPfn nrPages : ℕ) (func : List (ℕ × ℕ) → ℕ × ℕ → ℤ) :
    Option (Walk (ℕ × ℕ)) :=
  rounds (ramTurn fuel h iomem (ramEnd startPfn nrPages) func) n ⟨ramStart startPfn, -EINVAL, []⟩

variable {h : Heap} {root fuel start end_ flags desc s stop n : ℕ} {p e : Option ℕ} {T K : Forest ℕ} {cs : List ℕ}

/-! ### Finding the next part -/

/-- The resource has the flags and the descriptor that are looked for. -/
def Resource.Wanted (r : Resource) (flags desc : ℕ) : Prop :=
  r.flags &&& flags = flags ∧ (desc = IORES_DESC_NONE ∨ desc = r.desc)

instance Resource.decidableWanted (r : Resource) (flags desc : ℕ) : Decidable (r.Wanted flags desc) :=
  inferInstanceAs (Decidable (_ ∧ _))

/-- The ranges of the wanted resources below the root. -/
def wantedSpans (h : Heap) (T : Forest ℕ) (flags desc : ℕ) : List (Span ℕ) :=
  (T.nodes.filter fun a => (h a).Wanted flags desc).map fun a => (h a).span

/-- The resource is wanted, and has a part from `start` to `end_`. -/
def hits (h : Heap) (start end_ flags desc a : ℕ) : Bool :=
  (h a).Wanted flags desc && Span.reaches start end_ (h a).span

theorem hits_iff {a : ℕ} :
    hits h start end_ flags desc a ↔ (h a).Wanted flags desc ∧ start ≤ (h a).end_ ∧ (h a).start ≤ end_ := by
  rw [hits, Bool.and_eq_true, decide_eq_true_eq, Span.reaches_iff]
  rfl

theorem mem_wantedSpans {J : Span ℕ} :
    J ∈ wantedSpans h T flags desc ↔ ∃ a ∈ T.nodes, (h a).Wanted flags desc ∧ (h a).span = J := by
  simp [wantedSpans, and_assoc]

theorem Leads.path (hleads : Leads h fuel K p e) :
    Path (fun a => (nextResource h fuel a).getD none) p K.nodes e ∧ ∀ a ∈ K.nodes, nextResource h fuel a ≠ none := by
  induction K generalizing p e with
  | nil => exact ⟨hleads, by simp⟩
  | cons a kids rest ihk ihr =>
    obtain ⟨hp, c, m, hnext, -, hkids, hrest⟩ := hleads
    obtain ⟨hpk, hsk⟩ := ihk hkids
    obtain ⟨hpr, hsr⟩ := ihr hrest
    refine ⟨⟨hp, path_append.mpr ⟨m, ?_, hpr⟩⟩, ?_⟩
    · simpa only [hnext, Option.getD_some] using hpk
    · intro b hb
      simp only [Forest.nodes_cons, List.mem_cons, List.mem_append] at hb
      rcases hb with rfl | hb | hb
      · simp [hnext]
      · exact hsk b hb
      · exact hsr b hb

/-- The loop finds the first wanted resource that reaches into the window. It stops early
because no later one starts before a resource that is behind the window. -/
theorem findNextIomemLoop_eq (hp : Path (fun a => (nextResource h fuel a).getD none) p cs none)
    (hnext : ∀ a ∈ cs, nextResource h fuel a ≠ none) (hsorted : cs.Pairwise fun a b => (h a).start ≤ (h b).start)
    (hn : cs.length < n) (start end_ flags desc : ℕ) :
    findNextIomemLoop h fuel start end_ flags desc n p = some (cs.find? (hits h start end_ flags desc)) := by
  induction cs generalizing p n with
  | nil =>
    obtain ⟨n, rfl⟩ := Nat.exists_eq_add_one_of_ne_zero (show n ≠ 0 by omega)
    have hp' : p = none := hp
    rw [hp', findNextIomemLoop, List.find?_nil]
  | cons a cs ih =>
    obtain ⟨n, rfl⟩ := Nat.exists_eq_add_one_of_ne_zero (show n ≠ 0 by omega)
    obtain ⟨hpa, hrest⟩ := hp
    obtain ⟨hfirst, hsorted⟩ := List.pairwise_cons.mp hsorted
    obtain ⟨m, hm⟩ := Option.ne_none_iff_exists'.mp (hnext a (by simp))
    simp only [hm, Option.getD_some] at hrest
    have hskip := ih hrest (fun b hb => hnext b (by simp [hb])) hsorted (by simpa using hn)
    rw [hpa, findNextIomemLoop]
    by_cases hbehind : end_ < (h a).start
    · rw [if_pos hbehind, List.find?_eq_none.mpr]
      intro b hb hhit
      have hstart : end_ < (h b).start := by
        rcases List.mem_cons.mp hb with rfl | hb
        · exact hbehind
        · exact hbehind.trans_le (hfirst b hb)
      exact absurd (hits_iff.mp hhit).2.2 (not_le.mpr hstart)
    · rw [if_neg hbehind, hm, Option.bind_some, hskip]
      by_cases hreach : (h a).end_ < start
      · rw [if_pos hreach, List.find?_cons_of_neg fun hit => absurd (hits_iff.mp hit).2.1 (not_le.mpr hreach)]
      rw [if_neg hreach]
      by_cases hflags : (h a).flags &&& flags = flags
      · rw [if_neg (not_not_intro hflags)]
        by_cases hdesc : desc = IORES_DESC_NONE ∨ desc = (h a).desc
        · rw [if_neg (by tauto), List.find?_cons_of_pos]
          exact hits_iff.mpr ⟨⟨hflags, hdesc⟩, not_lt.mp hreach, not_lt.mp hbehind⟩
        · rw [if_pos (by tauto), List.find?_cons_of_neg fun hit => hdesc (hits_iff.mp hit).1.2]
      · rw [if_pos hflags, List.find?_cons_of_neg fun hit => hflags (hits_iff.mp hit).1.1]

/-- What the next part is: the first piece of what the wanted resources cover. -/
theorem Iomem.findNextIomemRes (hio : Iomem h root T) (hfuel : T.nodes.length < fuel) (flags desc : ℕ) (hlt : s < stop) :
    (ResourceTree.findNextIomemRes fuel h root s stop flags desc = some (.error (-ENODEV)) ∧
      ∀ x, s ≤ x → x ≤ stop → ¬Span.Covers (wantedSpans h T flags desc) x) ∨
    ∃ res, ResourceTree.findNextIomemRes fuel h root s stop flags desc = some (.ok res) ∧
      Span.FirstPiece (wantedSpans h T flags desc) s stop res.span := by
  have hsorted : T.nodes.Pairwise fun a b => (h a).start ≤ (h b).start :=
    (List.pairwise_map.mp hio.precedes).imp fun hab => hab.1
  obtain ⟨hpath, hnext⟩ := (hio.leads hfuel).path
  have hloop := findNextIomemLoop_eq hpath hnext hsorted hfuel s stop flags desc
  have hfind : (wantedSpans h T flags desc).find? (Span.reaches s stop) =
      (T.nodes.find? (hits h s stop flags desc)).map fun a => (h a).span := by
    rw [wantedSpans, List.find?_map, List.find?_filter]
    congr 2
    funext a
    refine Bool.eq_iff_iff.mpr ?_
    rw [decide_eq_true_eq, decide_eq_true_eq, hits_iff, Function.comp_apply, Span.reaches_iff]
    rfl
  rw [ResourceTree.findNextIomemRes, if_neg (not_le.mpr hlt), hloop]
  cases hres : T.nodes.find? (hits h s stop flags desc) with
  | none =>
    rw [hres] at hfind
    exact .inl ⟨rfl, fun x hsx hxs => Span.not_covers_of_find hfind hsx hxs⟩
  | some a =>
    rw [hres] at hfind
    refine .inr ⟨_, rfl, ?_⟩
    refine Span.firstPiece_of_find ?_ ?_ hlt.le hfind
    · rw [wantedSpans, List.pairwise_map]
      exact (List.pairwise_map.mp hio.precedes).sublist List.filter_sublist
    · intro J hJ
      obtain ⟨b, hb, -, rfl⟩ := mem_wantedSpans.mp hJ
      exact (hio.wellFormed.fits_root hb).1

/-! ### Rounds -/

variable {κ : Type} {S : List (Span ℕ)} {I : Span ℕ} {body : Walk κ → Option (Turn (Walk κ))} {w : Walk κ}

/-- `w'` starts behind the first piece from where `w` starts. -/
def Advances (S : List (Span ℕ)) (stop : ℕ) (w w' : Walk κ) : Prop :=
  w.start < stop ∧ ∃ I, Span.FirstPiece S w.start stop I ∧ w'.start = (I.hi + 1) % 2 ^ 64

/-- The walk goes past the last address, and so past the last one of all. -/
def Wraps (S : List (Span ℕ)) (stop : ℕ) : Prop :=
  stop = 2 ^ 64 - 1 ∧ Span.Covers S stop ∧ Span.Straddles S stop

/-- The loop returns, and `start` gets larger with each round. -/
def Progresses (body : Walk κ → Option (Turn (Walk κ))) (w : Walk κ) : Prop :=
  (∃ n t, rounds body n w = some t) ∧
    ∀ s t, Goes body w s → body s = some (.again t) → s.start < t.start

theorem hi_lt_of_not_wraps (hI : Span.FirstPiece S s stop I) (hlt : s < stop) (hstop : stop < 2 ^ 64)
    (hno : ¬Wraps S stop) : I.hi + 1 < 2 ^ 64 := by
  have hle := hI.le_hi
  by_contra hge
  have heq : I.hi = stop := by omega
  refine hno ⟨by omega, heq ▸ hI.covers hI.contains_hi, ?_⟩
  by_contra hstr
  have := hI.hi_lt hlt hstr
  omega

theorem progresses_of_advances (hstop : stop < 2 ^ 64) (hno : w.start < stop → ¬Wraps S stop)
    (hturn : ∀ w, (∃ t, body w = some (.done t)) ∨ ∃ t, Advances S stop w t ∧ body w = some (.again t)) :
    Progresses body w := by
  have hstep : ∀ s t : Walk κ, w.start ≤ s.start → Advances S stop s t → s.start < t.start ∧ t.start ≤ stop + 1 := by
    rintro s t hws ⟨hlt, I, hI, ht⟩
    have hend := hi_lt_of_not_wraps hI hlt hstop (hno (by omega))
    rw [Nat.mod_eq_of_lt hend] at ht
    have := hI.lo_le
    have := hI.valid
    have := hI.le_hi
    omega
  have hagain : ∀ s t, w.start ≤ s.start → body s = some (.again t) → Advances S stop s t := by
    intro s t _ ht
    rcases hturn s with ⟨t', ht'⟩ | ⟨t', hadv, ht'⟩
    · rw [ht] at ht'
      cases ht'
    · rw [ht] at ht'
      cases ht'
      exact hadv
  refine ⟨?_, fun s t hgoes ht => ?_⟩
  · have hpays : ∀ s : Walk κ, w.start ≤ s.start → (∃ t, body s = some (.done t)) ∨
        ∃ t, body s = some (.again t) ∧ w.start ≤ t.start ∧ stop + 1 - t.start < stop + 1 - s.start := by
      intro s hws
      rcases hturn s with hdone | ⟨t, hadv, ht⟩
      · exact .inl hdone
      · have := hstep s t hws hadv
        exact .inr ⟨t, ht, by omega, by omega⟩
    obtain ⟨-, t, hrun, -⟩ := rounds_of_measure (fun s : Walk κ => stop + 1 - s.start) hpays le_rfl (Nat.lt_succ_self _)
    exact ⟨_, t, hrun⟩
  · have hws := hgoes.invariant (I := fun s => w.start ≤ s.start) (fun s t hws ht => by
      have := hstep s t hws (hagain s t hws ht)
      omega) le_rfl
    exact (hstep s t hws (hagain s t hws ht)).1

/-- Behind the last address of all, the walk begins again. -/
theorem rounds_eq_none_of_wraps {J : Walk κ → Prop} (hwraps : Wraps S stop)
    (hturn : ∀ w, J w → w.start < stop → ∃ t, Advances S stop w t ∧ J t ∧ body w = some (.again t))
    (hJ : J w) (hlt : w.start < stop) (n : ℕ) : rounds body n w = none := by
  obtain ⟨hstop, -, hstr⟩ := hwraps
  refine rounds_eq_none (I := fun w => J w ∧ w.start < stop) (fun w ⟨hJ, hlt⟩ => ?_) ⟨hJ, hlt⟩ n
  obtain ⟨t, ⟨-, I, hI, hstart⟩, hJt, ht⟩ := hturn w hJ hlt
  have hle := hI.le_hi
  have hne := hI.hi_ne hstr
  refine ⟨t, ht, hJt, ?_⟩
  by_cases hlast : I.hi = stop
  · rw [hstart, hlast, hstop]
    decide
  · rw [hstart, Nat.mod_eq_of_lt (by omega)]
    omega

/-! ### The walk over the wanted resources -/

section

variable {func : List Resource → Resource → ℤ} {v : Walk Resource}

theorem Iomem.walkTurn (hio : Iomem h root T) (hfuel : T.nodes.length < fuel) (hfunc : ∀ calls res, func calls res = 0)
    (stop flags desc : ℕ) (v : Walk Resource) :
    (ResourceTree.walkTurn fuel h root stop flags desc func v = some (.done v) ∧
      ∀ x, v.start ≤ x → x < stop ∨ v.start < stop ∧ x = stop → ¬Span.Covers (wantedSpans h T flags desc) x) ∨
    ∃ res, v.start < stop ∧ Span.FirstPiece (wantedSpans h T flags desc) v.start stop res.span ∧
      ResourceTree.walkTurn fuel h root stop flags desc func v =
        some (.again ⟨(res.end_ + 1) % 2 ^ 64, 0, v.calls ++ [res]⟩) := by
  rw [ResourceTree.walkTurn]
  by_cases hlt : v.start < stop
  · rcases hio.findNextIomemRes hfuel flags desc hlt with ⟨hfind, hno⟩ | ⟨res, hfind, hI⟩
    · rw [if_pos hlt, hfind]
      exact .inl ⟨rfl, fun x hvx hx => hno x hvx (by omega)⟩
    · refine .inr ⟨res, hlt, hI, ?_⟩
      rw [if_pos hlt, hfind, Option.map_some]
      simp only [hfunc, ne_eq, not_true_eq_false, if_false]
  · rw [if_neg hlt]
    exact .inl ⟨rfl, fun x hvx hx => by omega⟩

/-- The walk from `start` has got to `v.start`, and has missed nothing before it. It gets
behind `stop` only if that is not the beginning of a part. -/
structure Reported (S : List (Span ℕ)) (start stop : ℕ) (v : Walk Resource) : Prop where
  le : start ≤ v.start
  le_succ : v.start ≤ stop + 1
  pieces : Span.Pieces S start v.start (v.calls.map Resource.span)
  at_stop : v.start = stop → ¬(start < stop ∧ Span.Straddles S stop)
  short : ¬(start < stop ∧ Span.Straddles S stop) → v.start ≤ stop

theorem Reported.init (hle : start ≤ stop) : Reported S start stop ⟨start, -EINVAL, []⟩ where
  le := le_rfl
  le_succ := by simp only; omega
  pieces := .nil
  at_stop := fun heq hlt => by simp only at heq; omega
  short := fun _ => hle

theorem Reported.again {res : Resource} (hv : Reported S start stop v) (hlt : v.start < stop)
    (hI : Span.FirstPiece S v.start stop res.span) : Reported S start stop ⟨res.end_ + 1, 0, v.calls ++ [res]⟩ where
  le := by
    have := hv.le
    have := hI.lo_le
    have := hI.valid
    simp only [Resource.span] at *
    omega
  le_succ := by
    have := hI.le_hi
    simp only [Resource.span] at *
    omega
  pieces := by
    rw [List.map_append]
    exact hv.pieces.concat hv.le hI
  at_stop := fun heq hstr => hI.hi_ne hstr.2 heq
  short := fun hno => hI.hi_lt hlt fun hstr => hno ⟨Nat.lt_of_le_of_lt hv.le hlt, hstr⟩

/-- What the walk has reported at the beginning of any round. -/
theorem Iomem.reported (hio : Iomem h root T) (hfuel : T.nodes.length < fuel) (hfunc : ∀ calls res, func calls res = 0)
    (hle : start ≤ stop) (hstop : stop < 2 ^ 64) (hno : start < stop → ¬Wraps (wantedSpans h T flags desc) stop)
    (hgoes : Goes (ResourceTree.walkTurn fuel h root stop flags desc func) ⟨start, -EINVAL, []⟩ v) :
    Reported (wantedSpans h T flags desc) start stop v := by
  refine hgoes.invariant (fun s t hs ht => ?_) (.init hle)
  rcases hio.walkTurn hfuel hfunc stop flags desc s with ⟨hdone, -⟩ | ⟨res, hlt, hI, hagain⟩
  · rw [ht] at hdone
    cases hdone
  · rw [ht] at hagain
    cases hagain
    have hend : res.end_ + 1 < 2 ^ 64 := hi_lt_of_not_wraps hI hlt hstop (hno (Nat.lt_of_le_of_lt hs.le hlt))
    rw [Nat.mod_eq_of_lt hend]
    exact hs.again hlt hI

theorem Iomem.walk_advances (hio : Iomem h root T) (hfuel : T.nodes.length < fuel)
    (hfunc : ∀ calls res, func calls res = 0) (stop flags desc : ℕ) (v : Walk Resource) :
    (∃ t, ResourceTree.walkTurn fuel h root stop flags desc func v = some (.done t)) ∨
      ∃ t, Advances (wantedSpans h T flags desc) stop v t ∧
        ResourceTree.walkTurn fuel h root stop flags desc func v = some (.again t) := by
  rcases hio.walkTurn hfuel hfunc stop flags desc v with ⟨hdone, -⟩ | ⟨res, hlt, hI, hagain⟩
  · exact .inl ⟨v, hdone⟩
  · exact .inr ⟨_, ⟨hlt, res.span, hI, rfl⟩, hagain⟩

theorem Iomem.walk_wraps (hio : Iomem h root T) (hfuel : T.nodes.length < fuel)
    (hfunc : ∀ calls res, func calls res = 0) (hlt : start < stop) (hwraps : Wraps (wantedSpans h T flags desc) stop) (n : ℕ) :
    doWalkIomemResDesc fuel n h root start stop flags desc func = none := by
  refine rounds_eq_none_of_wraps (J := fun _ => True) hwraps (fun v _ hv => ?_) trivial hlt n
  rcases hio.walkTurn hfuel hfunc stop flags desc v with ⟨-, hno⟩ | ⟨res, -, hI, hagain⟩
  · exact absurd hwraps.2.1 (hno stop hv.le (.inr ⟨hv, rfl⟩))
  · exact ⟨_, ⟨hv, res.span, hI, rfl⟩, trivial, hagain⟩

/-- **The walk over the I/O memory.** With a callback that returns `0`, the walk returns after
having reported what the wanted resources cover from `start` to `end_`, in order, each part in
one of them, if and only if it gets to the last address: if that address is wanted, then there
is another one before it in the window, it is not the last one of all, and if the address
before it is wanted as well, then some wanted resource has both. -/
theorem walk_reports_iff (fuel root start end_ flags desc : ℕ) (h : Heap) (T : Forest ℕ)
    (func : List Resource → Resource → ℤ) (hio : Iomem h root T) (hfuel : T.nodes.length < fuel)
    (hle : start ≤ end_) (hend : end_ < 2 ^ 64) (hfunc : ∀ calls res, func calls res = 0) :
    (∃ n w, doWalkIomemResDesc fuel n h root start end_ flags desc func = some w ∧
      Span.Pieces (wantedSpans h T flags desc) start (end_ + 1) (w.calls.map Resource.span)) ↔
    (Span.Covers (wantedSpans h T flags desc) end_ →
      start < end_ ∧ end_ ≠ 2 ^ 64 - 1 ∧ Span.Straddles (wantedSpans h T flags desc) end_) := by
  constructor
  · rintro ⟨n, w, hrun, hpieces⟩ hcov
    have hno : start < end_ → ¬Wraps (wantedSpans h T flags desc) end_ := by
      intro hlt hwraps
      rw [hio.walk_wraps hfuel hfunc hlt hwraps n] at hrun
      cases hrun
    obtain ⟨v, hgoes, hdone⟩ := rounds_some hrun
    have hv := hio.reported hfuel hfunc hle hend hno hgoes
    have hlast : start < end_ ∧ Span.Straddles (wantedSpans h T flags desc) end_ := by
      by_contra hshort
      have hcalls : w.calls = v.calls := by
        rcases hio.walkTurn hfuel hfunc end_ flags desc v with ⟨hv, -⟩ | ⟨res, -, -, hv⟩
        · rw [hdone] at hv
          cases hv
          rfl
        · rw [hdone] at hv
          cases hv
      rw [hcalls] at hpieces
      have hreported := (hpieces.covers end_).mpr ⟨hle, Nat.lt_succ_self _, hcov⟩
      have hlt := ((hv.pieces.covers end_).mp hreported).2.1
      have := hv.short hshort
      omega
    exact ⟨hlast.1, fun hmax => hno hlast.1 ⟨hmax, hcov, hlast.2⟩, hlast.2⟩
  · intro hcond
    have hno : start < end_ → ¬Wraps (wantedSpans h T flags desc) end_ := fun _ hwraps =>
      (hcond hwraps.2.1).2.1 hwraps.1
    obtain ⟨⟨n, w, hrun⟩, -⟩ := progresses_of_advances (w := ⟨start, -EINVAL, []⟩) hend hno
      (hio.walk_advances hfuel hfunc end_ flags desc)
    refine ⟨n, w, hrun, ?_⟩
    obtain ⟨v, hgoes, hdone⟩ := rounds_some hrun
    have hv := hio.reported hfuel hfunc hle hend hno hgoes
    rcases hio.walkTurn hfuel hfunc end_ flags desc v with ⟨hstays, hrest⟩ | ⟨res, -, -, hagain⟩
    · rw [hdone] at hstays
      cases hstays
      refine hv.pieces.extend hv.le_succ fun x hvx hx hcov => ?_
      by_cases hbefore : x < end_ ∨ w.start < end_ ∧ x = end_
      · exact hrest x hvx hbefore hcov
      · obtain rfl : x = end_ := by omega
        have hstart : w.start = x := by omega
        exact hv.at_stop hstart ⟨(hcond hcov).1, (hcond hcov).2.2⟩
    · rw [hdone] at hagain
      cases hagain

/-- Two adjacent resources below the root. -/
def adjacentHeap : Heap := fun a =>
  if a = 0 then ⟨0, 2 ^ 64 - 1, 0x200, 0, none, none, some 1⟩
  else if a = 1 then ⟨0x1000, 0x1fff, 0x200, 0, some 0, some 2, none⟩
  else ⟨0x2000, 0x2fff, 0x200, 0, some 0, none, none⟩

def adjacentTree : Forest ℕ := .cons 1 .nil (.cons 2 .nil .nil)

theorem adjacentHeap_iomem : Iomem adjacentHeap 0 adjacentTree where
  wellFormed :=
    { nodup := by decide
      family := by
        refine ⟨⟨⟨rfl, rfl, rfl⟩, ?_, ?_, ?_, ?_, ?_⟩, ⟨⟨rfl, ?_, ?_, ?_, ?_, ?_⟩, trivial,
          ⟨rfl, ?_, ?_, ?_, ?_, ?_⟩, trivial, trivial⟩, trivial⟩
        all_goals simp [adjacentHeap, adjacentTree] }
  parent := rfl
  sibling := rfl
  end_lt := by decide

theorem walk_reports_adjacent :
    ∃ n w, doWalkIomemResDesc 3 n adjacentHeap 0 0x1800 0x27ff 0x200 0 (fun _ _ => 0) = some w ∧
      Span.Pieces (wantedSpans adjacentHeap adjacentTree 0x200 0) 0x1800 0x2800 (w.calls.map Resource.span) :=
  (walk_reports_iff 3 0 0x1800 0x27ff 0x200 0 adjacentHeap adjacentTree (fun _ _ => 0) adjacentHeap_iomem
    (by decide) (by decide) (by decide) fun _ _ => rfl).mpr fun _ =>
    ⟨by decide, by decide, fun _ => ⟨⟨0x2000, 0x2fff⟩, mem_wantedSpans.mpr ⟨2, by decide, by decide, rfl⟩,
      ⟨by decide, by decide⟩, ⟨by decide, by decide⟩⟩⟩

/-- The first byte of the second resource is the last one of the window. It is not reported. -/
theorem last_byte_missed : Iomem adjacentHeap 0 adjacentTree ∧
    ¬∃ n w, doWalkIomemResDesc 3 n adjacentHeap 0 0x1000 0x2000 0x200 0 (fun _ _ => 0) = some w ∧
      Span.Pieces (wantedSpans adjacentHeap adjacentTree 0x200 0) 0x1000 0x2001 (w.calls.map Resource.span) := by
  refine ⟨adjacentHeap_iomem, ?_⟩
  rintro ⟨n, w, hrun, hpieces⟩
  have hfirst : walkTurn 3 adjacentHeap 0 0x2000 0x200 0 (fun _ _ => 0) ⟨0x1000, -EINVAL, []⟩ =
      some (.again ⟨0x2000, 0, [⟨0x1000, 0x1fff, 0x200, 0, some 0, none, none⟩]⟩) := rfl
  have hsecond : ∀ v : Walk Resource, v.start = 0x2000 →
      walkTurn 3 adjacentHeap 0 0x2000 0x200 0 (fun _ _ => 0) v = some (.done v) := by
    intro v hv
    rw [walkTurn, hv]
    rfl
  have hcalls : w.calls = [⟨0x1000, 0x1fff, 0x200, 0, some 0, none, none⟩] := by
    rw [doWalkIomemResDesc] at hrun
    cases n with
    | zero => cases hrun
    | succ n =>
        rw [rounds_again n hfirst] at hrun
        cases n with
        | zero => cases hrun
        | succ n =>
            rw [rounds_done n (hsecond _ rfl)] at hrun
            cases hrun
            rfl
  have hcov : Span.Covers (wantedSpans adjacentHeap adjacentTree 0x200 0) 0x2000 :=
    ⟨⟨0x2000, 0x2fff⟩, mem_wantedSpans.mpr ⟨2, by decide, by decide, rfl⟩, by decide, by decide⟩
  obtain ⟨J, hJ, -, hend⟩ := (hpieces.covers 0x2000).mpr ⟨by decide, by decide, hcov⟩
  rw [hcalls, List.map_singleton, List.mem_singleton] at hJ
  subst hJ
  exact absurd hend (by decide)

end

/-! ### The walk over the System RAM -/

section

variable {func : List (ℕ × ℕ) → ℕ × ℕ → ℤ} {v : Walk (ℕ × ℕ)} {startPfn nrPages : ℕ}

/-- What `walk_system_ram_range` looks for. -/
abbrev ramSpans (h : Heap) (T : Forest ℕ) : List (Span ℕ) :=
  wantedSpans h T (IORESOURCE_SYSTEM_RAM ||| IORESOURCE_BUSY) IORES_DESC_NONE

/-- There is a page in the range, as the page frame numbers are computed. -/
def HasPage (I : Span ℕ) : Prop := pfnUp I.lo < pfnDown ((I.hi + 1) % 2 ^ 64)

/-- A part without a whole page ends the walk, if there was none with one before. -/
theorem Iomem.ramTurn (hio : Iomem h root T) (hfuel : T.nodes.length < fuel) (hfunc : ∀ calls pages, func calls pages = 0)
    (stop : ℕ) (v : Walk (ℕ × ℕ)) :
    (ResourceTree.ramTurn fuel h root stop func v = some (.done v) ∧
      (v.start < stop → ∀ x, v.start ≤ x → x ≤ stop → ¬Span.Covers (ramSpans h T) x)) ∨
    ∃ I, v.start < stop ∧ Span.FirstPiece (ramSpans h T) v.start stop I ∧
      ((¬(v.ret = 0 ∨ HasPage I) ∧ ResourceTree.ramTurn fuel h root stop func v = some (.done v)) ∨
        ((v.ret = 0 ∨ HasPage I) ∧ ∃ t : Walk (ℕ × ℕ), t.start = (I.hi + 1) % 2 ^ 64 ∧ t.ret = 0 ∧
          ResourceTree.ramTurn fuel h root stop func v = some (.again t))) := by
  rw [ResourceTree.ramTurn]
  by_cases hlt : v.start < stop
  · rcases hio.findNextIomemRes hfuel (IORESOURCE_SYSTEM_RAM ||| IORESOURCE_BUSY) IORES_DESC_NONE hlt with
      ⟨hfind, hno⟩ | ⟨res, hfind, hI⟩
    · rw [if_pos hlt, hfind]
      exact .inl ⟨rfl, fun _ => hno⟩
    · refine .inr ⟨res.span, hlt, hI, ?_⟩
      rw [if_pos hlt, hfind, Option.map_some]
      by_cases hpage : HasPage res.span
      · have hpage' : pfnUp res.start < pfnDown ((res.end_ + 1) % 2 ^ 64) := hpage
        refine .inr ⟨.inr hpage, ⟨(res.end_ + 1) % 2 ^ 64, 0, v.calls ++
          [(pfnUp res.start, pfnDown ((res.end_ + 1) % 2 ^ 64) - pfnUp res.start)]⟩, rfl, rfl, ?_⟩
        simp only [if_pos hpage', hfunc, ne_eq, not_true_eq_false, if_false]
      · have hpage' : ¬pfnUp res.start < pfnDown ((res.end_ + 1) % 2 ^ 64) := hpage
        by_cases hret : v.ret = 0
        · refine .inr ⟨.inl hret, ⟨(res.end_ + 1) % 2 ^ 64, v.ret, v.calls⟩, rfl, hret, ?_⟩
          simp only [if_neg hpage', hret, ne_eq, not_true_eq_false, if_false]
        · refine .inl ⟨fun hor => hor.elim hret hpage, ?_⟩
          simp only [if_neg hpage', ne_eq, hret, not_false_eq_true, if_true]
  · rw [if_neg hlt]
    exact .inl ⟨rfl, fun hlt' => absurd hlt' hlt⟩

theorem progresses_of_done {t : Walk κ} (hdone : body w = some (.done t)) : Progresses body w := by
  refine ⟨⟨1, t, rounds_done 0 hdone⟩, fun s u hgoes hu => ?_⟩
  rcases Relation.ReflTransGen.cases_head hgoes with rfl | ⟨s', hs', -⟩
  · rw [hdone] at hu
    cases hu
  · rw [hdone] at hs'
    cases hs'

theorem Iomem.ram_advances (hio : Iomem h root T) (hfuel : T.nodes.length < fuel)
    (hfunc : ∀ calls pages, func calls pages = 0) (stop : ℕ) (v : Walk (ℕ × ℕ)) :
    (∃ t, ResourceTree.ramTurn fuel h root stop func v = some (.done t)) ∨
      ∃ t, Advances (ramSpans h T) stop v t ∧ ResourceTree.ramTurn fuel h root stop func v = some (.again t) := by
  rcases hio.ramTurn hfuel hfunc stop v with ⟨hdone, -⟩ | ⟨I, hlt, hI, ⟨-, hdone⟩ | ⟨-, t, ht, -, hagain⟩⟩
  · exact .inl ⟨v, hdone⟩
  · exact .inl ⟨v, hdone⟩
  · exact .inr ⟨t, ⟨hlt, I, hI, ht⟩, hagain⟩

theorem Iomem.walk_progresses {func : List Resource → Resource → ℤ} (hio : Iomem h root T) (hfuel : T.nodes.length < fuel)
    (hfunc : ∀ calls res, func calls res = 0) (hstop : stop < 2 ^ 64) :
    Progresses (ResourceTree.walkTurn fuel h root stop flags desc func) ⟨start, -EINVAL, []⟩ ↔
      ¬(start < stop ∧ Wraps (wantedSpans h T flags desc) stop) := by
  constructor
  · rintro ⟨⟨n, t, hrun⟩, -⟩ ⟨hlt, hwraps⟩
    have hnone := hio.walk_wraps hfuel hfunc hlt hwraps n
    rw [doWalkIomemResDesc, hrun] at hnone
    cases hnone
  · exact fun hno => progresses_of_advances hstop (fun hlt hwraps => hno ⟨hlt, hwraps⟩)
      (hio.walk_advances hfuel hfunc stop flags desc)

theorem Iomem.ram_progresses (hio : Iomem h root T) (hfuel : T.nodes.length < fuel)
    (hfunc : ∀ calls pages, func calls pages = 0) (hstop : stop < 2 ^ 64) :
    Progresses (ResourceTree.ramTurn fuel h root stop func) ⟨start, -EINVAL, []⟩ ↔
      ¬(start < stop ∧ Wraps (ramSpans h T) stop ∧ ∃ I, Span.FirstPiece (ramSpans h T) start stop I ∧ HasPage I) := by
  constructor
  · rintro ⟨⟨n, t, hrun⟩, -⟩ ⟨hlt, hwraps, I, hI, hpage⟩
    have hnone : rounds (ResourceTree.ramTurn fuel h root stop func) n ⟨start, -EINVAL, []⟩ = none := by
      refine rounds_eq_none_of_wraps (J := fun v => v.ret = 0 ∨ v.start = start) hwraps (fun v hv hlt => ?_)
        (.inr rfl) hlt n
      rcases hio.ramTurn hfuel hfunc stop v with ⟨-, hno⟩ | ⟨I', -, hI', ⟨hstops, -⟩ | ⟨-, t, ht, hret, hagain⟩⟩
      · exact absurd hwraps.2.1 (hno hlt stop hlt.le le_rfl)
      · refine absurd ?_ hstops
        rcases hv with hret | hstart
        · exact .inl hret
        · rw [hstart] at hI'
          exact .inr (hI'.eq hI ▸ hpage)
      · exact ⟨t, ⟨hlt, I', hI', ht⟩, .inl hret, hagain⟩
    rw [hrun] at hnone
    cases hnone
  · intro hno
    by_cases hwraps : start < stop ∧ Wraps (ramSpans h T) stop
    · rcases hio.ramTurn hfuel hfunc stop ⟨start, -EINVAL, []⟩ with
        ⟨hdone, -⟩ | ⟨I, -, hI, ⟨-, hdone⟩ | ⟨hpage | hpage, -⟩⟩
      · exact progresses_of_done hdone
      · exact progresses_of_done hdone
      · exact absurd hpage (show (-EINVAL : ℤ) ≠ 0 by decide)
      · exact absurd ⟨hwraps.1, hwraps.2, I, hI, hpage⟩ hno
    · exact progresses_of_advances hstop (fun hlt hw => hwraps ⟨hlt, hw⟩) (hio.ram_advances hfuel hfunc stop)

/-- **The walks end.** With callbacks that return `0`, the walk over the I/O memory returns and
`start` gets larger with each round, unless the window has more than one address and ends at
the last address of all, which is wanted, and so is the one before it only if some wanted resource
has both. It is the same with the walk over the System RAM, except that it also returns if
there is no page in the first part. -/
theorem walks_progress_iff (fuel root end_ flags desc start startPfn nrPages : ℕ) (h : Heap) (T : Forest ℕ)
    (func : List Resource → Resource → ℤ) (func' : List (ℕ × ℕ) → ℕ × ℕ → ℤ) (hio : Iomem h root T)
    (hfuel : T.nodes.length < fuel) (hend : end_ < 2 ^ 64) (hfunc : ∀ calls res, func calls res = 0)
    (hfunc' : ∀ calls pages, func' calls pages = 0) :
    (((∃ n w, doWalkIomemResDesc fuel n h root start end_ flags desc func = some w) ∧
        ∀ v w, Goes (walkTurn fuel h root end_ flags desc func) ⟨start, -EINVAL, []⟩ v →
          walkTurn fuel h root end_ flags desc func v = some (.again w) → v.start < w.start) ↔
      ¬(start < end_ ∧ Wraps (wantedSpans h T flags desc) end_)) ∧
    (((∃ n w, walkSystemRamRange fuel n h root startPfn nrPages func' = some w) ∧
        ∀ v w, Goes (ramTurn fuel h root (ramEnd startPfn nrPages) func') ⟨ramStart startPfn, -EINVAL, []⟩ v →
          ramTurn fuel h root (ramEnd startPfn nrPages) func' v = some (.again w) → v.start < w.start) ↔
      ¬(ramStart startPfn < ramEnd startPfn nrPages ∧ Wraps (ramSpans h T) (ramEnd startPfn nrPages) ∧
        ∃ I, Span.FirstPiece (ramSpans h T) (ramStart startPfn) (ramEnd startPfn nrPages) I ∧ HasPage I)) := by
  have hram : ramEnd startPfn nrPages < 2 ^ 64 := Nat.mod_lt _ (by decide)
  exact ⟨hio.walk_progresses hfuel hfunc hend, hio.ram_progresses hfuel hfunc' hram⟩

theorem walks_progress_adjacent :
    (∃ n w, doWalkIomemResDesc 3 n adjacentHeap 0 0 (2 ^ 64 - 1) 0x200 0 (fun _ _ => 0) = some w) ∧
      ∃ n w, walkSystemRamRange 3 n adjacentHeap 0 0 1 (fun _ _ => 0) = some w := by
  have hends := walks_progress_iff 3 0 (2 ^ 64 - 1) 0x200 0 0 0 1 adjacentHeap adjacentTree (fun _ _ => 0) (fun _ _ => 0)
    adjacentHeap_iomem (by decide) (by decide) (fun _ _ => rfl) fun _ _ => rfl
  refine ⟨(hends.1.mpr ?_).1, (hends.2.mpr ?_).1⟩
  · rintro ⟨-, -, ⟨J, hJ, hlast⟩, -⟩
    obtain ⟨a, ha, -, rfl⟩ := mem_wantedSpans.mp hJ
    have hsmall : ∀ a ∈ adjacentTree.nodes, (adjacentHeap a).end_ < 2 ^ 64 - 1 := by decide
    exact absurd hlast.2 (not_le.mpr (hsmall a ha))
  · rintro ⟨-, hwraps, -⟩
    exact absurd hwraps.1 (by decide)

/-- A resource that ends with the last address. -/
def topHeap : Heap := fun a =>
  if a = 0 then ⟨0, 2 ^ 64 - 1, 0x200, 0, none, none, some 1⟩
  else ⟨2 ^ 64 - 0x1000, 2 ^ 64 - 1, 0x81000200, 0, some 0, none, none⟩

theorem topHeap_iomem : Iomem topHeap 0 (.cons 1 .nil .nil) where
  wellFormed :=
    { nodup := by decide
      family := by
        refine ⟨⟨⟨rfl, rfl⟩, ?_, ?_, ?_, ?_, ?_⟩, ⟨⟨rfl, ?_, ?_, ?_, ?_, ?_⟩, trivial, trivial⟩, trivial⟩
        all_goals simp [topHeap] }
  parent := rfl
  sibling := rfl
  end_lt := by decide

/-- Behind it the walk begins again where it began, for ever. -/
theorem walk_never_ends : Iomem topHeap 0 (.cons 1 .nil .nil) ∧
    ∀ n, doWalkIomemResDesc 2 n topHeap 0 0 (2 ^ 64 - 1) 0x200 0 (fun _ _ => 0) = none := by
  refine ⟨topHeap_iomem, fun n => (topHeap_iomem).walk_wraps (by decide) (fun _ _ => rfl) (by decide) ?_ n⟩
  have htop : (⟨2 ^ 64 - 0x1000, 2 ^ 64 - 1⟩ : Span ℕ) ∈ wantedSpans topHeap (.cons 1 .nil .nil) 0x200 0 :=
    mem_wantedSpans.mpr ⟨1, by decide, by decide, rfl⟩
  exact ⟨rfl, ⟨_, htop, by decide, by decide⟩, fun _ => ⟨_, htop, ⟨by decide, by decide⟩, ⟨by decide, by decide⟩⟩⟩

end

end GfpDrivers.ResourceTree
