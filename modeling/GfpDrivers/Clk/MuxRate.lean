import GfpDrivers.Clk.Rate

/-!
The choice of a parent by a mux clock (`clk_mux_determine_rate_flags`). Each registered parent offers a
rate, and the loop keeps the parent with the best offer so far.

Before the first offer the best rate is 0. For the highest rate below the request this is as good as
nothing, but for the closest rate it is an offer of its own: an offer that is no closer to the request
than 0 is not taken, even if it is the only one.
-/

namespace GfpDrivers.Clk

open Lib

/-! ### The code -/

def CLK_MUX_ROUND_CLOSEST : BitVec 64 := 16

/-- `abs` of the difference of two `unsigned long`s, which it takes for a `long`. -/
def absDiff (a b : ℕ) : ℕ := (((a : ℤ) - b).bmod (2 ^ 64)).natAbs

/-- `mux_is_better_rate` -/
def muxIsBetterRate (rate now best : ℕ) (flags : BitVec 64) : Bool :=
  if flags &&& CLK_MUX_ROUND_CLOSEST ≠ 0 then absDiff now rate < absDiff best rate
  else now ≤ rate ∧ now > best

variable {κ υ R : Type} [DecidableEq κ]

section Model

variable (P : RatePlatform κ υ R) (fuel : ℕ) (s : ClkTree κ υ R) (c : κ)

/-- `clk_core_get_parent_by_index` -/
def clkCoreGetParentByIndex (index : ℕ) : Option κ := (P.parents c)[index]?.filter fun p => s.hwCore p

/-- `__clk_determine_rate` -/
def clkDetermineRate (hw : Option κ) (req : RateRequest κ) : Option (RateRequest κ × ℤ) :=
  match hw with
  | none => some ({ req with rate := 0 }, 0)
  | some c => clkCoreRoundRateNolock P s fuel (some c) req

/-- The rate that a parent offers; one that fails to round offers none. -/
def muxOffer (req : RateRequest κ) (parent : κ) : Option (Option ℕ) :=
  if (P.flags c).setRateParent then
    (clkDetermineRate P fuel s (some parent) req).map fun answer => if answer.2 ≠ 0 then none else some answer.1.rate
  else some (some (clkCoreGetRateNolock P.toPlatform s (some parent)))

/-- `best` and `best_parent` -/
structure MuxBest (κ : Type) where
  best : ℕ
  bestParent : Option κ

/-- A turn of the loop over the parents. -/
def muxTurn (req : RateRequest κ) (flags : BitVec 64) (b : MuxBest κ) (i : ℕ) : Option (MuxBest κ) :=
  match clkCoreGetParentByIndex P s c i with
  | none => some b
  | some parent =>
      (muxOffer P fuel s c req parent).map fun
        | none => b
        | some now => if muxIsBetterRate req.rate now b.best flags then ⟨now, some parent⟩ else b

/-- The label `out` of `clk_mux_determine_rate_flags`. -/
def muxOut (req : RateRequest κ) (b : MuxBest κ) : RateRequest κ × ℤ :=
  ({ req with
      bestParent := b.bestParent.orElse fun _ => req.bestParent
      bestParentRate := b.best
      rate := b.best }, 0)

/-- `clk_mux_determine_rate_flags`; `noReparent` is the flag `CLK_SET_RATE_NO_REPARENT` of the clock. -/
def clkMuxDetermineRateFlags (noReparent : Bool) (req : RateRequest κ) (flags : BitVec 64) :
    Option (RateRequest κ × ℤ) :=
  if noReparent then
    let parent := (s.core c).parent
    if (P.flags c).setRateParent then
      (clkDetermineRate P fuel s parent req).map fun answer =>
        if answer.2 ≠ 0 then (req, answer.2) else muxOut req ⟨answer.1.rate, none⟩
    else if parent.isSome then some (muxOut req ⟨clkCoreGetRateNolock P.toPlatform s parent, none⟩)
    else some (muxOut req ⟨clkCoreGetRateNolock P.toPlatform s (some c), none⟩)
  else
    ((List.range (P.parents c).length).foldlM (muxTurn P fuel s c req flags) ⟨0, none⟩).map fun b =>
      if b.bestParent = none then (req, -EINVAL) else muxOut req b

/-! ### Offers -/

/-- What the parent with an index offers. -/
def offerAt (req : RateRequest κ) (i : ℕ) : Option (κ × ℕ) :=
  (clkCoreGetParentByIndex P s c i).bind fun parent => (muxOffer P fuel s c req parent).join.map (parent, ·)

/-- The offers of the registered parents, in the order of their indices. -/
def offers (req : RateRequest κ) : List (κ × ℕ) :=
  (List.range (P.parents c).length).filterMap (offerAt P fuel s c req)

end Model

/-! ### The first best element -/

section First

variable {α β : Type*} [LinearOrder β] {f g : α → β} {l : List α} {a : α}

/-- A fold that takes what is better than all before it, and better than `start`, finds the first minimum if
that is better than `start`. -/
theorem foldl_better (f : α → β) (start : β) (l : List α) :
    l.foldl (fun b x => if f x < b.elim start f then some x else b) none = (l.argmin f).filter (f · < start) := by
  induction l using List.reverseRecOn with
  | nil => rfl
  | append_singleton l x ih =>
    rw [List.foldl_append, ih, List.argmin_concat, List.foldl_cons, List.foldl_nil]
    cases l.argmin f with
    | none => by_cases hx : f x < start <;> simp [Option.filter_some, hx]
    | some m =>
      by_cases hm : f m < start
      · by_cases hx : f x < f m
        · simp [Option.filter_some, hm, hx, hx.trans hm]
        · simp [Option.filter_some, hm, hx]
      · by_cases hx : f x < start
        · simp [Option.filter_some, hm, hx, hx.trans_le (not_lt.mp hm)]
        · by_cases hxm : f x < f m <;> simp [Option.filter_some, hm, hx, hxm]

theorem argmin_congr [DecidableEq α] (h : ∀ a ∈ l, f a = g a) : l.argmin f = l.argmin g := by
  refine Option.ext fun m => ?_
  rw [← Option.mem_def, ← Option.mem_def, List.mem_argmin_iff, List.mem_argmin_iff]
  refine and_congr_right fun hm => and_congr (forall₂_congr fun a ha => by rw [h a ha, h m hm]) ?_
  exact forall₂_congr fun a ha => by rw [h a ha, h m hm]

end First

/-! ### The loop -/

variable {P : RatePlatform κ υ R} {fuel : ℕ} {s : ClkTree κ υ R} {c parent : κ} {q : Option κ} {req : RateRequest κ}
  {flags : BitVec 64} {a b : ℕ}

omit [DecidableEq κ] in
theorem clkCoreRoundRateNolock_returns (h : Reaches s.parent fuel q) (req : RateRequest κ) :
    ∃ answer, clkCoreRoundRateNolock P s fuel q req = some answer := by
  induction fuel generalizing q req with
  | zero =>
    cases q with
    | none => exact ⟨_, rfl⟩
    | some c => cases h
  | succ fuel ih =>
    cases q with
    | none => exact ⟨_, rfl⟩
    | some c =>
      rw [clkCoreRoundRateNolock]
      split
      · exact ⟨_, rfl⟩
      split
      · exact ih h _
      · exact ⟨_, rfl⟩

omit [DecidableEq κ] in
theorem muxOffer_returns (P : RatePlatform κ υ R) (c : κ) (req : RateRequest κ) (h : Reaches s.parent fuel (some parent)) :
    ∃ offer, muxOffer P fuel s c req parent = some offer := by
  rw [muxOffer]
  split
  · obtain ⟨answer, hanswer⟩ := clkCoreRoundRateNolock_returns (P := P) h req
    exact ⟨_, by rw [clkDetermineRate, hanswer]; rfl⟩
  · exact ⟨_, rfl⟩

/-- A turn of the loop with an offer. -/
def muxKeep (rate : ℕ) (flags : BitVec 64) (b : MuxBest κ) (o : κ × ℕ) : MuxBest κ :=
  if muxIsBetterRate rate o.2 b.best flags then ⟨o.2, some o.1⟩ else b

omit [DecidableEq κ] in
theorem muxTurn_eq (htree : ∀ p, Reaches s.parent fuel (some p)) (b : MuxBest κ) (i : ℕ) :
    muxTurn P fuel s c req flags b i = some (match offerAt P fuel s c req i with
      | some o => muxKeep req.rate flags b o
      | none => b) := by
  rw [muxTurn, offerAt]
  cases clkCoreGetParentByIndex P s c i with
  | none => rfl
  | some parent =>
    obtain ⟨offer, hoffer⟩ := muxOffer_returns P c req (htree parent)
    simp only [Option.bind_some, hoffer]
    cases offer with
    | none => rfl
    | some now => rfl

omit [DecidableEq κ] in
theorem muxLoop_eq (htree : ∀ p, Reaches s.parent fuel (some p)) (b : MuxBest κ) :
    (List.range (P.parents c).length).foldlM (muxTurn P fuel s c req flags) b =
      some ((offers P fuel s c req).foldl (muxKeep req.rate flags) b) := by
  have hturn : muxTurn P fuel s c req flags = fun b i => pure (match offerAt P fuel s c req i with
      | some o => muxKeep req.rate flags b o
      | none => b) := funext fun b => funext fun i => muxTurn_eq htree b i
  rw [hturn, List.foldlM_pure, offers, List.foldl_filterMap]
  refine congrArg some (congrArg (List.foldl · b _) (funext fun b => funext fun i => ?_))
  cases offerAt P fuel s c req i <;> rfl

/-- `best` and `best_parent` for an offer that may be there. -/
def MuxBest.of (o : Option (κ × ℕ)) : MuxBest κ := ⟨o.elim 0 Prod.snd, o.map Prod.fst⟩

/-- The distance of a rate from the request. -/
def distance (rate a : ℕ) : ℕ := ((a : ℤ) - rate).natAbs

theorem absDiff_eq (ha : a < 2 ^ 63) (hb : b < 2 ^ 63) : absDiff a b = distance b a := by
  rw [absDiff, distance, Int.bmod_eq_of_le (by omega) (by omega)]

omit [DecidableEq κ] in
theorem foldl_muxKeep_closest (hclosest : flags &&& CLK_MUX_ROUND_CLOSEST ≠ 0) (rate : ℕ) (l : List (κ × ℕ)) :
    l.foldl (muxKeep rate flags) (.of none) =
      .of ((l.argmin fun o => absDiff o.2 rate).filter fun o => absDiff o.2 rate < absDiff 0 rate) := by
  rw [← foldl_better]
  refine List.foldl_hom MuxBest.of fun o x => ?_
  have hkey : o.elim (absDiff 0 rate) (fun o => absDiff o.2 rate) = absDiff (MuxBest.of o).best rate := by
    cases o <;> rfl
  rw [muxKeep, muxIsBetterRate, if_pos hclosest, hkey]
  by_cases hx : absDiff x.2 rate < absDiff (MuxBest.of o).best rate
  · simp only [hx, decide_true, if_true]
    rfl
  · simp only [hx, decide_false, Bool.false_eq_true, if_false]

omit [DecidableEq κ] in
theorem foldl_muxKeep_down (hdown : flags &&& CLK_MUX_ROUND_CLOSEST = 0) (rate : ℕ) (l : List (κ × ℕ)) :
    l.foldl (muxKeep rate flags) (.of none) =
      .of (((l.filter fun o => o.2 ≤ rate).argmax Prod.snd).filter fun o => 0 < o.2) := by
  -- the highest rate is the lowest one in the dual order
  have hdual := foldl_better (fun o : κ × ℕ => OrderDual.toDual o.2) (OrderDual.toDual 0) (l.filter fun o => o.2 ≤ rate)
  have hkeep : ((l.filter fun o => o.2 ≤ rate).argmax Prod.snd).filter (fun o => 0 < o.2) =
      (l.filter fun o => o.2 ≤ rate).foldl
        (fun b x => if OrderDual.toDual x.2 < b.elim (OrderDual.toDual 0) (fun o => OrderDual.toDual o.2) then some x else b)
        none := hdual.symm
  rw [hkeep, List.foldl_filter]
  refine List.foldl_hom MuxBest.of fun o x => ?_
  have hkey : (OrderDual.toDual x.2 < o.elim (OrderDual.toDual 0) (fun o => OrderDual.toDual o.2)) ↔
      (MuxBest.of o).best < x.2 := by
    cases o <;> exact OrderDual.toDual_lt_toDual
  rw [muxKeep, muxIsBetterRate, if_neg (not_not_intro hdown)]
  by_cases hle : x.2 ≤ rate
  · by_cases hlt : (MuxBest.of o).best < x.2
    · simp only [hle, hlt, hkey.mpr hlt, decide_true, if_true, and_self]
      rfl
    · simp only [hle, hlt, mt hkey.mp hlt, decide_true, decide_false, if_true, if_false, and_false,
        Bool.false_eq_true]
  · simp only [hle, decide_false, if_false, false_and, Bool.false_eq_true]

/-! ### The choice -/

/-- The answer for an offer that is taken. -/
def taken (req : RateRequest κ) (o : κ × ℕ) : RateRequest κ × ℤ :=
  ({ req with bestParent := some o.1, bestParentRate := o.2, rate := o.2 }, 0)

/-- The first parent with the highest rate that is not above the request. -/
def ChoosesBelow (offers : List (κ × ℕ)) (req : RateRequest κ) (answer : RateRequest κ × ℤ) : Prop :=
  (answer.2 = -EINVAL ↔ ∀ o ∈ offers, req.rate < o.2 ∨ o.2 = 0) ∧
    (answer.2 ≠ -EINVAL → ∃ o ∈ (offers.filter fun o => o.2 ≤ req.rate).argmax Prod.snd, answer = taken req o)

/-- The first parent with the least distance from the request. -/
def ChoosesClosest (offers : List (κ × ℕ)) (req : RateRequest κ) (answer : RateRequest κ × ℤ) : Prop :=
  ∃ o ∈ offers.argmin fun o => distance req.rate o.2, answer = taken req o

/-- The mux chooses as its flags say. -/
def ChoosesBest (P : RatePlatform κ υ R) (fuel : ℕ) (s : ClkTree κ υ R) (c : κ) (req : RateRequest κ)
    (flags : BitVec 64) : Prop :=
  ∃ answer, clkMuxDetermineRateFlags P fuel s c false req flags = some answer ∧
    if flags &&& CLK_MUX_ROUND_CLOSEST ≠ 0 then ChoosesClosest (offers P fuel s c req) req answer
    else ChoosesBelow (offers P fuel s c req) req answer

/-- The answer for what the loop has found. -/
def muxAnswer (req : RateRequest κ) : Option (κ × ℕ) → RateRequest κ × ℤ
  | none => (req, -EINVAL)
  | some o => taken req o

omit [DecidableEq κ] in
theorem clkMuxDetermineRateFlags_eq (htree : ∀ p, Reaches s.parent fuel (some p)) {o : Option (κ × ℕ)}
    (hloop : (offers P fuel s c req).foldl (muxKeep req.rate flags) (.of none) = .of o) :
    clkMuxDetermineRateFlags P fuel s c false req flags = some (muxAnswer req o) := by
  rw [clkMuxDetermineRateFlags, if_neg Bool.false_ne_true, muxLoop_eq htree]
  rw [show (⟨0, none⟩ : MuxBest κ) = .of none from rfl, hloop]
  cases o <;> rfl

omit [DecidableEq κ] in
theorem choosesBelow (htree : ∀ p, Reaches s.parent fuel (some p)) (hdown : flags &&& CLK_MUX_ROUND_CLOSEST = 0) :
    ChoosesBest P fuel s c req flags := by
  refine ⟨_, clkMuxDetermineRateFlags_eq htree (foldl_muxKeep_down hdown _ _), ?_⟩
  rw [if_neg (not_not_intro hdown)]
  cases hbest : ((offers P fuel s c req).filter fun o => o.2 ≤ req.rate).argmax Prod.snd with
  | none =>
    have hnone := List.filter_eq_nil_iff.mp (List.argmax_eq_none.mp hbest)
    refine ⟨iff_of_true rfl fun o ho => .inl ?_, fun h => absurd rfl h⟩
    simpa using hnone o ho
  | some m =>
    obtain ⟨hmem, hle⟩ := List.mem_filter.mp (List.argmax_mem hbest)
    by_cases hpos : 0 < m.2
    · rw [Option.filter_some, if_pos (decide_eq_true hpos)]
      refine ⟨iff_of_false (show (0 : ℤ) ≠ -EINVAL by decide) fun h => ?_, fun _ => ⟨m, hbest, rfl⟩⟩
      have := h m hmem
      have := of_decide_eq_true hle
      omega
    · rw [Option.filter_some, if_neg (by simpa using hpos)]
      refine ⟨iff_of_true rfl fun o ho => ?_, fun h => absurd rfl h⟩
      by_cases hlow : o.2 ≤ req.rate
      · have := List.le_of_mem_argmax (List.mem_filter.mpr ⟨ho, decide_eq_true hlow⟩) hbest
        exact .inr (by omega)
      · exact .inl (by omega)

theorem distance_lt_iff {rate : ℕ} : distance rate a < distance rate 0 ↔ 0 < a ∧ a < 2 * rate := by
  rw [distance, distance]
  omega

theorem choosesClosest_iff (htree : ∀ p, Reaches s.parent fuel (some p)) (hclosest : flags &&& CLK_MUX_ROUND_CLOSEST ≠ 0)
    (hrate : req.rate < 2 ^ 63) (hoffers : ∀ o ∈ offers P fuel s c req, o.2 < 2 ^ 63) :
    ChoosesBest P fuel s c req flags ↔ ∃ o ∈ offers P fuel s c req, 0 < o.2 ∧ o.2 < 2 * req.rate := by
  have hfold := foldl_muxKeep_closest hclosest req.rate (offers P fuel s c req)
  have hdist : ∀ o ∈ offers P fuel s c req, absDiff o.2 req.rate = distance req.rate o.2 := fun o ho =>
    absDiff_eq (hoffers o ho) hrate
  rw [argmin_congr hdist, absDiff_eq (by decide) hrate] at hfold
  have hchoose : ChoosesBest P fuel s c req flags ↔ ChoosesClosest (offers P fuel s c req) req (muxAnswer req
      (((offers P fuel s c req).argmin fun o => distance req.rate o.2).filter fun o =>
        absDiff o.2 req.rate < distance req.rate 0)) := by
    simp only [ChoosesBest, clkMuxDetermineRateFlags_eq htree hfold, if_pos hclosest]
    exact ⟨fun ⟨_, h, hc⟩ => Option.some.inj h ▸ hc, fun h => ⟨_, rfl, h⟩⟩
  rw [hchoose, ChoosesClosest]
  cases hbest : (offers P fuel s c req).argmin fun o => distance req.rate o.2 with
  | none =>
    rw [List.argmin_eq_none.mp hbest]
    exact iff_of_false (by rintro ⟨o, ho, -⟩; cases ho) (by rintro ⟨o, ho, -⟩; cases ho)
  | some m =>
    have hmem := List.argmin_mem hbest
    rw [Option.filter_some, hdist m hmem]
    by_cases hnear : distance req.rate m.2 < distance req.rate 0
    · rw [if_pos (decide_eq_true hnear)]
      exact iff_of_true ⟨m, rfl, rfl⟩ ⟨m, hmem, distance_lt_iff.mp hnear⟩
    · rw [if_neg (by simpa using hnear)]
      refine iff_of_false (fun ⟨o, _, ho⟩ => ?_) fun ⟨o, ho, hin⟩ => ?_
      · exact absurd (congrArg Prod.snd ho) (show (-EINVAL : ℤ) ≠ 0 by decide)
      · exact hnear ((List.le_of_mem_argmin ho hbest).trans_lt (distance_lt_iff.mpr hin))

/-- The mux chooses the best parent if it rounds down, or if a parent offers a rate that is closer to the request
than 0. -/
theorem choosesBest_iff (htree : ∀ p, Reaches s.parent fuel (some p)) (hrate : req.rate < 2 ^ 63)
    (hoffers : ∀ o ∈ offers P fuel s c req, o.2 < 2 ^ 63) :
    ChoosesBest P fuel s c req flags ↔
      flags &&& CLK_MUX_ROUND_CLOSEST = 0 ∨ ∃ o ∈ offers P fuel s c req, 0 < o.2 ∧ o.2 < 2 * req.rate := by
  by_cases hdown : flags &&& CLK_MUX_ROUND_CLOSEST = 0
  · exact ⟨fun _ => .inl hdown, fun _ => choosesBelow htree hdown⟩
  · rw [choosesClosest_iff htree hdown hrate hoffers, or_iff_right hdown]

/-- A mux, which is the clock `false`, with one parent, which runs at `rate`. -/
def oneParent (rate : ℕ) : RatePlatform Bool Unit Unit × ClkTree Bool Unit Unit :=
  ({  name _ := ""
      flags _ := ⟨false, false, false, false, false, false⟩
      ops _ := ⟨true, false, true, true, true, false, false⟩
      parents c := if c then [] else [true]
      recalcRate _ _ parentRate := parentRate
      coreOf _ := false
      answers _ := ⟨fun _ => 0, fun _ => 0, fun _ => 0, fun _ _ r => (r, 0), fun _ => 0, fun _ => 0, fun _ => 0,
        fun _ => 0⟩
      minRate _ := 0
      maxRate _ := 2 ^ 64 - 1
      clks _ := []
      notifier _ := false
      recalcNewRates _ := false
      rateAnswers _ := ⟨fun _ req => (req, 0), fun _ rate parentRate => (rate, parentRate), fun _ _ _ r => r,
        fun _ _ _ _ r => r⟩ },
    {  core c := ⟨if c then none else some true, rate, rate, rate, none, 0, none, 0, 0, 0, ()⟩
       hwCore _ := true
       list h := if h = .roots then [true] else if h = .children true then [false] else []
       user _ := ⟨0, (2 ^ 64 - 1), 0⟩
       time := 0 })

theorem oneParent_reaches (rate : ℕ) : ∀ p, Reaches (oneParent rate).2.parent 2 (some p) := fun p => by
  cases p <;> trivial

theorem oneParent_offers (rate : ℕ) (req : RateRequest Bool) :
    offers (oneParent rate).1 2 (oneParent rate).2 false req = [(true, rate)] := rfl

/-- The request that `clk_round_rate` makes for a rate. -/
def rateRequest (rate : ℕ) : RateRequest Bool := ⟨rate, 0, (2 ^ 64 - 1), 300, some true⟩

theorem oneParent_choosesBest :
    ChoosesBest (oneParent 150).1 2 (oneParent 150).2 false (rateRequest 100) CLK_MUX_ROUND_CLOSEST := by
  refine (choosesBest_iff (oneParent_reaches 150) (by decide) fun o ho => ?_).mpr (.inr ⟨(true, 150), ?_, by decide⟩)
  · rw [oneParent_offers, List.mem_singleton] at ho
    subst ho
    decide
  · rw [oneParent_offers]
    exact List.mem_singleton_self _

/-- The only parent offers 300, and the request is for 100. -/
theorem oneParent_refused :
    ¬ ChoosesBest (oneParent 300).1 2 (oneParent 300).2 false (rateRequest 100) CLK_MUX_ROUND_CLOSEST := by
  have hoffers : ∀ o ∈ offers (oneParent 300).1 2 (oneParent 300).2 false (rateRequest 100), o = (true, 300) :=
    fun o ho => List.mem_singleton.mp (oneParent_offers 300 _ ▸ ho)
  rw [choosesClosest_iff (oneParent_reaches 300) (by decide) (by decide) fun o ho => hoffers o ho ▸ (by decide)]
  rintro ⟨o, ho, -, hlt⟩
  rw [hoffers o ho] at hlt
  exact absurd hlt (by decide)

end GfpDrivers.Clk
