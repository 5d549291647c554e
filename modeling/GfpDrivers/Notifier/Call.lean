import GfpDrivers.Notifier.Chain

/-!
Calling the blocks of a chain (`notifier_call_chain` and `notifier_call_chain_robust`). The blocks that may be called
are counted down in an `int`, and -1 is meant to be no bound; it is one for a chain with 2^32 blocks or more.

A callback may do anything but change the chain.
-/

namespace GfpDrivers.Notifier

open Lib

variable {ω : Type*}

/-- A value that is put into an `int`. -/
def toInt (z : ℤ) : ℤ := z.bmod (2 ^ 32)

def NOTIFY_DONE : ℤ := 0

/-- `ret & NOTIFY_STOP_MASK` -/
def stops (ret : ℤ) : Bool := ret / 0x8000 % 2 = 1

/-- The calls that were made, each with its `val`, and what they did. -/
structure Calls (ω : Type*) where
  world : ω
  made : List (ℕ × ℕ)

variable (link : Loc → Option ℕ) (call : ω → ℕ → ℕ → ω × ℤ)

/-- The loop of `notifier_call_chain`: the calls, the value of the last one, and `*nr_calls`. -/
def callLoop (val : ℕ) : ℕ → Option ℕ → ℤ → Option ℤ → ℤ → Calls ω → Option (Calls ω × ℤ × Option ℤ)
  | 0, _, _, _, _, _ => none
  | _ + 1, none, _, nrCalls, ret, c => some (c, ret, nrCalls)
  | fuel + 1, some nb, nrToCall, nrCalls, ret, c =>
      if nrToCall = 0 then some (c, ret, nrCalls)
      else
        let r := call c.world nb val
        let c' : Calls ω := ⟨r.1, c.made ++ [(nb, val)]⟩
        let nrCalls' := nrCalls.map fun nr => toInt (nr + 1)
        if stops r.2 then some (c', r.2, nrCalls')
        else callLoop val fuel (link (.next nb)) (toInt (nrToCall - 1)) nrCalls' r.2 c'

/-- `notifier_call_chain` -/
def notifierCallChain (fuel : ℕ) (val : ℕ) (nrToCall : ℤ) (nrCalls : Option ℤ) (c : Calls ω) :
    Option (Calls ω × ℤ × Option ℤ) :=
  callLoop link call val fuel (link .head) nrToCall nrCalls NOTIFY_DONE c

/-- `notifier_call_chain_robust` -/
def notifierCallChainRobust (fuel : ℕ) (valUp valDown : ℕ) (c : Calls ω) : Option (Calls ω × ℤ) :=
  (notifierCallChain link call fuel valUp (-1) (some 0) c).bind fun r =>
    if stops r.2.1 then
      (notifierCallChain link call fuel valDown (toInt (r.2.2.getD 0 - 1)) none r.1).map fun q => (q.1, r.2.1)
    else some (r.1, r.2.1)

/-! ### The blocks that are called -/

/-- The first blocks, up to one whose callback stops. -/
def called (val : ℕ) : ω → List ℕ → List ℕ
  | _, [] => []
  | w, nb :: as => nb :: if stops (call w nb val).2 then [] else called val (call w nb val).1 as

/-- The world after some calls, and the value of the last one. -/
def after (val : ℕ) (w : ω) (ret : ℤ) (as : List ℕ) : ω × ℤ := as.foldl (fun r nb => call r.1 nb val) (w, ret)

variable {link call} {val k fuel : ℕ} {w : ω} {as : List ℕ} {l : Loc} {ret t : ℤ} {c : Calls ω} {nrCalls : Option ℤ}

theorem called_nil (call : ω → ℕ → ℕ → ω × ℤ) (val : ℕ) (w : ω) : called call val w [] = [] := rfl

theorem called_cons (call : ω → ℕ → ℕ → ω × ℤ) (val : ℕ) (w : ω) (nb : ℕ) (as : List ℕ) : called call val w (nb :: as) =
    nb :: if stops (call w nb val).2 then [] else called call val (call w nb val).1 as := rfl

theorem called_take (call : ω → ℕ → ℕ → ω × ℤ) (val k : ℕ) (w : ω) (as : List ℕ) :
    called call val w (as.take k) = (called call val w as).take k := by
  induction as generalizing w k with
  | nil => simp [called_nil]
  | cons nb as ih =>
    cases k with
    | zero => rfl
    | succ k =>
      simp only [List.take_succ_cons, called]
      split_ifs
      · simp
      · rw [ih]

theorem called_isPrefix (call : ω → ℕ → ℕ → ω × ℤ) (val : ℕ) (w : ω) (as : List ℕ) :
    called call val w as <+: as := by
  induction as generalizing w with
  | nil => exact List.prefix_refl []
  | cons nb as ih =>
    rw [called_cons, List.prefix_cons_inj]
    split_ifs
    · exact List.nil_prefix
    · exact ih _

theorem take_of_isPrefix {p : List ℕ} (h : p <+: as) (hk : k ≤ p.length) : as.take k = p.take k := by
  obtain ⟨rest, rfl⟩ := h
  exact List.take_append_of_le_length hk

theorem called_of_quiet (hquiet : ∀ w nb, stops (call w nb val).2 = false) (w : ω) (as : List ℕ) :
    called call val w as = as := by
  induction as generalizing w with
  | nil => rfl
  | cons nb as ih => rw [called_cons, hquiet, if_neg Bool.false_ne_true, ih]

theorem after_take_not_stop (call : ω → ℕ → ℕ → ω × ℤ) (val : ℕ) (w : ω) (as : List ℕ) (hret : stops ret = false)
    (hk : k < (called call val w as).length) :
    stops (after call val w ret ((called call val w as).take k)).2 = false := by
  induction as generalizing w ret k with
  | nil => simp [called_nil] at hk
  | cons nb as ih =>
    cases k with
    | zero => exact hret
    | succ k =>
      rw [called_cons, List.length_cons] at hk
      rw [called_cons, List.take_succ_cons]
      by_cases hstop : stops (call w nb val).2 = true
      · rw [if_pos hstop, List.length_nil] at hk
        omega
      · rw [if_neg hstop] at hk ⊢
        exact ih _ (Bool.eq_false_iff.mpr hstop) (Nat.lt_of_succ_lt_succ hk)

/-! ### The loop -/

theorem toInt_eq_zero_iff : toInt t = 0 ↔ (t % 2 ^ 32).toNat = 0 := by
  rw [toInt, Int.bmod_def]
  split_ifs <;> omega

theorem toInt_toInt_sub_one (t : ℤ) : toInt (toInt t - 1) = toInt (t - 1) := Int.bmod_sub_bmod

theorem toInt_toInt_add (t s : ℤ) : toInt (toInt t + s) = toInt (t + s) := Int.bmod_add_bmod

/-- The loop calls the first blocks, as many as the counter allows. -/
theorem callLoop_spec (call : ω → ℕ → ℕ → ω × ℤ) (val : ℕ) (h : Chain Loc.next link l as) (hfuel : as.length < fuel) (t : ℤ) (nrCalls : Option ℤ) (ret : ℤ)
    (c : Calls ω) :
    callLoop link call val fuel (link l) (toInt t) (nrCalls.map toInt) ret c =
      some (⟨(after call val c.world ret (called call val c.world (as.take (t % 2 ^ 32).toNat))).1,
          c.made ++ (called call val c.world (as.take (t % 2 ^ 32).toNat)).map (·, val)⟩,
        (after call val c.world ret (called call val c.world (as.take (t % 2 ^ 32).toNat))).2,
        nrCalls.map fun nr => toInt (nr + (called call val c.world (as.take (t % 2 ^ 32).toNat)).length)) := by
  induction as generalizing fuel l t nrCalls ret c with
  | nil =>
    obtain ⟨fuel, rfl⟩ := Nat.exists_eq_add_of_le' (Nat.one_le_of_lt hfuel)
    have hl : link l = none := h
    rw [hl, callLoop]
    simp [called_nil, after]
  | cons nb as ih =>
    obtain ⟨fuel, rfl⟩ := Nat.exists_eq_add_of_le' (Nat.one_le_of_lt hfuel)
    rw [h.1, callLoop]
    by_cases ht : (t % 2 ^ 32).toNat = 0
    · rw [if_pos (toInt_eq_zero_iff.mpr ht), ht]
      simp [called_nil, after]
    · obtain ⟨k, hk⟩ := Nat.exists_eq_add_of_le' (Nat.pos_of_ne_zero ht)
      have hk' : ((t - 1) % 2 ^ 32).toNat = k := by omega
      have hcalls : (nrCalls.map toInt).map (fun nr => toInt (nr + 1)) = (nrCalls.map (· + 1)).map toInt := by
        cases nrCalls with
        | none => rfl
        | some nr => exact congrArg some (toInt_toInt_add nr 1)
      rw [if_neg (mt toInt_eq_zero_iff.mp ht), hk, List.take_succ_cons, called]
      dsimp only
      rw [hcalls]
      by_cases hstop : stops (call c.world nb val).2 = true
      · rw [if_pos hstop, if_pos hstop]
        cases nrCalls <;> rfl
      · have hnext := ih h.2 (Nat.lt_of_succ_lt_succ hfuel) (t - 1) (nrCalls.map (· + 1)) (call c.world nb val).2
          ⟨(call c.world nb val).1, c.made ++ [(nb, val)]⟩
        rw [if_neg hstop, if_neg hstop, toInt_toInt_sub_one, hnext, hk']
        cases nrCalls with
        | none => simp [after]
        | some nr =>
          simp only [after, Option.map_some, List.foldl_cons, List.map_cons, List.length_cons, List.append_assoc,
            List.singleton_append]
          push_cast
          rw [add_assoc, add_comm 1]

/-! ### Robust calls -/

/-- The blocks up to the first one that stops get `valUp`. If there is one that stops, those before it get `valDown`. -/
def RollsBack (link : Loc → Option ℕ) (call : ω → ℕ → ℕ → ω × ℤ) (fuel valUp valDown : ℕ) (as : List ℕ)
    (c : Calls ω) : Prop :=
  ∃ c', notifierCallChainRobust link call fuel valUp valDown c =
      some (c', (after call valUp c.world NOTIFY_DONE (called call valUp c.world as)).2) ∧
    c'.made = c.made ++ (called call valUp c.world as).map (·, valUp) ++
      if stops (after call valUp c.world NOTIFY_DONE (called call valUp c.world as)).2 then
        (called call valUp c.world as).dropLast.map (·, valDown)
      else []

section Robust

variable {valUp valDown : ℕ}

theorem callUp_spec (call : ω → ℕ → ℕ → ω × ℤ) (valUp : ℕ) (h : Chain Loc.next link .head as)
    (hfuel : as.length < fuel) (c : Calls ω) :
    notifierCallChain link call fuel valUp (-1) (some 0) c =
      some (⟨(after call valUp c.world NOTIFY_DONE ((called call valUp c.world as).take (2 ^ 32 - 1))).1,
          c.made ++ ((called call valUp c.world as).take (2 ^ 32 - 1)).map (·, valUp)⟩,
        (after call valUp c.world NOTIFY_DONE ((called call valUp c.world as).take (2 ^ 32 - 1))).2,
        some (toInt ((called call valUp c.world as).take (2 ^ 32 - 1)).length)) := by
  have hloop := callLoop_spec call valUp h hfuel (-1) (some 0) NOTIFY_DONE c
  have hcount : ((-1 : ℤ) % 2 ^ 32).toNat = 2 ^ 32 - 1 := by decide
  rw [hcount, called_take, Option.map_some, Option.map_some, Int.zero_add] at hloop
  exact hloop

/-- The second pass calls as many blocks as it is told, up to 2^32. -/
theorem callDown_spec (h : Chain Loc.next link .head as) (hfuel : as.length < fuel)
    (hquiet : ∀ w nb, stops (call w nb valDown).2 = false) {n : ℕ} (hn : 0 < n) (hlt : n < 2 ^ 32) (c : Calls ω) :
    ∃ c' ret, notifierCallChain link call fuel valDown (toInt (toInt n - 1)) none c = some (c', ret, none) ∧
      c'.made = c.made ++ (as.take (n - 1)).map (·, valDown) := by
  have hloop := callLoop_spec call valDown h hfuel ((n : ℤ) - 1) none NOTIFY_DONE c
  have hcount : (((n : ℤ) - 1) % 2 ^ 32).toNat = n - 1 := by omega
  rw [hcount, called_of_quiet hquiet] at hloop
  rw [notifierCallChain, toInt_toInt_sub_one]
  exact ⟨_, _, hloop, rfl⟩

theorem rollsBack (h : Chain Loc.next link .head as) (hfuel : as.length < fuel)
    (hquiet : ∀ w nb, stops (call w nb valDown).2 = false) (c : Calls ω)
    (hlt : (called call valUp c.world as).length < 2 ^ 32) : RollsBack link call fuel valUp valDown as c := by
  have hup := callUp_spec call valUp h hfuel c
  rw [List.take_of_length_le (by omega)] at hup
  rw [RollsBack, notifierCallChainRobust, hup, Option.bind_some]
  dsimp only
  split_ifs with hstop
  · have hpos : 0 < (called call valUp c.world as).length := by
      rw [List.length_pos_iff]
      intro hnil
      rw [hnil] at hstop
      cases hstop
    obtain ⟨c', ret, hdown, hmade⟩ := callDown_spec h hfuel hquiet hpos hlt
      ⟨(after call valUp c.world NOTIFY_DONE (called call valUp c.world as)).1,
        c.made ++ (called call valUp c.world as).map (·, valUp)⟩
    refine ⟨c', ?_, ?_⟩
    · rw [Option.getD_some, hdown, Option.map_some]
    · rw [hmade, List.dropLast_eq_take]
      rw [take_of_isPrefix (called_isPrefix call valUp c.world as) (Nat.sub_le ..)]
  · exact ⟨_, rfl, (List.append_nil _).symm⟩

theorem not_rollsBack (h : Chain Loc.next link .head as) (hfuel : as.length < fuel) (c : Calls ω)
    (hle : 2 ^ 32 ≤ (called call valUp c.world as).length) : ¬RollsBack link call fuel valUp valDown as c := by
  rintro ⟨c', hrun, hmade⟩
  have hup := callUp_spec call valUp h hfuel c
  have hshort : 2 ^ 32 - 1 < (called call valUp c.world as).length := by omega
  have hquiet := after_take_not_stop call valUp c.world as (show stops NOTIFY_DONE = false from rfl) hshort
  rw [notifierCallChainRobust, hup, Option.bind_some] at hrun
  dsimp only at hrun
  rw [hquiet, if_neg Bool.false_ne_true, Option.some.injEq, Prod.mk.injEq] at hrun
  obtain ⟨rfl, -⟩ := hrun
  have hlen := congrArg List.length hmade
  simp only [List.length_append, List.length_map, List.length_take] at hlen
  omega

/-- A robust call rolls back what succeeded exactly if fewer than 2^32 blocks are called. -/
theorem callChainRobust_iff (call : ω → ℕ → ℕ → ω × ℤ) (fuel valUp valDown : ℕ) (c : Calls ω)
    (h : Chain Loc.next link .head as) (hfuel : as.length < fuel)
    (hquiet : ∀ w nb, stops (call w nb valDown).2 = false) :
    RollsBack link call fuel valUp valDown as c ↔ (called call valUp c.world as).length < 2 ^ 32 := by
  refine ⟨fun hback => ?_, rollsBack h hfuel hquiet c⟩
  by_contra hge
  exact not_rollsBack h hfuel c (not_lt.mp hge) hback

end Robust

/-- The blocks 0, 1, 2 and so on, `n` of them. -/
def countUp (n : ℕ) : Loc → Option ℕ
  | .head => if 0 < n then some 0 else none
  | .next m => if m + 1 < n then some (m + 1) else none

theorem countUp_chain_next {n m k : ℕ} (h : m + 1 + k = n) :
    Chain Loc.next (countUp n) (.next m) (List.range' (m + 1) k) := by
  induction k generalizing m with
  | zero => exact if_neg (by omega)
  | succ k ih => exact ⟨if_pos (by omega), ih (by omega)⟩

theorem countUp_chain (n : ℕ) : Chain Loc.next (countUp n) .head (List.range n) := by
  rw [List.range_eq_range']
  cases n with
  | zero => rfl
  | succ n => exact ⟨by rw [countUp, if_pos (Nat.succ_pos n)], countUp_chain_next (by omega)⟩

/-- The callback of block 2 stops at the value 1. -/
def thirdStops (w : Unit) (nb val : ℕ) : Unit × ℤ := (w, if nb = 2 ∧ val = 1 then 0x8002 else 1)

theorem thirdStops_rollsBack : RollsBack (countUp 5) thirdStops 6 1 2 (List.range 5) ⟨(), []⟩ := by
  refine (callChainRobust_iff thirdStops 6 1 2 ⟨(), []⟩ (countUp_chain 5) (by decide) fun _ nb => ?_).mpr (by decide)
  simp [thirdStops, stops]

/-- Nothing stops the calls, but they end before the last of 2^32 blocks. -/
theorem manyBlocks_not_rollsBack :
    ¬RollsBack (countUp (2 ^ 32)) (fun (w : Unit) _ _ => (w, 1)) (2 ^ 32 + 1) 1 2 (List.range (2 ^ 32)) ⟨(), []⟩ := by
  refine not_rollsBack (countUp_chain _) ?_ _ ?_
  · rw [List.length_range]
    exact Nat.lt_succ_self _
  · rw [called_of_quiet (fun _ _ => rfl), List.length_range]

end GfpDrivers.Notifier
