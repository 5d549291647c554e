import GfpDrivers.Basic
import GfpDrivers.Lib.Chain
import GfpDrivers.Lib.Priority
import GfpDrivers.Lib.Runs

/-!
Notifier chains (`notifier.c`). A chain is kept in the order of the priorities. A block is looked for only up to the
place where it would be put in; that it is not behind that place follows from the order.

Blocks are addresses. While a block is not registered, its fields may be set to anything.
-/

namespace GfpDrivers.Notifier

open Lib Function List

/-- Where a link of the chain is kept: `*nl` of the caller, or `next` of a block. -/
inductive Loc where
  | head
  | next (n : ℕ)
  deriving DecidableEq

structure State where
  link : Loc → Option ℕ
  priority : ℕ → ℤ

/-- `n->next = *nl; *nl = n` -/
def State.putIn (s : State) (nl : Loc) (n : ℕ) : State :=
  { s with link := Function.update (Function.update s.link (.next n) (s.link nl)) nl (some n) }

/-- The loop of `notifier_chain_register`. -/
def registerLoop (s : State) (n : ℕ) : ℕ → Loc → Option (State × ℤ)
  | 0, _ => none
  | fuel + 1, nl =>
      match s.link nl with
      | none => some (s.putIn nl n, 0)
      | some m =>
          if m = n then some (s, -EEXIST)
          else if s.priority m < s.priority n then some (s.putIn nl n, 0)
          else registerLoop s n fuel (.next m)

/-- `notifier_chain_register` -/
def notifierChainRegister (fuel : ℕ) (s : State) (n : ℕ) : Option (State × ℤ) := registerLoop s n fuel .head

/-- The loop of `notifier_chain_unregister`. -/
def unregisterLoop (s : State) (n : ℕ) : ℕ → Loc → Option (State × ℤ)
  | 0, _ => none
  | fuel + 1, nl =>
      match s.link nl with
      | none => some (s, -ENOENT)
      | some m =>
          if m = n then some ({ s with link := Function.update s.link nl (s.link (.next n)) }, 0)
          else unregisterLoop s n fuel (.next m)

/-- `notifier_chain_unregister` -/
def notifierChainUnregister (fuel : ℕ) (s : State) (n : ℕ) : Option (State × ℤ) := unregisterLoop s n fuel .head

/-! ### The chain -/

/-- `a` was registered before `b`. -/
def Earlier (order : List ℕ) (a b : ℕ) : Prop := [a, b].Sublist order

/-- The chain holds the blocks of a list, which gives the order of their registration. -/
structure InOrder (s : State) (order as : List ℕ) : Prop where
  chain : Chain Loc.next s.link .head as
  nodup : as.Nodup
  perm : as.Perm order
  sorted : as.Pairwise (Before s.priority (Earlier order))

variable {s : State} {order as bs cs : List ℕ} {n m fuel : ℕ} {nl : Loc}

/-- The loop goes to where the block is or would be put in. -/
theorem registerLoop_eq (s : State) (n fuel : ℕ) (nl : Loc) :
    registerLoop s n fuel nl =
      (walk Loc.next s.link (fun m => decide (m = n ∨ s.priority m < s.priority n)) fuel nl).map fun l =>
        if s.link l = some n then (s, -EEXIST) else (s.putIn l n, 0) := by
  induction fuel generalizing nl with
  | zero => rfl
  | succ fuel ih =>
    rw [registerLoop, walk]
    cases hlink : s.link nl with
    | none => simp [hlink]
    | some m =>
      dsimp only
      by_cases hm : m = n
      · simp [hm, hlink]
      · by_cases hlt : s.priority m < s.priority n
        · simp [hm, hlt, hlink]
        · simp only [hm, hlt, or_self, decide_false, if_false, Bool.false_eq_true]
          exact ih _

theorem unregisterLoop_eq (s : State) (n fuel : ℕ) (nl : Loc) :
    unregisterLoop s n fuel nl =
      (walk Loc.next s.link (fun m => decide (m = n)) fuel nl).map fun l =>
        if s.link l = some n then ({ s with link := update s.link l (s.link (.next n)) }, 0)
        else (s, -ENOENT) := by
  induction fuel generalizing nl with
  | zero => rfl
  | succ fuel ih =>
    rw [unregisterLoop, walk]
    cases hlink : s.link nl with
    | none => simp [hlink]
    | some m =>
      dsimp only
      by_cases hm : m = n
      · simp [hm, hlink]
      · simp only [hm, decide_false, if_false, Bool.false_eq_true]
        exact ih _

/-! ### Registration orders -/

theorem Earlier.concat (h : Earlier order m n) (x : ℕ) : Earlier (order ++ [x]) m n :=
  h.trans (sublist_append_left ..)

theorem earlier_last (h : m ∈ order) (n : ℕ) : Earlier (order ++ [n]) m n :=
  (singleton_sublist.mpr h).append (List.Sublist.refl [n])

theorem Earlier.erase {x : ℕ} (h : Earlier order m n) (hm : m ≠ x) (hn : n ≠ x) : Earlier (order.erase x) m n := by
  have herase : [m, n].erase x = [m, n] := erase_of_not_mem (by simp [Ne.symm hm, Ne.symm hn])
  rw [Earlier, ← herase]
  exact List.Sublist.erase x h

theorem before_mono {priority : ℕ → ℤ} {earlier earlier' : ℕ → ℕ → Prop} (h : Before priority earlier m n)
    (hearlier : earlier m n → earlier' m n) : Before priority earlier' m n :=
  h.imp_right fun heq => ⟨heq.1, hearlier heq.2⟩

theorem nodup_slots (h : as.Nodup) : (Loc.head :: as.map Loc.next).Nodup := by
  refine nodup_cons.mpr ⟨by simp, h.map fun _ _ heq => Loc.next.inj heq⟩

theorem next_ne_loc {as : List ℕ} (h : n ∉ as) : Loc.next n ≠ locAfter Loc.next .head as := fun heq => by
  have hmem : locAfter Loc.next .head as ∈ Loc.head :: as.map Loc.next := locAfter_mem
  rw [← heq] at hmem
  exact h (by simpa using hmem)

/-! ### The two calls -/

/-- The place that the loop finds: everything before it has at least the priority of the block. -/
theorem InOrder.registerAt (h : InOrder s order as) (n : ℕ) (hfuel : as.length < fuel) :
    ∃ bs cs, as = bs ++ cs ∧ (∀ b ∈ bs, b ≠ n ∧ s.priority n ≤ s.priority b) ∧
      (∀ c ∈ cs.head?, c = n ∨ s.priority c < s.priority n) ∧
      notifierChainRegister fuel s n =
        some (if cs.head? = some n then (s, -EEXIST) else (s.putIn (locAfter Loc.next .head bs) n, 0)) := by
  obtain ⟨bs, cs, rfl, hbs, hcs, hrun⟩ :=
    h.chain.walk_eq (fun m => decide (m = n ∨ s.priority m < s.priority n)) hfuel
  refine ⟨bs, cs, rfl, fun b hb => ?_, fun c hc => of_decide_eq_true (hcs c hc), ?_⟩
  · have hstop := of_decide_eq_false (hbs b hb)
    exact ⟨fun heq => hstop (.inl heq), not_lt.mp fun hlt => hstop (.inr hlt)⟩
  · rw [notifierChainRegister, registerLoop_eq, hrun, Option.map_some, h.chain.read]

theorem InOrder.register_mem (h : InOrder s order as) (hn : n ∈ as) (hfuel : as.length < fuel) :
    notifierChainRegister fuel s n = some (s, -EEXIST) := by
  obtain ⟨bs, cs, rfl, hbs, hcs, hrun⟩ := h.registerAt n hfuel
  have hmem : n ∈ cs := (mem_append.mp hn).resolve_left fun hb => (hbs n hb).1 rfl
  have hhead : cs.head? = some n := by
    cases cs with
    | nil => cases hmem
    | cons c cs =>
      rcases mem_cons.mp hmem with rfl | hmem
      · rfl
      · rcases hcs c rfl with rfl | hlt
        · rfl
        · have hsorted := (pairwise_cons.mp (pairwise_append.mp h.sorted).2.1).1 n hmem
          exact absurd hsorted.le (not_le.mpr hlt)
  rw [hrun, if_pos hhead]

theorem insertByPriority_eq {priority : ℕ → ℤ} (hbs : ∀ b ∈ bs, priority n ≤ priority b)
    (hcs : ∀ c ∈ cs.head?, priority c < priority n) : insertByPriority priority n (bs ++ cs) = bs ++ n :: cs := by
  induction bs with
  | nil =>
    cases cs with
    | nil => rfl
    | cons c cs =>
      rw [insertByPriority, nil_append, orderedInsert_cons, if_pos (hcs c rfl)]
      rfl
  | cons b bs ih =>
    obtain ⟨hb, hbs⟩ := forall_mem_cons.mp hbs
    rw [insertByPriority, cons_append, orderedInsert_cons, if_neg (not_lt.mpr hb)]
    exact congrArg (b :: ·) (ih hbs)

theorem InOrder.register (h : InOrder s order as) (hn : n ∉ as) (hfuel : as.length < fuel) :
    ∃ s' as', notifierChainRegister fuel s n = some (s', 0) ∧ s'.priority = s.priority ∧
      InOrder s' (order ++ [n]) as' := by
  obtain ⟨bs, cs, rfl, hbs, hcs, hrun⟩ := h.registerAt n hfuel
  obtain ⟨hnb, hnc⟩ := not_or.mp (mt mem_append.mpr hn)
  have hhead : cs.head? ≠ some n := fun heq => hnc (mem_of_mem_head? heq)
  have hlower : ∀ c ∈ cs.head?, s.priority c < s.priority n := fun c hc =>
    (hcs c hc).resolve_left fun heq => hnc (heq ▸ mem_of_mem_head? hc)
  have hinsert := insertByPriority_eq (fun b hb => (hbs b hb).2) hlower
  have hloc : Loc.next n ≠ locAfter Loc.next .head bs := next_ne_loc hnb
  refine ⟨s.putIn (locAfter Loc.next .head bs) n, bs ++ n :: cs, by rw [hrun, if_neg hhead], rfl, ?_, ?_, ?_, ?_⟩
  · have hnext : Chain Loc.next (update s.link (.next n) (s.link (locAfter Loc.next .head bs))) .head
        (bs ++ cs) := by
      refine h.chain.congr fun x hx => update_of_ne ?_ ..
      rintro rfl
      simp [hnb, hnc] at hx
    have hslots := nodup_slots h.nodup
    rw [map_append, ← cons_append, nodup_append] at hslots
    refine hnext.insert hslots.1 hloc (fun b hb heq => ?_) ?_
    · have hmem : locAfter Loc.next .head bs ∈ Loc.head :: bs.map Loc.next := locAfter_mem
      exact hslots.2.2 _ hmem _ (mem_map_of_mem hb) heq.symm
    · rw [update_self, h.chain.read]
  · exact (perm_middle.nodup_iff).mpr (nodup_cons.mpr ⟨hn, h.nodup⟩)
  · exact perm_middle.trans (((perm_cons n).mpr h.perm).trans (perm_append_singleton n order).symm)
  · rw [← hinsert]
    refine pairwise_insertByPriority (h.sorted.imp fun hbefore => before_mono hbefore fun he => he.concat n) fun y hy => ?_
    exact earlier_last (h.perm.mem_iff.mp hy) n

theorem InOrder.unregisterAt (h : InOrder s order as) (n : ℕ) (hfuel : as.length < fuel) :
    ∃ bs cs, as = bs ++ cs ∧ n ∉ bs ∧ (∀ c ∈ cs.head?, c = n) ∧
      notifierChainUnregister fuel s n =
        some (if cs.head? = some n then
          ({ s with link := update s.link (locAfter Loc.next .head bs) (s.link (.next n)) }, 0)
        else (s, -ENOENT)) := by
  obtain ⟨bs, cs, rfl, hbs, hcs, hrun⟩ := h.chain.walk_eq (fun m => decide (m = n)) hfuel
  refine ⟨bs, cs, rfl, fun hb => of_decide_eq_false (hbs n hb) rfl, fun c hc => of_decide_eq_true (hcs c hc), ?_⟩
  rw [notifierChainUnregister, unregisterLoop_eq, hrun, Option.map_some, h.chain.read]

theorem InOrder.unregister_not_mem (h : InOrder s order as) (hn : n ∉ as) (hfuel : as.length < fuel) :
    notifierChainUnregister fuel s n = some (s, -ENOENT) := by
  obtain ⟨bs, cs, rfl, -, -, hrun⟩ := h.unregisterAt n hfuel
  have hhead : cs.head? ≠ some n := fun heq => hn (mem_append_right _ (mem_of_mem_head? heq))
  rw [hrun, if_neg hhead]

theorem InOrder.unregister (h : InOrder s order as) (hn : n ∈ as) (hfuel : as.length < fuel) :
    ∃ s', notifierChainUnregister fuel s n = some (s', 0) ∧ s'.priority = s.priority ∧
      InOrder s' (order.erase n) (as.erase n) := by
  obtain ⟨bs, cs, rfl, hnb, hcs, hrun⟩ := h.unregisterAt n hfuel
  obtain ⟨cs, rfl⟩ : ∃ ds, cs = n :: ds := by
    cases cs with
    | nil => exact absurd (by simpa using hn) hnb
    | cons c cs => exact ⟨cs, by rw [hcs c rfl]⟩
  have herase : (bs ++ n :: cs).erase n = bs ++ cs := by
    rw [erase_append_right _ hnb, erase_cons_head]
  have hslots := nodup_slots h.nodup
  rw [if_pos List.head?_cons] at hrun
  rw [herase]
  refine ⟨_, hrun, rfl, ?_, ?_, ?_, ?_⟩
  · rw [map_append, ← cons_append, nodup_append] at hslots
    refine h.chain.remove hslots.1 fun b hb heq => ?_
    have hmem : locAfter Loc.next .head bs ∈ Loc.head :: bs.map Loc.next := locAfter_mem
    exact hslots.2.2 _ hmem _ (mem_map_of_mem (mem_cons_of_mem n hb)) heq.symm
  · exact herase ▸ h.nodup.erase n
  · exact herase ▸ h.perm.erase n
  · have hnot : n ∉ bs ++ cs := herase ▸ h.nodup.not_mem_erase
    have hold : (bs ++ cs).Pairwise (Before s.priority (Earlier order)) :=
      h.sorted.sublist (List.Sublist.append (List.Sublist.refl bs) (sublist_cons_self n cs))
    refine hold.imp_of_mem fun ha hb hbefore => before_mono hbefore fun he => he.erase ?_ ?_
    · exact fun heq => hnot (heq ▸ ha)
    · exact fun heq => hnot (heq ▸ hb)

/-! ### Runs -/

/-- What happens to a chain and its blocks. -/
inductive Act where
  | register (n : ℕ)
  | unregister (n : ℕ)
  /-- The fields of a block are set. -/
  | init (n : ℕ) (priority : ℤ) (next : Option ℕ)

/-- One step, with a bound on the rounds that a loop makes. -/
def step (fuel : ℕ) (s : State) : Act → Option State
  | .register n => (notifierChainRegister fuel s n).map Prod.fst
  | .unregister n => (notifierChainUnregister fuel s n).map Prod.fst
  | .init n priority next =>
      some ⟨Function.update s.link (.next n) next, Function.update s.priority n priority⟩

/-- The blocks that are registered, in the order of their registration. -/
def registered (order : List ℕ) : Act → List ℕ
  | .register n => if n ∈ order then order else order ++ [n]
  | .unregister n => order.erase n
  | .init _ _ _ => order

/-- The fields of a block are not set while it is registered. -/
def Quiet : List ℕ → List Act → Prop
  | _, [] => True
  | order, a :: acts => (∀ n priority next, a = .init n priority next → n ∉ order) ∧ Quiet (registered order a) acts

theorem InOrder.init (h : InOrder s order as) (hn : n ∉ as) (priority : ℤ) (next : Option ℕ) :
    InOrder ⟨update s.link (.next n) next, update s.priority n priority⟩ order as where
  chain := by
    refine h.chain.congr fun x hx => update_of_ne ?_ ..
    rintro rfl
    exact hn (by simpa using hx)
  nodup := h.nodup
  perm := h.perm
  sorted := by
    refine h.sorted.imp_of_mem fun {a b} ha hb hbefore => ?_
    have hane : a ≠ n := fun heq => hn (heq ▸ ha)
    have hbne : b ≠ n := fun heq => hn (heq ▸ hb)
    simpa only [Before, update_of_ne hane, update_of_ne hbne] using hbefore

theorem InOrder.step (h : InOrder s order as) (a : Act) (hfuel : as.length < fuel)
    (ha : ∀ n priority next, a = .init n priority next → n ∉ order) :
    ∃ s' as', Notifier.step fuel s a = some s' ∧ InOrder s' (registered order a) as' := by
  cases a with
  | register n =>
    by_cases hn : n ∈ as
    · rw [registered, if_pos (h.perm.mem_iff.mp hn)]
      exact ⟨s, as, by rw [Notifier.step, h.register_mem hn hfuel]; rfl, h⟩
    · obtain ⟨s', as', hrun, -, h'⟩ := h.register hn hfuel
      rw [registered, if_neg fun hmem => hn (h.perm.mem_iff.mpr hmem)]
      exact ⟨s', as', by rw [Notifier.step, hrun]; rfl, h'⟩
  | unregister n =>
    by_cases hn : n ∈ as
    · obtain ⟨s', hrun, -, h'⟩ := h.unregister hn hfuel
      exact ⟨s', as.erase n, by rw [Notifier.step, hrun]; rfl, h'⟩
    · rw [registered, erase_of_not_mem fun hmem => hn (h.perm.mem_iff.mpr hmem)]
      exact ⟨s, as, by rw [Notifier.step, h.unregister_not_mem hn hfuel]; rfl, h⟩
  | init n priority next =>
    exact ⟨_, as, rfl, h.init (fun hmem => ha n priority next rfl (h.perm.mem_iff.mp hmem)) priority next⟩

theorem length_registered_le (order : List ℕ) (a : Act) : (registered order a).length ≤ order.length + 1 := by
  cases a with
  | register n =>
    rw [registered]
    split_ifs
    · exact Nat.le_succ _
    · rw [length_append, length_singleton]
  | unregister n => exact (erase_sublist ..).length_le.trans (Nat.le_succ _)
  | init => exact Nat.le_succ _

theorem InOrder.run {acts : List Act} (h : InOrder s order as) (hquiet : Quiet order acts)
    (hfuel : order.length + acts.length < fuel) :
    ∃ s' as', exec (Notifier.step fuel) s acts = some s' ∧ InOrder s' (acts.foldl registered order) as' ∧
      as'.length < fuel := by
  induction acts generalizing s order as with
  | nil => exact ⟨s, as, rfl, h, by rw [h.perm.length_eq]; simpa using hfuel⟩
  | cons a acts ih =>
    rw [length_cons] at hfuel
    have hlen := length_registered_le order a
    have hshort : as.length < fuel := by
      rw [h.perm.length_eq]
      omega
    obtain ⟨s₁, as₁, hrun₁, h₁⟩ := h.step a hshort hquiet.1
    obtain ⟨s', as', hrun, h', hlen'⟩ := ih h₁ hquiet.2 (by omega)
    exact ⟨s', as', by rw [exec_cons, hrun₁, Option.bind_some, hrun], h', hlen'⟩

/-- After any calls the chain holds the registered blocks, each once, those of higher priority first and those of one
priority in the order of their registration. A block in it cannot be registered and one that is not in it cannot be
unregistered; such a call changes nothing. -/
theorem chain_in_order (s : State) (acts : List Act) (fuel : ℕ) (hempty : s.link .head = none) (hquiet : Quiet [] acts)
    (hfuel : acts.length < fuel) :
    ∃ s' as, exec (step fuel) s acts = some s' ∧ Chain Loc.next s'.link .head as ∧ as.Nodup ∧
      as.Perm (acts.foldl registered []) ∧ as.Pairwise (Before s'.priority (Earlier (acts.foldl registered []))) ∧
      (∀ n ∈ as, notifierChainRegister fuel s' n = some (s', -EEXIST) ∧
        (notifierChainUnregister fuel s' n).map Prod.snd = some 0) ∧
      ∀ n ∉ as, notifierChainUnregister fuel s' n = some (s', -ENOENT) ∧
        (notifierChainRegister fuel s' n).map Prod.snd = some 0 := by
  have hstart : InOrder s [] [] := ⟨hempty, List.nodup_nil, List.Perm.refl [], List.Pairwise.nil⟩
  obtain ⟨s', as, hrun, h, hlen⟩ := hstart.run hquiet (by simpa using hfuel)
  refine ⟨s', as, hrun, h.chain, h.nodup, h.perm, h.sorted, fun n hn => ⟨h.register_mem hn hlen, ?_⟩,
    fun n hn => ⟨h.unregister_not_mem hn hlen, ?_⟩⟩
  · obtain ⟨s'', hout, -⟩ := h.unregister hn hlen
    rw [hout, Option.map_some]
  · obtain ⟨s'', as', hout, -⟩ := h.register hn hlen
    rw [hout, Option.map_some]

/-- Three blocks, two of them of one priority; the first one is registered a second time. -/
def threeBlocks : List Act :=
  [.init 7 0 none, .init 8 5 (some 9), .init 9 0 (some 7), .register 7, .register 8, .register 9, .register 7,
    .unregister 7, .register 7]

theorem threeBlocks_in_order :
    ∃ s' as, exec (step 20) ⟨fun _ => none, fun _ => 0⟩ threeBlocks = some s' ∧
      Chain Loc.next s'.link .head as ∧ as.Perm [8, 9, 7] ∧ notifierChainRegister 20 s' 9 = some (s', -EEXIST) := by
  obtain ⟨s', as, hrun, hchain, -, hperm, -, hmem, -⟩ := chain_in_order ⟨fun _ => none, fun _ => 0⟩ threeBlocks 20 rfl
    (by simp [threeBlocks, Quiet, registered]) (by decide)
  have horder : threeBlocks.foldl registered [] = [8, 9, 7] := by decide
  rw [horder] at hperm
  exact ⟨s', as, hrun, hchain, hperm, (hmem 9 (hperm.mem_iff.mpr (by decide))).1⟩

end GfpDrivers.Notifier
