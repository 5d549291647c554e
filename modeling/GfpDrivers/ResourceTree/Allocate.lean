import GfpDrivers.Lib.AlignedCells
import GfpDrivers.ResourceTree.Operations

/-!
Allocating a resource (`allocate_resource`): the gaps between the children of
a resource are searched in order for an aligned range of the wanted size, and
the new resource is put there.

`resource_size_t` has 64 bits. The alignment function is the default one, and
no range is reserved by the architecture.
-/

namespace GfpDrivers.ResourceTree

open Lib

def IORESOURCE_UNSET : ℕ := 0x20000000

/-- `ALIGN` -/
def align64 (x a : ℕ) : ℕ := (x + (a - 1)) % 2 ^ 64 &&& (2 ^ 64 - a)

/-- `resource_contains` -/
def resourceContains (r1 r2 : Resource) : Bool :=
  if resourceType r1 ≠ resourceType r2 then false
  else if r1.flags &&& IORESOURCE_UNSET ≠ 0 ∨ r2.flags &&& IORESOURCE_UNSET ≠ 0 then false
  else decide (r1.start ≤ r2.start ∧ r2.end_ ≤ r1.end_)

/-- `struct resource_constraint`, with the size. -/
structure Constraint where
  size : ℕ
  min : ℕ
  max : ℕ
  align : ℕ

/-- The loop of `__find_resource`: the start of the range that was found, if there is one.
`avail` and `alloc` have the same flags, and `IORESOURCE_UNSET` is not among them. -/
def findLoop (h : Heap) (root : ℕ) (old : Option ℕ) (k : Constraint) : ℕ → Option ℕ → ℕ → Option (Option ℕ)
  | 0, _, _ => none
  | fuel + 1, this, tmpStart =>
      let tmpEnd :=
        match this with
        | some t => if some t = old then (h t).end_ else regionEnd (h t).start 0
        | none => (h root).end_
      let next := fun tmpStart =>
        match this with
        | none => some none
        | some t =>
            if (h t).end_ = (h root).end_ then some none
            else findLoop h root old k fuel (h t).sibling
              (if some t = old then tmpStart else ((h t).end_ + 1) % 2 ^ 64)
      if tmpEnd < tmpStart then next tmpStart
      else
        -- `resource_clip`
        let tmpStart := Max.max tmpStart k.min
        let tmpEnd := Min.min tmpEnd k.max
        let start := align64 tmpStart k.align
        if tmpStart ≤ start ∧ start ≤ regionEnd start k.size ∧ regionEnd start k.size ≤ tmpEnd then some (some start)
        else next tmpStart

/-- `__find_resource` -/
def findResource (fuel : ℕ) (h : Heap) (root : ℕ) (old : Option ℕ) (k : Constraint) : Option (Option ℕ) :=
  match (h root).child with
  | none => findLoop h root old k fuel none (h root).start
  | some this =>
      if (h this).start = (h root).start then
        findLoop h root old k fuel (h this).sibling
          (if some this = old then (h this).start else ((h this).end_ + 1) % 2 ^ 64)
      else findLoop h root old k fuel (some this) (h root).start

/-- `*new` with the range that was found. -/
def moveTo (h : Heap) (new start size : ℕ) : Heap :=
  Function.update h new { h new with start := start, end_ := regionEnd start size }

/-- `reallocate_resource`. `none` also stands for the failure of its `BUG_ON`. -/
def reallocateResource (fuel : ℕ) (h : Heap) (root old : ℕ) (k : Constraint) : Option (Heap × ℤ) :=
  (findResource fuel h root (some old) k).bind fun
    | none => some (h, -EBUSY)
    | some start =>
        let new := moveTo h old start k.size old
        if resourceContains new (h old) then some (moveTo h old start k.size, 0)
        else if (h old).child ≠ none then some (h, -EBUSY)
        else if resourceContains (h old) new then some (moveTo h old start k.size, 0)
        else
          (doReleaseResource fuel h old true).bind fun (h, _) =>
            (requestResourceConflict fuel (Function.update h old new) root old).bind fun
              | (h, none) => some (h, 0)
              | (_, some _) => none

/-- `allocate_resource` -/
def allocateResource (fuel : ℕ) (h : Heap) (root new : ℕ) (k : Constraint) : Option (Heap × ℤ) :=
  if (h new).parent ≠ none then reallocateResource fuel h root new k
  else
    (findResource fuel h root none k).bind fun
      | none => some (h, -EBUSY)
      | some start =>
          (requestResourceConflict fuel (moveTo h new start k.size) root new).map fun
            | (h, some _) => (h, -EBUSY)
            | (h, none) => (h, 0)

/-! ### Arithmetic of `resource_size_t` -/

theorem and_high_mask {x k : ℕ} (hx : x < 2 ^ 64) (hk : k ≤ 64) : x &&& (2 ^ 64 - 2 ^ k) = x / 2 ^ k * 2 ^ k := by
  have hmask : 2 ^ 64 - 2 ^ k = (2 ^ (64 - k) - 1) <<< k := by
    rw [Nat.shiftLeft_eq, Nat.sub_mul, Nat.one_mul, ← Nat.pow_add, Nat.sub_add_cancel hk]
  apply Nat.eq_of_testBit_eq
  intro i
  rw [hmask, ← Nat.shiftLeft_eq, ← Nat.shiftRight_eq_div_pow, Nat.testBit_and, Nat.testBit_shiftLeft, Nat.testBit_shiftLeft,
    Nat.testBit_shiftRight, Nat.testBit_two_pow_sub_one]
  by_cases hki : k ≤ i
  · by_cases hi : i < 64
    · simp [hki, show i - k < 64 - k by omega, Nat.add_sub_cancel' hki]
    · have hzero : x.testBit i = false :=
        Nat.testBit_lt_two_pow (hx.trans_le (Nat.pow_le_pow_right (by decide) (by omega)))
      simp [hki, Nat.add_sub_cancel' hki, hzero]
  · simp [hki]

theorem align64_eq_roundUp {x k : ℕ} (hk : k ≤ 64) (hx : x + (2 ^ k - 1) < 2 ^ 64) :
    align64 x (2 ^ k) = roundUp x (2 ^ k) := by
  rw [align64, Nat.mod_eq_of_lt hx, and_high_mask hx hk, roundUp]

/-- Where the sum wraps, the result is below the argument. -/
theorem align64_lt {x k : ℕ} (hk : k < 64) (hx : x < 2 ^ 64) (hwrap : 2 ^ 64 ≤ x + (2 ^ k - 1)) :
    align64 x (2 ^ k) < x := by
  have hpow : 2 ^ k < 2 ^ 64 := Nat.pow_lt_pow_right (by decide) hk
  have hpos : 0 < 2 ^ k := Nat.two_pow_pos k
  have hmod : (x + (2 ^ k - 1)) % 2 ^ 64 = x + (2 ^ k - 1) - 2 ^ 64 := by omega
  rw [align64, and_high_mask (Nat.mod_lt _ (by decide)) hk.le, hmod, Nat.div_eq_of_lt (by omega)]
  omega

theorem regionEnd_of_le {start size : ℕ} (hsize : 0 < size) (hle : start + size ≤ 2 ^ 64) :
    regionEnd start size = start + size - 1 := by
  rw [regionEnd]
  omega

/-- One gap: the aligned start is taken exactly if some aligned range of the size lies in the gap,
and then it is the first one. -/
theorem gap_first {a b size j : ℕ} (hj : j < 64) (ha : a < 2 ^ 64) (hb : b < 2 ^ 64) (hsize : 0 < size)
    (hsize' : size ≤ 2 ^ 64) :
    let start := align64 a (2 ^ j)
    (a ≤ start ∧ start ≤ regionEnd start size ∧ regionEnd start size ≤ b → 2 ^ j ∣ start ∧ start + size ≤ b + 1) ∧
      ∀ s, 2 ^ j ∣ s → a ≤ s → s + size ≤ b + 1 →
        (a ≤ start ∧ start ≤ regionEnd start size ∧ regionEnd start size ≤ b) ∧ start ≤ s := by
  intro start
  have hpos : 0 < 2 ^ j := Nat.two_pow_pos j
  constructor
  · rintro ⟨hle, hend, hin⟩
    have hnowrap : a + (2 ^ j - 1) < 2 ^ 64 := by
      by_contra hwrap
      have := align64_lt hj ha (Nat.not_lt.mp hwrap)
      omega
    have hstart : start = roundUp a (2 ^ j) := align64_eq_roundUp hj.le hnowrap
    have hlt : start < 2 ^ 64 := by
      have := roundUp_lt (x := a) hpos
      have := Nat.pow_lt_pow_right (a := 2) (by decide) hj
      rw [hstart, roundUp]
      exact (Nat.div_mul_le_self _ _).trans_lt hnowrap
    refine ⟨hstart ▸ dvd_roundUp a _, ?_⟩
    rw [regionEnd] at hend hin
    omega
  · intro s hs has hin
    have hround : roundUp a (2 ^ j) ≤ s := roundUp_le hpos hs has
    have hnowrap : a + (2 ^ j - 1) < 2 ^ 64 := by
      by_contra hwrap
      -- the next multiple is the first one that does not fit any more
      have hdvd : 2 ^ j ∣ 2 ^ 64 := Nat.pow_dvd_pow 2 hj.le
      have hle : 2 ^ 64 ≤ roundUp a (2 ^ j) := by
        obtain ⟨m, hm⟩ := hdvd
        rw [hm, roundUp, Nat.mul_comm]
        refine Nat.mul_le_mul_right _ ?_
        rw [Nat.le_div_iff_mul_le hpos, Nat.mul_comm, ← hm]
        omega
      omega
    have hstart : start = roundUp a (2 ^ j) := align64_eq_roundUp hj.le hnowrap
    have hend : regionEnd start size = start + size - 1 := regionEnd_of_le hsize (by omega)
    have hle := le_roundUp (x := a) hpos
    rw [hend, hstart]
    exact ⟨⟨hle, by omega, by omega⟩, hround⟩

/-! ### The search -/

/-- `s` may be the start of the new resource: between `lo` and `hi`, aligned, and apart from `cs`. -/
structure Free (h : Heap) (cs : List ℕ) (k : Constraint) (lo hi s : ℕ) : Prop where
  aligned : k.align ∣ s
  lo_le : lo ≤ s
  le_hi : s + k.size ≤ hi + 1
  apart : ∀ c ∈ cs, (h c).end_ < s ∨ s + k.size ≤ (h c).start

/-- What a search returns that finds the first free range whenever there is one. -/
def FirstFree (h : Heap) (cs : List ℕ) (k : Constraint) (lo hi : ℕ) : Option (Option ℕ) → Prop
  | none => False
  | some none => ∀ s, ¬Free h cs k lo hi s
  | some (some s) => Free h cs k lo hi s ∧ ∀ s', Free h cs k lo hi s' → s ≤ s'

section

variable {h : Heap} {root j : ℕ} {k : Constraint}

theorem FirstFree.congr {cs cs' : List ℕ} {lo lo' hi : ℕ} (hiff : ∀ s, Free h cs k lo hi s ↔ Free h cs' k lo' hi s)
    {r : Option (Option ℕ)} (hr : FirstFree h cs' k lo' hi r) : FirstFree h cs k lo hi r := by
  match r with
  | none => exact hr
  | some none => exact fun s hs => hr s ((hiff s).mp hs)
  | some (some s) => exact ⟨(hiff s).mpr hr.1, fun s' hs' => hr.2 s' ((hiff s').mp hs')⟩

/-- The children that are in the way: all but the one that is moved. -/
def others (old : Option ℕ) (cs : List ℕ) : List ℕ := cs.filter fun c => some c ≠ old

theorem mem_others {old : Option ℕ} {cs : List ℕ} {c : ℕ} : c ∈ others old cs ↔ c ∈ cs ∧ some c ≠ old := by
  simp [others]

@[simp] theorem others_none (cs : List ℕ) : others none cs = cs := by simp [others]

theorem others_cons_self {cs : List ℕ} {c : ℕ} : others (some c) (c :: cs) = others (some c) cs := by simp [others]

theorem others_cons_of_ne {old : Option ℕ} {cs : List ℕ} {c : ℕ} (hc : some c ≠ old) :
    others old (c :: cs) = c :: others old cs := by simp [others, hc]

/-- Where nothing is free in front of `c`, the search goes on behind it. -/
theorem free_cons_iff {c t hi : ℕ} {es : List ℕ} (ht : t ≤ max ((h c).end_ + 1) k.min)
    (hafter : ∀ s, Free h (c :: es) k (max t k.min) hi s → (h c).end_ < s) (s : ℕ) :
    Free h (c :: es) k (max t k.min) hi s ↔ Free h es k (max ((h c).end_ + 1) k.min) hi s := by
  constructor
  · intro hs
    have := hafter s hs
    have := hs.lo_le
    exact ⟨hs.aligned, by omega, hs.le_hi, fun d hd => hs.apart d (by simp [hd])⟩
  · intro hs
    have := hs.lo_le
    refine ⟨hs.aligned, by omega, hs.le_hi, fun d hd => ?_⟩
    rcases List.mem_cons.mp hd with rfl | hd
    · exact .inl (by omega)
    · exact hs.apart d hd

/-- One round of the search: the first free range of the gap up to `e`, or the next round. -/
theorem round_cases (halign : k.align = 2 ^ j) (hj : j < 64) (hsize : 0 < k.size) (hsize' : k.size ≤ 2 ^ 64)
    (hmin : k.min < 2 ^ 64) {t e : ℕ} (ht : t < 2 ^ 64) (he : e < 2 ^ 64) (next : ℕ → Option (Option ℕ)) :
    let round :=
      if e < t then next t
      else if max t k.min ≤ align64 (max t k.min) k.align ∧
          align64 (max t k.min) k.align ≤ regionEnd (align64 (max t k.min) k.align) k.size ∧
          regionEnd (align64 (max t k.min) k.align) k.size ≤ min e k.max then
        some (some (align64 (max t k.min) k.align))
      else next (max t k.min)
    (∃ s, round = some (some s) ∧ Free h [] k (max t k.min) (min e k.max) s ∧
        ∀ s', k.align ∣ s' → max t k.min ≤ s' → s ≤ s') ∨
      (∃ t', (t' = t ∨ t' = max t k.min) ∧ round = next t') ∧ ∀ s, ¬Free h [] k (max t k.min) (min e k.max) s := by
  intro round
  by_cases hempty : e < t
  · refine .inr ⟨⟨t, .inl rfl, if_pos hempty⟩, fun s hs => ?_⟩
    have := hs.lo_le
    have := hs.le_hi
    omega
  · obtain ⟨hfound, hfirst⟩ := gap_first (b := min e k.max) hj (show max t k.min < 2 ^ 64 by omega) (by omega) hsize
      hsize'
    rw [← halign] at hfound hfirst
    have hround : round = if _ then _ else _ := if_neg hempty
    split_ifs at hround with hcond
    · obtain ⟨hdvd, hin⟩ := hfound hcond
      refine .inl ⟨_, hround, ⟨hdvd, hcond.1, hin, fun c hc => absurd hc List.not_mem_nil⟩, fun s' hs' hle => ?_⟩
      by_contra hlt
      exact absurd (hfirst s' hs' hle (by omega)).2 hlt
    · exact .inr ⟨⟨_, .inr rfl, hround⟩, fun s hs => hcond (hfirst s hs.aligned hs.lo_le hs.le_hi).1⟩

/-- A range that was found in front of `e` is the first one that is apart from all of `cs`, if `cs` lie behind `e`. -/
theorem firstFree_of_gap {cs : List ℕ} {t e s : ℕ} (he : e ≤ (h root).end_) (hcs : ∀ c ∈ cs, e < (h c).start)
    (hs : Free h [] k (max t k.min) (min e k.max) s) (hle : ∀ s', k.align ∣ s' → max t k.min ≤ s' → s ≤ s') :
    FirstFree h cs k (max t k.min) (min (h root).end_ k.max) (some (some s)) := by
  have hend := hs.le_hi
  refine ⟨⟨hs.aligned, hs.lo_le, by omega, fun c hc => .inr ?_⟩, fun s' hs' => hle s' hs'.aligned hs'.lo_le⟩
  have := hcs c hc
  omega

theorem findLoop_first (halign : k.align = 2 ^ j) (hj : j < 64) (hsize : 0 < k.size) (hsize' : k.size ≤ 2 ^ 64)
    (hmin : k.min < 2 ^ 64) (hroot : (h root).end_ < 2 ^ 64) {es : List ℕ} {fuel t : ℕ} {old this : Option ℕ}
    (hpath : Siblings h this es none) (hfuel : es.length < fuel) (ht : t < 2 ^ 64)
    (hbefore : es.Pairwise fun a b => (h a).end_ < (h b).start)
    (hes : ∀ c ∈ es, 0 < (h c).start ∧ t ≤ max (h c).start k.min ∧ (h c).start ≤ (h c).end_ ∧
      (h c).end_ ≤ (h root).end_) :
    FirstFree h (others old es) k (max t k.min) (min (h root).end_ k.max) (findLoop h root old k fuel this t) := by
  induction es generalizing fuel this t with
  | nil =>
    obtain ⟨fuel, rfl⟩ := Nat.exists_eq_add_one_of_ne_zero (show fuel ≠ 0 by omega)
    have hthis : this = none := hpath
    subst hthis
    rw [findLoop]
    obtain ⟨s, hround, hs, hle⟩ | ⟨⟨t', -, hround⟩, hnone⟩ :=
      round_cases (h := h) halign hj hsize hsize' hmin ht hroot fun _ => some none
    · refine (congrArg (FirstFree h [] k _ _) hround).mpr ⟨hs, fun s' hs' => hle s' hs'.aligned hs'.lo_le⟩
    · exact (congrArg (FirstFree h [] k _ _) hround).mpr hnone
  | cons c es ih =>
    obtain ⟨fuel, rfl⟩ := Nat.exists_eq_add_one_of_ne_zero (show fuel ≠ 0 by omega)
    obtain ⟨hthis, hrest⟩ := hpath
    subst hthis
    obtain ⟨hfirst, hbefore⟩ := List.pairwise_cons.mp hbefore
    obtain ⟨hcpos, htc, hcvalid, hcin⟩ := hes c (by simp)
    have hlater : ∀ d ∈ others old es, (h c).end_ < (h d).start := fun d hd => hfirst d (mem_others.mp hd).1
    rw [findLoop]
    by_cases hold : some c = old
    · -- the child that is moved counts as part of the gap around it
      subst hold
      rw [others_cons_self]
      simp only [if_true]
      obtain ⟨s, hround, hs, hle⟩ | ⟨⟨t', ht', hround⟩, hnone⟩ :=
        round_cases (h := h) halign hj hsize hsize' hmin ht (show (h c).end_ < 2 ^ 64 by omega) fun t =>
          if (h c).end_ = (h root).end_ then some none else findLoop h root (some c) k fuel (h c).sibling t
      · exact (congrArg (FirstFree h _ k _ _) hround).mpr (firstFree_of_gap hcin hlater hs hle)
      · refine (congrArg (FirstFree h _ k _ _) hround).mpr ?_
        split_ifs with hlast
        · intro s hs
          have := hs.le_hi
          exact hnone s ⟨hs.aligned, hs.lo_le, by omega, fun d hd => absurd hd List.not_mem_nil⟩
        · have hmax : max t' k.min = max t k.min := by
            rcases ht' with rfl | rfl
            · rfl
            · omega
          rw [← hmax]
          refine ih hrest (by simpa using hfuel) (by omega) hbefore fun d hd => ?_
          have := hfirst d hd
          have := hes d (by simp [hd])
          omega
    · have hgap : regionEnd (h c).start 0 = (h c).start - 1 := by
        rw [regionEnd]
        omega
      rw [others_cons_of_ne hold]
      simp only [if_neg hold, hgap]
      obtain ⟨s, hround, hs, hle⟩ | ⟨⟨t', -, hround⟩, hnone⟩ :=
        round_cases (h := h) halign hj hsize hsize' hmin ht (show (h c).start - 1 < 2 ^ 64 by omega) fun _ =>
          if (h c).end_ = (h root).end_ then some none
          else findLoop h root old k fuel (h c).sibling (((h c).end_ + 1) % 2 ^ 64)
      · -- the gap in front of `c`
        refine (congrArg (FirstFree h _ k _ _) hround).mpr (firstFree_of_gap (by omega) (fun d hd => ?_) hs hle)
        rcases List.mem_cons.mp hd with rfl | hd
        · omega
        · have := hlater d hd
          omega
      · refine (congrArg (FirstFree h _ k _ _) hround).mpr ?_
        -- whatever is free lies behind `c`
        have hafter : ∀ s, Free h (c :: others old es) k (max t k.min) (min (h root).end_ k.max) s → (h c).end_ < s := by
          intro s hs
          rcases hs.apart c (by simp) with hc | hc
          · exact hc
          · have := hs.le_hi
            exact absurd ⟨hs.aligned, hs.lo_le, by omega, fun d hd => absurd hd List.not_mem_nil⟩ (hnone s)
        split_ifs with hlast
        · intro s hs
          have := hafter s hs
          have := hs.le_hi
          omega
        · have hnext : ((h c).end_ + 1) % 2 ^ 64 = (h c).end_ + 1 := Nat.mod_eq_of_lt (by omega)
          rw [hnext]
          refine FirstFree.congr (free_cons_iff (by omega) hafter) ?_
          exact ih hrest (by simpa using hfuel) (by omega) hbefore fun d hd => by
            have := hfirst d hd
            have := hes d (by simp [hd])
            omega

/-- The search finds the first free range, unless `this->end + 1` wraps at a first child that fills the whole range. -/
theorem findResource_first (halign : k.align = 2 ^ j) (hj : j < 64) (hsize : 0 < k.size) (hsize' : k.size ≤ 2 ^ 64)
    (hmin : k.min < 2 ^ 64) (hroot : (h root).end_ < 2 ^ 64) (hvalid : (h root).start ≤ (h root).end_) {cs : List ℕ}
    {fuel : ℕ} {old : Option ℕ} (hf : Family h root cs) (hfuel : cs.length < fuel)
    (hwrap : ∀ c ∈ cs.head?, some c ≠ old → (h c).start = (h root).start → (h c).end_ < 2 ^ 64 - 1) :
    FirstFree h (others old cs) k (max (h root).start k.min) (min (h root).end_ k.max) (findResource fuel h root old k) := by
  have hchain := hf.chain
  cases cs with
  | nil =>
    have hchild : (h root).child = none := hchain
    rw [findResource, hchild]
    exact findLoop_first halign hj hsize hsize' hmin hroot rfl hfuel (by omega) .nil
      fun c hc => absurd hc List.not_mem_nil
  | cons c es =>
    obtain ⟨hchild, hrest⟩ := hchain
    obtain ⟨hfirst, hbefore⟩ := List.pairwise_cons.mp hf.before
    have hc := hf.inside c (by simp)
    have hcvalid := hf.valid c (by simp)
    have hlater : ∀ d ∈ es, (h c).end_ < (h d).start ∧ (h d).start ≤ (h d).end_ ∧ (h d).end_ ≤ (h root).end_ :=
      fun d hd => ⟨hfirst d hd, hf.valid d (by simp [hd]), (hf.inside d (by simp [hd])).2⟩
    rw [findResource, hchild]
    dsimp only
    split_ifs with hstart hold
    · -- the first child is the one that is moved
      subst hold
      rw [others_cons_self, ← hstart]
      refine findLoop_first halign hj hsize hsize' hmin hroot hrest (by simpa using Nat.lt_of_succ_lt hfuel) (by omega)
        hbefore fun d hd => ?_
      have := hlater d hd
      omega
    · -- the first child is skipped; nothing is free in front of it
      have hlt := hwrap c rfl hold hstart
      rw [others_cons_of_ne hold, Nat.mod_eq_of_lt (show (h c).end_ + 1 < 2 ^ 64 by omega)]
      refine FirstFree.congr (free_cons_iff (by omega) fun s hs => ?_) ?_
      · have := hs.lo_le
        rcases hs.apart c (by simp) with hc' | hc' <;> omega
      · refine findLoop_first halign hj hsize hsize' hmin hroot hrest (by simpa using Nat.lt_of_succ_lt hfuel) (by omega)
          hbefore fun d hd => ?_
        have := hlater d hd
        omega
    · have hpath : Siblings h (some c) (c :: es) none := ⟨rfl, hrest⟩
      refine findLoop_first halign hj hsize hsize' hmin hroot hpath hfuel (by omega) hf.before ?_
      intro d hd
      rcases List.mem_cons.mp hd with rfl | hd
      · omega
      · have := hlater d hd
        omega

theorem findResource_of_free (halign : k.align = 2 ^ j) (hj : j < 64) (hsize : 0 < k.size) (hsize' : k.size ≤ 2 ^ 64)
    (hmin : k.min < 2 ^ 64) (hroot : (h root).end_ < 2 ^ 64) {cs : List ℕ} {fuel : ℕ} (hf : Family h root cs)
    (hfuel : cs.length < fuel) {s : ℕ} (hfree : Free h cs k (max (h root).start k.min) (min (h root).end_ k.max) s) :
    ∃ s, findResource fuel h root none k = some (some s) ∧
      Free h cs k (max (h root).start k.min) (min (h root).end_ k.max) s := by
  have hlo := hfree.lo_le
  have hhi := hfree.le_hi
  have hfirst : FirstFree h (others none cs) k (max (h root).start k.min) (min (h root).end_ k.max)
      (findResource fuel h root none k) := by
    refine findResource_first halign hj hsize hsize' hmin hroot (by omega) hf hfuel fun c hc _ hstart => ?_
    have hapart := hfree.apart c (List.mem_of_mem_head? hc)
    have := hf.valid c (List.mem_of_mem_head? hc)
    omega
  rw [others_none] at hfirst
  match findResource fuel h root none k, hfirst with
  | some none, hr => exact absurd hfree (hr s)
  | some (some s), hr => exact ⟨s, rfl, hr.1⟩

/-- If there is a free range, the new resource becomes a child at one, and all other ranges stay. -/
theorem allocateResource_of_free (halign : k.align = 2 ^ j) (hj : j < 64) (hsize : 0 < k.size) (hsize' : k.size ≤ 2 ^ 64)
    (hmin : k.min < 2 ^ 64) (hroot : (h root).end_ < 2 ^ 64) {cs : List ℕ} {fuel new : ℕ} (hf : Family h root cs)
    (hfuel : cs.length < fuel) (hnew : new ∉ cs) (hne : new ≠ root) (hrootcs : root ∉ cs)
    (hparent : (h new).parent = none) {s : ℕ}
    (hfree : Free h cs k (max (h root).start k.min) (min (h root).end_ k.max) s) :
    ∃ h' s ds es, cs = ds ++ es ∧ allocateResource fuel h root new k = some (h', 0) ∧ Family h' root (ds ++ new :: es) ∧
      Free h cs k (max (h root).start k.min) (min (h root).end_ k.max) s ∧
      (h' new).start = s ∧ (h' new).end_ = s + k.size - 1 ∧
      ∀ a ≠ new, (h' a).start = (h a).start ∧ (h' a).end_ = (h a).end_ ∧ (h' a).parent = (h a).parent := by
  obtain ⟨s, hfind, hs⟩ := findResource_of_free halign hj hsize hsize' hmin hroot hf hfuel hfree
  have hlo := hs.lo_le
  have hhi := hs.le_hi
  set h₁ := moveTo h new s k.size with hh₁
  have hother : ∀ a ≠ new, h₁ a = h a := fun a ha => Function.update_of_ne ha _ _
  have hcs : ∀ c ∈ cs, h₁ c = h c := fun c hc => hother c (ne_of_mem_of_not_mem hc hnew)
  have hstart : (h₁ new).start = s := by simp [hh₁, moveTo]
  have hend : (h₁ new).end_ = s + k.size - 1 := by
    simp only [hh₁, moveTo, Function.update_self]
    exact regionEnd_of_le hsize (by omega)
  have hrooteq : h₁ root = h root := hother root hne.symm
  have hf₁ : Family h₁ root cs := hf.of_eq hrooteq hcs
  have hfits : Fits h₁ root new := by
    rw [Fits, hstart, hend, hrooteq]
    omega
  have hrun : requestResourceConflict fuel h₁ root new = requestLoop h₁ root new fuel (.child root) := by
    obtain ⟨hvalid, hleft, hright⟩ := hfits
    rw [requestResourceConflict, if_neg (by omega), if_neg (by omega), if_neg (by omega)]
  have halloc : allocateResource fuel h root new k =
      (requestLoop h₁ root new fuel (.child root)).map fun
        | (h, some _) => (h, -EBUSY)
        | (h, none) => (h, 0) := by
    rw [allocateResource, if_neg (not_not_intro hparent), hfind, ← hrun]
    rfl
  rcases @requestLoop_cases h₁ root new fuel (.child root) cs hf₁.chain hfuel with
    ⟨ds, es, hsplit, hds, hes, hloop⟩ | ⟨ds, c, es, hsplit, hds, hc, hc', hloop⟩
  · subst hsplit
    have hfam := hf₁.linkNew hnew (fun hmem => hrootcs (by simp [hmem])) hfits hds (hf₁.after_head ds hes)
    refine ⟨_, s, ds, es, rfl, by rw [halloc, hloop]; rfl, hfam, hs, ?_, ?_, fun a ha => ?_⟩
    · simp [linkNew, hstart]
    · simp [linkNew, hend]
    · simp only [linkNew, setParent_start, setParent_end, write_start, write_end, hother a ha, true_and]
      rw [setParent_of_ne ha, write_parent, write_parent, hother a ha]
  · -- the range that was found overlaps no child
    have hmem : c ∈ cs := by simp [hsplit]
    rw [hcs c hmem, hend] at hc
    rw [hcs c hmem, hstart] at hc'
    rcases hs.apart c hmem with hapart | hapart <;> omega

end

end GfpDrivers.ResourceTree
