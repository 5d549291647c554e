import GfpDrivers.Pci.SetupBus

/-!
The window that `pbus_size_mem` makes holds everything it was sized for: at
every base that is a multiple of its start, the sorted resources find a place
in it one after the other.

The start may be smaller than the alignment of the largest resources. What is
lost in front of them is then not more than what the smaller ones take.
-/

namespace GfpDrivers.Pci

open Lib ResourceTree Function List

/-- The sizes of the resources with `p`, added up. -/
def sizeWhere (align : ℕ → ℕ) (p : ℕ → Prop) [DecidablePred p] (l : List ℕ) : ℕ :=
  (l.map fun r => if p r then align r else 0).sum

/-- The index of a resource in `aligns`. -/
def orderOf (align : ℕ → ℕ) (r : ℕ) : ℕ := ffs (align r) - 20

/-- A resource whose size is its alignment, a power of two from 1 byte to 8 TiB. -/
def Natural (h : Heap) (align : ℕ → ℕ) (r : ℕ) : Prop := resourceSize (h r) = align r ∧ ∃ n ≤ 43, align r = 2 ^ n

/-- The resources behind the bridge that the window is sized for. -/
def countedBars (h : Heap) (bus : PciBus) (t : MemType) : List ℕ := bus.devices.flatten.filter fun r => counted t (h r)

section

variable {align : ℕ → ℕ} {p q : ℕ → Prop} [DecidablePred p] [DecidablePred q] {l l' : List ℕ}

@[simp] theorem sizeWhere_nil : sizeWhere align p [] = 0 := rfl

@[simp] theorem sizeWhere_cons (r : ℕ) : sizeWhere align p (r :: l) = (if p r then align r else 0) + sizeWhere align p l := by
  simp [sizeWhere]

theorem sizeWhere_append : sizeWhere align p (l ++ l') = sizeWhere align p l + sizeWhere align p l' := by
  simp [sizeWhere]

theorem sizeWhere_perm (hl : l.Perm l') : sizeWhere align p l = sizeWhere align p l' := (hl.map _).sum_eq

theorem sizeWhere_all (hl : ∀ r ∈ l, p r) : sizeWhere align p l = (l.map align).sum := by
  rw [sizeWhere, map_congr_left fun r hr => if_pos (hl r hr)]

theorem sizeWhere_add_not : sizeWhere align p l + sizeWhere align (fun r => ¬p r) l = (l.map align).sum := by
  rw [sizeWhere, sizeWhere, ← sum_map_add]
  congr 1
  refine map_congr_left fun r _ => ?_
  by_cases hp : p r <;> simp [hp]

theorem sizeWhere_le : sizeWhere align p l ≤ (l.map align).sum := by
  rw [← sizeWhere_add_not (p := p)]
  exact Nat.le_add_right _ _

theorem dvd_sizeWhere {a : ℕ} (hl : ∀ r ∈ l, p r → a ∣ align r) : a ∣ sizeWhere align p l := by
  induction l with
  | nil => exact Nat.dvd_zero a
  | cons r l ih =>
    rw [sizeWhere_cons]
    refine Nat.dvd_add ?_ (ih fun d hd => hl d (by simp [hd]))
    split_ifs with hp
    · exact hl r (by simp) hp
    · exact Nat.dvd_zero a

theorem sizeWhere_order_succ (k : ℕ) :
    sizeWhere align (fun r => orderOf align r < k + 1) l =
      sizeWhere align (fun r => orderOf align r < k) l + sizeWhere align (fun r => orderOf align r = k) l := by
  rw [sizeWhere, sizeWhere, sizeWhere, ← sum_map_add]
  congr 1
  refine map_congr_left fun r _ => ?_
  rcases Nat.lt_trichotomy (orderOf align r) k with hlt | heq | hgt
  · simp [hlt, hlt.ne, Nat.lt_succ_of_lt hlt]
  · simp [heq]
  · simp [hgt.ne', Nat.lt_asymm hgt, show ¬orderOf align r < k + 1 by omega]

end

theorem ffs_two_pow : ∀ n ≤ 43, ffs (2 ^ n) = n := by
  decide

section

variable {h : Heap} {align : ℕ → ℕ} {t : MemType} {bars l : List ℕ}

theorem orderOf_lt {r : ℕ} (hr : Natural h align r) : orderOf align r < 24 := by
  obtain ⟨-, n, hn, halign⟩ := hr
  rw [orderOf, halign, ffs_two_pow n hn]
  omega

/-! ### The loops of `pbus_size_mem` -/

/-- What the loops have kept when they have counted `bars`. -/
structure Sized (h : Heap) (align : ℕ → ℕ) (bars : List ℕ) (s : Sizing) : Prop where
  heap : s.heap = h
  aligns : ∀ j, s.aligns j = sizeWhere align (fun r => orderOf align r = j) bars
  size : s.size = (bars.map align).sum
  maxOrder : ∀ r ∈ bars, orderOf align r ≤ s.maxOrder
  maxOrder_lt : s.maxOrder < 24

theorem sizeResource_sized {s : Sizing} (hs : Sized h align bars s) {r : ℕ} (hr : counted t (h r) = true → Natural h align r) :
    Sized h align (bars ++ [r].filter fun r => counted t (h r)) (sizeResource t align s r) := by
  rw [sizeResource, hs.heap]
  cases hc : counted t (h r) with
  | false => simpa [hc] using hs
  | true =>
    have horder := orderOf_lt (hr hc)
    obtain ⟨hsize, -⟩ := hr hc
    have hfilter : [r].filter (fun r => counted t (h r)) = [r] := by simp [hc]
    simp only [Bool.true_eq_false, if_false, hsize, le_refl, if_true, Nat.max_self, hfilter]
    rw [← orderOf, if_neg (by omega)]
    refine ⟨rfl, fun j => ?_, ?_, fun d hd => ?_, ?_⟩
    · rw [sizeWhere_append, sizeWhere_cons, sizeWhere_nil, ← hs.aligns]
      by_cases hj : j = orderOf align r
      · simp [hj]
      · simp [update_of_ne hj, Ne.symm hj]
    · simp [hs.size]
    · have hmax := hs.maxOrder d
      rcases mem_append.mp hd with hd | hd
      · have := hmax hd
        dsimp only
        split_ifs <;> omega
      · rw [mem_singleton.mp hd]
        dsimp only
        split_ifs <;> omega
    · have := hs.maxOrder_lt
      dsimp only
      split_ifs <;> omega

theorem foldl_sizeResource_sized {s : Sizing} (hs : Sized h align bars s)
    (hl : ∀ r ∈ l, counted t (h r) = true → Natural h align r) :
    Sized h align (bars ++ l.filter fun r => counted t (h r)) (l.foldl (sizeResource t align) s) := by
  induction l generalizing bars s with
  | nil => simpa using hs
  | cons r l ih =>
    have hstep := sizeResource_sized hs (hl r (by simp))
    have hrest := ih hstep fun d hd => hl d (by simp [hd])
    rw [append_assoc, ← filter_append] at hrest
    exact hrest

/-! ### The alignment of the window -/

/-- What `calculate_mem_align` has found after `n` orders: an alignment `2 ^ a` such that what
is lost in front of a larger order is not more than what the smaller ones take. -/
structure MemAligned (align : ℕ → ℕ) (bars : List ℕ) (n : ℕ) (s : ℕ × ℕ) (a : ℕ) : Prop where
  sum : s.1 = sizeWhere align (fun r => orderOf align r < n) bars
  pow : s.2 = 2 ^ a
  le : 20 ≤ a
  lt : a < n + 20
  enough : ∀ k < n, k + 20 ≤ a ∨
    2 ^ (k + 20) ≤ roundUp (sizeWhere align (fun r => orderOf align r < k) bars) (2 ^ a) + 2 ^ a

theorem memAlignStep_snd (aligns : ℕ → ℕ) (s : ℕ × ℕ) (n : ℕ) :
    (memAlignStep aligns s n).2 =
      if s.1 = 0 then 2 ^ (n + 20) else if align64 (s.1 + s.2) s.2 < 2 ^ (n + 20) then 2 ^ (n + 19) else s.2 := by
  have hhalf : 2 ^ (n + 20) >>> 1 = 2 ^ (n + 19) := by
    rw [Nat.shiftRight_eq_div_pow, Nat.pow_succ 2 (n + 19), Nat.pow_one, Nat.mul_div_cancel _ (by decide)]
  rw [memAlignStep, Nat.one_shiftLeft, hhalf]

theorem memAlignStep_aligned {aligns : ℕ → ℕ} (haligns : ∀ j, aligns j = sizeWhere align (fun r => orderOf align r = j) bars)
    (htotal : (bars.map align).sum < 2 ^ 63) {n a : ℕ} {s : ℕ × ℕ} (hn : n < 24) (hs : MemAligned align bars n s a) :
    ∃ a', MemAligned align bars (n + 1) (memAlignStep aligns s n) a' := by
  have hpos := Nat.two_pow_pos a
  have hsum : (memAlignStep aligns s n).1 = sizeWhere align (fun r => orderOf align r < n + 1) bars := by
    rw [sizeWhere_order_succ, ← hs.sum, ← haligns]
    rfl
  have hlt : s.1 < 2 ^ 63 := by
    rw [hs.sum]
    exact sizeWhere_le.trans_lt htotal
  have hround : align64 (s.1 + s.2) s.2 = roundUp s.1 (2 ^ a) + 2 ^ a := by
    have hpow : 2 ^ a ≤ 2 ^ 43 := Nat.pow_le_pow_right (by decide) (by have := hs.lt; omega)
    rw [hs.pow, align64_eq_roundUp (by have := hs.lt; omega) (by omega), Nat.add_comm s.1, roundUp_add hpos dvd_rfl,
      Nat.add_comm]
  have hle := hs.le
  have hlt' := hs.lt
  by_cases hzero : s.1 = 0
  · -- nothing is smaller than this order
    refine ⟨n + 20, hsum, ?_, by omega, by omega, fun k hk => .inl (by omega)⟩
    rw [memAlignStep_snd, if_pos hzero]
  by_cases hcond : align64 (s.1 + s.2) s.2 < 2 ^ (n + 20)
  · -- half of this order is enough, as something is smaller
    have hn0 : n ≠ 0 := by
      rintro rfl
      omega
    refine ⟨n + 19, hsum, ?_, by omega, by omega, fun k hk => ?_⟩
    · rw [memAlignStep_snd, if_neg hzero, if_pos hcond]
    · rcases Nat.lt_or_eq_of_le (Nat.le_of_lt_succ hk) with hk | rfl
      · exact .inl (by omega)
      · right
        rw [← hs.sum]
        have hcell : 2 ^ (k + 19) ≤ roundUp s.1 (2 ^ (k + 19)) := by
          have hup := le_roundUp (x := s.1) (Nat.two_pow_pos (k + 19))
          exact Nat.le_of_dvd (by omega) (dvd_roundUp s.1 _)
        have hdouble : 2 ^ (k + 20) = 2 ^ (k + 19) * 2 := Nat.pow_succ 2 (k + 19)
        omega
  · refine ⟨a, hsum, ?_, hle, by omega, fun k hk => ?_⟩
    · rw [memAlignStep_snd, if_neg hzero, if_neg hcond, hs.pow]
    · rcases Nat.lt_or_eq_of_le (Nat.le_of_lt_succ hk) with hk | rfl
      · exact hs.enough k hk
      · right
        rw [hround, Nat.not_lt] at hcond
        rw [← hs.sum]
        exact hcond

theorem memAlign_first {aligns : ℕ → ℕ} (haligns : ∀ j, aligns j = sizeWhere align (fun r => orderOf align r = j) bars) :
    MemAligned align bars 1 (memAlignStep aligns (0, 0) 0) 20 := by
  refine ⟨?_, memAlignStep_snd aligns (0, 0) 0, le_rfl, by decide, fun k hk => .inl (by omega)⟩
  rw [sizeWhere_order_succ, ← haligns, sizeWhere, map_congr_left fun r _ => if_neg (Nat.not_lt_zero _)]
  simp [memAlignStep]

theorem foldl_memAlignStep_aligned {aligns : ℕ → ℕ}
    (haligns : ∀ j, aligns j = sizeWhere align (fun r => orderOf align r = j) bars)
    (htotal : (bars.map align).sum < 2 ^ 63) {n : ℕ} (hn : n < 24) :
    ∃ a, MemAligned align bars (n + 1) ((List.range (n + 1)).foldl (memAlignStep aligns) (0, 0)) a := by
  induction n with
  | zero => exact ⟨20, memAlign_first haligns⟩
  | succ n ih =>
    obtain ⟨a, ha⟩ := ih (by omega)
    rw [range_succ, foldl_append, foldl_cons, foldl_nil]
    exact memAlignStep_aligned haligns htotal hn ha

/-- The window can start at any multiple of `2 ^ a`: in front of the large resources there is no
more room lost than what the small ones take. -/
def Enough (align : ℕ → ℕ) (bars : List ℕ) (a : ℕ) : Prop :=
  ∀ r ∈ bars, orderOf align r + 20 ≤ a ∨
    2 ^ (orderOf align r + 20) ≤
      roundUp (sizeWhere align (fun d => orderOf align d < orderOf align r) bars) (2 ^ a) + 2 ^ a

/-- From any base on, a resource and all that are not smaller fit into the window. -/
theorem window_room {a base r : ℕ} (ha : 20 ≤ a) (henough : Enough align bars a) (hbars : ∀ d ∈ bars, Natural h align d)
    (hbase : 2 ^ a ∣ base) (hr : r ∈ bars) :
    roundUp base (align r) + sizeWhere align (fun d => align r ≤ align d) bars ≤
      base + roundUp (bars.map align).sum (2 ^ a) := by
  have hapos := Nat.two_pow_pos a
  obtain ⟨-, n, hn, halign⟩ := hbars r hr
  have hnpos := Nat.two_pow_pos n
  rw [halign]
  by_cases hna : n ≤ a
  · rw [roundUp_of_dvd hnpos ((Nat.pow_dvd_pow 2 hna).trans hbase)]
    exact Nat.add_le_add_left (sizeWhere_le.trans (le_roundUp hapos)) base
  · have horder : orderOf align r = n - 20 := by rw [orderOf, halign, ffs_two_pow n hn]
    have hpow : 2 ^ n ≤ roundUp (sizeWhere align (fun d => orderOf align d < n - 20) bars) (2 ^ a) + 2 ^ a := by
      have hdichotomy := henough r hr
      rw [horder, Nat.sub_add_cancel (by omega)] at hdichotomy
      exact hdichotomy.resolve_left hna
    -- the large ones are those of this order and above
    have hlarge : sizeWhere align (fun d => ¬orderOf align d < n - 20) bars =
        sizeWhere align (fun d => 2 ^ n ≤ align d) bars := by
      rw [sizeWhere, sizeWhere]
      refine congrArg List.sum (map_congr_left fun d hd => if_congr ?_ rfl rfl)
      obtain ⟨-, m, hm, hd⟩ := hbars d hd
      rw [orderOf, hd, ffs_two_pow m hm, Nat.pow_le_pow_iff_right (by decide)]
      omega
    have hdvd : 2 ^ a ∣ sizeWhere align (fun d => 2 ^ n ≤ align d) bars := by
      refine dvd_sizeWhere fun d hd hle => ?_
      obtain ⟨-, m, hm, hd⟩ := hbars d hd
      rw [hd, Nat.pow_le_pow_iff_right (by decide)] at hle
      rw [hd]
      exact Nat.pow_dvd_pow 2 (by omega)
    have hlost := roundUp_le_of_dvd hnpos (Nat.pow_dvd_pow 2 (Nat.le_of_not_le hna)) hbase
    rw [← sizeWhere_add_not (p := fun d => orderOf align d < n - 20), hlarge, Nat.add_comm (sizeWhere align _ bars),
      roundUp_add hapos hdvd]
    omega

theorem windowAlignment_le (bus : PciBus) (type : ℕ) : windowAlignment bus type ≤ 2 ^ 20 := by
  rw [windowAlignment]
  split_ifs <;> decide

/-- What `pbus_size_mem` makes of a window that was not sized before. -/
theorem pbusSizeMem_cases {bus : PciBus} {b : ℕ}
    (hwin : findBusResourceOfType h bus (t.mask ||| IORESOURCE_PREFETCH) t.type = some b)
    (hparent : (h b).parent = none) (hstart : (h b).start = 0) (hend : (h b).end_ = 0)
    (hbars : ∀ r ∈ countedBars h bus t, Natural h align r) (htotal : ((countedBars h bus t).map align).sum < 2 ^ 63) :
    ∃ a, 20 ≤ a ∧ a < 44 ∧ Enough align (countedBars h bus t) a ∧
      pbusSizeMem h bus t align 0 =
        if roundUp ((countedBars h bus t).map align).sum (2 ^ a) = 0 then (update h b { h b with flags := 0 }, 0)
        else
          (update h b
            { h b with
              start := 2 ^ a
              end_ := regionEnd (2 ^ a) (roundUp ((countedBars h bus t).map align).sum (2 ^ a))
              flags := (h b).flags ||| IORESOURCE_STARTALIGN }, 0) := by
  set bars := countedBars h bus t with hdef
  have hsized : Sized h align bars (bus.devices.flatten.foldl (sizeResource t align) ⟨h, fun _ => 0, 0, 0⟩) := by
    refine @foldl_sizeResource_sized h align t [] _ _ ⟨rfl, fun _ => rfl, rfl, fun r hr => absurd hr not_mem_nil,
      Nat.zero_lt_succ 23⟩ fun r hr hc => hbars r ?_
    exact mem_filter.mpr ⟨hr, hc⟩
  rw [foldl_flatten] at hsized
  rw [pbusSizeMem, hwin]
  set s := bus.devices.foldl (fun s dev => dev.foldl (sizeResource t align) s) ⟨h, fun _ => 0, 0, 0⟩ with hs
  have hmax := hsized.maxOrder_lt
  obtain ⟨a, ha⟩ := foldl_memAlignStep_aligned hsized.aligns htotal hmax
  have hle := ha.le
  have hlt := ha.lt
  have hpow : 2 ^ a ≤ 2 ^ 43 := Nat.pow_le_pow_right (by decide) (by omega)
  have hmin : max (calculateMemAlign s.aligns s.maxOrder) (windowAlignment bus (h b).flags) = 2 ^ a := by
    rw [calculateMemAlign, ha.pow]
    exact Nat.max_eq_left ((windowAlignment_le bus _).trans (Nat.pow_le_pow_right (by decide) hle))
  have hold : resourceSize (h b) = 1 := by
    rw [resourceSize, hstart, hend]
    decide
  have hsize : calculateMemsize s.size 0 0 0 1 (2 ^ a) = roundUp (bars.map align).sum (2 ^ a) := by
    rw [calculateMemsize]
    simp only [Nat.not_lt_zero, if_false, if_true, Nat.max_zero, Nat.add_zero]
    rw [hsized.size, align64_eq_roundUp (by omega) (by omega)]
  refine ⟨a, hle, by omega, fun r hr => ?_, ?_⟩
  · exact ha.enough _ (Nat.lt_succ_of_le (hsized.maxOrder r hr))
  · simp only [hparent, ne_eq, not_true, if_false, hsized.heap, hmin, hold, hsize]

/-! ### The order of the resources -/

theorem insertByAlign_perm (align : ℕ → ℕ) (r : ℕ) (l : List ℕ) : (insertByAlign align r l).Perm (r :: l) := by
  induction l with
  | nil => exact .refl _
  | cons d l ih =>
    rw [insertByAlign]
    split_ifs
    · exact .refl _
    · exact (ih.cons d).trans (.swap r d l)

theorem insertByAlign_sorted (r : ℕ) (hl : l.Pairwise fun a b => align b ≤ align a) :
    (insertByAlign align r l).Pairwise fun a b => align b ≤ align a := by
  induction l with
  | nil => exact pairwise_singleton _ r
  | cons d l ih =>
    obtain ⟨hd, htail⟩ := pairwise_cons.mp hl
    rw [insertByAlign]
    split_ifs with hlt
    · refine pairwise_cons.mpr ⟨fun x hx => ?_, hl⟩
      rcases mem_cons.mp hx with rfl | hx
      · exact hlt.le
      · exact (hd x hx).trans hlt.le
    · refine pairwise_cons.mpr ⟨fun x hx => ?_, ih htail⟩
      rcases mem_cons.mp ((insertByAlign_perm align r l).mem_iff.mp hx) with rfl | hx
      · exact Nat.le_of_not_lt hlt
      · exact hd x hx

theorem sortResource_cases (h : Heap) (align : ℕ → ℕ) (head : List ℕ) (r : ℕ) :
    sortResource h align head r = insertByAlign align r head ∨
      sortResource h align head r = head ∧
        ((h r).flags &&& IORESOURCE_PCI_FIXED ≠ 0 ∨ (h r).flags = 0 ∨ (h r).parent ≠ none ∨ align r = 0) := by
  rw [sortResource]
  split_ifs with hfixed hunused hzero
  · exact .inr ⟨rfl, .inl hfixed⟩
  · exact .inr ⟨rfl, .inr (hunused.imp_right .inl)⟩
  · exact .inr ⟨rfl, .inr (.inr (.inr hzero))⟩
  · exact .inl rfl

theorem foldl_sortResource_sorted {head : List ℕ} (hhead : head.Pairwise fun a b => align b ≤ align a) :
    (l.foldl (sortResource h align) head).Pairwise fun a b => align b ≤ align a := by
  induction l generalizing head with
  | nil => exact hhead
  | cons r l ih =>
    apply ih
    rcases sortResource_cases h align head r with heq | ⟨heq, -⟩
    · rw [heq]
      exact insertByAlign_sorted r hhead
    · rw [heq]
      exact hhead

theorem foldl_sortResource_perm {head : List ℕ}
    (hl : ∀ r ∈ l, counted t (h r) = true → (h r).flags ≠ 0 ∧ align r ≠ 0) :
    ((l.foldl (sortResource h align) head).filter fun r => counted t (h r)).Perm
      ((l ++ head).filter fun r => counted t (h r)) := by
  induction l generalizing head with
  | nil => exact .refl _
  | cons r l ih =>
    refine (ih fun d hd => hl d (by simp [hd])).trans ?_
    rcases sortResource_cases h align head r with heq | ⟨heq, hleft⟩
    · rw [heq]
      refine List.Perm.filter _ ?_
      exact ((insertByAlign_perm align r head).append_left l).trans perm_middle
    · have hc : counted t (h r) = false := by
        rw [← Bool.not_eq_true]
        intro hc
        obtain ⟨hflags, hzero⟩ := hl r (by simp) hc
        simp only [counted, Bool.and_eq_true, decide_eq_true_eq] at hc
        obtain ⟨⟨hparent, hfixed⟩, -⟩ := hc
        rcases hleft with hleft | hleft | hleft | hleft
        · exact hleft hfixed
        · exact hflags hleft
        · exact hleft hparent
        · exact hzero hleft
      rw [heq, cons_append, filter_cons_of_neg (by simp [hc])]

/-! ### Allocating one after the other -/

/-- The resources `done` are placed in the window from `lo` to `hi`, and those of `rest` are not. -/
structure Packed (h : Heap) (align : ℕ → ℕ) (b lo hi : ℕ) (done rest : List ℕ) : Prop where
  family : ∃ cs, Family h b cs ∧ cs.Perm done
  start : (h b).start = lo
  end_ : (h b).end_ + 1 = hi
  placed : ∀ r ∈ done, align r ∣ (h r).start ∧ (h r).end_ + 1 = (h r).start + align r
  unassigned : ∀ r ∈ rest, (h r).parent = none
  size : ∀ r ∈ rest, resourceSize (h r) = align r

/-- What the sorted resources need of the window. -/
structure Packable (align : ℕ → ℕ) (b lo hi : ℕ) (l : List ℕ) : Prop where
  nodup : (b :: l).Nodup
  sorted : l.Pairwise fun a b => align b ≤ align a
  power : ∀ r ∈ l, ∃ n ≤ 43, align r = 2 ^ n
  room : ∀ r ∈ l, roundUp lo (align r) + sizeWhere align (fun d => align r ≤ align d) l ≤ hi

theorem Packed.exists_free {b lo hi r : ℕ} {done rest : List ℕ} (hp : Packed h align b lo hi done (r :: rest))
    (hl : Packable align b lo hi (done ++ r :: rest)) (hhi : hi ≤ 2 ^ 64) {cs : List ℕ} (hcs : cs.Perm done) :
    ∃ s, Free h cs ⟨align r, 0, 2 ^ 64 - 1, align r⟩ (max (h b).start 0) (min (h b).end_ (2 ^ 64 - 1)) s := by
  obtain ⟨n, hn, halign⟩ := hl.power r (by simp)
  have hpos : 0 < align r := by
    rw [halign]
    exact Nat.two_pow_pos n
  have hsorted := (pairwise_append.mp hl.sorted).2.2
  have hlarge : ∀ d ∈ done, align r ≤ align d := fun d hd => hsorted d hd r (by simp)
  have hroom : roundUp lo (align r) + ((cs.map align).sum + align r) ≤ hi := by
    have hall := hl.room r (by simp)
    rw [sizeWhere_append, sizeWhere_cons, if_pos le_rfl, sizeWhere_all hlarge, ← (hcs.map align).sum_eq] at hall
    omega
  -- larger resources are made of whole cells
  have hblocks : ∀ d ∈ cs, align r ∣ (h d).start ∧ align r ∣ align d := by
    intro d hd
    obtain ⟨m, -, hd'⟩ := hl.power d (by simp [hcs.mem_iff.mp hd])
    have hle := hlarge d (hcs.mem_iff.mp hd)
    have hcell : align r ∣ align d := by
      rw [halign, hd', Nat.pow_le_pow_iff_right (by decide)] at hle
      rw [halign, hd']
      exact Nat.pow_dvd_pow 2 hle
    exact ⟨hcell.trans (hp.placed d (hcs.mem_iff.mp hd)).1, hcell⟩
  obtain ⟨s, hdvd, hlo, hin, hapart⟩ := exists_free_cell hpos hblocks hroom
  have hend := hp.end_
  refine ⟨s, hdvd, ?_, ?_, fun d hd => ?_⟩
  · rw [hp.start, Nat.max_zero]
    exact hlo
  · dsimp only
    omega
  · have hplaced := (hp.placed d (hcs.mem_iff.mp hd)).2
    dsimp only
    rcases hapart d hd with hbefore | hafter
    · exact .inl (by omega)
    · exact .inr hafter

theorem Packed.step {b lo hi r fuel : ℕ} {done rest : List ℕ} (hp : Packed h align b lo hi done (r :: rest))
    (hl : Packable align b lo hi (done ++ r :: rest)) (hhi : hi ≤ 2 ^ 64) (hfuel : done.length < fuel) :
    ∃ h', allocateResource fuel h b r ⟨resourceSize (h r), 0, 2 ^ 64 - 1, align r⟩ = some (h', 0) ∧
      Packed h' align b lo hi (done ++ [r]) rest := by
  obtain ⟨cs, hf, hcs⟩ := hp.family
  obtain ⟨n, hn, halign⟩ := hl.power r (by simp)
  have hpos : 0 < align r := by
    rw [halign]
    exact Nat.two_pow_pos n
  have hle : align r ≤ 2 ^ 64 := by
    rw [halign]
    exact Nat.pow_le_pow_right (by decide) (by omega)
  obtain ⟨hb, hnodup⟩ := nodup_cons.mp hl.nodup
  obtain ⟨-, hnodup', hdisjoint⟩ := nodup_append.mp hnodup
  have hrdone : r ∉ done := fun hr => hdisjoint r hr r (by simp) rfl
  have hrrest : r ∉ rest := (nodup_cons.mp hnodup').1
  have hbr : b ≠ r := fun hbr => hb (by simp [hbr])
  have hend := hp.end_
  obtain ⟨s, hs⟩ := hp.exists_free hl hhi hcs
  rw [hp.size r (by simp)]
  obtain ⟨h', s, ds, es, hsplit, hrun, hf', hfree, hstart, hend', hother⟩ :=
    allocateResource_of_free halign (show n < 64 by omega) hpos hle (Nat.two_pow_pos 64) (by omega) hf
      (by rw [hcs.length_eq]; exact hfuel) (fun hr => hrdone (hcs.mem_iff.mp hr)) hbr.symm
      (fun hmem => hb (by simp [hcs.mem_iff.mp hmem])) (hp.unassigned r (by simp)) hs
  refine ⟨h', hrun, ⟨ds ++ r :: es, hf', ?_⟩, ?_, ?_, fun d hd => ?_, fun d hd => ?_, fun d hd => ?_⟩
  · exact perm_middle.trans ((hsplit ▸ hcs.cons r).trans (perm_append_singleton r done).symm)
  · rw [(hother b hbr).1, hp.start]
  · rw [(hother b hbr).2.1, hend]
  · rcases mem_append.mp hd with hd | hd
    · have hne : d ≠ r := ne_of_mem_of_not_mem hd hrdone
      rw [(hother d hne).1, (hother d hne).2.1]
      exact hp.placed d hd
    · rw [mem_singleton.mp hd, hstart, hend']
      exact ⟨hfree.aligned, by dsimp only; omega⟩
  · rw [(hother d (ne_of_mem_of_not_mem hd hrrest)).2.2]
    exact hp.unassigned d (by simp [hd])
  · have hd' := hother d (ne_of_mem_of_not_mem hd hrrest)
    have hsize := hp.size d (by simp [hd])
    rw [resourceSize] at hsize ⊢
    rw [hd'.1, hd'.2.1, hsize]

theorem Packed.allocateAll {b lo hi fuel : ℕ} {done rest : List ℕ} (hp : Packed h align b lo hi done rest)
    (hl : Packable align b lo hi (done ++ rest)) (hhi : hi ≤ 2 ^ 64) (hfuel : (done ++ rest).length < fuel) :
    ∃ h', allocateAll fuel align b rest h = some (h', rest.map fun _ => 0) ∧ Packed h' align b lo hi (done ++ rest) [] := by
  induction rest generalizing h done with
  | nil =>
    rw [append_nil]
    exact ⟨h, rfl, hp⟩
  | cons r rest ih =>
    have hdone : done.length < fuel := by
      rw [length_append] at hfuel
      omega
    obtain ⟨h₁, hrun, hp₁⟩ := hp.step hl hhi hdone
    rw [append_cons] at hl hfuel ⊢
    obtain ⟨h₂, hrest, hp₂⟩ := ih hp₁ hl hfuel
    refine ⟨h₂, ?_, hp₂⟩
    rw [Pci.allocateAll, hrun, Option.bind_some]
    dsimp only
    rw [hrest, Option.map_some, map_cons]

theorem resourceSize_of_end {res : Resource} {n : ℕ} (hn : 0 < n) (hn' : n < 2 ^ 64)
    (hend : res.end_ = regionEnd res.start n) (hle : res.start + n ≤ 2 ^ 64) : resourceSize res = n := by
  rw [resourceSize, hend, regionEnd_of_le hn hle]
  omega

theorem sortedResources_eq (h : Heap) (align : ℕ → ℕ) (bus : PciBus) :
    sortedResources h align bus = bus.devices.flatten.foldl (sortResource h align) [] := by
  rw [foldl_flatten]
  rfl

/-- The resources behind the bridge are not touched by the sizing of the window. -/
theorem pbusSizeMem_of_ne {bus : PciBus} {b : ℕ} {h' : Heap} {b' : Resource} (hdiff : h' = update h b b')
    (hb : b ∉ bus.devices.flatten) {r : ℕ} (hr : r ∈ bus.devices.flatten) : h' r = h r := by
  rw [hdiff, update_of_ne (ne_of_mem_of_not_mem hr hb)]

theorem sortedResources_perm {bus : PciBus} {h' : Heap} (hsame : ∀ r ∈ bus.devices.flatten, h' r = h r)
    (hbars : ∀ r ∈ countedBars h bus t, (h r).flags ≠ 0 ∧ Natural h align r) :
    ((sortedResources h' align bus).filter fun r => counted t (h' r)).Perm (countedBars h bus t) := by
  have hperm := @foldl_sortResource_perm h' align t bus.devices.flatten [] fun r hr hc => by
    rw [hsame r hr] at hc ⊢
    obtain ⟨hflags, -, n, -, halign⟩ := hbars r (mem_filter.mpr ⟨hr, hc⟩)
    exact ⟨hflags, by rw [halign]; exact (Nat.two_pow_pos n).ne'⟩
  rw [← sortedResources_eq, append_nil] at hperm
  refine hperm.trans (.of_eq (filter_congr fun r hr => ?_))
  rw [hsame r hr]

/-- At every base that is a multiple of its start, the window holds all resources that it was
sized for: each of them is allocated, in the order of the sorted list. -/
theorem window_holds_bars {bus : PciBus} {b base fuel : ℕ}
    (hwin : findBusResourceOfType h bus (t.mask ||| IORESOURCE_PREFETCH) t.type = some b)
    (hparent : (h b).parent = none) (hchild : (h b).child = none) (hstart : (h b).start = 0) (hend : (h b).end_ = 0)
    (hnodup : (b :: bus.devices.flatten).Nodup)
    (hmem : ∀ r ∈ countedBars h bus t, (h r).flags &&& IORESOURCE_MEM ≠ 0)
    (hbars : ∀ r ∈ countedBars h bus t, Natural h align r) (htotal : ((countedBars h bus t).map align).sum < 2 ^ 63)
    (hbase : ((pbusSizeMem h bus t align 0).1 b).start ∣ base)
    (hplace : base + resourceSize ((pbusSizeMem h bus t align 0).1 b) ≤ 2 ^ 64)
    (hfuel : (countedBars h bus t).length < fuel) :
    let h₁ := (pbusSizeMem h bus t align 0).1
    ∃ h' rcs,
      allocateAll fuel align b ((sortedResources h₁ align bus).filter fun r => counted t (h₁ r)) (placeWindow h₁ b base) =
        some (h', rcs) ∧
      (∀ rc ∈ rcs, rc = 0) ∧ ∀ r ∈ countedBars h bus t, (h' r).parent = some b := by
  intro h₁
  obtain ⟨hb, hflat⟩ := List.nodup_cons.mp hnodup
  obtain ⟨a, ha, ha', henough, heq⟩ := pbusSizeMem_cases hwin hparent hstart hend hbars htotal
  have hflags : ∀ r ∈ countedBars h bus t, (h r).flags ≠ 0 ∧ Natural h align r := by
    refine fun r hr => ⟨fun hzero => hmem r hr ?_, hbars r hr⟩
    rw [hzero, Nat.zero_and]
  have hdiff : ∃ b', h₁ = Function.update h b b' := by
    simp only [h₁, heq]
    split_ifs
    · exact ⟨_, rfl⟩
    · exact ⟨_, rfl⟩
  obtain ⟨b', hdiff⟩ := hdiff
  have hsame : ∀ r ∈ bus.devices.flatten, h₁ r = h r := fun r hr => pbusSizeMem_of_ne hdiff hb hr
  have hperm := sortedResources_perm hsame hflags
  set l := (sortedResources h₁ align bus).filter fun r => counted t (h₁ r)
  set bars := countedBars h bus t
  have hsub : ∀ r ∈ l, r ∈ bus.devices.flatten := fun r hr => (List.mem_filter.mp (hperm.mem_iff.mp hr)).1
  have hother : ∀ r ∈ l, placeWindow h₁ b base r = h r := by
    intro r hr
    rw [placeWindow, Function.update_of_ne (ne_of_mem_of_not_mem (hsub r hr) hb), hsame r (hsub r hr)]
  by_cases hzero : roundUp (bars.map align).sum (2 ^ a) = 0
  · -- there is nothing to place
    have hnil : bars = [] := by
      refine List.eq_nil_iff_forall_not_mem.mpr fun r hr => ?_
      obtain ⟨-, n, -, halign⟩ := hbars r hr
      have hup := le_roundUp (x := (bars.map align).sum) (Nat.two_pow_pos a)
      have hnone := List.sum_eq_zero_iff_forall_eq_nat.mp (show (bars.map align).sum = 0 by omega)
      have halign' : align r = 0 := hnone _ (List.mem_map_of_mem hr)
      exact absurd (halign.symm.trans halign') (Nat.two_pow_pos n).ne'
    have hl : l = [] := List.perm_nil.mp (hnil ▸ hperm)
    rw [hl, hnil]
    exact ⟨_, [], rfl, by simp, by simp⟩
  · have hwindow : h₁ b = { h b with
        start := 2 ^ a
        end_ := regionEnd (2 ^ a) (roundUp (bars.map align).sum (2 ^ a))
        flags := (h b).flags ||| IORESOURCE_STARTALIGN } := by
      simp only [h₁, heq, if_neg hzero, Function.update_self]
    have hpow : 2 ^ a ≤ 2 ^ 43 := Nat.pow_le_pow_right (by decide) (by omega)
    have hup := roundUp_lt (x := (bars.map align).sum) (Nat.two_pow_pos a)
    have hsize : resourceSize (h₁ b) = roundUp (bars.map align).sum (2 ^ a) := by
      rw [hwindow]
      exact resourceSize_of_end (by omega) (by omega) rfl (show 2 ^ a + _ ≤ 2 ^ 64 by omega)
    have hmoved : (placeWindow h₁ b base b).start = base ∧
        (placeWindow h₁ b base b).end_ + 1 = base + roundUp (bars.map align).sum (2 ^ a) ∧
        (placeWindow h₁ b base b).child = none := by
      change base + resourceSize (h₁ b) ≤ 2 ^ 64 at hplace
      rw [placeWindow, Function.update_self, hsize, regionEnd_of_le (by omega) (by omega), hwindow]
      exact ⟨rfl, Nat.sub_add_cancel (by omega), hchild⟩
    have hpacked : Packed (placeWindow h₁ b base) align b base (base + roundUp (bars.map align).sum (2 ^ a)) [] l := by
      refine ⟨⟨[], ⟨hmoved.2.2, by simp, .nil, .nil, by simp, by simp⟩, .nil⟩, hmoved.1, hmoved.2.1, by simp,
        fun r hr => ?_, fun r hr => ?_⟩
      · have hc := (List.mem_filter.mp (hperm.mem_iff.mp hr)).2
        simp only [counted, Bool.and_eq_true, decide_eq_true_eq] at hc
        rw [hother r hr]
        exact hc.1.1
      · rw [hother r hr]
        exact (hbars r (hperm.mem_iff.mp hr)).1
    have hpackable : Packable align b base (base + roundUp (bars.map align).sum (2 ^ a)) ([] ++ l) := by
      refine ⟨List.nodup_cons.mpr ⟨fun hmem => hb (hsub b hmem), hperm.nodup_iff.mpr (hflat.filter _)⟩, ?_, fun r hr => ?_,
        fun r hr => ?_⟩
      · refine List.Pairwise.filter _ ?_
        rw [sortedResources_eq]
        exact foldl_sortResource_sorted .nil
      · exact (hbars r (hperm.mem_iff.mp hr)).2
      · rw [List.nil_append, sizeWhere_perm hperm]
        have hdvd : 2 ^ a ∣ base := by
          change (h₁ b).start ∣ base at hbase
          rwa [hwindow] at hbase
        exact window_room ha henough hbars hdvd (hperm.mem_iff.mp hr)
    obtain ⟨h', hrun, hdone⟩ := hpacked.allocateAll hpackable (by rw [← hsize]; exact hplace)
      (show ([] ++ l).length < fuel by rw [List.nil_append, hperm.length_eq]; exact hfuel)
    obtain ⟨cs, hf, hcs⟩ := hdone.family
    refine ⟨h', _, hrun, fun rc hrc => ?_, fun r hr => hf.parent r ?_⟩
    · obtain ⟨-, -, rfl⟩ := List.mem_map.mp hrc
      rfl
    · exact hcs.mem_iff.mpr (hperm.mem_iff.mpr hr)

/-- A window at address 0, and one device with resources of 2 MiB and 1 MiB. -/
def twoBarHeap (r : ℕ) : Resource :=
  { Resource.zero with
    end_ := if r = 1 then 0x1fffff else if r = 2 then 0xfffff else 0
    flags := IORESOURCE_MEM }

def twoBarBus : PciBus := ⟨[some 0], [[1, 2]], false, []⟩

def twoBarType : MemType := ⟨IORESOURCE_MEM, IORESOURCE_MEM, IORESOURCE_MEM, IORESOURCE_MEM⟩

def twoBarAlign (r : ℕ) : ℕ := if r = 1 then 0x200000 else 0x100000

/-- The window is aligned to 1 MiB only, and holds the resource of 2 MiB even at an odd MiB. -/
theorem two_bars_fit :
    ((pbusSizeMem twoBarHeap twoBarBus twoBarType twoBarAlign 0).1 0).start = 0x100000 ∧
      ∃ h' rcs,
        allocateAll 3 twoBarAlign 0
            ((sortedResources (pbusSizeMem twoBarHeap twoBarBus twoBarType twoBarAlign 0).1 twoBarAlign twoBarBus).filter
              fun r => counted twoBarType ((pbusSizeMem twoBarHeap twoBarBus twoBarType twoBarAlign 0).1 r))
            (placeWindow (pbusSizeMem twoBarHeap twoBarBus twoBarType twoBarAlign 0).1 0 0x300000) = some (h', rcs) ∧
          (∀ rc ∈ rcs, rc = 0) ∧ ∀ r ∈ countedBars twoBarHeap twoBarBus twoBarType, (h' r).parent = some 0 := by
  have hbars : countedBars twoBarHeap twoBarBus twoBarType = [1, 2] := by decide
  have hnatural : ∀ r ∈ countedBars twoBarHeap twoBarBus twoBarType, Natural twoBarHeap twoBarAlign r := by
    rw [hbars]
    intro r hr
    rcases List.mem_pair.mp hr with rfl | rfl
    · exact ⟨by decide, 21, by decide, by decide⟩
    · exact ⟨by decide, 20, by decide, by decide⟩
  exact ⟨by decide, window_holds_bars (by decide) (by decide) (by decide) (by decide) (by decide) (by decide)
    (by rw [hbars]; decide) hnatural (by rw [hbars]; decide) (by decide) (by decide) (by rw [hbars]; decide)⟩

end

end GfpDrivers.Pci
