import GfpDrivers.Nvmem.Cell

/-!
NVMEM devices with keepouts: address ranges that the driver of the device must not touch. A read
finds the fill value of the keepout there, a write leaves them alone.

`nvmem_access_with_keepouts` goes through the keepouts and the range together. Its loop is described
by what it covers (`Covers`): the addresses from one offset to another are done, with the device asked
for those outside the keepouts only.
-/

namespace GfpDrivers.Nvmem

/-! ### The code -/

def ERANGE : ℤ := 34

/-- `struct nvmem_keepout`; `stop` is its `end`. -/
structure NvmemKeepout where
  start : ℕ
  stop : ℕ
  value : BitVec 8

/-- An access under way: the device, the offset, the caller's buffer with how far `val` has been
advanced in it, and the offsets and lengths that the device has been asked for. -/
structure Access where
  content : Buf
  offset : ℕ
  val : Buf
  p : ℕ
  asked : List (ℕ × ℕ)

/-- The difference of two `unsigned int`s. -/
def sub32 (a b : ℕ) : ℕ := (a + 2 ^ 32 - b) % 2 ^ 32

/-- The bytes from `p` on are overwritten. -/
def copyIn (val : Buf) (p n : ℕ) (data : Buf) : Buf := fun i => if p ≤ i ∧ i < p + n then data (i - p) else val i

/-- `__nvmem_reg_read` and `__nvmem_reg_write` at the offset -/
def regAccess (write : Bool) (env : Env) (s : Access) (ksize : ℕ) : Except ℤ Access :=
  let asked := s.asked ++ [(s.offset, ksize)]
  if write then
    let (content, rc) := nvmemRegWrite env s.content s.offset (fun j => s.val (s.p + j)) ksize
    if rc ≠ 0 then .error rc else .ok { s with content := content, asked := asked }
  else do
    let data ← nvmemRegRead env s.asked.length s.content s.offset ksize
    .ok { s with val := copyIn s.val s.p ksize data, asked := asked }

/-- `offset += ksize; val += ksize` -/
def Access.advance (s : Access) (ksize : ℕ) : Access :=
  { s with offset := (s.offset + ksize) % 2 ^ 32, p := s.p + ksize }

/-- The turn of the loop that goes through the keepout itself. -/
def passKeepout (write : Bool) (stop : ℕ) (keepout : NvmemKeepout) (s : Access) : Access :=
  let ksize := sub32 (min stop keepout.stop) s.offset
  let val := if write then s.val else copyIn s.val s.p ksize fun _ => keepout.value
  { s with val := val }.advance ksize

/-- The part of the turn before the keepout. -/
def accessGap (write : Bool) (env : Env) (stop : ℕ) (keepout : NvmemKeepout) (s : Access) : Except ℤ Access :=
  if s.offset < keepout.start then do
    let ksize := sub32 (min stop keepout.start) s.offset
    let s ← regAccess write env s ksize
    .ok (s.advance ksize)
  else .ok s

/-- The second loop of `nvmem_access_with_keepouts` and what follows it. -/
def accessLoop (write : Bool) (env : Env) (stop : ℕ) : List NvmemKeepout → Access → Except ℤ Access
  | [], s => if s.offset < stop then regAccess write env s (sub32 stop s.offset) else .ok s
  | keepout :: rest, s =>
      if s.offset < stop then do
        let s ← accessGap write env stop keepout s
        accessLoop write env stop rest (passKeepout write stop keepout s)
      else .ok s

/-- `nvmem_access_with_keepouts` -/
def nvmemAccessWithKeepouts (write : Bool) (env : Env) (keepouts : List NvmemKeepout) (content : Buf) (offset : ℕ)
    (val : Buf) (bytes : ℕ) : Except ℤ Access :=
  accessLoop write env ((offset + bytes) % 2 ^ 32) (keepouts.dropWhile fun keepout => keepout.stop ≤ offset)
    ⟨content, offset, val, 0, []⟩

/-- `nvmem_reg_read` and `nvmem_reg_write` -/
def nvmemRegAccess (write : Bool) (env : Env) (keepouts : List NvmemKeepout) (content : Buf) (offset : ℕ) (val : Buf)
    (bytes : ℕ) : Except ℤ Access :=
  if keepouts.length = 0 then regAccess write env ⟨content, offset, val, 0, []⟩ bytes
  else nvmemAccessWithKeepouts write env keepouts content offset val bytes

/-- `IS_ALIGNED` for `unsigned int`s -/
def isAligned (x a : ℕ) : Bool := x &&& sub32 a 1 = 0

/-- `nvmem_validate_keepouts` -/
def nvmemValidateKeepouts (wordSize stride : ℕ) : ℕ → List NvmemKeepout → ℤ
  | _, [] => 0
  | cur, keepout :: rest =>
      if keepout.start < cur then -ERANGE
      else if keepout.stop < keepout.start then -EINVAL
      else if keepout.stop - keepout.start < wordSize ∨ keepout.start ≠ cur ∧ keepout.start - cur < wordSize then
        -ERANGE
      else if isAligned keepout.start stride = false ∨ isAligned keepout.stop stride = false then -EINVAL
      else nvmemValidateKeepouts wordSize stride keepout.stop rest

/-! ### Keepouts -/

variable {write : Bool} {env : Env} {keepouts ks ks' : List NvmemKeepout} {k k' : NvmemKeepout} {s t u : Access}
  {a lo mid hi base stop offset bytes : ℕ}

/-- The address lies in the keepout. -/
def NvmemKeepout.Has (k : NvmemKeepout) (a : ℕ) : Prop := k.start ≤ a ∧ a < k.stop

instance : Decidable (k.Has a) := inferInstanceAs (Decidable (_ ∧ _))

/-- Keepouts as a driver must give them. -/
structure Separate (keepouts : List NvmemKeepout) : Prop where
  sorted : keepouts.Pairwise fun k k' => k.start ≤ k'.start
  nonempty : ∀ k ∈ keepouts, k.start < k.stop
  disjoint : keepouts.Pairwise fun k k' => ∀ a, ¬ (k.Has a ∧ k'.Has a)

/-- One after the other. -/
structure Ordered (keepouts : List NvmemKeepout) : Prop where
  nonempty : ∀ k ∈ keepouts, k.start < k.stop
  apart : keepouts.Pairwise fun k k' => k.stop ≤ k'.start

theorem Separate.ordered (h : Separate keepouts) : Ordered keepouts := by
  refine ⟨h.nonempty, ?_⟩
  have hboth := (h.sorted.and h.disjoint).imp_of_mem (S := fun k k' => k.stop ≤ k'.start)
  refine hboth fun {k k'} _ hk' ⟨hle, hdis⟩ => ?_
  by_contra hlt
  exact hdis k'.start ⟨⟨hle, by omega⟩, le_rfl, h.nonempty k' hk'⟩

theorem nvmemValidateKeepouts_ordered {wordSize stride cur : ℕ} (hword : 0 < wordSize)
    (h : nvmemValidateKeepouts wordSize stride cur keepouts = 0) :
    Ordered keepouts ∧ ∀ k ∈ keepouts, cur ≤ k.start := by
  induction keepouts generalizing cur with
  | nil => exact ⟨⟨nofun, .nil⟩, nofun⟩
  | cons k rest ih =>
    rw [nvmemValidateKeepouts] at h
    split at h
    · cases h
    split at h
    · cases h
    split at h
    · cases h
    split at h
    · cases h
    obtain ⟨hrest, hafter⟩ := ih h
    have hk : k.start < k.stop := by omega
    refine ⟨⟨List.forall_mem_cons.mpr ⟨hk, hrest.nonempty⟩, List.pairwise_cons.mpr ⟨hafter, hrest.apart⟩⟩, ?_⟩
    refine List.forall_mem_cons.mpr ⟨by omega, fun k' hk' => ?_⟩
    have := hafter k' hk'
    omega

/-- The fill value of the keepout around an address. -/
def keptValue (keepouts : List NvmemKeepout) (a : ℕ) : Option (BitVec 8) :=
  (keepouts.find? fun k => k.Has a).map NvmemKeepout.value

theorem keptValue_eq_none_iff : keptValue ks a = none ↔ ∀ k ∈ ks, ¬ k.Has a := by
  simp [keptValue]

theorem keptValue_cons_of_has (h : k.Has a) : keptValue (k :: ks) a = some k.value := by
  simp [keptValue, h]

theorem keptValue_cons_of_not_has (h : ¬ k.Has a) : keptValue (k :: ks) a = keptValue ks a := by
  simp [keptValue, h]

theorem Ordered.keptValue_of_has (h : Ordered ks) (hk : k ∈ ks) (ha : k.Has a) : keptValue ks a = some k.value := by
  induction ks with
  | nil => cases hk
  | cons k' rest ih =>
    obtain ⟨hnonempty, hrest⟩ := List.forall_mem_cons.mp h.nonempty
    obtain ⟨hapart, hpair⟩ := List.pairwise_cons.mp h.apart
    rcases List.mem_cons.mp hk with rfl | hk
    · exact keptValue_cons_of_has ha
    · have hbefore := hapart k hk
      rw [keptValue_cons_of_not_has fun hk' => by have := hk'.2; have := ha.1; omega]
      exact ih ⟨hrest, hpair⟩ hk

theorem keptValue_dropWhile (ha : offset ≤ a) :
    keptValue (ks.dropWhile fun k => k.stop ≤ offset) a = keptValue ks a := by
  induction ks with
  | nil => rfl
  | cons k rest ih =>
    rw [List.dropWhile_cons]
    split
    · next hstop =>
      have hle := of_decide_eq_true hstop
      rw [ih, keptValue_cons_of_not_has fun hk => by have := hk.2; omega]
    · rfl

theorem Ordered.dropWhile (h : Ordered ks) : Ordered (ks.dropWhile fun k => k.stop ≤ offset) :=
  ⟨fun k hk => h.nonempty k ((List.dropWhile_sublist _).subset hk), h.apart.sublist (List.dropWhile_sublist _)⟩

theorem Ordered.lt_stop (h : Ordered ks) : ∀ k ∈ ks.dropWhile (fun k => k.stop ≤ offset), offset < k.stop := by
  have hord : Ordered (ks.dropWhile fun k => k.stop ≤ offset) := h.dropWhile
  cases hdrop : ks.dropWhile fun k => k.stop ≤ offset with
  | nil => nofun
  | cons k rest =>
    have hk : offset < k.stop := by
      have hne : ks.dropWhile (fun k => k.stop ≤ offset) ≠ [] := by
        rw [hdrop]
        exact List.cons_ne_nil _ _
      have hhead := List.head_dropWhile_not (fun k : NvmemKeepout => decide (k.stop ≤ offset)) hne
      simp only [hdrop, List.head_cons, decide_eq_false_iff_not] at hhead
      omega
    rw [hdrop] at hord
    refine List.forall_mem_cons.mpr ⟨hk, fun k' hk' => ?_⟩
    have := (List.pairwise_cons.mp hord.apart).1 k' hk'
    have := hord.nonempty k' (List.mem_cons_of_mem k hk')
    omega

/-! ### What the loop covers -/

/-- Between `s` and `t` the addresses from `lo` to `hi` are done. The byte of the address `a` has its place in
the buffer at `a - base`. -/
structure Covers (write : Bool) (ks : List NvmemKeepout) (base : ℕ) (s t : Access) (lo hi : ℕ) : Prop where
  content : ∀ a, t.content a =
    if write = true ∧ lo ≤ a ∧ a < hi ∧ keptValue ks a = none then s.val (a - base) else s.content a
  val : ∀ i, t.val i =
    if write = false ∧ lo ≤ base + i ∧ base + i < hi then (keptValue ks (base + i)).getD (s.content (base + i))
    else s.val i
  asked : ∃ new, t.asked = s.asked ++ new ∧
    ∀ r ∈ new, ∀ a, r.1 ≤ a → a < r.1 + r.2 → lo ≤ a ∧ a < hi ∧ keptValue ks a = none

theorem Covers.refl : Covers write ks base s s lo lo :=
  ⟨fun _ => (if_neg (by omega)).symm, fun _ => (if_neg (by omega)).symm, [], (List.append_nil _).symm, nofun⟩

theorem Covers.trans (h : Covers write ks base s t lo mid) (h' : Covers write ks base t u mid hi) (hlo : lo ≤ mid)
    (hhi : mid ≤ hi) : Covers write ks base s u lo hi := by
  obtain ⟨new, hnew, hin⟩ := h.asked
  obtain ⟨new', hnew', hin'⟩ := h'.asked
  refine ⟨fun a => ?_, fun i => ?_, new ++ new', by rw [hnew', hnew, List.append_assoc], ?_⟩
  · cases write with
    | false => simp [h'.content, h.content]
    | true =>
      have hval : t.val = s.val := funext fun i => by simp [h.val]
      rw [h'.content, h.content, hval]
      by_cases hkept : keptValue ks a = none
      · by_cases hmid : a < mid
        · simp [hkept, hmid, Nat.not_le.mpr hmid, hmid.trans_le hhi]
        · simp [hkept, hmid, Nat.not_lt.mp hmid, hlo.trans (Nat.not_lt.mp hmid)]
      · simp [hkept]
  · cases write with
    | true => simp [h'.val, h.val]
    | false =>
      have hcontent : t.content = s.content := funext fun a => by simp [h.content]
      rw [h'.val, h.val, hcontent]
      by_cases hmid : base + i < mid
      · simp [hmid, Nat.not_le.mpr hmid, hmid.trans_le hhi]
      · simp [hmid, Nat.not_lt.mp hmid, hlo.trans (Nat.not_lt.mp hmid)]
  · intro r hr a ha ha'
    rcases List.mem_append.mp hr with hr | hr
    · obtain ⟨hloa, hmida, hkept⟩ := hin r hr a ha ha'
      exact ⟨hloa, by omega, hkept⟩
    · obtain ⟨hmida, hhia, hkept⟩ := hin' r hr a ha ha'
      exact ⟨by omega, hhia, hkept⟩

theorem Covers.congr (h : Covers write ks base s t lo hi) (hks : ∀ a, lo ≤ a → a < hi → keptValue ks' a = keptValue ks a) :
    Covers write ks' base s t lo hi := by
  obtain ⟨new, hnew, hin⟩ := h.asked
  refine ⟨fun a => ?_, fun i => ?_, new, hnew, fun r hr a ha ha' => ?_⟩
  · rw [h.content]
    exact if_congr (and_congr_right fun _ => and_congr_right fun hlo => and_congr_right fun hhi => by rw [hks a hlo hhi]) rfl rfl
  · rw [h.val]
    split
    · next hin => rw [hks _ hin.2.1 hin.2.2]
    · rfl
  · obtain ⟨hlo, hhi, hkept⟩ := hin r hr a ha ha'
    exact ⟨hlo, hhi, (hks a hlo hhi).trans hkept⟩

/-- The callbacks of the device succeed. -/
structure Env.Works (env : Env) : Prop where
  read : ∀ i, env.regRead i = 0
  write : env.regWrite = 0

theorem sub32_of_le {a b : ℕ} (hle : b ≤ a) (hlt : a < 2 ^ 32) : sub32 a b = a - b := by
  rw [sub32]
  omega

/-- The device is asked for what is outside the keepouts. -/
theorem regAccess_covers (write : Bool) {n : ℕ} (henv : env.Works) (hp : s.offset = base + s.p)
    (hgap : ∀ a, s.offset ≤ a → a < s.offset + n → keptValue ks a = none) :
    ∃ t, regAccess write env s n = .ok t ∧ t.offset = s.offset ∧ t.p = s.p ∧
      Covers write ks base s t s.offset (s.offset + n) := by
  have hasked : ∃ new, s.asked ++ [(s.offset, n)] = s.asked ++ new ∧ ∀ r ∈ new, ∀ a, r.1 ≤ a → a < r.1 + r.2 →
      s.offset ≤ a ∧ a < s.offset + n ∧ keptValue ks a = none :=
    ⟨_, rfl, fun r hr a ha ha' => by
      rw [List.mem_singleton] at hr
      subst hr
      exact ⟨ha, ha', hgap a ha ha'⟩⟩
  have hplace : ∀ a, s.offset ≤ a → s.p + (a - s.offset) = a - base := by omega
  cases write with
  | true =>
    have hrun : regAccess true env s n = .ok { s with
        content := fun i => if s.offset ≤ i ∧ i < s.offset + n then s.val (s.p + (i - s.offset)) else s.content i
        asked := s.asked ++ [(s.offset, n)] } := by
      simp [regAccess, nvmemRegWrite, henv.write]
    refine ⟨_, hrun, rfl, rfl, fun a => ?_, fun i => by simp, hasked⟩
    by_cases ha : s.offset ≤ a ∧ a < s.offset + n
    · simp [ha, hgap a ha.1 ha.2, hplace a ha.1]
    · rw [if_neg fun h => ha ⟨h.2.1, h.2.2.1⟩]
      exact if_neg ha
  | false =>
    have hrun : regAccess false env s n = .ok { s with
        val := copyIn s.val s.p n fun j => if j < n then s.content (s.offset + j) else 0
        asked := s.asked ++ [(s.offset, n)] } := by
      simp only [regAccess, nvmemRegRead, henv.read]
      rfl
    refine ⟨_, hrun, rfl, rfl, fun a => by simp, fun i => ?_, hasked⟩
    by_cases hi : s.p ≤ i ∧ i < s.p + n
    · have hin : s.offset ≤ base + i ∧ base + i < s.offset + n := by omega
      have hj : i - s.p < n := by omega
      have ha : s.offset + (i - s.p) = base + i := by omega
      simp [copyIn, hi, hin, hj, ha, hgap _ hin.1 hin.2]
    · have hout : ¬ (s.offset ≤ base + i ∧ base + i < s.offset + n) := by omega
      simp [copyIn, hi, hout]

theorem passKeepout_offset (hlt : min stop k.stop < 2 ^ 32) (hle : s.offset ≤ min stop k.stop) :
    (passKeepout write stop k s).offset = min stop k.stop := by
  simp only [passKeepout, Access.advance, sub32_of_le hle hlt, Nat.add_sub_cancel' hle]
  exact Nat.mod_eq_of_lt hlt

theorem passKeepout_p (hlt : min stop k.stop < 2 ^ 32) (hle : s.offset ≤ min stop k.stop) :
    (passKeepout write stop k s).p = s.p + (min stop k.stop - s.offset) := by
  simp only [passKeepout, Access.advance, sub32_of_le hle hlt]

@[simp] theorem passKeepout_content : (passKeepout write stop k s).content = s.content := by
  cases s
  rfl

@[simp] theorem passKeepout_asked : (passKeepout write stop k s).asked = s.asked := by
  cases s
  rfl

theorem passKeepout_val_write : (passKeepout true stop k s).val = s.val := by
  cases s
  rfl

theorem passKeepout_val_read (hlt : min stop k.stop < 2 ^ 32) (hle : s.offset ≤ min stop k.stop) :
    (passKeepout false stop k s).val = copyIn s.val s.p (min stop k.stop - s.offset) fun _ => k.value := by
  simp only [passKeepout, Access.advance, sub32_of_le hle hlt, Bool.false_eq_true, if_false]

theorem passKeepout_covers (hp : s.offset = base + s.p) (hlt : min stop k.stop < 2 ^ 32)
    (hle : s.offset ≤ min stop k.stop)
    (hkept : ∀ a, s.offset ≤ a → a < min stop k.stop → keptValue ks a = some k.value) :
    Covers write ks base s (passKeepout write stop k s) s.offset (min stop k.stop) := by
  refine ⟨fun a => ?_, fun i => ?_, [], by simp, nofun⟩
  · rw [passKeepout_content, if_neg]
    rintro ⟨-, hlo, hhi, hnone⟩
    rw [hkept a hlo hhi] at hnone
    cases hnone
  · cases write with
    | true => rw [passKeepout_val_write, if_neg fun h => nomatch h.1]
    | false =>
      rw [passKeepout_val_read hlt hle, copyIn]
      by_cases hi : s.p ≤ i ∧ i < s.p + (min stop k.stop - s.offset)
      · have hin : s.offset ≤ base + i ∧ base + i < min stop k.stop := by omega
        rw [if_pos hi, if_pos ⟨rfl, hin⟩, hkept _ hin.1 hin.2, Option.getD_some]
      · have hout : ¬ (s.offset ≤ base + i ∧ base + i < min stop k.stop) := by omega
        rw [if_neg hi, if_neg fun h => hout h.2]

theorem accessGap_covers (write : Bool) (henv : env.Works) (hord : Ordered (k :: ks)) (hp : s.offset = base + s.p)
    (hstop : stop < 2 ^ 32) (hle : s.offset ≤ stop) (hk : s.offset < k.stop) :
    ∃ t, accessGap write env stop k s = .ok t ∧ t.offset = base + t.p ∧ s.offset ≤ t.offset ∧
      t.offset ≤ min stop k.stop ∧ min stop k.start ≤ t.offset ∧
      Covers write (k :: ks) base s t s.offset t.offset := by
  have hnonempty := hord.nonempty k List.mem_cons_self
  rw [accessGap]
  split
  · next hstart =>
    have hmin : s.offset ≤ min stop k.start := by omega
    have hlt : min stop k.start < 2 ^ 32 := by omega
    have hgap : ∀ a, s.offset ≤ a → a < s.offset + (min stop k.start - s.offset) → keptValue (k :: ks) a = none := by
      intro a _ ha
      refine keptValue_eq_none_iff.mpr (List.forall_mem_cons.mpr ⟨fun h => ?_, fun k' hk' h => ?_⟩)
      · have := h.1
        omega
      · have := (List.pairwise_cons.mp hord.apart).1 k' hk'
        have := h.1
        omega
    obtain ⟨t, hrun, hoffset, htp, hcovers⟩ := regAccess_covers write henv hp hgap
    have hafter : (t.advance (min stop k.start - s.offset)).offset = min stop k.start := by
      rw [Access.advance, hoffset, Nat.add_sub_cancel' hmin, Nat.mod_eq_of_lt hlt]
    simp only [sub32_of_le hmin hlt, hrun]
    refine ⟨t.advance (min stop k.start - s.offset), rfl, ?_, ?_, ?_, ?_, ?_⟩
    · rw [hafter]
      simp only [Access.advance]
      omega
    · rw [hafter]
      exact hmin
    · rw [hafter]
      omega
    · rw [hafter]
    · rw [hafter]
      rw [Nat.add_sub_cancel' hmin] at hcovers
      exact ⟨hcovers.content, hcovers.val, hcovers.asked⟩
  · exact ⟨s, rfl, hp, le_rfl, by omega, by omega, .refl⟩

theorem accessLoop_covers (write : Bool) (henv : env.Works) (hord : Ordered ks) (hpast : ∀ k ∈ ks, s.offset < k.stop)
    (hp : s.offset = base + s.p) (hstop : stop < 2 ^ 32) (hle : s.offset ≤ stop) :
    ∃ t, accessLoop write env stop ks s = .ok t ∧ Covers write ks base s t s.offset stop := by
  induction ks generalizing s with
  | nil =>
    rw [accessLoop]
    split
    · next hlt =>
      have hnone : ∀ a, s.offset ≤ a → a < s.offset + (stop - s.offset) → keptValue [] a = none := fun _ _ _ => rfl
      obtain ⟨t, hrun, -, -, hcovers⟩ := regAccess_covers write henv hp hnone
      rw [Nat.add_sub_cancel' hle] at hcovers
      exact ⟨t, by rw [sub32_of_le hle hstop, hrun], hcovers⟩
    · obtain rfl : s.offset = stop := by omega
      exact ⟨s, rfl, .refl⟩
  | cons k rest ih =>
    rw [accessLoop]
    split
    · next hlt =>
      obtain ⟨hk, hpastRest⟩ := List.forall_mem_cons.mp hpast
      obtain ⟨hnonempty, hnonemptyRest⟩ := List.forall_mem_cons.mp hord.nonempty
      obtain ⟨hapart, hpair⟩ := List.pairwise_cons.mp hord.apart
      obtain ⟨t, hgap, htp, hst, htle, hstart, hcovers⟩ := accessGap_covers write henv hord hp hstop hle hk
      have hkept : ∀ a, t.offset ≤ a → a < min stop k.stop → keptValue (k :: rest) a = some k.value := fun a ha ha' =>
        keptValue_cons_of_has ⟨by omega, by omega⟩
      have hlt32 : min stop k.stop < 2 ^ 32 := by omega
      have hoffset : (passKeepout write stop k t).offset = min stop k.stop := passKeepout_offset hlt32 htle
      have hup : (passKeepout write stop k t).p = t.p + (min stop k.stop - t.offset) := passKeepout_p hlt32 htle
      have hpass : Covers write (k :: rest) base t (passKeepout write stop k t) t.offset (min stop k.stop) :=
        passKeepout_covers htp hlt32 htle hkept
      have hpastNext : ∀ k' ∈ rest, (passKeepout write stop k t).offset < k'.stop := fun k' hk' => by
        have := hapart k' hk'
        have := hnonemptyRest k' hk'
        omega
      obtain ⟨u, hrun, hrest⟩ := ih ⟨hnonemptyRest, hpair⟩ hpastNext (by omega) (by omega)
      rw [hoffset] at hrest
      -- behind the keepout the others decide
      have hcongr : ∀ a, min stop k.stop ≤ a → a < stop → keptValue (k :: rest) a = keptValue rest a := fun a ha ha' =>
        keptValue_cons_of_not_has fun h => by have := h.2; omega
      refine ⟨u, by rw [hgap]; exact hrun, ?_⟩
      exact hcovers.trans (hpass.trans (hrest.congr hcongr) htle (by omega)) hst (by omega)
    · obtain rfl : s.offset = stop := by omega
      exact ⟨s, rfl, .refl⟩

/-! ### Keepouts are exact -/

theorem nvmemAccessWithKeepouts_covers (write : Bool) (henv : env.Works) (hord : Ordered keepouts) (hfit : offset + bytes < 2 ^ 32)
    (content val : Buf) :
    ∃ t, nvmemAccessWithKeepouts write env keepouts content offset val bytes = .ok t ∧
      Covers write keepouts offset ⟨content, offset, val, 0, []⟩ t offset (offset + bytes) := by
  rw [nvmemAccessWithKeepouts, Nat.mod_eq_of_lt hfit]
  obtain ⟨t, hrun, hcovers⟩ := accessLoop_covers write (s := ⟨content, offset, val, 0, []⟩) henv
    hord.dropWhile hord.lt_stop rfl hfit (Nat.le_add_right _ _)
  exact ⟨t, hrun, hcovers.congr fun a ha _ => (keptValue_dropWhile ha).symm⟩

theorem nvmemRegAccess_eq (hbytes : 0 < bytes) (hfit : offset + bytes < 2 ^ 32) (content val : Buf) :
    nvmemRegAccess write env keepouts content offset val bytes =
      nvmemAccessWithKeepouts write env keepouts content offset val bytes := by
  rw [nvmemRegAccess]
  split
  · next hlen =>
    obtain rfl := List.eq_nil_of_length_eq_zero hlen
    rw [nvmemAccessWithKeepouts, List.dropWhile_nil, accessLoop, Nat.mod_eq_of_lt hfit, if_pos (by simpa using hbytes),
      sub32_of_le (Nat.le_add_right _ _) hfit, Nat.add_sub_cancel_left]
  · rfl

/-- The device is asked for addresses of the range outside the keepouts only. -/
def AsksOutside (keepouts : List NvmemKeepout) (lo hi : ℕ) (t : Access) : Prop :=
  ∀ r ∈ t.asked, ∀ a, r.1 ≤ a → a < r.1 + r.2 → lo ≤ a ∧ a < hi ∧ ∀ k ∈ keepouts, ¬ k.Has a

theorem Covers.asksOutside {content val : Buf} (h : Covers write keepouts base ⟨content, offset, val, 0, []⟩ t lo hi) :
    AsksOutside keepouts lo hi t := by
  obtain ⟨new, hnew, hin⟩ := h.asked
  intro r hr a ha ha'
  rw [hnew, List.nil_append] at hr
  obtain ⟨hlo, hhi, hkept⟩ := hin r hr a ha ha'
  exact ⟨hlo, hhi, keptValue_eq_none_iff.mp hkept⟩

/-- Keepouts that the registration of a device accepts are as the accesses need them. -/
theorem nvmemAccessWithKeepouts_of_validate {wordSize stride : ℕ} (hword : 0 < wordSize)
    (hvalid : nvmemValidateKeepouts wordSize stride 0 keepouts = 0) (henv : env.Works) (hfit : offset + bytes < 2 ^ 32)
    (content val : Buf) :
    ∃ t, nvmemAccessWithKeepouts write env keepouts content offset val bytes = .ok t ∧
      AsksOutside keepouts offset (offset + bytes) t := by
  obtain ⟨t, hrun, hcovers⟩ :=
    nvmemAccessWithKeepouts_covers write henv (nvmemValidateKeepouts_ordered hword hvalid).1 hfit content val
  exact ⟨t, hrun, hcovers.asksOutside⟩

/-- A read finds the fill values of the keepouts and otherwise the bytes of the device, and a write changes the
bytes of the device outside the keepouts. -/
theorem nvmemAccessWithKeepouts_exact (hkeep : Separate keepouts) (henv : env.Works) (hfit : offset + bytes < 2 ^ 32)
    (content val : Buf) :
    (∃ t, nvmemAccessWithKeepouts false env keepouts content offset val bytes = .ok t ∧ t.content = content ∧
      (∀ i < bytes, (∀ k ∈ keepouts, k.Has (offset + i) → t.val i = k.value) ∧
        ((∀ k ∈ keepouts, ¬ k.Has (offset + i)) → t.val i = content (offset + i))) ∧
      (∀ i ≥ bytes, t.val i = val i) ∧ AsksOutside keepouts offset (offset + bytes) t) ∧
    (∃ t, nvmemAccessWithKeepouts true env keepouts content offset val bytes = .ok t ∧ t.val = val ∧
      (∀ a, offset ≤ a → a < offset + bytes → (∀ k ∈ keepouts, ¬ k.Has a) → t.content a = val (a - offset)) ∧
      (∀ a, a < offset ∨ offset + bytes ≤ a ∨ (∃ k ∈ keepouts, k.Has a) → t.content a = content a) ∧
      AsksOutside keepouts offset (offset + bytes) t) := by
  have hord := hkeep.ordered
  constructor
  · obtain ⟨t, hrun, hcovers⟩ := nvmemAccessWithKeepouts_covers false henv hord hfit content val
    refine ⟨t, hrun, funext fun a => by rw [hcovers.content]; rfl, fun i hi => ⟨fun k hk ha => ?_, fun hnone => ?_⟩,
      fun i hi => ?_, hcovers.asksOutside⟩
    · rw [hcovers.val, if_pos ⟨rfl, by omega, by omega⟩, hord.keptValue_of_has hk ha]
      rfl
    · rw [hcovers.val, if_pos ⟨rfl, by omega, by omega⟩, keptValue_eq_none_iff.mpr hnone]
      rfl
    · rw [hcovers.val, if_neg (by omega)]
  · obtain ⟨t, hrun, hcovers⟩ := nvmemAccessWithKeepouts_covers true henv hord hfit content val
    refine ⟨t, hrun, funext fun i => by rw [hcovers.val]; rfl, fun a hlo hhi hnone => ?_, fun a ha => ?_,
      hcovers.asksOutside⟩
    · rw [hcovers.content, if_pos ⟨rfl, hlo, hhi, keptValue_eq_none_iff.mpr hnone⟩]
    · rw [hcovers.content, if_neg]
      rintro ⟨-, hlo, hhi, hkept⟩
      obtain hlt | hle | ⟨k, hk, hhas⟩ := ha
      · omega
      · omega
      · exact keptValue_eq_none_iff.mp hkept k hk hhas

/-- A read that begins in a keepout and goes through the next one. -/
theorem nvmemAccessWithKeepouts_read :
    ∃ t, nvmemAccessWithKeepouts false ⟨true, fun _ => 0, 0, fun _ => 0⟩ [⟨2, 4, 0xff⟩, ⟨4, 5, 0⟩] (BitVec.ofNat 8) 3
        (fun _ => 0) 3 = .ok t ∧ t.val 0 = 0xff ∧ t.val 1 = 0 ∧ t.val 2 = 5 := by
  have hkeep : Separate [⟨2, 4, 0xff⟩, ⟨4, 5, 0⟩] := by
    refine ⟨by decide, by decide, List.pairwise_pair.mpr fun a ⟨hfirst, hsecond⟩ => ?_⟩
    exact absurd hfirst.2 (Nat.not_lt.mpr hsecond.1)
  obtain ⟨⟨t, hrun, -, hval, -⟩, -⟩ := nvmemAccessWithKeepouts_exact hkeep
    (⟨fun _ => rfl, rfl⟩ : Env.Works ⟨true, fun _ => 0, 0, fun _ => 0⟩) (show 3 + 3 < 2 ^ 32 by decide) (BitVec.ofNat 8)
    fun _ => 0
  refine ⟨t, hrun, (hval 0 (by decide)).1 ⟨2, 4, 0xff⟩ (by simp) (by decide), ?_, ?_⟩
  · exact (hval 1 (by decide)).1 ⟨4, 5, 0⟩ (by simp) (by decide)
  · exact (hval 2 (by decide)).2 (by decide)

end GfpDrivers.Nvmem
