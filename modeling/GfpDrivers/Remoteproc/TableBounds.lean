import GfpDrivers.Remoteproc.RscTable

/-!
No access to the resource table leaves it, in runs where the entries that the firmware
supplies do not bring the code to one of the places where it trusts them: an offset is not
negative as an `int`, unless it is found to be truncated; what is read of an entry
before it is checked is there; the name of a carveout ends in the table; and when
the vring or the configuration of a vdev is accessed, the table still has room for it.
-/

namespace GfpDrivers.Remoteproc.Table

open GfpDrivers.Lib

variable {s t : TableHandle} {env : EntryOutcomes} {n : ℕ} {loop : Option ℕ} {p avail : ℤ} {ret : ℤ}

/-- Nothing outside the table was accessed, and what was stored for later lies in it. -/
structure Sound (n : ℕ) (loop : Option ℕ) (s : TableHandle) : Prop where
  size : s.table.size = n
  pass : s.pass = loop
  header : loop ≠ none → 16 + 4 * s.num ≤ n
  inside : s.table.Inside
  rvdevs (v : TableVdev) : v ∈ s.rvdevs → 4 ≤ v.rscOffset ∧ v.rscOffset + 24 + 20 * v.vrings ≤ n
  carveouts (o : ℕ) : o ∈ s.carveouts → o = FW_RSC_ADDR_ANY ∨ 4 ≤ o ∧ o + 52 ≤ n

theorem Sound.access {a : ℤ} {k : ℕ} (h : Sound n loop s) (ha : 0 ≤ a) (hk : a + k ≤ n) : Sound n loop (s.access a k) :=
  ⟨h.size, h.pass, h.header, h.inside.access ⟨ha, by rw [h.size]; exact hk⟩, h.rvdevs, h.carveouts⟩

theorem Sound.accessString {a : ℤ} (h : Sound n loop s) (ha : 0 ≤ a) (hend : s.table.Terminated a) :
    Sound n loop (s.accessString a) :=
  ⟨h.size, h.pass, h.header, h.inside.accessString ha hend, h.rvdevs, h.carveouts⟩

/-- While the table is handled, nothing is written to its header. -/
theorem Sound.write {a : ℤ} {k : ℕ} (h : Sound n loop s) (ha : 0 ≤ a) (hk : a + k ≤ n) (hlow : loop = none ∨ 8 ≤ a)
    (buf : ℕ → Fin 256) : Sound n loop (s.write a k buf) := by
  refine ⟨h.size, h.pass, fun hpass => ?_, h.inside.write ⟨ha, by rw [h.size]; exact hk⟩ buf, h.rvdevs, h.carveouts⟩
  have hnum : (s.write a k buf).num = s.num := Window.u32_write (hlow.resolve_left hpass) buf
  rw [hnum]
  exact h.header hpass

theorem Sound.write32 {a : ℤ} (h : Sound n loop s) (ha : 0 ≤ a) (hk : a + 4 ≤ n) (hlow : loop = none ∨ 8 ≤ a) (v : ℕ) :
    Sound n loop (s.write32 a v) := h.write ha hk hlow _

theorem Sound.addCarveout {o : ℕ} (h : Sound n loop s) (ho : o = FW_RSC_ADDR_ANY ∨ 4 ≤ o ∧ o + 52 ≤ n) :
    Sound n loop { s with carveouts := s.carveouts ++ [o] } := by
  refine ⟨h.size, h.pass, h.header, h.inside, h.rvdevs, fun o' ho' => ?_⟩
  rcases List.mem_append.mp ho' with ho' | ho'
  · exact h.carveouts o' ho'
  · rw [List.mem_singleton.mp ho']
    exact ho

theorem Sound.setCarveout {k o : ℕ} (h : Sound n loop s) (ho : o = FW_RSC_ADDR_ANY ∨ 4 ≤ o ∧ o + 52 ≤ n) :
    Sound n loop { s with carveouts := s.carveouts.set k o } := by
  refine ⟨h.size, h.pass, h.header, h.inside, h.rvdevs, fun o' ho' => ?_⟩
  rcases List.mem_or_eq_of_mem_set ho' with ho' | rfl
  · exact h.carveouts o' ho'
  · exact ho

theorem Sound.addVdev {v : TableVdev} (h : Sound n loop s) (hv : 4 ≤ v.rscOffset ∧ v.rscOffset + 24 + 20 * v.vrings ≤ n) :
    Sound n loop { s with rvdevs := s.rvdevs ++ [v] } := by
  refine ⟨h.size, h.pass, h.header, h.inside, fun v' hv' => ?_, h.carveouts⟩
  rcases List.mem_append.mp hv' with hv' | hv'
  · exact h.rvdevs v' hv'
  · rw [List.mem_singleton.mp hv']
    exact hv

theorem Sound.ends (h : Sound n loop s) (ret : ℤ) : Sound n none (s.ends ret) :=
  ⟨h.size, rfl, fun hnone => absurd rfl hnone, h.inside, h.rvdevs, h.carveouts⟩

theorem Sound.goesOn {i : ℕ} (h : Sound n (some i) s) (ret : ℤ) : Sound n (some (i + 1)) (s.goesOn i ret) :=
  ⟨h.size, rfl, fun _ => h.header (by simp), h.inside, h.rvdevs, h.carveouts⟩

/-! ### The handlers -/

/-- The entry at `p` has `avail` bytes, up to the end of the table. -/
structure Available (n : ℕ) (p avail : ℤ) : Prop where
  behind : 4 ≤ p
  nonneg : 0 ≤ avail
  ends : p + avail = n
  small : n < 2 ^ 31

theorem Available.not_truncated {size : ℕ} (h : Available n p avail) : ¬ Truncated size avail ↔ (size : ℤ) ≤ avail := by
  have hsmall := h.small
  have hbehind := h.behind
  have havail := h.nonneg
  have hends := h.ends
  unfold Truncated
  omega

theorem Available.storedOffset (h : Available n p avail) : (storedOffset p : ℤ) = p := by
  have hsmall := h.small
  have hbehind := h.behind
  have havail := h.nonneg
  have hends := h.ends
  unfold Table.storedOffset
  omega

theorem Sound.ite {c : Prop} [Decidable c] {x y : TableHandle × ℤ} (hx : c → Sound n loop x.1) (hy : ¬ c → Sound n loop y.1) :
    Sound n loop (if c then x else y).1 := by
  by_cases hc : c
  · rw [if_pos hc]
    exact hx hc
  · rw [if_neg hc]
    exact hy hc

theorem Sound.rprocHandleCarveout (h : Sound n loop s) (hp : Available n p avail)
    (hname : 52 ≤ avail → s.table.u32 (p + 16) = 0 → s.table.Terminated (p + 20)) :
    Sound n loop (rprocHandleCarveout env s p avail).1 := by
  have hstored := hp.storedOffset
  obtain ⟨hbehind, havail, hends, -⟩ := id hp
  unfold Table.rprocHandleCarveout
  refine .ite (fun _ => h) fun hlen => ?_
  have hlen' := hp.not_truncated.mp hlen
  have hentry : storedOffset p = FW_RSC_ADDR_ANY ∨ 4 ≤ storedOffset p ∧ storedOffset p + 52 ≤ n := .inr (by omega)
  dsimp only
  have h₁ : Sound n loop (s.access (p + 16) 4) := h.access (by omega) (by omega)
  refine .ite (fun _ => h₁) fun hreserved => ?_
  have hend : s.table.Terminated (p + 20) := hname (by exact_mod_cast hlen') (not_not.mp hreserved)
  have h₂ := h₁.accessString (a := p + 20) (by omega) hend
  split
  · refine .ite (fun _ => h₂) fun _ => ?_
    have h₃ := (h₂.access (a := p) (k := 4) (by omega) (by omega)).access (a := p + 8) (k := 4) (by omega) (by omega)
    exact .ite (fun _ => h₃) fun _ => (h₃.access (by omega) (by omega)).setCarveout hentry
  · have h₃ := (h₂.access (a := p + 8) (k := 4) (by omega) (by omega)).access (a := p) (k := 4) (by omega) (by omega)
    have h₄ := h₃.accessString (a := p + 20) (by omega) hend
    exact .ite (fun _ => h₄) fun _ => (h₄.access (by omega) (by omega)).addCarveout hentry

theorem Sound.rprocHandleDevmem (h : Sound n loop s) (hp : Available n p avail) :
    Sound n loop (rprocHandleDevmem env s p avail).1 := by
  obtain ⟨hbehind, havail, hends, -⟩ := id hp
  unfold Table.rprocHandleDevmem
  refine .ite (fun _ => h) fun _ => .ite (fun _ => h) fun hlen => ?_
  have hlen' := hp.not_truncated.mp hlen
  have h₁ : Sound n loop (s.access (p + 16) 4) := h.access (by omega) (by omega)
  exact .ite (fun _ => h₁) fun _ => .ite (fun _ => h₁) fun _ => h₁.access (by omega) (by omega)

theorem Sound.rprocHandleTrace (h : Sound n loop s) (hp : Available n p avail) :
    Sound n loop (rprocHandleTrace env s p avail).1 := by
  obtain ⟨hbehind, havail, hends, -⟩ := id hp
  unfold Table.rprocHandleTrace
  refine .ite (fun _ => h) fun hlen => ?_
  have hlen' := hp.not_truncated.mp hlen
  have h₁ : Sound n loop (s.access (p + 8) 4) := h.access (by omega) (by omega)
  exact .ite (fun _ => h₁) fun _ => .ite (fun _ => h₁) fun _ => (h₁.access (by omega) (by omega)).access (by omega) (by omega)

theorem Sound.freeVring {o i : ℕ} (h : Sound n loop s) (ho : 4 ≤ o) (hi : o + 24 + 20 * (i + 1) ≤ n) :
    Sound n loop (freeVring o s i) := by
  unfold Table.freeVring vringAt
  exact (h.write32 (by omega) (by omega) (.inr (by omega)) _).write32 (by omega) (by omega) (.inr (by omega)) _

theorem Sound.foldl_freeVring {o : ℕ} {is : List ℕ} (h : Sound n loop s) (ho : 4 ≤ o)
    (his : ∀ i ∈ is, o + 24 + 20 * (i + 1) ≤ n) : Sound n loop (is.foldl (Table.freeVring o) s) := by
  induction is generalizing s with
  | nil => exact h
  | cons i is ih =>
    rw [List.forall_mem_cons] at his
    exact ih (h.freeVring ho his.1) his.2

theorem Sound.parseVrings {is : List ℕ} (h : Sound n loop s) (hp : 4 ≤ p) (his : ∀ i ∈ is, p + 24 + 20 * (i + 1) ≤ n) :
    Sound n loop (parseVrings p is s).1 := by
  induction is generalizing s with
  | nil => exact h
  | cons i is ih =>
    rw [List.forall_mem_cons] at his
    obtain ⟨hi, his⟩ := his
    unfold Table.parseVrings
    dsimp only
    have h₁ := (h.access (a := p + 24 + 20 * i + 8) (k := 4) (by omega) (by omega)).access (a := p + 24 + 20 * i + 4)
      (k := 4) (by omega) (by omega)
    exact .ite (fun _ => h₁) fun _ => ih h₁ his

theorem Sound.allocVrings (env : EntryOutcomes) {o : ℕ} {is done : List ℕ} (h : Sound n loop s) (ho : 4 ≤ o)
    (his : ∀ i ∈ is, o + 24 + 20 * (i + 1) ≤ n) (hdone : ∀ i ∈ done, o + 24 + 20 * (i + 1) ≤ n) :
    Sound n loop (allocVrings env o is done s).1 := by
  induction is generalizing s done with
  | nil => exact h
  | cons i is ih =>
    rw [List.forall_mem_cons] at his
    obtain ⟨hi, his⟩ := his
    unfold Table.allocVrings
    dsimp only
    have h₁ : Sound n loop (s.access (vringAt o i) 4) := by
      unfold vringAt
      exact h.access (by omega) (by omega)
    have h₂ : Sound n loop (if env.newCarveout i then
        { s.access (vringAt o i) 4 with carveouts := (s.access (vringAt o i) 4).carveouts ++ [FW_RSC_ADDR_ANY] }
        else s.access (vringAt o i) 4) := by
      split
      · exact h₁.addCarveout (.inl rfl)
      · exact h₁
    generalize (if env.newCarveout i then
        { s.access (vringAt o i) 4 with carveouts := (s.access (vringAt o i) 4).carveouts ++ [FW_RSC_ADDR_ANY] }
        else s.access (vringAt o i) 4) = s₁ at h₂ ⊢
    split
    case isTrue => exact h₂.foldl_freeVring ho hdone
    case isFalse =>
      refine ih ?_ his (List.forall_mem_cons.mpr ⟨hi, hdone⟩)
      unfold vringAt
      exact h₂.write32 (by omega) (by omega) (.inr (by omega)) _

/-- **`rproc_handle_vdev`**, for an entry of which the fixed part up to the number of
vrings is there. -/
theorem Sound.rprocHandleVdev (h : Sound n loop s) (hp : Available n p avail) (hlen : 22 ≤ avail) :
    Sound n loop (rprocHandleVdev env s p avail).1 := by
  have hstored := hp.storedOffset
  obtain ⟨hbehind, havail, hends, hsmall⟩ := id hp
  unfold Table.rprocHandleVdev
  dsimp only
  have h₁ := (h.access (a := p + 21) (k := 1) (by omega) (by omega)).access (a := p + 16) (k := 4) (by omega) (by omega)
  generalize (s.access (p + 21) 1).access (p + 16) 4 = s₁ at h₁ ⊢
  generalize s₁.vdevAt p = rsc
  refine .ite (fun _ => h₁) fun hcomplete => ?_
  have hroom : 24 + 20 * (rsc.numOfVrings : ℤ) ≤ avail := by
    unfold vdevTruncated at hcomplete
    omega
  have h₂ : Sound n loop (s₁.access (p + 22) 2) := h₁.access (by omega) (by omega)
  refine .ite (fun _ => h₂) fun _ => .ite (fun _ => h₂) fun _ => .ite (fun _ => h₂) fun _ => ?_
  have h₃ : Sound n loop ((s₁.access (p + 22) 2).access p 4) := h₂.access (by omega) (by omega)
  refine .ite (fun _ => h₃) fun _ => .ite (fun _ => h₃) fun _ => ?_
  have hrings : ∀ i ∈ List.range rsc.numOfVrings, p + 24 + 20 * (i + 1) ≤ n := by
    intro i hi
    have hlt := List.mem_range.mp hi
    omega
  have h₄ := h₃.parseVrings hbehind hrings
  generalize Table.parseVrings p (List.range rsc.numOfVrings) ((s₁.access (p + 22) 2).access p 4) = q at h₄ ⊢
  obtain ⟨s₂, ret₂⟩ := q
  dsimp only at h₄ ⊢
  refine .ite (fun _ => h₄) fun _ => ?_
  have hrings' : ∀ i ∈ List.range rsc.numOfVrings, storedOffset p + 24 + 20 * (i + 1) ≤ n := by
    intro i hi
    have hi' := hrings i hi
    omega
  have h₅ := h₄.allocVrings env (by omega) hrings' (List.forall_mem_nil _)
  generalize Table.allocVrings env (storedOffset p) (List.range rsc.numOfVrings) [] s₂ = q at h₅ ⊢
  obtain ⟨s₃, ret₃⟩ := q
  dsimp only at h₅ ⊢
  exact .ite (fun _ => h₅) fun _ => h₅.addVdev (by dsimp only; omega)

/-! ### The loop -/

/-- The address of the entry of a header at `offset`. -/
def TableHandle.entry (s : TableHandle) (i : ℕ) : ℤ := toInt (s.offset i) + 4

/-- `hdr->type` -/
def TableHandle.type (s : TableHandle) (i : ℕ) : ℕ := s.table.u32 (toInt (s.offset i))

/-- Unless its offset is found to be truncated, the entry does not lie before the table,
what is read of a vdev before its length is known is there, and the name of a
carveout ends in the table. -/
structure EntrySafe (s : TableHandle) (i : ℕ) : Prop where
  offset : 0 ≤ s.avail i → 0 ≤ toInt (s.offset i)
  vdev : 0 ≤ s.avail i → s.type i = RSC_VDEV → 22 ≤ s.avail i
  carveout : 52 ≤ s.avail i → s.type i = RSC_CARVEOUT → s.table.u32 (s.entry i + 16) = 0 →
    s.table.Terminated (s.entry i + 20)

/-- How many bytes an entry of the type needs behind its header. -/
def entryNeeds (type : ℕ) (rsc : FwRscVdev) : ℕ :=
  if type = RSC_CARVEOUT ∨ type = RSC_DEVMEM then 52
  else if type = RSC_TRACE then 44
  else if type = RSC_VDEV then 24 + 20 * rsc.numOfVrings + rsc.configLen
  else 0

def TableHandle.needs (s : TableHandle) (i : ℕ) : ℕ := entryNeeds (s.type i) (s.vdevAt (s.entry i))

/-- The entry lies in the table. -/
def EntryFits (s : TableHandle) (i : ℕ) : Prop := s.offset i + 4 + s.needs i ≤ s.table.size

theorem toInt_eq (x : ℤ) : toInt x = x % 2 ^ 32 - if 2 ^ 31 ≤ x % 2 ^ 32 then 2 ^ 32 else 0 := by
  unfold toInt
  rw [Int.bmod_eq_emod]
  split <;> split <;> omega

/-- What is available behind the header of an entry that does not lie before the
table. -/
theorem avail_eq {i : ℕ} (hsize : s.table.size < 2 ^ 31) (hheader : 16 ≤ s.table.size) (h : 0 ≤ toInt (s.offset i)) :
    toInt (s.offset i) = s.offset i ∧ s.avail i = s.table.size - s.offset i - 4 := by
  have hlt : s.offset i < 2 ^ 32 := Window.u32_lt _ _
  have hoffset : toInt (s.offset i) = s.offset i := by
    rw [toInt_eq] at h ⊢
    split at h
    · omega
    · rw [if_neg (by assumption)]
      omega
  refine ⟨hoffset, ?_⟩
  unfold TableHandle.avail
  rw [hoffset, toInt_eq]
  rw [hoffset] at h
  have hbelow : (s.offset i : ℤ) < 2 ^ 31 := by
    rw [toInt_eq] at hoffset
    split at hoffset
    · omega
    · omega
  split
  · omega
  · omega

/-- The handlers, for an entry that does not go beyond what was checked. One that does
not fit is rejected. -/
theorem Sound.rprocLoadingHandlers (env : EntryOutcomes) {type : ℕ} (h : Sound n loop s) (hp : Available n p avail) (htype : type < RSC_LAST)
    (hvdev : type = RSC_VDEV → 22 ≤ avail) (hname : 52 ≤ avail → type = RSC_CARVEOUT → s.table.u32 (p + 16) = 0 →
      s.table.Terminated (p + 20)) :
    Sound n loop (rprocLoadingHandlers type env s p avail).1 ∧
      (avail < entryNeeds type (s.vdevAt p) → (rprocLoadingHandlers type env s p avail).2 = -EINVAL) := by
  have hcut : ∀ {size : ℕ}, avail < size → Truncated size avail := fun hlt => by
    by_contra hno
    have hle := hp.not_truncated.mp hno
    omega
  unfold Table.rprocLoadingHandlers entryNeeds
  by_cases hc : type = RSC_CARVEOUT
  · rw [if_pos hc, if_pos (.inl hc)]
    refine ⟨h.rprocHandleCarveout hp fun hle => hname hle hc, fun hlt => ?_⟩
    rw [Table.rprocHandleCarveout, if_pos (hcut hlt)]
  rw [if_neg hc]
  by_cases hd : type = RSC_DEVMEM
  · rw [if_pos hd, if_pos (.inr hd)]
    refine ⟨h.rprocHandleDevmem hp, fun hlt => ?_⟩
    unfold Table.rprocHandleDevmem
    split
    · rfl
    · rw [if_pos (hcut hlt)]
  rw [if_neg hd, if_neg (not_or.mpr ⟨hc, hd⟩)]
  by_cases ht : type = RSC_TRACE
  · rw [if_pos ht, if_pos ht]
    refine ⟨h.rprocHandleTrace hp, fun hlt => ?_⟩
    rw [Table.rprocHandleTrace, if_pos (hcut hlt)]
  rw [if_neg ht, if_neg ht]
  have hv : type = RSC_VDEV := by
    unfold RSC_CARVEOUT RSC_DEVMEM RSC_TRACE RSC_LAST RSC_VDEV at *
    omega
  rw [if_pos hv]
  refine ⟨h.rprocHandleVdev hp (hvdev hv), fun hlt => ?_⟩
  have hrsc : ((s.access (p + 21) 1).access (p + 16) 4).vdevAt p = s.vdevAt p := rfl
  have hbad : vdevTruncated (s.vdevAt p) avail := by
    have hnonneg := hp.nonneg
    have hends := hp.ends
    have hsmall := hp.small
    have hbehind := hp.behind
    unfold vdevTruncated
    omega
  unfold Table.rprocHandleVdev
  dsimp only
  rw [hrsc, if_pos hbad]

/-- **One pass of the loop.** -/
theorem Sound.handleEntry {i : ℕ} (h : Sound n (some i) s) (hn : n < 2 ^ 31) (hsafe : i < s.num → EntrySafe s i)
    (env : EntryOutcomes) :
    (∃ loop, Sound n loop (handleEntry env i s)) ∧
      (i < s.num → ¬ EntryFits s i → (handleEntry env i s).pass = none ∧ (handleEntry env i s).ret = -EINVAL) := by
  have hheader := h.header (by simp)
  have hsize := h.size
  unfold Table.handleEntry
  dsimp only
  have h₁ : Sound n (some i) (s.access 4 4) := h.access (by omega) (by omega)
  by_cases hi : s.num ≤ i
  · rw [if_pos (show (s.access 4 4).num ≤ i from hi)]
    exact ⟨⟨none, h₁.ends _⟩, fun hlt => absurd hlt (not_lt.mpr hi)⟩
  rw [if_neg (show ¬ (s.access 4 4).num ≤ i from hi)]
  obtain ⟨hbefore, hvdev, hname⟩ := hsafe (not_le.mp hi)
  have h₂ : Sound n (some i) ((s.access 4 4).access (16 + 4 * i) 4) := h₁.access (by omega) (by omega)
  have hoffset : ((s.access 4 4).access (16 + 4 * i) 4).offset i = s.offset i := rfl
  have havail : ((s.access 4 4).access (16 + 4 * i) 4).avail i = s.avail i := rfl
  rw [hoffset, havail]
  by_cases hneg : s.avail i < 0
  · rw [if_pos hneg]
    exact ⟨⟨none, h₂.ends _⟩, fun _ _ => ⟨rfl, rfl⟩⟩
  rw [if_neg hneg]
  obtain ⟨heq, hrest⟩ := avail_eq (i := i) (by omega) (by omega) (hbefore (not_lt.mp hneg))
  have h₃ : Sound n (some i) (((s.access 4 4).access (16 + 4 * i) 4).access (toInt (s.offset i)) 4) :=
    h₂.access (by omega) (by omega)
  have htype : (((s.access 4 4).access (16 + 4 * i) 4).access (toInt (s.offset i)) 4).table.u32 (toInt (s.offset i)) =
      s.type i := rfl
  have hbytes : (((s.access 4 4).access (16 + 4 * i) 4).access (toInt (s.offset i)) 4).table.byte = s.table.byte := rfl
  have hvdevAt : (((s.access 4 4).access (16 + 4 * i) 4).access (toInt (s.offset i)) 4).vdevAt (s.entry i) =
      s.vdevAt (s.entry i) := rfl
  have hendsAt : ∀ a, (((s.access 4 4).access (16 + 4 * i) 4).access (toInt (s.offset i)) 4).table.Terminated a ↔
      s.table.Terminated a := fun _ => Iff.rfl
  have hu32 : ∀ a, (((s.access 4 4).access (16 + 4 * i) 4).access (toInt (s.offset i)) 4).table.u32 a = s.table.u32 a :=
    fun _ => rfl
  rw [htype]
  generalize ((s.access 4 4).access (16 + 4 * i) 4).access (toInt (s.offset i)) 4 = s₁ at h₃ hvdevAt hendsAt hu32 ⊢
  -- an entry that has no handler needs nothing
  have hfree : RSC_LAST ≤ s.type i → EntryFits s i := by
    intro hlast
    have hneeds : s.needs i = 0 := by
      unfold TableHandle.needs entryNeeds RSC_CARVEOUT RSC_DEVMEM RSC_TRACE RSC_VDEV
      unfold RSC_LAST at hlast
      rw [if_neg (by omega), if_neg (by omega), if_neg (by omega)]
    unfold EntryFits
    omega
  split
  case isTrue hvendor =>
    have hfits := hfree ((by decide : RSC_LAST ≤ RSC_VENDOR_START).trans hvendor.1)
    split
    case isTrue => exact ⟨⟨none, h₃.ends _⟩, fun _ hno => absurd hfits hno⟩
    case isFalse => exact ⟨⟨_, h₃.goesOn _⟩, fun _ hno => absurd hfits hno⟩
  case isFalse =>
    split
    case isTrue hlast => exact ⟨⟨_, h₃.goesOn _⟩, fun _ hno => absurd (hfree hlast) hno⟩
    case isFalse hlast =>
      have hp : Available n (toInt (s.offset i) + 4) (s.avail i) := ⟨by omega, by omega, by omega, hn⟩
      have hentry : s.entry i = toInt (s.offset i) + 4 := rfl
      rw [← hentry] at hp ⊢
      obtain ⟨hsound, hreject⟩ := h₃.rprocLoadingHandlers env hp (not_le.mp hlast) (hvdev (not_lt.mp hneg))
        fun hle htype hres => (hendsAt _).mpr (hname hle htype (by rwa [hu32] at hres))
      rw [hvdevAt] at hreject
      have hneeds : ¬ EntryFits s i → s.avail i < entryNeeds (s.type i) (s.vdevAt (s.entry i)) := by
        intro hno
        unfold EntryFits TableHandle.needs at hno
        omega
      generalize Table.rprocLoadingHandlers (s.type i) env s₁ (s.entry i) (s.avail i) = q at hsound hreject ⊢
      obtain ⟨s₂, ret⟩ := q
      dsimp only at hsound hreject ⊢
      split
      case isTrue => exact ⟨⟨none, hsound.ends _⟩, fun _ hno => ⟨rfl, hreject (hneeds hno)⟩⟩
      case isFalse hret =>
        refine ⟨⟨_, hsound.goesOn _⟩, fun _ hno => absurd (hreject (hneeds hno)) ?_⟩
        rw [not_not.mp hret]
        decide

/-! ### Later calls -/

theorem Sound.allocCarveouts {values : ℕ → Option (ℕ × ℕ × ℕ)} {os : List ℕ} {k : ℕ} (h : Sound n none s)
    (hos : ∀ o ∈ os, o = FW_RSC_ADDR_ANY ∨ 4 ≤ o ∧ o + 52 ≤ n) : Sound n none (allocCarveouts values os k s) := by
  induction os generalizing s k with
  | nil => exact h
  | cons o os ih =>
    rw [List.forall_mem_cons] at hos
    unfold Table.allocCarveouts
    split
    case h_1 => exact h
    case h_2 pa da len _ =>
      refine ih ?_ hos.2
      split
      case isTrue => exact h
      case isFalse hany =>
        have ho := hos.1.resolve_left hany
        have h₁ : Sound n none (s.write32 (o + 4) pa) := h.write32 (by omega) (by omega) (.inl rfl) _
        have h₂ : Sound n none ((s.write32 (o + 4) pa).write32 o da) := h₁.write32 (by omega) (by omega) (.inl rfl) _
        exact h₂.write32 (by omega) (by omega) (.inl rfl) _

theorem Sound.rprocFreeVring {a i : ℕ} (h : Sound n loop s) (hcall : rprocFreeVring a i s = some t) : Sound n loop t := by
  unfold Table.rprocFreeVring at hcall
  split at hcall
  · exact absurd hcall (by simp)
  case h_2 rvdev hrvdev =>
    split at hcall
    · exact absurd hcall (by simp)
    · cases hcall
      obtain ⟨ho, hend⟩ := h.rvdevs rvdev (List.mem_of_getElem? hrvdev)
      exact h.freeVring ho (by omega)

/-- The vring lies in the table. -/
def VringFits (s : TableHandle) (a id : ℕ) : Prop :=
  ∀ rvdev, s.rvdevs[a]? = some rvdev → rvdev.rscOffset + 24 + 20 * id + 4 ≤ s.table.size

instance (s : TableHandle) (a id : ℕ) : Decidable (VringFits s a id) :=
  decidable_of_iff ((s.rvdevs[a]?).all fun rvdev => decide (rvdev.rscOffset + 24 + 20 * id + 4 ≤ s.table.size)) (by
    unfold VringFits
    simp only [Option.all_eq_true, decide_eq_true_eq])

/-- The device, as the table describes it now, ends in the table, unless the access to its
configuration is rejected. -/
def DeviceFits (s : TableHandle) (a : ℕ) (offset len : BitVec 32) : Prop :=
  ∀ rvdev, s.rvdevs[a]? = some rvdev → ¬ OutOfBounds (s.vdevAt rvdev.rscOffset) offset len →
    rvdev.rscOffset + 24 + 20 * (s.vdevAt rvdev.rscOffset).numOfVrings + (s.vdevAt rvdev.rscOffset).configLen ≤ s.table.size

instance (s : TableHandle) (a : ℕ) (offset len : BitVec 32) : Decidable (DeviceFits s a offset len) :=
  decidable_of_iff ((s.rvdevs[a]?).all fun rvdev => decide (¬ OutOfBounds (s.vdevAt rvdev.rscOffset) offset len →
      rvdev.rscOffset + 24 + 20 * (s.vdevAt rvdev.rscOffset).numOfVrings + (s.vdevAt rvdev.rscOffset).configLen ≤ s.table.size)) (by
    unfold DeviceFits
    simp only [Option.all_eq_true, decide_eq_true_eq])

theorem Sound.rpFindVq {a id : ℕ} {mem : Option ℕ} {newVirtqueue : Bool} (h : Sound n none s)
    (hfits : id < RVDEV_NUM_VRINGS → mem ≠ none → newVirtqueue = true → VringFits s a id)
    (hcall : rpFindVq a id mem newVirtqueue s = some t) : Sound n none t := by
  have hsize := h.size
  unfold Table.rpFindVq at hcall
  split at hcall
  · exact absurd hcall (by simp)
  case h_2 rvdev hrvdev =>
    obtain ⟨ho, hend⟩ := h.rvdevs rvdev (List.mem_of_getElem? hrvdev)
    split at hcall
    case isTrue =>
      cases hcall
      exact h
    case isFalse hid =>
      split at hcall
      · cases hcall
        exact h
      · split at hcall
        case isTrue => exact h.rprocFreeVring hcall
        case isFalse hnew =>
          cases hcall
          have hroom := hfits (not_le.mp hid) (by simp) (by simpa using hnew) rvdev hrvdev
          unfold vringAt
          exact h.write32 (by omega) (by omega) (.inl rfl) _

/-- An access to the configuration that is within its bounds has not wrapped around. -/
theorem within_of_not_outOfBounds {rsc : FwRscVdev} {offset len : BitVec 32} (h : ¬ OutOfBounds rsc offset len) :
    offset.toNat + len.toNat ≤ rsc.configLen := by
  unfold OutOfBounds at h
  rw [not_or, BitVec.toNat_add] at h
  have hoffset := offset.isLt
  have hlen := len.isLt
  omega

theorem Sound.rprocVirtioConfig {a : ℕ} {offset len : BitVec 32} {copy : TableHandle → ℤ → ℕ → TableHandle}
    (h : Sound n none s) (hfits : DeviceFits s a offset len)
    (hcopy : ∀ (s : TableHandle) (x : ℤ) (k : ℕ), Sound n none s → 0 ≤ x → x + k ≤ n → Sound n none (copy s x k))
    (hcall : rprocVirtioConfig copy a offset len s = some t) : Sound n none t := by
  have hsize := h.size
  unfold Table.rprocVirtioConfig at hcall
  split at hcall
  · exact absurd hcall (by simp)
  case h_2 rvdev hrvdev =>
    obtain ⟨ho, hend⟩ := h.rvdevs rvdev (List.mem_of_getElem? hrvdev)
    dsimp only at hcall
    have h₁ := (h.access (a := rvdev.rscOffset + 21) (k := 1) (by omega) (by omega)).access (a := rvdev.rscOffset + 16)
      (k := 4) (by omega) (by omega)
    split at hcall
    case isTrue =>
      cases hcall
      exact h₁
    case isFalse hbounds =>
      cases hcall
      have hroom := hfits rvdev hrvdev hbounds
      have hwithin := within_of_not_outOfBounds hbounds
      unfold vringAt
      exact hcopy _ _ _ h₁ (by omega) (by omega)

/-! ### Runs -/

/-- The header of a table that is handled, with the offsets, lies in the table; its
entries are safe, and later calls find room for the vring or the device. -/
def Allowed (s : TableHandle) : TableCall → Prop
  | .handleResources => 16 + 4 * s.num ≤ s.table.size
  | .entry _ => ∀ i, s.pass = some i → i < s.num → EntrySafe s i
  | .allocRegisteredCarveouts _ => True
  | .freeVring _ _ => True
  | .findVq a id mem newVirtqueue => id < RVDEV_NUM_VRINGS → mem ≠ none → newVirtqueue = true → VringFits s a id
  | .virtioGet a offset len => DeviceFits s a offset len
  | .virtioSet a offset len _ => DeviceFits s a offset len
  | .remote _ _ => True

theorem Sound.tableCall {call : TableCall} (h : Sound n none s) (hG : Allowed s call) (hcall : tableCall s call = some t) :
    ∃ loop, Sound n loop t := by
  cases call with
  | handleResources =>
    cases hcall
    exact ⟨some 0, h.size, rfl, fun _ => h.size ▸ hG, h.inside, h.rvdevs, h.carveouts⟩
  | entry env => exact absurd hcall (by simp [Table.tableCall])
  | allocRegisteredCarveouts values =>
    cases hcall
    exact ⟨none, h.allocCarveouts h.carveouts⟩
  | freeVring a i => exact ⟨none, h.rprocFreeVring hcall⟩
  | findVq a id mem newVirtqueue => exact ⟨none, h.rpFindVq hG hcall⟩
  | virtioGet a offset len => exact ⟨none, h.rprocVirtioConfig hG (fun _ _ _ h' ha hk => h'.access ha hk) hcall⟩
  | virtioSet a offset len buf =>
    exact ⟨none, h.rprocVirtioConfig hG (fun _ _ _ h' ha hk => h'.write ha hk (.inl rfl) buf) hcall⟩
  | remote k v =>
    cases hcall
    exact ⟨none, h.size, h.pass, fun hnone => absurd rfl hnone, h.inside, h.rvdevs, h.carveouts⟩

theorem Sound.tableStep {call : TableCall} (h : ∃ loop, Sound n loop s) (hn : n < 2 ^ 31) (hG : Allowed s call)
    (hstep : tableStep s call = some t) : ∃ loop, Sound n loop t := by
  obtain ⟨loop, h⟩ := h
  unfold Table.tableStep at hstep
  rw [h.pass] at hstep
  split at hstep
  · cases hstep
    exact (h.handleEntry hn (hG _ h.pass) _).1
  · exact absurd hstep (by simp)
  · exact h.tableCall hG hstep

/-- Nothing was accessed yet, and nothing was stored. -/
structure FreshTable (s : TableHandle) : Prop where
  size : s.table.size < 2 ^ 31
  pass : s.pass = none
  accesses : s.table.accesses = []
  rvdevs : s.rvdevs = []
  carveouts (o : ℕ) : o ∈ s.carveouts → o = FW_RSC_ADDR_ANY

/-- **No access leaves the table.** In every run whose calls are allowed, all accesses
lie inside the table, and the loop ends with `-EINVAL` at an entry that does not fit. -/
theorem table_accesses_inside (hs : FreshTable s) {calls : List TableCall} (hG : Along tableStep Allowed s calls)
    (hrun : exec tableStep s calls = some t) :
    (∀ x ∈ t.table.accesses, 0 ≤ x.1 ∧ x.1 + x.2 ≤ t.table.size) ∧
      ∀ env i, t.pass = some i → i < t.num → Allowed t (.entry env) → ¬ EntryFits t i →
        ∃ u, tableStep t (.entry env) = some u ∧ u.pass = none ∧ u.ret = -EINVAL := by
  have hinit : ∃ loop, Sound s.table.size loop s := by
    refine ⟨none, rfl, hs.pass, fun hnone => absurd rfl hnone, ?_, ?_, fun o ho => .inl (hs.carveouts o ho)⟩
    · intro x hx
      rw [hs.accesses] at hx
      exact absurd hx List.not_mem_nil
    · intro v hv
      rw [hs.rvdevs] at hv
      exact absurd hv List.not_mem_nil
  obtain ⟨loop, h⟩ := exec_invariant_along (I := fun s' => ∃ loop, Sound s.table.size loop s')
    (fun _ _ _ h hG hstep => Sound.tableStep h hs.size hG hstep) hinit hG hrun
  refine ⟨h.inside, fun env i hpass hi hallowed hno => ?_⟩
  have hloop : loop = some i := h.pass.symm.trans hpass
  subst hloop
  obtain ⟨-, hreject⟩ := h.handleEntry hs.size (hallowed i hpass) env
  refine ⟨handleEntry env i t, ?_, hreject hi hno⟩
  unfold Table.tableStep
  rw [hpass]

/-- A table of 32-bit words, which was not accessed yet. -/
def tableOf (words : List ℕ) : TableHandle where
  table :=
    { byte := fun x => if x < 0 then 0 else (words.flatMap fun v => (List.range 4).map (Window.digits v)).getD x.toNat 0
      size := 4 * words.length
      accesses := [] }
  domain := false
  carveouts := []
  rvdevs := []
  pass := none
  ret := 0

/-- Everything succeeds. -/
def entrySucceeds : EntryOutcomes := ⟨0, none, true, true, 0, true, 0, 0, fun _ => true, fun _ => 0, fun i => i⟩

/-- A vdev with two vrings and eight bytes of configuration. -/
def vdevTable : TableHandle :=
  tableOf [1, 1, 0, 0, 20, 3, 7, 0, 0, 0, 8, 512, 0, 16, 256, 0, 0, 0, 16, 256, 0, 0, 1, 2]

/-- The table is handled, and the vdev is used. -/
def vdevTableCalls : List TableCall :=
  [.handleResources, .entry entrySucceeds, .entry entrySucceeds, .findVq 0 1 (some 4096) true, .virtioGet 0 4 4]

theorem vdevTable_accesses_inside :
    ∃ t, exec tableStep vdevTable vdevTableCalls = some t ∧
      (∀ x ∈ t.table.accesses, 0 ≤ x.1 ∧ x.1 + x.2 ≤ t.table.size) ∧
      ∀ env i, t.pass = some i → i < t.num → Allowed t (.entry env) → ¬ EntryFits t i →
        ∃ u, tableStep t (.entry env) = some u ∧ u.pass = none ∧ u.ret = -EINVAL := by
  have hreach : (exec tableStep vdevTable vdevTableCalls).isSome = true := rfl
  obtain ⟨t, ht⟩ := Option.isSome_iff_exists.mp hreach
  have hfresh : FreshTable vdevTable := ⟨by decide, rfl, rfl, rfl, fun _ ho => absurd ho List.not_mem_nil⟩
  refine ⟨t, ht, table_accesses_inside hfresh ?_ ht⟩
  refine Along.cons ?_ rfl (Along.cons ?_ rfl (Along.cons ?_ rfl (Along.cons ?_ rfl (Along.cons ?_ rfl trivial))))
  · exact (by decide : 16 + 4 * vdevTable.num ≤ vdevTable.table.size)
  · rintro i hi -
    cases hi
    exact ⟨fun _ => by decide, fun _ _ => by decide, fun _ htype => absurd htype (by decide)⟩
  · intro i hi hlt
    cases hi
    exact absurd hlt (by decide)
  · exact fun _ _ _ => by decide
  · change DeviceFits _ 0 4 4
    decide

/-- An access lies outside of the table. -/
def accessesOutside (s : TableHandle) : Bool :=
  s.table.accesses.any fun x => x.1 < 0 ∨ (s.table.size : ℤ) < x.1 + x.2

/-- The offset of the only entry is negative as an `int`. -/
def negativeOffset : TableHandle := tableOf [1, 1, 0, 0, 2 ^ 32 - 4]

/-- The only entry is a vdev, of which the table has four bytes. -/
def truncatedVdev : TableHandle := tableOf [1, 1, 0, 0, 20, 3, 7]

/-- **Entries that leave the table.** The header and the offsets lie in the table, and its
entry is accessed outside of it. -/
theorem entry_accessed_outside :
    (16 + 4 * negativeOffset.num ≤ negativeOffset.table.size ∧
      ∃ t, exec tableStep negativeOffset [.handleResources, .entry entrySucceeds] = some t ∧ accessesOutside t = true) ∧
    (16 + 4 * truncatedVdev.num ≤ truncatedVdev.table.size ∧
      ∃ t, exec tableStep truncatedVdev [.handleResources, .entry entrySucceeds] = some t ∧ accessesOutside t = true) := by
  constructor
  · have hout : ((exec tableStep negativeOffset [.handleResources, .entry entrySucceeds]).map accessesOutside) = some true := by
      decide
    exact ⟨by decide, Option.map_eq_some_iff.mp hout⟩
  · have hout : ((exec tableStep truncatedVdev [.handleResources, .entry entrySucceeds]).map accessesOutside) = some true := by
      decide
    exact ⟨by decide, Option.map_eq_some_iff.mp hout⟩

end GfpDrivers.Remoteproc.Table
