import GfpDrivers.Remoteproc.Boot
import GfpDrivers.Remoteproc.VdevEntries

/-!
Calls of `rproc_boot` that fail. All that was acquired on the way should be given
back, so that the processor can be booted again.

The label `clean_up_resources` of `rproc_fw_boot` does this. The calls that jump past
it, while the device is prepared and the firmware is parsed, leave the carveouts
and the table that these have added; `rproc_attach` also jumps past it when an entry
of the resource table fails, and never forgets the table it has loaded. The cleanup
itself does not come to an end if there is a device without two vrings, and nor does a
start that has to be taken back on a processor without a stop operation.
-/

namespace GfpDrivers.Remoteproc

open GfpDrivers.Lib Function List

variable {s t : RprocHandle} {env : Outcomes} {ret : ℤ}

/-! ### The resource table -/

instance (venv : VdevOutcomes) (rsc : FwRscVdev) (avail : ℤ) : Decidable (Accepted venv rsc avail) :=
  decidable_of_iff (¬ vdevTruncated rsc avail ∧ rsc.reserved = (0, 0) ∧ rsc.numOfVrings ≤ RVDEV_NUM_VRINGS ∧
      venv.kzalloc = true ∧ venv.deviceRegister = 0 ∧ venv.copyDmaRangeMap = 0 ∧
      (∀ i < rsc.numOfVrings, (rsc.vring i).num ≠ 0 ∧ (rsc.vring i).align ≠ 0) ∧
      ∀ i < rsc.numOfVrings, venv.carveout i = true ∧ venv.idrAlloc i = true)
    ⟨fun ⟨h₁, h₂, h₃, h₄, h₅, h₆, h₇, h₈⟩ => ⟨h₁, h₂, h₃, h₄, h₅, h₆, h₇, h₈⟩,
      fun h => ⟨h.1, h.2, h.3, h.4, h.5, h.6, h.7, h.8⟩⟩

/-- The handler of the entry succeeds. -/
def Resource.Succeeds : Resource → Prop
  | .carveout _ ret => ret = 0
  | .devmem ret => ret = 0
  | .trace ret => ret = 0
  | .vdev venv rsc _ avail _ => Accepted venv rsc avail

instance (rsc : Resource) : Decidable rsc.Succeeds :=
  match rsc with
  | .carveout _ ret => inferInstanceAs (Decidable (ret = 0))
  | .devmem ret => inferInstanceAs (Decidable (ret = 0))
  | .trace ret => inferInstanceAs (Decidable (ret = 0))
  | .vdev venv rsc _ avail _ => inferInstanceAs (Decidable (Accepted venv rsc avail))

/-- The number of vrings, if the entry is that of a vdev. -/
def Resource.vrings : Resource → List ℕ
  | .vdev _ rsc _ _ _ => [rsc.numOfVrings]
  | _ => []

/-- The numbers of vrings of the vdevs that are registered, up to the entry that
fails. -/
def registeredVrings : List RscEntry → List ℕ
  | [] => []
  | .truncated :: _ => []
  | .vendor ret :: es => if ret < 0 then [] else registeredVrings es
  | .unsupported :: es => registeredVrings es
  | .resource rsc :: es => if rsc.Succeeds then rsc.vrings ++ registeredVrings es else []

/-- No entry fails, and the last one that counts is not one that the platform
ignores. -/
def entriesSucceed : Bool → List RscEntry → Bool
  | ok, [] => ok
  | _, .truncated :: _ => false
  | _, .vendor ret :: es => if ret < 0 then false else entriesSucceed (ret = 0) es
  | ok, .unsupported :: es => entriesSucceed ok es
  | _, .resource rsc :: es => if rsc.Succeeds then entriesSucceed true es else false

/-- The vdevs are those of the resource table. None of them is started. -/
structure Boots (s : RprocHandle) : Prop where
  parsed : Parsed s.toRproc
  subdevs : s.subdevs = s.rvdevs.map .vdev
  virtioDevs (a : ℕ) : a ∈ s.rvdevs → s.virtioDevs a = 0

def Rproc.vringCounts (r : Rproc) : List ℕ := r.rvdevs.map fun a => (r.vdev a).numOfVrings

theorem Extends.vringCounts {r r' : Rproc} {new : List ℕ} (h : Extends r r' new) :
    r'.vringCounts = r.vringCounts ++ new.map fun a => (r'.vdev a).numOfVrings := by
  unfold Rproc.vringCounts
  rw [h.rvdevs, map_append]
  congr 1
  exact map_congr_left h.numOfVrings

theorem Boots.rprocHandleResource (h : Boots s) (rsc : Resource) :
    ∃ t ret, rprocHandleResource s rsc = some (t, ret) ∧ Boots t ∧ (ret = 0 ↔ rsc.Succeeds) ∧
      t.vringCounts = s.vringCounts ++ if rsc.Succeeds then rsc.vrings else [] := by
  -- the entries that are not those of vdevs
  have hplain : ∀ (t : RprocHandle) (ret : ℤ), t.toRproc = s.toRproc → t.subdevs = s.subdevs →
      t.virtioDevs = s.virtioDevs → ∃ t' ret', some (if ret ≠ 0 then (s, ret) else (t, 0)) = some (t', ret') ∧
        Boots t' ∧ (ret' = 0 ↔ ret = 0) ∧ t'.vringCounts = s.vringCounts ++ if ret = 0 then [] else [] := by
    intro t ret hr hsub hvirt
    rw [ite_self, append_nil]
    by_cases hret : ret = 0
    · rw [if_neg (not_not_intro hret)]
      refine ⟨t, 0, rfl, ⟨hr ▸ h.parsed, ?_, fun a ha => ?_⟩, iff_of_true rfl hret, by rw [hr]⟩
      · rw [hsub, hr]
        exact h.subdevs
      · rw [hvirt]
        exact h.virtioDevs a (hr ▸ ha)
    · rw [if_pos hret]
      exact ⟨s, ret, rfl, h, iff_of_false hret hret, rfl⟩
  cases rsc with
  | carveout new ret => exact hplain _ ret rfl rfl rfl
  | devmem ret => exact hplain _ ret rfl rfl rfl
  | trace ret => exact hplain _ ret rfl rfl rfl
  | vdev venv rsc offset avail carveouts =>
    obtain ⟨r, ret, hr, hparsed, ⟨rfl, hacc, hext, hnum⟩ | ⟨hret, hacc, hext⟩⟩ :=
      h.parsed.rprocHandleVdev venv rsc offset avail
    · rw [Remoteproc.rprocHandleResource, hr]
      dsimp only
      rw [if_neg (by decide : ¬ (0 : ℤ) ≠ 0)]
      refine ⟨_, 0, rfl, ⟨hparsed, ?_, fun a ha => ?_⟩, iff_of_true rfl hacc, ?_⟩
      · dsimp only
        rw [h.subdevs, hext.rvdevs, map_append, map_singleton]
      · dsimp only at ha ⊢
        rw [hext.rvdevs, mem_append, mem_singleton] at ha
        by_cases heq : a = s.next
        · rw [heq, update_self]
        · rw [update_of_ne heq]
          exact h.virtioDevs a (ha.resolve_right heq)
      · have hcounts := hext.vringCounts
        rw [map_singleton, hnum] at hcounts
        rw [if_pos (show (Resource.vdev venv rsc offset avail carveouts).Succeeds from hacc)]
        exact hcounts
    · rw [Remoteproc.rprocHandleResource, hr]
      dsimp only
      rw [if_pos hret]
      have hrvdevs : r.rvdevs = s.rvdevs := by rw [hext.rvdevs, append_nil]
      refine ⟨_, ret, rfl, ⟨hparsed, ?_, fun a ha => ?_⟩, iff_of_false hret hacc, ?_⟩
      · dsimp only
        rw [hrvdevs]
        exact h.subdevs
      · exact h.virtioDevs a (hrvdevs ▸ ha)
      · rw [if_neg (show ¬ (Resource.vdev venv rsc offset avail carveouts).Succeeds from hacc)]
        exact hext.vringCounts

theorem Boots.handleEntries (h : Boots s) (es : List RscEntry) (ret₀ : ℤ) :
    ∃ t ret, handleEntries es ret₀ s = some (t, ret) ∧ Boots t ∧ (ret = 0 ↔ entriesSucceed (ret₀ = 0) es = true) ∧
      t.vringCounts = s.vringCounts ++ registeredVrings es := by
  induction es generalizing s ret₀ with
  | nil => exact ⟨s, ret₀, rfl, h, by simp [entriesSucceed], (append_nil _).symm⟩
  | cons e es ih =>
    cases e with
    | truncated =>
      exact ⟨s, -EINVAL, rfl, h, iff_of_false (by decide) (by simp [entriesSucceed]), (append_nil _).symm⟩
    | vendor r =>
      rw [Remoteproc.handleEntries, entriesSucceed, registeredVrings]
      by_cases hr : r < 0
      · rw [if_pos hr, if_pos hr, if_pos hr]
        exact ⟨s, r, rfl, h, iff_of_false (by omega) (by simp), (append_nil _).symm⟩
      · rw [if_neg hr, if_neg hr, if_neg hr]
        exact ih h r
    | unsupported => exact ih h ret₀
    | resource rsc =>
      rw [Remoteproc.handleEntries, entriesSucceed, registeredVrings]
      obtain ⟨t, ret, ht, hboots, hret, hcounts⟩ := h.rprocHandleResource rsc
      rw [ht]
      dsimp only
      by_cases hrsc : rsc.Succeeds
      · rw [if_neg (not_not_intro (hret.mpr hrsc)), if_pos hrsc, if_pos hrsc]
        obtain ⟨u, ret', hu, hboots', hret', hcounts'⟩ := ih hboots 0
        refine ⟨u, ret', hu, hboots', by simpa using hret', ?_⟩
        rw [hcounts', hcounts, if_pos hrsc, append_assoc]
      · have hbad : ret ≠ 0 := fun hzero => hrsc (hret.mp hzero)
        rw [if_pos hbad, if_neg hrsc, if_neg hrsc]
        refine ⟨t, ret, rfl, hboots, iff_of_false hbad (by simp), ?_⟩
        rw [hcounts, if_neg hrsc]

/-- The numbers of vrings of the vdevs that are registered for a table, if there is
one. -/
def tableVrings (table : Bool) (env : Outcomes) : List ℕ := if table then registeredVrings env.entries else []

/-- The table, if there is one, is handled. -/
def tableHandled (table : Bool) (env : Outcomes) : Prop := table = true → entriesSucceed true env.entries = true

theorem Boots.rprocHandleResources (h : Boots s) (env : Outcomes) :
    ∃ t ret, rprocHandleResources env s = some (t, ret) ∧ Boots t ∧ (ret = 0 ↔ tableHandled s.tablePtr env) ∧
      t.vringCounts = s.vringCounts ++ tableVrings s.tablePtr env := by
  unfold Remoteproc.rprocHandleResources tableHandled tableVrings
  cases s.tablePtr with
  | false => exact ⟨s, 0, rfl, h, by simp, (append_nil _).symm⟩
  | true =>
    obtain ⟨t, ret, ht, hboots, hret, hcounts⟩ := h.handleEntries env.entries 0
    exact ⟨t, ret, ht, hboots, by simpa using hret, hcounts⟩

/-! ### Cleaning up -/

/-- There is nothing in the lists. -/
structure Emptied (s : RprocHandle) : Prop where
  carveouts : s.carveouts = 0
  mappings : s.mappings = 0
  traces : s.traces = 0
  rvdevs : s.rvdevs = []
  subdevs : s.subdevs = []

theorem Boots.putVdev {a : ℕ} {as : List ℕ} (h : Boots s) (hlist : s.rvdevs = a :: as) :
    ((s.vdev a).numOfVrings = RVDEV_NUM_VRINGS → ∃ t, putVdev s a = some t ∧ Boots t ∧ t.rvdevs = as ∧
        (∀ b, (t.vdev b).numOfVrings = (s.vdev b).numOfVrings) ∧
        t.carveouts = s.carveouts ∧ t.mappings = s.mappings ∧ t.traces = s.traces) ∧
      ((s.vdev a).numOfVrings ≠ RVDEV_NUM_VRINGS → putVdev s a = none) := by
  have ha : a ∈ s.rvdevs := by
    rw [hlist]
    exact mem_cons_self ..
  obtain ⟨hok, hbad⟩ := h.parsed.rprocVdevRelease ha
  unfold Remoteproc.putVdev
  rw [if_neg (not_not_intro (h.virtioDevs a ha))]
  refine ⟨fun htwo => ?_, fun hfew => ?_⟩
  · obtain ⟨r, hr, hparsed, hrvdevs, hnum⟩ := hok htwo
    rw [hlist, erase_cons_head] at hrvdevs
    rw [hr, Option.map_some]
    refine ⟨_, rfl, ⟨hparsed, ?_, fun b hb => ?_⟩, hrvdevs, hnum, rfl, rfl, rfl⟩
    · dsimp only
      rw [hrvdevs, h.subdevs, hlist, map_cons, erase_cons_head]
    · refine h.virtioDevs b ?_
      rw [hlist]
      exact mem_cons_of_mem _ (hrvdevs ▸ hb)
  · rw [hbad hfew, Option.map_none]

theorem Boots.foldlM_putVdev {as : List ℕ} (h : Boots s) (hlist : s.rvdevs = as) :
    ((∀ a ∈ as, (s.vdev a).numOfVrings = RVDEV_NUM_VRINGS) → ∃ t, as.foldlM Remoteproc.putVdev s = some t ∧
        t.rvdevs = [] ∧ t.subdevs = [] ∧ t.carveouts = s.carveouts ∧ t.mappings = s.mappings ∧ t.traces = s.traces) ∧
      ((∃ a ∈ as, (s.vdev a).numOfVrings ≠ RVDEV_NUM_VRINGS) → as.foldlM Remoteproc.putVdev s = none) := by
  induction as generalizing s with
  | nil => exact ⟨fun _ => ⟨s, rfl, hlist, by rw [h.subdevs, hlist, map_nil], rfl, rfl, rfl⟩, by simp⟩
  | cons a as ih =>
    obtain ⟨hok, hbad⟩ := h.putVdev hlist
    rw [foldlM_cons, Option.bind_eq_bind]
    by_cases ha : (s.vdev a).numOfVrings = RVDEV_NUM_VRINGS
    · obtain ⟨u, hu, hboots, hrest, hnum, hc, hm, ht⟩ := hok ha
      obtain ⟨hok', hbad'⟩ := ih hboots hrest
      rw [hu, Option.bind_some]
      refine ⟨fun hall => ?_, fun ⟨b, hb, hfew⟩ => hbad' ⟨b, ?_, by rwa [hnum]⟩⟩
      · obtain ⟨t, heq, hr, hs, hc', hm', ht'⟩ := hok' fun b hb => (hnum b).trans (hall b (mem_cons_of_mem _ hb))
        exact ⟨t, heq, hr, hs, hc'.trans hc, hm'.trans hm, ht'.trans ht⟩
      · refine (mem_cons.mp hb).resolve_left ?_
        rintro rfl
        exact hfew ha
    · rw [hbad ha, Option.bind_none]
      exact ⟨fun hall => absurd (hall a (mem_cons_self ..)) ha, fun _ => rfl⟩

/-- The cleanup frees everything if all vdevs have two vrings, and otherwise has no
end. -/
theorem Boots.rprocResourceCleanup (h : Boots s) :
    ((∀ n ∈ s.vringCounts, n = RVDEV_NUM_VRINGS) → ∃ t, rprocResourceCleanup s = some t ∧ Emptied t) ∧
      (¬ (∀ n ∈ s.vringCounts, n = RVDEV_NUM_VRINGS) → rprocResourceCleanup s = none) := by
  have hlists : Boots s.freeLists := ⟨h.parsed, h.subdevs, h.virtioDevs⟩
  obtain ⟨hok, hbad⟩ := hlists.foldlM_putVdev rfl
  refine ⟨fun hall => ?_, fun hfew => hbad ?_⟩
  · obtain ⟨t, ht, hr, hs, hc, hm, htr⟩ := hok fun a ha => hall _ (mem_map_of_mem ha)
    exact ⟨t, ht, hc, hm, htr, hr, hs⟩
  · have hsome : ∃ a ∈ s.rvdevs, (s.vdev a).numOfVrings ≠ RVDEV_NUM_VRINGS := by
      simpa [Rproc.vringCounts] using hfew
    exact hsome

/-! ### Starting -/

theorem acquire_undo (s : RprocHandle) (x : Acquired) : (s.acquire x).undo x = s := by
  have hheld : ((s.acquire x).undo x).held = s.held := by
    simp only [RprocHandle.acquire, RprocHandle.undo, update_self, update_idem,
      Int.add_sub_cancel, update_eq_self]
  rw [RprocHandle.undo, RprocHandle.acquire] at hheld ⊢
  dsimp only at hheld ⊢
  rw [hheld]

/-- The subdevice is that of a vdev without virtio devices. -/
def Stopped (subdev : Subdev) (s : RprocHandle) : Prop := ∃ a, subdev = .vdev a ∧ s.virtioDevs a = 0

theorem stopSubdev_startSubdev {subdev : Subdev} (h : Stopped subdev s) (hret : (startSubdev env s subdev).2 = 0) :
    stopSubdev (startSubdev env s subdev).1 subdev = s := by
  obtain ⟨a, rfl, ha⟩ := h
  have hstart : ¬ (Subdev.vdev a).ops.start = false := by simp [Subdev.ops]
  have hstop : ¬ (Subdev.vdev a).ops.stop = false := by simp [Subdev.ops]
  have hok : env.startSubdev (.vdev a) = 0 := by
    by_contra hbad
    rw [startSubdev, if_neg hstart, if_pos hbad] at hret
    exact hbad hret
  have hback := acquire_undo s (.started (.vdev a))
  rw [startSubdev, if_neg hstart, if_neg (not_not_intro hok), stopSubdev, if_neg hstop]
  dsimp only [RprocHandle.undo, RprocHandle.acquire] at hback ⊢
  rw [update_idem, ← ha, update_eq_self]
  exact hback

/-- If the subdevices cannot all be started, none of them is. -/
theorem Boots.rprocStartSubdevices (h : Boots s) (env : Outcomes) (hret : (rprocStartSubdevices env s).2 ≠ 0) :
    (rprocStartSubdevices env s).1 = s := by
  have hnodup : s.subdevs.Nodup := by
    rw [h.subdevs]
    exact h.parsed.nodup.map fun _ _ heq => Subdev.vdev.inj heq
  have hstopped : ∀ subdev ∈ s.subdevs, Stopped subdev s := by
    intro subdev hmem
    rw [h.subdevs] at hmem
    obtain ⟨a, ha, rfl⟩ := mem_map.mp hmem
    exact ⟨a, rfl, h.virtioDevs a ha⟩
  have hkeep : ∀ (s : RprocHandle) (r q : Subdev), r ≠ q → Stopped q s → Stopped q (startSubdev env s r).1 := by
    rintro s r q hne ⟨a, rfl, ha⟩
    refine ⟨a, rfl, ?_⟩
    unfold startSubdev
    split
    · exact ha
    · split
      · exact ha
      · cases r with
        | vdev b =>
          have hab : a ≠ b := fun heq => hne (heq ▸ rfl)
          exact (update_of_ne hab _ _).trans ha
        | driver k ops => exact ha
  have hfail : ∀ (s : RprocHandle) (r : Subdev), (startSubdev env s r).2 ≠ 0 → (startSubdev env s r).1 = s := by
    intro s r hbad
    unfold startSubdev at hbad ⊢
    split at hbad
    case isTrue => exact absurd rfl hbad
    case isFalse hops =>
      rw [if_neg hops]
      split at hbad
      case isTrue hret => rw [if_pos hret]
      case isFalse => cases r <;> exact absurd rfl hbad
  unfold Remoteproc.rprocStartSubdevices at hret ⊢
  cases htry : tryAll (startSubdev env) s.subdevs [] s with
  | mk t q =>
    obtain ⟨ret, visited⟩ := q
    rw [htry] at hret
    dsimp only at hret ⊢
    by_cases hzero : ret = 0
    · rw [if_neg (not_not_intro hzero)] at hret
      exact absurd rfl hret
    · rw [if_pos hzero]
      exact tryAll_undo (fun s r => stopSubdev_startSubdev) hkeep hfail hnodup hstopped htry hzero

theorem Boots.rprocPrepareSubdevices (h : Boots s) (env : Outcomes) : rprocPrepareSubdevices env s = (s, 0) := by
  have hloop : ∀ (as : List ℕ) (visited : List Subdev), ∃ visited',
      tryAll (prepareSubdev env) (as.map .vdev) visited s = (s, 0, visited') := by
    intro as
    induction as with
    | nil => exact fun visited => ⟨visited, rfl⟩
    | cons a as ih => exact fun visited => ih (.vdev a :: visited)
  obtain ⟨visited, htry⟩ := hloop s.rvdevs []
  unfold Remoteproc.rprocPrepareSubdevices
  rw [h.subdevs, htry]
  rfl

theorem Boots.rprocUnprepareSubdevices (h : Boots s) : rprocUnprepareSubdevices s = s := by
  unfold Remoteproc.rprocUnprepareSubdevices
  rw [h.subdevs, ← map_reverse]
  induction s.rvdevs.reverse with
  | nil => rfl
  | cons a as ih => exact ih

/-- A start that fails changes nothing but the table pointer. It has no result if
the processor cannot be stopped again. -/
theorem Boots.rprocStart (h : Boots s) (env : Outcomes) :
    (∃ t, rprocStart env s = some (t, 0)) ∨
      (rprocStart env s = none ∧ env.loadSegments = 0 ∧ env.start = 0 ∧ s.hasStop = false) ∨
      ∃ table ret, ret ≠ 0 ∧ rprocStart env s = some (s.setTable table, ret) ∧
        (env.loadSegments = 0 → env.start = 0 → s.hasStop = true) := by
  unfold Remoteproc.rprocStart
  by_cases hload : env.loadSegments = 0
  · rw [if_neg (not_not_intro hload)]
    dsimp only
    generalize hs₁ : (if env.findLoadedTable then s.setTable true else s) = s₁
    obtain ⟨table, rfl⟩ : ∃ table, s₁ = s.setTable table := by
      rw [← hs₁]
      split
      · exact ⟨true, rfl⟩
      · exact ⟨s.tablePtr, rfl⟩
    have h₁ : Boots (s.setTable table) :=
      ⟨⟨h.parsed.back, h.parsed.few, h.parsed.nodup, h.parsed.next⟩, h.subdevs, h.virtioDevs⟩
    rw [h₁.rprocPrepareSubdevices env]
    dsimp only
    rw [if_neg (by decide : ¬ (0 : ℤ) ≠ 0)]
    by_cases hstart : env.start = 0
    · rw [if_neg (not_not_intro hstart)]
      have hback := h₁.rprocStartSubdevices env
      generalize Remoteproc.rprocStartSubdevices env (s.setTable table) = q at hback ⊢
      obtain ⟨s₂, ret⟩ := q
      dsimp only at hback ⊢
      by_cases hret : ret = 0
      · rw [if_neg (not_not_intro hret)]
        exact .inl ⟨_, rfl⟩
      · rw [if_pos hret]
        rw [hback hret, h₁.rprocUnprepareSubdevices]
        by_cases hstop : s.hasStop = false
        · exact .inr (.inl ⟨if_pos hstop, hload, hstart, hstop⟩)
        · rw [if_neg (show ¬ (s.setTable table).hasStop = false from hstop)]
          exact .inr (.inr ⟨_, ret, hret, rfl, fun _ _ => eq_true_of_ne_false hstop⟩)
    · rw [if_pos hstart, h₁.rprocUnprepareSubdevices]
      exact .inr (.inr ⟨_, _, hstart, rfl, fun _ hzero => absurd hzero hstart⟩)
  · rw [if_pos hload]
    exact .inr (.inr ⟨s.tablePtr, _, hload, rfl, fun hzero => absurd hzero hload⟩)

/-- The processor is started, or would be if its operation succeeds. -/
def StartReached (table : Bool) (env : Outcomes) : Prop :=
  tableHandled table env ∧ env.allocCarveouts = 0 ∧ env.loadSegments = 0 ∧ env.start = 0

theorem Boots.bootResources (h : Boots s) (env : Outcomes) :
    (∃ t, bootResources env s = some (t, 0)) ∨
      (bootResources env s = none ∧ StartReached s.tablePtr env ∧ s.hasStop = false) ∨
      ∃ t ret, ret ≠ 0 ∧ bootResources env s = some (t, ret) ∧ (StartReached s.tablePtr env → s.hasStop = true) ∧
        Boots t ∧ t.vringCounts = s.vringCounts ++ tableVrings s.tablePtr env ∧
        t.power = s.power ∧ t.state = s.state ∧ t.held = s.held := by
  obtain ⟨u, ret, hu, hboots, hret, hcounts⟩ := h.rprocHandleResources env
  have hframe := frame_rprocHandleResources hu
  simp only [RprocHandle.frame, Prod.mk.injEq] at hframe
  obtain ⟨hstate, hpower, -, -, hstop, hheld⟩ := hframe
  unfold Remoteproc.bootResources
  rw [hu]
  dsimp only
  by_cases hzero : ret = 0
  · rw [if_neg (not_not_intro hzero)]
    have halloc : Boots (rprocAllocRegisteredCarveouts env u).1 := ⟨hboots.parsed, hboots.subdevs, hboots.virtioDevs⟩
    have hkeep : (rprocAllocRegisteredCarveouts env u).1.toRproc = u.toRproc ∧
        (rprocAllocRegisteredCarveouts env u).1.frame = u.frame := ⟨rfl, rfl⟩
    have hallocRet : (rprocAllocRegisteredCarveouts env u).2 = 0 ↔ env.allocCarveouts = 0 := by
      unfold rprocAllocRegisteredCarveouts
      by_cases hc : env.allocCarveouts = 0
      · exact iff_of_true (if_neg (not_not_intro hc)) hc
      · refine iff_of_false ?_ hc
        dsimp only
        rw [if_pos hc]
        decide
    generalize rprocAllocRegisteredCarveouts env u = q at halloc hkeep hallocRet ⊢
    obtain ⟨v, ret'⟩ := q
    dsimp only at halloc hkeep hallocRet ⊢
    obtain ⟨hrproc, hframe⟩ := hkeep
    simp only [RprocHandle.frame, Prod.mk.injEq] at hframe
    obtain ⟨hstate', hpower', -, -, hstop', hheld'⟩ := hframe
    have hcounts' : v.vringCounts = s.vringCounts ++ tableVrings s.tablePtr env := by rw [hrproc, hcounts]
    by_cases hzero' : ret' = 0
    · rw [if_neg (not_not_intro hzero')]
      rcases halloc.rprocStart env with ⟨t, ht⟩ | ⟨hnone, hload, hstart, hno⟩ | ⟨table, ret'', hret'', ht, hyes⟩
      · exact .inl ⟨t, ht⟩
      · exact .inr (.inl ⟨hnone, ⟨hret.mp hzero, hallocRet.mp hzero', hload, hstart⟩, by rw [← hno, hstop', hstop]⟩)
      · refine .inr (.inr ⟨_, ret'', hret'', ht, fun hreach => ?_, ?_, hcounts', hpower'.trans hpower,
          hstate'.trans hstate, hheld'.trans hheld⟩)
        · rw [← hstop, ← hstop']
          exact hyes hreach.2.2.1 hreach.2.2.2
        · exact ⟨⟨halloc.parsed.back, halloc.parsed.few, halloc.parsed.nodup, halloc.parsed.next⟩, halloc.subdevs,
            halloc.virtioDevs⟩
    · rw [if_pos hzero']
      refine .inr (.inr ⟨v, ret', hzero', rfl, fun hreach => absurd (hallocRet.mpr hreach.2.1) hzero', halloc, hcounts',
        hpower'.trans hpower, hstate'.trans hstate, hheld'.trans hheld⟩)
  · rw [if_pos hzero]
    exact .inr (.inr ⟨u, ret, hzero, rfl, fun hreach => absurd (hret.mpr hreach.1) hzero, hboots, hcounts, hpower, hstate, hheld⟩)

/-! ### Failed calls -/

/-- All that was acquired is given back, and the lists and tables are empty. -/
structure NothingLeft (s t : RprocHandle) : Prop where
  power : t.power = s.power
  state : t.state = s.state
  lists : Emptied t
  tablePtr : t.tablePtr = false
  cachedTable : t.cachedTable = false
  held : t.held = s.held

def TablesNull (s : RprocHandle) : Prop := s.tablePtr = false ∧ s.cachedTable = false

/-- When `rproc_fw_boot` leaves nothing if it fails. -/
def FwUndone (env : Outcomes) (s : RprocHandle) : Prop :=
  if env.sanityCheck ≠ 0 ∨ env.enableIommu ≠ 0 then TablesNull s
  else if env.prepare ≠ 0 then TablesNull s ∧ env.prepareCarveouts = 0
  else if env.parseFw ≠ 0 then
    TablesNull s ∧ env.parseTable = false ∧ env.prepareCarveouts = 0 ∧ env.parseCarveouts = 0
  else
    (∀ n ∈ tableVrings (s.tablePtr || env.parseTable) env, n = RVDEV_NUM_VRINGS) ∧
      (StartReached (s.tablePtr || env.parseTable) env → s.hasStop = true)

theorem exists_returned_iff {P : RprocHandle → Prop} :
    (∃ t' ret', some (t, ret) = some (t', ret') ∧ P t') ↔ P t := by
  constructor
  · rintro ⟨t', ret', heq, h⟩
    cases heq
    exact h
  · exact fun h => ⟨t, ret, rfl, h⟩

theorem held_undone (h : t.held = ((s.acquire .iommu).acquire .device).held) :
    (rprocDisableIommu (rprocUnprepareDevice t)).held = s.held := by
  dsimp only [rprocDisableIommu, rprocUnprepareDevice, RprocHandle.undo, RprocHandle.acquire] at h ⊢
  rw [h]
  funext x
  cases x <;> simp

theorem nothingLeft_iff (hs : Emptied s) (t : RprocHandle) (hlists : t.mappings = s.mappings ∧ t.traces = s.traces ∧
    t.rvdevs = s.rvdevs ∧ t.subdevs = s.subdevs) (hpower : t.power = s.power) (hstate : t.state = s.state)
    (hheld : t.held = s.held) : NothingLeft s t ↔ t.carveouts = 0 ∧ TablesNull t := by
  obtain ⟨hm, ht, hr, hsub⟩ := hlists
  constructor
  · exact fun h => ⟨h.lists.carveouts, h.tablePtr, h.cachedTable⟩
  · rintro ⟨hc, hptr, hcached⟩
    exact ⟨hpower, hstate, ⟨hc, hm.trans hs.mappings, ht.trans hs.traces, hr.trans hs.rvdevs, hsub.trans hs.subdevs⟩,
      hptr, hcached, hheld⟩

theorem nothingLeft_self (hs : Emptied s) : NothingLeft s s ↔ TablesNull s := by
  rw [nothingLeft_iff hs s ⟨rfl, rfl, rfl, rfl⟩ rfl rfl rfl]
  exact and_iff_right hs.carveouts

theorem nothingLeft_addCarveouts (hs : Emptied s) (n : ℕ) : NothingLeft s (s.addCarveouts n) ↔ TablesNull s ∧ n = 0 := by
  rw [nothingLeft_iff hs (s.addCarveouts n) ⟨rfl, rfl, rfl, rfl⟩ rfl rfl rfl]
  have hc : (s.addCarveouts n).carveouts = n := by rw [RprocHandle.addCarveouts, hs.carveouts, Nat.zero_add]
  rw [hc]
  exact and_comm

theorem Emptied.boots (hs : Emptied s) : Boots s := by
  have hnone : ∀ a, a ∉ s.rvdevs := by
    intro a
    rw [hs.rvdevs]
    exact not_mem_nil
  refine ⟨⟨fun a i ha => absurd ha (hnone a), fun a ha => absurd ha (hnone a), ?_, fun a ha => absurd ha (hnone a)⟩, ?_,
    fun a ha => absurd ha (hnone a)⟩
  · rw [hs.rvdevs]
    exact nodup_nil
  · rw [hs.rvdevs, hs.subdevs, map_nil]

theorem prepare_undo (s : RprocHandle) (n : ℕ) : rprocDisableIommu ((s.acquire .iommu).addCarveouts n) = s.addCarveouts n :=
  acquire_undo (s.addCarveouts n) .iommu

/-- The state in which the device is prepared. -/
def preparedDevice (env : Outcomes) (s : RprocHandle) : RprocHandle :=
  ((s.acquire .iommu).addCarveouts env.prepareCarveouts).acquire .device

theorem nothingLeft_undone (hs : Emptied s) (hheld : t.held = ((s.acquire .iommu).acquire .device).held)
    (hlists : t.mappings = s.mappings ∧ t.traces = s.traces ∧ t.rvdevs = s.rvdevs ∧ t.subdevs = s.subdevs)
    (hpower : t.power = s.power) (hstate : t.state = s.state) :
    NothingLeft s (rprocDisableIommu (rprocUnprepareDevice t)) ↔ t.carveouts = 0 ∧ TablesNull t :=
  nothingLeft_iff hs (rprocDisableIommu (rprocUnprepareDevice t)) hlists hpower hstate (held_undone hheld)

theorem nothingLeft_setClean (hs : Emptied s) (clean : Bool) :
    NothingLeft s (rprocDisableIommu (rprocUnprepareDevice ((preparedDevice env s).setClean clean))) ↔
      TablesNull s ∧ env.prepareCarveouts = 0 := by
  have hcarveouts : ((preparedDevice env s).setClean clean).carveouts = s.carveouts + env.prepareCarveouts := rfl
  have htables : TablesNull ((preparedDevice env s).setClean clean) ↔ TablesNull s := Iff.rfl
  rw [nothingLeft_undone hs (t := (preparedDevice env s).setClean clean) rfl ⟨rfl, rfl, rfl, rfl⟩ rfl rfl, hcarveouts,
    htables, hs.carveouts, Nat.zero_add]
  exact and_comm

/-- The state in which the firmware has been parsed. -/
def parsedFw (env : Outcomes) (s : RprocHandle) : RprocHandle := (rprocParseFw env (preparedDevice env s)).1

theorem rprocFwBoot_eq (hcheck : env.sanityCheck = 0) (hiommu : env.enableIommu = 0) (hprep : env.prepare = 0) :
    rprocFwBoot env s =
      if env.parseFw ≠ 0 then some (rprocDisableIommu (rprocUnprepareDevice (parsedFw env s)), env.parseFw)
      else
        cleanUpResources (fun s => rprocDisableIommu (rprocUnprepareDevice s.freeTable))
          (bootResources env (parsedFw env s).resetVdevs) := by
  rw [rprocFwBoot, if_neg (not_not_intro hcheck), rprocEnableIommu, if_neg (not_not_intro hiommu)]
  dsimp only
  rw [if_neg (by decide : ¬ (0 : ℤ) ≠ 0), rprocPrepareDevice, if_neg (not_not_intro hprep)]
  dsimp only
  rw [if_neg (by decide : ¬ (0 : ℤ) ≠ 0)]
  rfl

/-- **`rproc_fw_boot`** that fails. -/
theorem rprocFwBoot_fails (hs : Emptied s) (hfail : ∀ t, rprocFwBoot env s ≠ some (t, 0)) :
    (∃ t ret, rprocFwBoot env s = some (t, ret) ∧ NothingLeft s t) ↔ FwUndone env s := by
  unfold FwUndone
  by_cases hcheck : env.sanityCheck = 0
  case neg =>
    have hcall : rprocFwBoot env s = some (s, env.sanityCheck) := by rw [rprocFwBoot, if_pos hcheck]
    rw [hcall, exists_returned_iff, if_pos (.inl hcheck), nothingLeft_self hs]
  by_cases hiommu : env.enableIommu = 0
  case neg =>
    have hcall : rprocFwBoot env s = some (s, env.enableIommu) := by
      rw [rprocFwBoot, if_neg (not_not_intro hcheck), rprocEnableIommu, if_pos hiommu]
      dsimp only
      rw [if_pos hiommu]
    rw [hcall, exists_returned_iff, if_pos (.inr hiommu), nothingLeft_self hs]
  rw [if_neg (not_or.mpr ⟨not_not_intro hcheck, not_not_intro hiommu⟩)]
  by_cases hprep : env.prepare = 0
  case neg =>
    have hcall : rprocFwBoot env s = some (s.addCarveouts env.prepareCarveouts, env.prepare) := by
      rw [rprocFwBoot, if_neg (not_not_intro hcheck), rprocEnableIommu, if_neg (not_not_intro hiommu)]
      dsimp only
      rw [if_neg (by decide : ¬ (0 : ℤ) ≠ 0), rprocPrepareDevice, if_pos hprep]
      dsimp only
      rw [if_pos hprep, prepare_undo]
    rw [hcall, exists_returned_iff, if_pos hprep, nothingLeft_addCarveouts hs]
  rw [if_neg (not_not_intro hprep)]
  by_cases hparse : env.parseFw = 0
  case neg =>
    have hcall := rprocFwBoot_eq (s := s) hcheck hiommu hprep
    rw [if_pos hparse] at hcall
    have hcarveouts : (parsedFw env s).carveouts = s.carveouts + env.prepareCarveouts + env.parseCarveouts := rfl
    have htables : TablesNull (parsedFw env s) ↔
        (s.tablePtr || env.parseTable) = false ∧ (s.cachedTable || env.parseTable) = false := Iff.rfl
    rw [hcall, exists_returned_iff, if_pos hparse,
      nothingLeft_undone hs (t := parsedFw env s) rfl ⟨rfl, rfl, rfl, rfl⟩ rfl rfl, hcarveouts, htables, hs.carveouts,
      Bool.or_eq_false_iff, Bool.or_eq_false_iff, TablesNull]
    constructor
    · rintro ⟨hzero, ⟨h₁, h₂⟩, h₃, -⟩
      exact ⟨⟨h₁, h₃⟩, h₂, by omega, by omega⟩
    · rintro ⟨⟨h₁, h₂⟩, h₃, h₄, h₅⟩
      exact ⟨by omega, ⟨h₁, h₃⟩, h₂, h₃⟩
  rw [if_neg (not_not_intro hparse)]
  have hcall := rprocFwBoot_eq (s := s) hcheck hiommu hprep
  rw [if_neg (not_not_intro hparse)] at hcall
  have hboots : Boots (parsedFw env s).resetVdevs := ⟨⟨hs.boots.parsed.back, hs.boots.parsed.few, hs.boots.parsed.nodup,
    hs.boots.parsed.next⟩, hs.boots.subdevs, hs.boots.virtioDevs⟩
  have htable : (parsedFw env s).resetVdevs.tablePtr = (s.tablePtr || env.parseTable) := rfl
  have hcounts : (parsedFw env s).resetVdevs.vringCounts = [] := by
    change s.rvdevs.map _ = []
    rw [hs.rvdevs, map_nil]
  have hbefore : (parsedFw env s).resetVdevs.hasStop = s.hasStop ∧ (parsedFw env s).resetVdevs.power = s.power ∧
      (parsedFw env s).resetVdevs.state = s.state ∧
      (parsedFw env s).resetVdevs.held = ((s.acquire .iommu).acquire .device).held := ⟨rfl, rfl, rfl, rfl⟩
  generalize (parsedFw env s).resetVdevs = s₁ at hcall hboots htable hcounts hbefore
  obtain ⟨hstop, hpower, hstate, hheld⟩ := hbefore
  rw [← htable, ← hstop]
  rcases hboots.bootResources env with ⟨t, ht⟩ | ⟨hnone, hreach, hno⟩ | ⟨u, ret, hret, hu, hyes, hboots', hcounts', hp, hst, hh⟩
  · rw [ht, cleanUpResources, if_neg (by decide : ¬ (0 : ℤ) ≠ 0)] at hcall
    exact absurd hcall (hfail t)
  · rw [hnone, cleanUpResources] at hcall
    rw [hcall]
    refine iff_of_false (by simp) fun h => ?_
    rw [h.2 hreach] at hno
    exact absurd hno (by decide)
  · rw [hu, cleanUpResources, if_pos hret] at hcall
    rw [hcounts, nil_append] at hcounts'
    obtain ⟨hok, hbad⟩ := hboots'.rprocResourceCleanup
    rw [hcounts'] at hok hbad
    by_cases htwo : ∀ n ∈ tableVrings s₁.tablePtr env, n = RVDEV_NUM_VRINGS
    · obtain ⟨v, hv, hempty⟩ := hok htwo
      have hframe := frame_rprocResourceCleanup hv
      simp only [RprocHandle.frame, Prod.mk.injEq] at hframe
      rw [hv, Option.map_some] at hcall
      rw [hcall, exists_returned_iff]
      refine iff_of_true ⟨?_, ?_, ?_, rfl, rfl, ?_⟩ ⟨htwo, hyes⟩
      · exact hframe.2.1.trans (hp.trans hpower)
      · exact hframe.1.trans (hst.trans hstate)
      · exact ⟨hempty.carveouts, hempty.mappings, hempty.traces, hempty.rvdevs, hempty.subdevs⟩
      · exact held_undone (hframe.2.2.2.2.2.trans (hh.trans hheld))
    · rw [hbad htwo, Option.map_none] at hcall
      rw [hcall]
      exact iff_of_false (by simp) fun h => htwo h.1

/-- The resource table of the processor cannot be loaded, or not copied. -/
def TableFails (env : Outcomes) (s : RprocHandle) : Prop :=
  (∃ ret, ret ≠ 0 ∧ env.loadedTable = .error ret) ∨
    (env.loadedTable = .ok true ∧ s.hasDetach = true ∧ env.copyTable = false)

/-- It is loaded. -/
def TableLoaded (env : Outcomes) (s : RprocHandle) : Prop :=
  env.loadedTable = .ok true ∧ (s.hasDetach = true → env.copyTable = true)

/-- When `rproc_attach` leaves nothing if it fails. -/
def AttachUndone (env : Outcomes) (s : RprocHandle) : Prop :=
  TablesNull s ∧ (env.enableIommu = 0 →
    (env.prepare ≠ 0 ∨ TableFails env s → env.prepareCarveouts = 0) ∧ (env.prepare = 0 → ¬ TableLoaded env s))

theorem not_loaded_of_fails (h : TableFails env s) : ¬ TableLoaded env s := by
  rintro ⟨hload, hcopy⟩
  rcases h with ⟨ret, -, herr⟩ | ⟨-, hdetach, hno⟩
  · rw [hload] at herr
    exact absurd herr (by simp)
  · rw [hcopy hdetach] at hno
    exact absurd hno (by decide)

theorem rprocSetRscTable_cases (env : Outcomes) (s : RprocHandle) :
    (TableLoaded env s ∧ (rprocSetRscTable env s).2 = 0 ∧ (rprocSetRscTable env s).1.tablePtr = true) ∨
      (TableFails env s ∧ ∃ clean ret, ret ≠ 0 ∧ rprocSetRscTable env s = (s.setClean clean, ret)) ∨
      (¬ TableLoaded env s ∧ ¬ TableFails env s ∧ rprocSetRscTable env s = (s, 0)) := by
  unfold rprocSetRscTable TableLoaded TableFails
  match hload : env.loadedTable with
  | .ok false => exact .inr (.inr ⟨by simp, by simp, rfl⟩)
  | .error ret =>
    by_cases hret : ret = 0
    · subst ret
      exact .inr (.inr ⟨by simp, by simp, rfl⟩)
    · exact .inr (.inl ⟨.inl ⟨ret, hret, rfl⟩, s.cleanTable, ret, hret, rfl⟩)
  | .ok true =>
    dsimp only
    by_cases hdetach : s.hasDetach = true
    · rw [if_pos hdetach]
      by_cases hcopy : env.copyTable = false
      · rw [if_pos hcopy]
        exact .inr (.inl ⟨.inr ⟨rfl, hdetach, hcopy⟩, false, -ENOMEM, by decide, rfl⟩)
      · rw [if_neg hcopy]
        exact .inl ⟨⟨rfl, fun _ => eq_true_of_ne_false hcopy⟩, rfl, rfl⟩
    · rw [if_neg hdetach]
      exact .inl ⟨⟨rfl, fun h => absurd h hdetach⟩, rfl, rfl⟩

theorem tablePtr_of_frame (h : t.frame = s.frame) : t.tablePtr = s.tablePtr := by
  simp only [RprocHandle.frame, Prod.mk.injEq] at h
  exact h.2.2.1

theorem tablePtr_rprocAttachInner (h : rprocAttachInner env s = some (t, ret)) : t.tablePtr = s.tablePtr := by
  have hcore : ∀ {s t : RprocHandle}, t.core = s.core → t.tablePtr = s.tablePtr := fun h =>
    of_core (fun s => s.tablePtr) (fun _ => rfl) h
  unfold rprocAttachInner at h
  have hprep := hcore (core_rprocPrepareSubdevices env s)
  generalize rprocPrepareSubdevices env s = q at h hprep
  obtain ⟨s₁, ret₁⟩ := q
  dsimp only at h hprep
  split at h
  · cases h
    exact hprep
  · split at h
    · cases h
      exact (hcore (core_rprocUnprepareSubdevices s₁)).trans hprep
    · have hstart := hcore (core_rprocStartSubdevices env s₁)
      generalize rprocStartSubdevices env s₁ = q at h hstart
      obtain ⟨s₂, ret₂⟩ := q
      dsimp only at h hstart
      split at h
      · split at h
        · exact absurd h (by simp)
        · cases h
          exact (hcore (core_rprocUnprepareSubdevices s₂)).trans (hstart.trans hprep)
      · cases h
        exact hstart.trans hprep

/-- `rproc_attach` does not forget a table that it has. -/
theorem tablePtr_attachTable (h : attachTable env s = some (t, ret)) : t.tablePtr = s.tablePtr := by
  unfold attachTable at h
  cases hrsc : rprocHandleResources env s with
  | none =>
    rw [hrsc] at h
    exact absurd h (by simp)
  | some q =>
    obtain ⟨s₁, ret₁⟩ := q
    have hs₁ := tablePtr_of_frame (frame_rprocHandleResources hrsc)
    rw [hrsc] at h
    dsimp only at h
    split at h
    case isTrue =>
      cases h
      exact hs₁
    case isFalse =>
      rw [← hs₁]
      cases hatt : attachResources env s₁ with
      | none =>
        rw [hatt] at h
        exact absurd h (by simp [cleanUpResources])
      | some q =>
        obtain ⟨s₂, ret₂⟩ := q
        have hs₂ : s₂.tablePtr = s₁.tablePtr := by
          rw [attachResources_eq] at hatt
          split at hatt
          · cases hatt
            rfl
          · have hinner := tablePtr_rprocAttachInner hatt
            exact hinner
        rw [hatt, cleanUpResources] at h
        split at h
        · obtain ⟨v, hv, heq⟩ := Option.map_eq_some_iff.mp h
          cases heq
          have hclean := tablePtr_of_frame (frame_rprocResourceCleanup hv)
          exact hclean.trans hs₂
        · cases h
          exact hs₂

theorem rprocAttachInner_fails (hs : Boots s) (hsubdevs : s.subdevs = []) :
    (∃ t, rprocAttachInner env s = some (t, 0)) ∨ ∃ ret, ret ≠ 0 ∧ rprocAttachInner env s = some (s, ret) := by
  unfold rprocAttachInner
  rw [hs.rprocPrepareSubdevices env]
  dsimp only
  rw [if_neg (by decide : ¬ (0 : ℤ) ≠ 0)]
  by_cases hattach : env.attach = 0
  · have hstart : rprocStartSubdevices env s = (s, 0) := by
      unfold rprocStartSubdevices
      rw [hsubdevs]
      rfl
    rw [if_neg (not_not_intro hattach), hstart]
    exact .inl ⟨_, rfl⟩
  · rw [if_pos hattach, hs.rprocUnprepareSubdevices]
    exact .inr ⟨_, hattach, rfl⟩

/-- Without a table, all that has to be cleaned up are carveouts and mappings. -/
theorem attachTable_fails (hs : Boots s) (hrvdevs : s.rvdevs = []) (htable : s.tablePtr = false)
    (hfail : ∀ t, attachTable env s ≠ some (t, 0)) :
    ∃ n ret, attachTable env s = some (rprocDisableIommu (rprocUnprepareDevice (s.addMappings n).freeLists), ret) := by
  have hboots : Boots (s.addMappings env.allocMappings) := ⟨hs.parsed, hs.subdevs, hs.virtioDevs⟩
  have hsubdevs : (s.addMappings env.allocMappings).subdevs = [] := by
    rw [hboots.subdevs]
    exact congrArg (List.map _) hrvdevs
  have hclean : rprocResourceCleanup (s.addMappings env.allocMappings) =
      some (s.addMappings env.allocMappings).freeLists := by
    unfold rprocResourceCleanup
    rw [show (s.addMappings env.allocMappings).rvdevs = [] from hrvdevs]
    rfl
  have hcall : attachTable env s =
      cleanUpResources (fun s => rprocDisableIommu (rprocUnprepareDevice s)) (attachResources env s) := by
    rw [attachTable, rprocHandleResources, if_pos htable]
    dsimp only
    rw [if_neg (by decide : ¬ (0 : ℤ) ≠ 0)]
  have hatt : (∃ t, attachResources env s = some (t, 0)) ∨
      ∃ ret, ret ≠ 0 ∧ attachResources env s = some (s.addMappings env.allocMappings, ret) := by
    rw [attachResources_eq]
    split
    · exact .inr ⟨_, by decide, rfl⟩
    · exact rprocAttachInner_fails hboots hsubdevs
  rcases hatt with ⟨t, ht⟩ | ⟨ret, hret, ht⟩
  · rw [ht, cleanUpResources, if_neg (by decide : ¬ (0 : ℤ) ≠ 0)] at hcall
    exact absurd hcall (hfail t)
  · rw [ht, cleanUpResources, if_pos hret, hclean, Option.map_some] at hcall
    exact ⟨_, ret, hcall⟩

/-- **`rproc_attach`** that fails. -/
theorem rprocAttach_fails (hs : Emptied s) (hfail : ∀ t, rprocAttach env s ≠ some (t, 0)) :
    (∃ t ret, rprocAttach env s = some (t, ret) ∧ NothingLeft s t) ↔ AttachUndone env s := by
  unfold AttachUndone
  by_cases hiommu : env.enableIommu = 0
  case neg =>
    have hcall : rprocAttach env s = some (s, env.enableIommu) := by
      rw [rprocAttach, rprocEnableIommu, if_pos hiommu]
      dsimp only
      rw [if_pos hiommu]
    rw [hcall, exists_returned_iff, nothingLeft_self hs]
    exact (and_iff_left fun hzero => absurd hzero hiommu).symm
  by_cases hprep : env.prepare = 0
  case neg =>
    have hcall : rprocAttach env s = some (s.addCarveouts env.prepareCarveouts, env.prepare) := by
      rw [rprocAttach, rprocEnableIommu, if_neg (not_not_intro hiommu)]
      dsimp only
      rw [if_neg (by decide : ¬ (0 : ℤ) ≠ 0), rprocPrepareDevice, if_pos hprep]
      dsimp only
      rw [if_pos hprep, prepare_undo]
    rw [hcall, exists_returned_iff, nothingLeft_addCarveouts hs]
    refine and_congr_right fun _ => ⟨fun hc _ => ⟨fun _ => hc, fun hzero => absurd hzero hprep⟩, fun h => ?_⟩
    exact (h hiommu).1 (.inl hprep)
  have hcall : rprocAttach env s =
      if (rprocSetRscTable env (preparedDevice env s)).2 ≠ 0 then
        some (rprocDisableIommu (rprocUnprepareDevice (rprocSetRscTable env (preparedDevice env s)).1),
          (rprocSetRscTable env (preparedDevice env s)).2)
      else attachTable env (rprocSetRscTable env (preparedDevice env s)).1.resetVdevs := by
    rw [rprocAttach, rprocEnableIommu, if_neg (not_not_intro hiommu)]
    dsimp only
    rw [if_neg (by decide : ¬ (0 : ℤ) ≠ 0), rprocPrepareDevice, if_neg (not_not_intro hprep)]
    dsimp only
    rw [if_neg (by decide : ¬ (0 : ℤ) ≠ 0)]
    rfl
  have hloaded : TableLoaded env (preparedDevice env s) ↔ TableLoaded env s := Iff.rfl
  have hfails : TableFails env (preparedDevice env s) ↔ TableFails env s := Iff.rfl
  rcases rprocSetRscTable_cases env (preparedDevice env s) with
    ⟨hset, hret, htable⟩ | ⟨hset, clean, ret, hret, heq⟩ | ⟨hload, hset, heq⟩
  · -- the table stays, whatever happens
    generalize rprocSetRscTable env (preparedDevice env s) = q at hcall hret htable
    obtain ⟨s₁, ret⟩ := q
    dsimp only at hcall hret htable
    rw [if_neg (not_not_intro hret)] at hcall
    refine iff_of_false ?_ fun h => (h.2 hiommu).2 hprep (hloaded.mp hset)
    rintro ⟨t, ret', ht, hnothing⟩
    rw [hcall] at ht
    have hptr := (tablePtr_attachTable ht).trans htable
    rw [hnothing.tablePtr] at hptr
    exact absurd hptr (by decide)
  · rw [heq] at hcall
    dsimp only at hcall
    rw [if_pos hret] at hcall
    rw [hcall, exists_returned_iff, nothingLeft_setClean hs]
    refine and_congr_right fun _ => ⟨fun hc _ => ⟨fun _ => hc, fun _ hload => ?_⟩, fun h => (h hiommu).1 (.inr (hfails.mp hset))⟩
    exact not_loaded_of_fails (hfails.mp hset) hload
  · rw [heq] at hcall
    dsimp only at hcall
    rw [if_neg (by decide : ¬ (0 : ℤ) ≠ 0)] at hcall
    have hrest : (env.enableIommu = 0 → (env.prepare ≠ 0 ∨ TableFails env s → env.prepareCarveouts = 0) ∧
        (env.prepare = 0 → ¬ TableLoaded env s)) := fun _ =>
      ⟨fun h => h.elim (absurd hprep) fun hbad => absurd (hfails.mpr hbad) hset, fun _ hl => hload (hloaded.mpr hl)⟩
    rw [and_iff_left hrest]
    by_cases htable : s.tablePtr = false
    · have hboots : Boots (preparedDevice env s).resetVdevs := ⟨⟨hs.boots.parsed.back, hs.boots.parsed.few,
        hs.boots.parsed.nodup, hs.boots.parsed.next⟩, hs.boots.subdevs, hs.boots.virtioDevs⟩
      rw [hcall] at hfail
      obtain ⟨n, ret, ht⟩ := attachTable_fails hboots hs.rvdevs htable hfail
      rw [hcall, ht, exists_returned_iff]
      refine ⟨fun h => ⟨htable, h.cachedTable⟩, fun h => ⟨rfl, rfl, ⟨rfl, rfl, rfl, hs.rvdevs, hs.subdevs⟩, htable, h.2, ?_⟩⟩
      exact held_undone rfl
    · refine iff_of_false ?_ fun h => htable h.1
      rintro ⟨t, ret', ht, hnothing⟩
      rw [hcall] at ht
      exact htable ((tablePtr_attachTable ht).symm.trans hnothing.tablePtr)

/-! ### `rproc_boot` -/

/-- The processor is not up and not used, and nothing is left of an earlier boot. -/
structure Idle (s : RprocHandle) : Prop where
  down : s.state.Down
  power : s.power = 0
  lists : Emptied s

/-- When `rproc_boot` leaves nothing if it fails. -/
def BootUndone (env : Outcomes) (s : RprocHandle) : Prop :=
  if env.lock ≠ 0 then TablesNull s
  else if s.state = .detached then AttachUndone env s
  else if env.requestFirmware < 0 then TablesNull s
  else FwUndone env s

theorem powerUp_fails (hs : Emptied s) (hfail : ∀ t, powerUp env s ≠ some (t, 0)) :
    (∃ t ret, powerUp env s = some (t, ret) ∧ NothingLeft s t) ↔
      if s.state = .detached then AttachUndone env s
      else if env.requestFirmware < 0 then TablesNull s else FwUndone env s := by
  unfold powerUp at hfail ⊢
  split at hfail
  case isTrue hdet =>
    rw [if_pos hdet, if_pos hdet]
    exact rprocAttach_fails hs hfail
  case isFalse hdet =>
    rw [if_neg hdet, if_neg hdet]
    split at hfail
    case isTrue hfw =>
      rw [if_pos hfw, if_pos hfw, exists_returned_iff]
      exact nothingLeft_self hs
    case isFalse hfw =>
      rw [if_neg hfw, if_neg hfw]
      exact rprocFwBoot_fails hs hfail

def RprocHandle.setPower (s : RprocHandle) (power : ℤ) : RprocHandle := { s with power := power }

/-- The first user powers up the processor, and is not counted if this fails. -/
theorem rprocBoot_eq (hs : Idle s) (hlock : env.lock = 0) :
    rprocBoot env s = (powerUp env (s.setPower 1)).map fun q =>
      (if q.2 ≠ 0 then q.1.setPower (q.1.power - 1) else q.1, q.2) := by
  have hstate : s.state ≠ .deleted := by
    intro hdel
    have hdown := hs.down
    rw [hdel] at hdown
    rcases hdown with h | h <;> exact absurd h (by decide)
  rw [rprocBoot, if_neg (not_not_intro hlock), if_neg hstate]
  dsimp only
  rw [if_neg (by rw [hs.power]; decide), hs.power]
  have hcount : ({ s with power := 0 + 1 } : RprocHandle) = s.setPower 1 := rfl
  cases hup : powerUp env (s.setPower 1) with
  | none => rw [hcount, hup, Option.map_none]
  | some q =>
    rw [hcount, hup, Option.map_some]
    rfl

/-- **A boot that fails leaves nothing** if and only if no step that jumps past the
cleanup has left something, all vdevs have two vrings, and a processor whose start has
to be taken back can be stopped. -/
theorem failed_boot_leaves_nothing_iff (hs : Idle s) (hfail : ∀ t, rprocBoot env s ≠ some (t, 0)) :
    (∃ t ret, rprocBoot env s = some (t, ret) ∧ t.power = 0 ∧ t.state = s.state ∧ Emptied t ∧ t.tablePtr = false ∧
      t.cachedTable = false ∧ t.held = s.held) ↔ BootUndone env s := by
  unfold BootUndone
  by_cases hlock : env.lock = 0
  case neg =>
    rw [if_pos hlock, rprocBoot, if_pos hlock, exists_returned_iff]
    exact ⟨fun h => ⟨h.2.2.2.1, h.2.2.2.2.1⟩, fun h => ⟨hs.power, rfl, hs.lists, h.1, h.2, rfl⟩⟩
  rw [if_neg (not_not_intro hlock)]
  have hboot := rprocBoot_eq hs hlock
  have hlists : Emptied (s.setPower 1) :=
    ⟨hs.lists.carveouts, hs.lists.mappings, hs.lists.traces, hs.lists.rvdevs, hs.lists.subdevs⟩
  have hup : ∀ t, powerUp env (s.setPower 1) ≠ some (t, 0) := by
    intro t ht
    rw [ht, Option.map_some, if_neg (by decide : ¬ (0 : ℤ) ≠ 0)] at hboot
    exact hfail t hboot
  have hiff := powerUp_fails hlists hup
  refine Iff.trans ?_ hiff
  rw [hboot]
  constructor
  · rintro ⟨t, ret, ht, hpower, hstate, hempty, hptr, hcached, hheld⟩
    obtain ⟨⟨u, ret'⟩, hu, heq⟩ := Option.map_eq_some_iff.mp ht
    have hret : ret' ≠ 0 := fun hzero => hup u (hzero ▸ hu)
    dsimp only at heq
    rw [if_pos hret] at heq
    cases heq
    have hone : u.power - 1 = 0 := hpower
    refine ⟨u, ret, hu, ?_, hstate, ?_, hptr, hcached, hheld⟩
    · change u.power = 1
      omega
    · exact ⟨hempty.carveouts, hempty.mappings, hempty.traces, hempty.rvdevs, hempty.subdevs⟩
  · rintro ⟨u, ret, hu, hnothing⟩
    have hret : ret ≠ 0 := fun hzero => hup u (hzero ▸ hu)
    have hone : u.power = 1 := hnothing.power
    have hempty := hnothing.lists
    refine ⟨u.setPower (u.power - 1), ret, by rw [hu, Option.map_some, if_pos hret], ?_, hnothing.state,
      ⟨hempty.carveouts, hempty.mappings, hempty.traces, hempty.rvdevs, hempty.subdevs⟩, hnothing.tablePtr,
      hnothing.cachedTable, hnothing.held⟩
    change u.power - 1 = 0
    omega

theorem idle_unusedProcessor {state : RprocState} (h : state.Down) : Idle (unusedProcessor state) :=
  ⟨h, rfl, rfl, rfl, rfl, rfl, rfl⟩

/-- The second of two devices cannot be started. -/
def secondStartFails : Outcomes :=
  { bootSucceeds [vdevResource 2, .resource (.carveout true 0), .resource (.trace 0), vdevResource 2] with
    prepareCarveouts := 1
    startSubdev := fun subdev => if subdev = .vdev 1 then -ENOMEM else 0 }

theorem second_start_fails_leaves_nothing :
    ∃ t ret, rprocBoot secondStartFails (unusedProcessor .offline) = some (t, ret) ∧ t.power = 0 ∧
      t.state = (unusedProcessor .offline).state ∧ Emptied t ∧ t.tablePtr = false ∧ t.cachedTable = false ∧
      t.held = (unusedProcessor .offline).held := by
  have hret : (rprocBoot secondStartFails (unusedProcessor .offline)).map Prod.snd = some (-ENOMEM) := rfl
  refine (failed_boot_leaves_nothing_iff (idle_unusedProcessor (.inl rfl)) fun t ht => ?_).mpr ?_
  · rw [ht] at hret
    exact absurd (Option.some.inj hret) (by decide : (0 : ℤ) ≠ -ENOMEM)
  · have htwo : ∀ n ∈ tableVrings true secondStartFails, n = RVDEV_NUM_VRINGS := by decide
    exact ⟨htwo, fun _ => rfl⟩

/-- While the processor is attached to, the second entry of its table is truncated:
the first vdev, its carveouts and the table stay. While it is booted, the firmware
cannot be parsed: a carveout stays. -/
theorem failed_boot_leaves_resources :
    (∃ t, rprocBoot (bootSucceeds [vdevResource 2, .truncated]) (unusedProcessor .detached) = some (t, -EINVAL) ∧
      t.carveouts = 2 ∧ t.rvdevs = [0] ∧ t.subdevs = [.vdev 0] ∧ t.tablePtr = true) ∧
    ∃ t, rprocBoot { bootSucceeds [] with prepareCarveouts := 1, parseFw := -EINVAL, parseTable := false }
        (unusedProcessor .offline) = some (t, -EINVAL) ∧ t.carveouts = 1 :=
  ⟨⟨_, rfl, rfl, rfl, rfl, rfl⟩, _, rfl, rfl⟩

end GfpDrivers.Remoteproc
