import GfpDrivers.Remoteproc.Vring

/-!
Which entries of the resource table lead to a vdev, and which vdevs can be released.
`rproc_handle_vdev` registers a vdev if its entry is well formed and all that it needs
is there; otherwise it leaves the vdevs as they were. Only a vdev with two vrings can
be released, as `rproc_vdev_release` goes over both.
-/

namespace GfpDrivers.Remoteproc

open GfpDrivers.Lib Function

variable {r t : Rproc} {a i : ℕ} {venv : VdevOutcomes}

theorem rprocFreeVring_some (h : (r.vring (a, i)).rvdev = some a) :
    ∃ t, rprocFreeVring a r i = some t ∧ SameVdevs r t := by
  have hback : ((r.vdev a).vring i).rvdev = some a := h
  obtain ⟨t, ht, hlist, hnext, hvdev⟩ : ∃ t, rprocFreeVring a r i = some t ∧ t.rvdevs = r.rvdevs ∧ t.next = r.next ∧
      (t.vdev = r.vdev ∨ t.vdev = update r.vdev a ((r.vdev a).withdraw i)) := by
    unfold rprocFreeVring
    dsimp only
    rw [hback]
    refine ⟨_, rfl, ?_⟩
    split
    · exact ⟨rfl, rfl, .inr rfl⟩
    · exact ⟨rfl, rfl, .inl rfl⟩
  obtain ⟨hvring, -⟩ := withdraw_vdev hvdev
  refine ⟨t, ht, hlist, hnext, fun b => (hvring b).2, fun v => ?_⟩
  unfold Rproc.vring
  rw [(hvring v.1).1]

theorem freeVrings_some {is : List ℕ} (h : ∀ i ∈ is, (r.vring (a, i)).rvdev = some a) :
    ∃ t, freeVrings a is r = some t ∧ SameVdevs r t := by
  induction is generalizing r with
  | nil => exact ⟨r, rfl, .refl r⟩
  | cons i is ih =>
    rw [List.forall_mem_cons] at h
    obtain ⟨u, hu, hsame⟩ := rprocFreeVring_some h.1
    obtain ⟨t, ht, hsame'⟩ := ih fun j hj => (hsame.rvdev (a, j)).trans (h.2 j hj)
    exact ⟨t, by rw [freeVrings, hu, Option.bind_some, ht], hsame.trans hsame'⟩

theorem freeVrings_none {is : List ℕ} (h : ∀ i ∈ is, (r.vring (a, i)).rvdev = some a ∨ (r.vring (a, i)).rvdev = none)
    (hi : i ∈ is) (hnone : (r.vring (a, i)).rvdev = none) : freeVrings a is r = none := by
  induction is generalizing r with
  | nil => exact absurd hi List.not_mem_nil
  | cons j is ih =>
    rw [List.forall_mem_cons] at h
    rw [freeVrings]
    rcases h.1 with hj | hj
    · obtain ⟨u, hu, hsame⟩ := rprocFreeVring_some hj
      have hij : i ≠ j := by
        rintro rfl
        rw [hnone] at hj
        exact absurd hj (by simp)
      rw [hu, Option.bind_some]
      refine ih (fun k hk => ?_) ((List.mem_cons.mp hi).resolve_left hij) ((hsame.rvdev (a, i)).trans hnone)
      rw [hsame.rvdev]
      exact h.2 k hk
    · have hfree : rprocFreeVring a r j = none := by
        unfold rprocFreeVring
        dsimp only
        rw [show ((r.vdev a).vring j).rvdev = none from hj]
      rw [hfree, Option.bind_none]

/-- The vrings are allocated if there is a carveout and an id for each of them. -/
theorem allocVrings_spec (venv : VdevOutcomes) (is done : List ℕ)
    (hback : ∀ i ∈ done ++ is, (r.vring (a, i)).rvdev = some a) :
    ∃ t ret, allocVrings venv a is done r = some (t, ret) ∧ SameVdevs r t ∧
      (ret = 0 ↔ ∀ i ∈ is, venv.carveout i = true ∧ venv.idrAlloc i = true) := by
  induction is generalizing r done with
  | nil => exact ⟨r, 0, rfl, .refl r, by simp⟩
  | cons i is ih =>
    unfold allocVrings
    by_cases hok : venv.carveout i = true ∧ venv.idrAlloc i = true
    · have halloc : rprocAllocVring venv a r i = (r.announce a i, 0) := by
        unfold rprocAllocVring
        rw [if_neg (by simp [hok.1]), if_neg (by simp [hok.2])]
        rfl
      rw [halloc]
      dsimp only
      rw [if_neg (by decide : ¬ (0 : ℤ) ≠ 0)]
      have hsame := sameVdevs_announce r a i
      obtain ⟨t, ret, ht, hsame', hret⟩ := ih (i :: done) (r := r.announce a i) fun j hj => by
        rw [hsame.rvdev]
        exact hback j (by simpa [or_left_comm] using hj)
      refine ⟨t, ret, ht, hsame.trans hsame', ?_⟩
      rw [hret, List.forall_mem_cons]
      exact (and_iff_right hok).symm
    · obtain ⟨ret, hret, halloc⟩ : ∃ ret, ret ≠ 0 ∧ rprocAllocVring venv a r i = (r, ret) := by
        unfold rprocAllocVring
        by_cases hc : venv.carveout i = false
        · rw [if_pos hc]
          exact ⟨_, by decide, rfl⟩
        · have hid : venv.idrAlloc i = false := by
            rw [Bool.not_eq_false] at hc
            exact eq_false_of_ne_true fun hid => hok ⟨hc, hid⟩
          rw [if_neg hc, if_pos hid]
          exact ⟨_, by decide, rfl⟩
      rw [halloc]
      dsimp only
      rw [if_pos hret]
      obtain ⟨t, ht, hsame⟩ := freeVrings_some fun j hj => hback j (List.mem_append_left _ hj)
      refine ⟨t, ret, by rw [ht, Option.map_some], hsame, iff_of_false hret fun hall => ?_⟩
      exact hok (hall i (List.mem_cons_self ..))

/-- The vrings that the entry of a vdev has are parsed, and no others. -/
structure Parsed (r : Rproc) : Prop where
  back (a i : ℕ) : a ∈ r.rvdevs → (r.vring (a, i)).rvdev = if i < (r.vdev a).numOfVrings then some a else none
  few (a : ℕ) : a ∈ r.rvdevs → (r.vdev a).numOfVrings ≤ RVDEV_NUM_VRINGS
  nodup : r.rvdevs.Nodup
  next (a : ℕ) : a ∈ r.rvdevs → a < r.next

theorem Parsed.sameVdevs (h : Parsed r) (hsame : SameVdevs r t) : Parsed t := by
  refine ⟨fun a i ha => ?_, fun a ha => ?_, hsame.rvdevs ▸ h.nodup, fun a ha => ?_⟩
  · rw [hsame.rvdev, hsame.numOfVrings]
    exact h.back a i (hsame.rvdevs ▸ ha)
  · rw [hsame.numOfVrings]
    exact h.few a (hsame.rvdevs ▸ ha)
  · rw [hsame.next]
    exact h.next a (hsame.rvdevs ▸ ha)

/-- A vdev can be released if and only if it has two vrings. -/
theorem Parsed.rprocVdevRelease (h : Parsed r) (ha : a ∈ r.rvdevs) :
    ((r.vdev a).numOfVrings = RVDEV_NUM_VRINGS → ∃ t, rprocVdevRelease r a = some t ∧ Parsed t ∧
        t.rvdevs = r.rvdevs.erase a ∧ ∀ b, (t.vdev b).numOfVrings = (r.vdev b).numOfVrings) ∧
      ((r.vdev a).numOfVrings ≠ RVDEV_NUM_VRINGS → rprocVdevRelease r a = none) := by
  unfold Remoteproc.rprocVdevRelease
  refine ⟨fun htwo => ?_, fun hfew => ?_⟩
  · have hback : ∀ i ∈ List.range RVDEV_NUM_VRINGS, (r.vring (a, i)).rvdev = some a := by
      intro i hi
      rw [h.back a i ha, htwo, if_pos (List.mem_range.mp hi)]
    obtain ⟨t, ht, hsame⟩ := freeVrings_some hback
    have hparsed := h.sameVdevs hsame
    have hmem : ∀ b, b ∈ t.rvdevs.erase a → b ∈ t.rvdevs := fun b hb => List.mem_of_mem_erase hb
    rw [ht, Option.map_some]
    refine ⟨_, rfl, ⟨fun b i hb => ?_, fun b hb => ?_, hparsed.nodup.erase a, fun b hb => ?_⟩, ?_, hsame.numOfVrings⟩
    · exact hparsed.back b i (hmem b hb)
    · exact hparsed.few b (hmem b hb)
    · exact hparsed.next b (hmem b hb)
    · rw [hsame.rvdevs]
  · have hlt : (r.vdev a).numOfVrings < RVDEV_NUM_VRINGS := lt_of_le_of_ne (h.few a ha) hfew
    have hfree : freeVrings a (List.range RVDEV_NUM_VRINGS) r = none := by
      refine freeVrings_none (fun i _ => ?_) (List.mem_range.mpr hlt) ?_
      · rw [h.back a i ha]
        split
        · exact .inl rfl
        · exact .inr rfl
      · rw [h.back a _ ha, if_neg (lt_irrefl _)]
    rw [hfree, Option.map_none]

/-- The entry is well formed, and everything that is needed for it is there. -/
structure Accepted (venv : VdevOutcomes) (rsc : FwRscVdev) (avail : ℤ) : Prop where
  complete : ¬ vdevTruncated rsc avail
  reserved : rsc.reserved = (0, 0)
  numOfVrings : rsc.numOfVrings ≤ RVDEV_NUM_VRINGS
  kzalloc : venv.kzalloc = true
  deviceRegister : venv.deviceRegister = 0
  copyDmaRangeMap : venv.copyDmaRangeMap = 0
  vring (i : ℕ) : i < rsc.numOfVrings → (rsc.vring i).num ≠ 0 ∧ (rsc.vring i).align ≠ 0
  alloc (i : ℕ) : i < rsc.numOfVrings → venv.carveout i = true ∧ venv.idrAlloc i = true

/-- Parsing vrings fails if one of them is not well formed. -/
theorem foldlM_rprocParseVring_spec (rsc : FwRscVdev) (a : ℕ) (is : List ℕ) (vdev : RprocVdev) :
    (∃ vdev', is.foldlM (rprocParseVring rsc a) vdev = .ok vdev' ∧ vdev'.numOfVrings = vdev.numOfVrings ∧
        (∀ j, (vdev'.vring j).rvdev = if j ∈ is then some a else (vdev.vring j).rvdev) ∧
        ∀ i ∈ is, (rsc.vring i).num ≠ 0 ∧ (rsc.vring i).align ≠ 0) ∨
      ∃ ret, is.foldlM (rprocParseVring rsc a) vdev = .error ret ∧ ret ≠ 0 ∧
        ¬ ∀ i ∈ is, (rsc.vring i).num ≠ 0 ∧ (rsc.vring i).align ≠ 0 := by
  induction is generalizing vdev with
  | nil => exact .inl ⟨vdev, rfl, rfl, by simp, by simp⟩
  | cons i is ih =>
    rw [List.foldlM_cons]
    by_cases hi : (rsc.vring i).num = 0 ∨ (rsc.vring i).align = 0
    · have hparse : rprocParseVring rsc a vdev i = .error (-EINVAL) := if_pos hi
      rw [hparse]
      refine .inr ⟨_, rfl, by decide, fun hall => ?_⟩
      have hgood := hall i (List.mem_cons_self ..)
      exact hi.elim hgood.1 hgood.2
    · have hparse : ∃ vring : RprocVring, vring.rvdev = some a ∧
          rprocParseVring rsc a vdev i = .ok (vdev.setVring i vring) := ⟨_, rfl, if_neg hi⟩
      obtain ⟨vring, hvring, hparse⟩ := hparse
      rw [hparse]
      rw [not_or] at hi
      rcases ih (vdev.setVring i vring) with ⟨vdev', heq, hnum, hback, hall⟩ | ⟨ret, heq, hret, hbad⟩
      · refine .inl ⟨vdev', heq, hnum, fun j => ?_, List.forall_mem_cons.mpr ⟨hi, hall⟩⟩
        rw [hback j]
        by_cases hj : j = i
        · subst j
          simp only [List.mem_cons, true_or, if_true, RprocVdev.setVring, update_self, hvring, ite_self]
        · simp only [List.mem_cons, hj, false_or, RprocVdev.setVring, update_of_ne hj]
      · exact .inr ⟨ret, heq, hret, fun hall => hbad (List.forall_mem_cons.mp hall).2⟩

/-- The vdevs there were stay, with their vrings. -/
structure Extends (r t : Rproc) (new : List ℕ) : Prop where
  rvdevs : t.rvdevs = r.rvdevs ++ new
  numOfVrings (b : ℕ) : b ∈ r.rvdevs → (t.vdev b).numOfVrings = (r.vdev b).numOfVrings

/-- The vrings of a vdev that is not yet in the list are allocated. -/
theorem Parsed.allocVrings {vdev : RprocVdev} (h : Parsed r) (venv : VdevOutcomes) (ha : a ∉ r.rvdevs) (hlt : a < r.next)
    (hfew : vdev.numOfVrings ≤ RVDEV_NUM_VRINGS)
    (hback : ∀ j, (vdev.vring j).rvdev = if j < vdev.numOfVrings then some a else none) :
    ∃ t ret, allocVrings venv a (List.range vdev.numOfVrings) [] (r.setVdev a vdev) = some (t, ret) ∧
      (ret = 0 ↔ ∀ i < vdev.numOfVrings, venv.carveout i = true ∧ venv.idrAlloc i = true) ∧
      Parsed t ∧ Parsed { t with rvdevs := t.rvdevs ++ [a] } ∧ Extends r t [] ∧
      (t.vdev a).numOfVrings = vdev.numOfVrings := by
  have hself : (r.setVdev a vdev).vdev a = vdev := update_self ..
  have hother : ∀ b, b ∈ r.rvdevs → (r.setVdev a vdev).vdev b = r.vdev b := by
    intro b hb
    refine update_of_ne (fun heq => ?_) _ _
    exact ha (heq ▸ hb)
  have hrings : ∀ i ∈ [] ++ List.range vdev.numOfVrings, ((r.setVdev a vdev).vring (a, i)).rvdev = some a := by
    intro i hi
    rw [Rproc.vring, hself, hback i, if_pos (List.mem_range.mp hi)]
  obtain ⟨t, ret, ht, hsame, hret⟩ := allocVrings_spec venv (List.range vdev.numOfVrings) [] hrings
  have hset : Parsed (r.setVdev a vdev) := by
    refine ⟨fun b i hb => ?_, fun b hb => ?_, h.nodup, h.next⟩
    · rw [Rproc.vring, hother b hb]
      exact h.back b i hb
    · rw [hother b hb]
      exact h.few b hb
  have ht' := hset.sameVdevs hsame
  have hmem : ∀ b, b ∈ t.rvdevs ++ [a] → b ∈ t.rvdevs ∨ b = a := fun b hb => by
    rwa [List.mem_append, List.mem_singleton] at hb
  have hnum : (t.vdev a).numOfVrings = vdev.numOfVrings := by rw [hsame.numOfVrings, hself]
  refine ⟨t, ret, ht, by simpa using hret, ht', ⟨fun b i hb => ?_, fun b hb => ?_, ?_, fun b hb => ?_⟩, ⟨?_, fun b hb => ?_⟩, hnum⟩
  · rcases hmem b hb with hb | rfl
    · exact ht'.back b i hb
    · dsimp only
      rw [hnum, ← hback i]
      exact (hsame.rvdev (b, i)).trans (by rw [Rproc.vring, hself])
  · rcases hmem b hb with hb | rfl
    · exact ht'.few b hb
    · exact le_of_eq_of_le hnum hfew
  · rw [← List.concat_eq_append]
    exact ht'.nodup.concat fun hb => ha (hsame.rvdevs ▸ hb)
  · rcases hmem b hb with hb | rfl
    · exact ht'.next b hb
    · exact lt_of_lt_of_eq hlt hsame.next.symm
  · rw [List.append_nil]
    exact hsame.rvdevs
  · rw [hsame.numOfVrings, hother b hb]

/-- **`rproc_handle_vdev`** registers a vdev if and only if its entry is accepted. -/
theorem Parsed.rprocHandleVdev (h : Parsed r) (venv : VdevOutcomes) (rsc : FwRscVdev) (offset : ℕ) (avail : ℤ) :
    ∃ t ret, rprocHandleVdev venv r rsc offset avail = some (t, ret) ∧ Parsed t ∧
      ((ret = 0 ∧ Accepted venv rsc avail ∧ Extends r t [r.next] ∧ (t.vdev r.next).numOfVrings = rsc.numOfVrings) ∨
        (ret ≠ 0 ∧ ¬ Accepted venv rsc avail ∧ Extends r t [])) := by
  have hsame : Extends r r [] := ⟨(List.append_nil _).symm, fun _ _ => rfl⟩
  unfold Remoteproc.rprocHandleVdev
  split
  case isTrue hbad => exact ⟨r, _, rfl, h, .inr ⟨by decide, fun hacc => hacc.complete hbad, hsame⟩⟩
  case isFalse hcomplete =>
  split
  case isTrue hbad =>
    refine ⟨r, _, rfl, h, .inr ⟨by decide, fun hacc => ?_, hsame⟩⟩
    rw [hacc.reserved] at hbad
    exact hbad.elim (· rfl) (· rfl)
  case isFalse hreserved =>
  split
  case isTrue hbad => exact ⟨r, _, rfl, h, .inr ⟨by decide, fun hacc => absurd hacc.numOfVrings (not_le.mpr hbad), hsame⟩⟩
  case isFalse hfew =>
  split
  case isTrue hbad =>
    refine ⟨r, _, rfl, h, .inr ⟨by decide, fun hacc => ?_, hsame⟩⟩
    rw [hacc.kzalloc] at hbad
    exact absurd hbad (by decide)
  case isFalse hkzalloc =>
  dsimp only
  have hbump : Parsed { r with next := r.next + 1, nbVdev := r.nbVdev + 1 } :=
    ⟨h.back, h.few, h.nodup, fun b hb => Nat.lt_succ_of_lt (h.next b hb)⟩
  have hsameBump : Extends r { r with next := r.next + 1, nbVdev := r.nbVdev + 1 } [] := ⟨hsame.rvdevs, fun _ _ => rfl⟩
  have hnew : r.next ∉ r.rvdevs := fun hmem => Nat.lt_irrefl _ (h.next _ hmem)
  split
  case isTrue hbad => exact ⟨_, _, rfl, hbump, .inr ⟨hbad, fun hacc => hbad hacc.deviceRegister, hsameBump⟩⟩
  case isFalse hregister =>
  split
  case isTrue hbad => exact ⟨_, _, rfl, hbump, .inr ⟨hbad, fun hacc => hbad hacc.copyDmaRangeMap, hsameBump⟩⟩
  case isFalse hcopy =>
  rcases foldlM_rprocParseVring_spec rsc r.next (List.range rsc.numOfVrings) (zeroedVdev r.nbVdev rsc.numOfVrings) with
    ⟨vdev, hparse, hnum, hback, hvring⟩ | ⟨ret, hparse, hret, hbad⟩
  · rw [hparse]
    dsimp only
    have hnum' : ({ vdev with rscOffset := offset } : RprocVdev).numOfVrings = rsc.numOfVrings := hnum
    have hback' : ∀ j, (({ vdev with rscOffset := offset } : RprocVdev).vring j).rvdev =
        if j < rsc.numOfVrings then some r.next else none := by
      intro j
      refine (hback j).trans ?_
      simp only [List.mem_range, zeroedVdev]
    generalize ({ vdev with rscOffset := offset } : RprocVdev) = vdev' at hnum' hback'
    rw [← hnum'] at hback' ⊢
    obtain ⟨t, ret, ht, hret, hparsed, hparsed', hext, hn⟩ := hbump.allocVrings venv hnew (Nat.lt_succ_self _)
      (le_of_eq_of_le hnum' (not_lt.mp hfew)) hback'
    rw [ht]
    dsimp only
    by_cases hzero : ret = 0
    · rw [if_neg (not_not_intro hzero)]
      refine ⟨_, _, rfl, hparsed', .inl ⟨rfl, ⟨hcomplete, ?_, not_lt.mp hfew, ?_, not_not.mp hregister, not_not.mp hcopy,
        fun i hi => hvring i (List.mem_range.mpr hi), fun i hi => ?_⟩, ⟨?_, hext.numOfVrings⟩, hn⟩⟩
      · exact Prod.ext (not_not.mp (not_or.mp hreserved).1) (not_not.mp (not_or.mp hreserved).2)
      · exact eq_true_of_ne_false hkzalloc
      · exact hret.mp hzero i (hnum' ▸ hi)
      · dsimp only
        rw [hext.rvdevs, List.append_nil]
    · rw [if_pos hzero]
      exact ⟨_, _, rfl, hparsed, .inr ⟨hzero, fun hacc => hzero (hret.mpr fun i hi => hacc.alloc i (hnum' ▸ hi)),
        hext.rvdevs, hext.numOfVrings⟩⟩
  · rw [hparse]
    refine ⟨_, _, rfl, hbump, .inr ⟨hret, fun hacc => hbad fun i hi => hacc.vring i (List.mem_range.mp hi), hsameBump⟩⟩

end GfpDrivers.Remoteproc
