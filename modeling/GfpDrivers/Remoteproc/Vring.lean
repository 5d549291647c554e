import GfpDrivers.Lib.Idr
import GfpDrivers.Lib.Runs
import GfpDrivers.Basic
import Mathlib.Data.List.Nodup

/-!
The vrings of virtio devices (`remoteproc_core.c`). An entry of the resource table
announces a device with up to two vrings. `rproc_handle_vdev` reserves an id for
each of them in `notifyids` and writes it into the table; the remote processor
uses it to say which vring it means. `rproc_vdev_release` gives the ids back.

The release goes over both vrings, whether or not the entry had two. It follows
the back pointer of a vring that was never parsed, which is `NULL`; so the ids are
right, and the release returns, in runs where every device that is released has
two vrings.
-/

namespace GfpDrivers.Remoteproc

open GfpDrivers.Lib Function

/-- `RVDEV_NUM_VRINGS` -/
def RVDEV_NUM_VRINGS : ℕ := 2

/-- `struct fw_rsc_vdev_vring`, as far as it is read. -/
structure FwRscVdevVring where
  num : ℕ
  align : ℕ

/-- `struct fw_rsc_vdev`, as far as it is read. -/
structure FwRscVdev where
  configLen : ℕ
  numOfVrings : ℕ
  reserved : ℕ × ℕ
  vring : ℕ → FwRscVdevVring

/-- `struct rproc_vring` -/
structure RprocVring where
  len : ℕ
  align : ℕ
  notifyid : ℕ
  rvdev : Option ℕ

/-- `struct rproc_vdev`, with what the resource table says of the vrings: how many
there are, and the ids that were announced. -/
structure RprocVdev where
  index : ℕ
  rscOffset : ℕ
  vring : ℕ → RprocVring
  numOfVrings : ℕ
  announced : ℕ → ℤ

/-- What the vdevs use of `struct rproc`. A vdev is known by its address, and a
vring by that of its vdev and its index; addresses from `next` on are free. -/
structure Rproc where
  vdev : ℕ → RprocVdev
  rvdevs : List ℕ
  notifyids : Idr (ℕ × ℕ)
  maxNotifyid : ℕ
  nbVdev : ℕ
  tablePtr : Bool
  next : ℕ

/-- Which of the calls on the way succeed. -/
structure VdevOutcomes where
  kzalloc : Bool
  deviceRegister : ℤ
  copyDmaRangeMap : ℤ
  carveout : ℕ → Bool
  idrAlloc : ℕ → Bool

/-- The memory of a new vdev. -/
def zeroedVdev (index numOfVrings : ℕ) : RprocVdev := ⟨index, 0, fun _ => ⟨0, 0, 0, none⟩, numOfVrings, fun _ => 0⟩

def RprocVdev.setVring (vdev : RprocVdev) (i : ℕ) (vring : RprocVring) : RprocVdev :=
  { vdev with vring := Function.update vdev.vring i vring }

def Rproc.setVdev (r : Rproc) (a : ℕ) (vdev : RprocVdev) : Rproc :=
  { r with vdev := Function.update r.vdev a vdev }

/-- `rproc_parse_vring` -/
def rprocParseVring (rsc : FwRscVdev) (a : ℕ) (vdev : RprocVdev) (i : ℕ) : Except ℤ RprocVdev :=
  let vring := rsc.vring i
  if vring.num = 0 ∨ vring.align = 0 then .error (-EINVAL)
  else .ok (vdev.setVring i { vdev.vring i with len := vring.num, align := vring.align, rvdev := some a })

/-- `rproc_alloc_vring`. The carveout of the vring is there and fits, or can be
registered, if `carveout` says so. -/
def rprocAllocVring (env : VdevOutcomes) (a : ℕ) (r : Rproc) (i : ℕ) : Rproc × ℤ :=
  if env.carveout i = false then (r, -ENOMEM)
  else if env.idrAlloc i = false then (r, -ENOMEM)
  else
    let notifyid := r.notifyids.nextId
    let vdev := (r.vdev a).setVring i { (r.vdev a).vring i with notifyid := notifyid }
    let vdev := { vdev with announced := Function.update vdev.announced i (notifyid : ℤ) }
    ({ r.setVdev a vdev with
        notifyids := r.notifyids.alloc (a, i)
        maxNotifyid := max r.maxNotifyid notifyid }, 0)

/-- `rproc_free_vring`. There is no result if the back pointer is `NULL`. -/
def rprocFreeVring (a : ℕ) (r : Rproc) (i : ℕ) : Option Rproc :=
  let vring := (r.vdev a).vring i
  match vring.rvdev with
  | none => none
  | some rvdev =>
      let r := { r with notifyids := r.notifyids.remove vring.notifyid }
      some (if r.tablePtr then
          r.setVdev rvdev { r.vdev rvdev with announced := Function.update (r.vdev rvdev).announced i (-1) }
        else r)

/-- Frees vrings one after another. -/
def freeVrings (a : ℕ) : List ℕ → Rproc → Option Rproc
  | [], r => some r
  | i :: is, r => (rprocFreeVring a r i).bind (freeVrings a is)

/-- The loop of `rproc_handle_vdev` that allocates the vrings. If it fails, the
vrings that are done are freed, the last one first. -/
def allocVrings (env : VdevOutcomes) (a : ℕ) : List ℕ → List ℕ → Rproc → Option (Rproc × ℤ)
  | [], _, r => some (r, 0)
  | i :: is, done, r =>
      match rprocAllocVring env a r i with
      | (r, ret) => if ret ≠ 0 then (freeVrings a done r).map (·, ret) else allocVrings env a is (i :: done) r

/-- `struct_size(rsc, vring, rsc->num_of_vrings) + rsc->config_len > avail`, with
`avail` as a `size_t`. -/
def vdevTruncated (rsc : FwRscVdev) (avail : ℤ) : Prop :=
  avail % 2 ^ 64 < 24 + 20 * rsc.numOfVrings + rsc.configLen

instance (rsc : FwRscVdev) (avail : ℤ) : Decidable (vdevTruncated rsc avail) := inferInstanceAs (Decidable (_ < _))

/-- `rproc_handle_vdev` -/
def rprocHandleVdev (env : VdevOutcomes) (r : Rproc) (rsc : FwRscVdev) (offset : ℕ) (avail : ℤ) : Option (Rproc × ℤ) :=
  if vdevTruncated rsc avail then some (r, -EINVAL)
  else if rsc.reserved.1 ≠ 0 ∨ rsc.reserved.2 ≠ 0 then some (r, -EINVAL)
  else if RVDEV_NUM_VRINGS < rsc.numOfVrings then some (r, -EINVAL)
  else if env.kzalloc = false then some (r, -ENOMEM)
  else
    let a := r.next
    let index := r.nbVdev
    let r := { r with next := a + 1, nbVdev := index + 1 }
    if env.deviceRegister ≠ 0 then some (r, env.deviceRegister)
    else if env.copyDmaRangeMap ≠ 0 then some (r, env.copyDmaRangeMap)
    else
      match (List.range rsc.numOfVrings).foldlM (rprocParseVring rsc a) (zeroedVdev index rsc.numOfVrings) with
      | .error ret => some (r, ret)
      | .ok vdev =>
          match allocVrings env a (List.range rsc.numOfVrings) [] (r.setVdev a { vdev with rscOffset := offset }) with
          | none => none
          | some (r, ret) => some (if ret ≠ 0 then (r, ret) else ({ r with rvdevs := r.rvdevs ++ [a] }, 0))

/-- `rproc_vdev_release` -/
def rprocVdevRelease (r : Rproc) (a : ℕ) : Option Rproc :=
  (freeVrings a (List.range RVDEV_NUM_VRINGS) r).map fun r => { r with rvdevs := r.rvdevs.erase a }

/-- The vring to which `rproc_vq_interrupt` turns. -/
def rprocVqInterrupt (r : Rproc) (notifyid : ℤ) : Option (ℕ × ℕ) :=
  if notifyid < 0 then none else r.notifyids.find notifyid.toNat

/-! ### The ids -/

variable {r t : Rproc} {a i : ℕ} {env : VdevOutcomes} {live : ℕ × ℕ → Prop}

def Rproc.vring (r : Rproc) (v : ℕ × ℕ) : RprocVring := (r.vdev v.1).vring v.2

/-- The ids are those of the vrings that are `live`. -/
structure Names (r : Rproc) (live : ℕ × ℕ → Prop) : Prop where
  find (id : ℕ) (v : ℕ × ℕ) : r.notifyids.find id = some v ↔ live v ∧ (r.vring v).notifyid = id
  rvdev (v : ℕ × ℕ) : live v → (r.vring v).rvdev = some v.1
  announced (v : ℕ × ℕ) : live v → (r.vdev v.1).announced v.2 = (r.vring v).notifyid

theorem Names.congr {live' : ℕ × ℕ → Prop} (h : Names r live) (hiff : ∀ v, live v ↔ live' v) : Names r live' := by
  have heq : live = live' := funext fun v => propext (hiff v)
  exact heq ▸ h

theorem Names.setRvdevs (h : Names r live) (rvdevs : List ℕ) : Names { r with rvdevs := rvdevs } live :=
  ⟨h.find, h.rvdev, h.announced⟩

theorem Names.inj (h : Names r live) {v w : ℕ × ℕ} (hv : live v) (hw : live w)
    (hid : (r.vring v).notifyid = (r.vring w).notifyid) : v = w := by
  have hfind := (h.find _ v).mpr ⟨hv, hid⟩
  rw [(h.find _ w).mpr ⟨hw, rfl⟩] at hfind
  exact (Option.some.inj hfind).symm

/-- What no allocation and no release of an id changes. -/
structure SameVdevs (r t : Rproc) : Prop where
  rvdevs : t.rvdevs = r.rvdevs
  next : t.next = r.next
  numOfVrings (b : ℕ) : (t.vdev b).numOfVrings = (r.vdev b).numOfVrings
  rvdev (v : ℕ × ℕ) : (t.vring v).rvdev = (r.vring v).rvdev

theorem SameVdevs.refl (r : Rproc) : SameVdevs r r := ⟨rfl, rfl, fun _ => rfl, fun _ => rfl⟩

theorem SameVdevs.trans {u : Rproc} (h : SameVdevs r t) (h' : SameVdevs t u) : SameVdevs r u :=
  ⟨h'.rvdevs.trans h.rvdevs, h'.next.trans h.next, fun b => (h'.numOfVrings b).trans (h.numOfVrings b),
    fun v => (h'.rvdev v).trans (h.rvdev v)⟩

/-- The vdev after an id was reserved for its `i`-th vring. -/
def RprocVdev.announce (vdev : RprocVdev) (i notifyid : ℕ) : RprocVdev :=
  { vdev.setVring i { vdev.vring i with notifyid := notifyid } with
    announced := Function.update vdev.announced i (notifyid : ℤ) }

/-- The state after that. -/
def Rproc.announce (r : Rproc) (a i : ℕ) : Rproc :=
  { r.setVdev a ((r.vdev a).announce i r.notifyids.nextId) with
    notifyids := r.notifyids.alloc (a, i)
    maxNotifyid := max r.maxNotifyid r.notifyids.nextId }

theorem rprocAllocVring_cases (env : VdevOutcomes) (a : ℕ) (r : Rproc) (i : ℕ) :
    (∃ ret, ret ≠ 0 ∧ rprocAllocVring env a r i = (r, ret)) ∨ rprocAllocVring env a r i = (r.announce a i, 0) := by
  unfold rprocAllocVring
  split
  · exact .inl ⟨_, by decide, rfl⟩
  · split
    · exact .inl ⟨_, by decide, rfl⟩
    · exact .inr rfl

theorem Names.announce (h : Names r live) (hfresh : ¬ live (a, i)) (hback : (r.vring (a, i)).rvdev = some a) :
    Names (r.announce a i) fun v => v = (a, i) ∨ live v := by
  have ht : (r.announce a i).vdev = update r.vdev a ((r.vdev a).announce i r.notifyids.nextId) := rfl
  have hids : (r.announce a i).notifyids = r.notifyids.alloc (a, i) := rfl
  generalize r.announce a i = t at ht hids ⊢
  have hsame : ∀ v, v ≠ (a, i) → t.vring v = r.vring v ∧ (t.vdev v.1).announced v.2 = (r.vdev v.1).announced v.2 := by
    rintro ⟨b, j⟩ hv
    unfold Rproc.vring
    rw [ht]
    by_cases hb : b = a
    · subst b
      have hj : j ≠ i := fun hj => hv (by rw [hj])
      simp only [update_self, RprocVdev.announce, RprocVdev.setVring, update_of_ne hj, and_self]
    · simp only [update_of_ne hb, and_self]
  have hnew : t.vring (a, i) = { r.vring (a, i) with notifyid := r.notifyids.nextId } ∧
      (t.vdev a).announced i = (r.notifyids.nextId : ℤ) := by
    unfold Rproc.vring
    rw [ht]
    simp only [update_self, RprocVdev.announce, RprocVdev.setVring, and_self]
  refine ⟨fun id v => ?_, fun v hv => ?_, fun v hv => ?_⟩
  · rw [hids, Idr.find_alloc]
    by_cases hv : v = (a, i)
    · subst v
      rw [hnew.1]
      split
      case isTrue hid => exact iff_of_true rfl ⟨.inl rfl, hid.symm⟩
      case isFalse hid =>
        refine iff_of_false (fun hfind => hfresh ((h.find id (a, i)).mp hfind).1) fun hlive => hid hlive.2.symm
    · rw [(hsame v hv).1]
      split
      case isTrue hid =>
        refine iff_of_false (fun heq => hv (Option.some.inj heq).symm) fun hlive => ?_
        have hfind := (h.find id v).mpr ⟨hlive.1.resolve_left hv, hlive.2⟩
        rw [hid, Idr.find_nextId] at hfind
        exact absurd hfind (by simp)
      case isFalse => rw [h.find id v, or_iff_right hv]
  · rcases hv with rfl | hv
    · rw [hnew.1]
      exact hback
    · by_cases heq : v = (a, i)
      · exact absurd (heq ▸ hv) hfresh
      · rw [(hsame v heq).1]
        exact h.rvdev v hv
  · rcases hv with rfl | hv
    · rw [hnew.2, hnew.1]
    · by_cases heq : v = (a, i)
      · exact absurd (heq ▸ hv) hfresh
      · rw [(hsame v heq).1, (hsame v heq).2]
        exact h.announced v hv

theorem sameVdevs_announce (r : Rproc) (a i : ℕ) : SameVdevs r (r.announce a i) := by
  have ht : (r.announce a i).vdev = update r.vdev a ((r.vdev a).announce i r.notifyids.nextId) := rfl
  refine ⟨rfl, rfl, fun b => ?_, fun v => ?_⟩
  · rw [ht]
    by_cases hb : b = a
    · subst b
      rw [update_self]
      rfl
    · rw [update_of_ne hb]
  · obtain ⟨b, j⟩ := v
    unfold Rproc.vring
    rw [ht]
    by_cases hb : b = a
    · subst b
      simp only [update_self, RprocVdev.announce, RprocVdev.setVring]
      by_cases hj : j = i
      · subst j
        rw [update_self]
      · rw [update_of_ne hj]
    · rw [update_of_ne hb]

/-- The vdev after the id of its `i`-th vring was taken out of the table. -/
def RprocVdev.withdraw (vdev : RprocVdev) (i : ℕ) : RprocVdev :=
  { vdev with announced := Function.update vdev.announced i (-1) }

theorem withdraw_vdev (ht : t.vdev = r.vdev ∨ t.vdev = update r.vdev a ((r.vdev a).withdraw i)) :
    (∀ b, (t.vdev b).vring = (r.vdev b).vring ∧ (t.vdev b).numOfVrings = (r.vdev b).numOfVrings) ∧
      ∀ v, v ≠ (a, i) → (t.vdev v.1).announced v.2 = (r.vdev v.1).announced v.2 := by
  rcases ht with ht | ht
  · rw [ht]
    exact ⟨fun _ => ⟨rfl, rfl⟩, fun _ _ => rfl⟩
  · rw [ht]
    refine ⟨fun b => ?_, ?_⟩
    · by_cases hb : b = a
      · subst b
        rw [update_self]
        exact ⟨rfl, rfl⟩
      · rw [update_of_ne hb]
        exact ⟨rfl, rfl⟩
    · rintro ⟨b, j⟩ hv
      by_cases hb : b = a
      · subst b
        have hj : j ≠ i := fun hj => hv (by rw [hj])
        simp only [update_self, RprocVdev.withdraw, update_of_ne hj]
      · simp only [update_of_ne hb]

theorem Names.free (h : Names r live) (hlive : live (a, i)) :
    ∃ t, rprocFreeVring a r i = some t ∧ SameVdevs r t ∧ Names t fun v => live v ∧ v ≠ (a, i) := by
  have hback : ((r.vdev a).vring i).rvdev = some a := h.rvdev (a, i) hlive
  obtain ⟨t, ht, hids, hvdev, hlist, hnext⟩ : ∃ t, rprocFreeVring a r i = some t ∧
      t.notifyids = r.notifyids.remove (r.vring (a, i)).notifyid ∧
      (t.vdev = r.vdev ∨ t.vdev = update r.vdev a ((r.vdev a).withdraw i)) ∧
      t.rvdevs = r.rvdevs ∧ t.next = r.next := by
    unfold rprocFreeVring
    dsimp only
    rw [hback]
    refine ⟨_, rfl, ?_⟩
    split
    · exact ⟨rfl, .inr rfl, rfl, rfl⟩
    · exact ⟨rfl, .inl rfl, rfl, rfl⟩
  obtain ⟨hvring, hannounced⟩ := withdraw_vdev hvdev
  have hsame : ∀ v, t.vring v = r.vring v := fun v => congrFun (hvring v.1).1 v.2
  refine ⟨t, ht, ⟨hlist, hnext, fun b => (hvring b).2, fun v => congrArg _ (hsame v)⟩, fun id v => ?_, fun v hv => ?_,
    fun v hv => ?_⟩
  · rw [hids, Idr.find_remove, hsame]
    split
    case isTrue hid =>
      refine iff_of_false (by simp) fun hv => hv.1.2 (h.inj hv.1.1 hlive (hv.2.trans hid))
    case isFalse hid =>
      rw [h.find id v]
      refine ⟨fun hv => ⟨⟨hv.1, ?_⟩, hv.2⟩, fun hv => ⟨hv.1.1, hv.2⟩⟩
      rintro rfl
      exact hid hv.2.symm
  · rw [hsame]
    exact h.rvdev v hv.1
  · rw [hsame, hannounced v hv.2]
    exact h.announced v hv.1

theorem Names.freeVrings {is : List ℕ} (his : is.Nodup) (h : Names r live) (hlive : ∀ i ∈ is, live (a, i)) :
    ∃ t, freeVrings a is r = some t ∧ SameVdevs r t ∧ Names t fun v => live v ∧ ¬ (v.1 = a ∧ v.2 ∈ is) := by
  induction is generalizing r live with
  | nil => exact ⟨r, rfl, .refl r, by simpa using h⟩
  | cons i is ih =>
    rw [List.nodup_cons] at his
    rw [List.forall_mem_cons] at hlive
    obtain ⟨r₁, hr₁, hsame₁, h₁⟩ := h.free hlive.1
    obtain ⟨t, ht, hsame, h₂⟩ := ih his.2 h₁ fun j hj => ⟨hlive.2 j hj, fun heq => his.1 ((Prod.mk.inj heq).2 ▸ hj)⟩
    refine ⟨t, by rw [Remoteproc.freeVrings, hr₁, Option.bind_some, ht], hsame₁.trans hsame, ?_⟩
    refine h₂.congr fun v => ?_
    rw [List.mem_cons, ne_eq, Prod.ext_iff]
    tauto

/-- The loop that allocates the vrings of a vdev ends with an id for each of them,
or with none. -/
theorem Names.allocVrings (env : VdevOutcomes) (is done : List ℕ) (his : (done ++ is).Nodup)
    (h : Names r fun v => v.1 = a ∧ v.2 ∈ done ∨ live v) (hfresh : ∀ i, ¬ live (a, i))
    (hback : ∀ i ∈ done ++ is, (r.vring (a, i)).rvdev = some a) :
    ∃ t ret, allocVrings env a is done r = some (t, ret) ∧ SameVdevs r t ∧
      ((ret ≠ 0 ∧ Names t live) ∨ (ret = 0 ∧ Names t fun v => v.1 = a ∧ v.2 ∈ done ++ is ∨ live v)) := by
  induction is generalizing r done with
  | nil => exact ⟨r, 0, rfl, .refl r, .inr ⟨rfl, by rwa [List.append_nil]⟩⟩
  | cons i is ih =>
    unfold Remoteproc.allocVrings
    rcases rprocAllocVring_cases env a r i with ⟨ret, hret, hfail⟩ | hok
    · rw [hfail]
      dsimp only
      rw [if_pos hret]
      obtain ⟨t, ht, hsame, hnames⟩ := h.freeVrings (List.nodup_append.mp his).1 fun j hj => .inl ⟨rfl, hj⟩
      refine ⟨t, ret, by rw [ht, Option.map_some], hsame, .inl ⟨hret, hnames.congr fun v => ?_⟩⟩
      refine ⟨fun hv => hv.1.resolve_left hv.2, fun hv => ⟨.inr hv, fun hd => ?_⟩⟩
      obtain ⟨b, j⟩ := v
      obtain ⟨rfl, -⟩ := hd
      exact hfresh j hv
    · rw [hok]
      dsimp only
      rw [if_neg (by decide : ¬ (0 : ℤ) ≠ 0)]
      have hnew : ¬ ((a, i).1 = a ∧ (a, i).2 ∈ done ∨ live (a, i)) := by
        rintro (⟨-, hmem⟩ | hv)
        · exact (List.nodup_append.mp his).2.2 i hmem i (List.mem_cons_self ..) rfl
        · exact hfresh i hv
      have hsame₁ := sameVdevs_announce r a i
      have hnames := h.announce hnew (hback i (by simp))
      have hdone : Names (r.announce a i) fun v => v.1 = a ∧ v.2 ∈ i :: done ∨ live v := by
        refine hnames.congr fun v => ?_
        rw [List.mem_cons, Prod.ext_iff]
        tauto
      have hback₁ : ∀ j ∈ i :: done ++ is, ((r.announce a i).vring (a, j)).rvdev = some a := by
        intro j hj
        rw [hsame₁.rvdev]
        exact hback j (by simpa [or_left_comm] using hj)
      obtain ⟨t, ret, ht, hsame, hend⟩ := ih _ (List.perm_middle.nodup_iff.mp his) hdone hback₁
      refine ⟨t, ret, ht, hsame₁.trans hsame, hend.imp_right fun hall => ⟨hall.1, hall.2.congr fun v => ?_⟩⟩
      simp only [List.cons_append, List.mem_cons, List.mem_append]
      tauto

/-! ### The devices -/

/-- The vring belongs to a vdev that exists, and has an index below the number that
the entry gives. -/
def Live (r : Rproc) (v : ℕ × ℕ) : Prop := v.1 ∈ r.rvdevs ∧ v.2 < (r.vdev v.1).numOfVrings

structure Registered (r : Rproc) : Prop where
  names : Names r (Live r)
  nodup : r.rvdevs.Nodup
  next (b : ℕ) : b ∈ r.rvdevs → b < r.next

theorem foldlM_rprocParseVring {rsc : FwRscVdev} {is : List ℕ} {vdev vdev' : RprocVdev}
    (h : is.foldlM (rprocParseVring rsc a) vdev = .ok vdev') :
    vdev'.numOfVrings = vdev.numOfVrings ∧
      ∀ j, (j ∈ is ∨ (vdev.vring j).rvdev = some a) → (vdev'.vring j).rvdev = some a := by
  induction is generalizing vdev with
  | nil =>
    rw [List.foldlM_nil] at h
    cases h
    exact ⟨rfl, fun j hj => hj.resolve_left List.not_mem_nil⟩
  | cons i is ih =>
    rw [List.foldlM_cons] at h
    unfold rprocParseVring at h
    dsimp only at h
    split at h
    · exact absurd h (by simp [bind, Except.bind])
    · obtain ⟨hnum, hback⟩ := ih h
      refine ⟨hnum, fun j hj => hback j ?_⟩
      simp only [RprocVdev.setVring]
      by_cases hji : j = i
      · subst j
        rw [update_self]
        exact .inr rfl
      · rw [update_of_ne hji]
        exact hj.imp_left fun hj => (List.mem_cons.mp hj).resolve_left hji

/-- The memory of a vdev that does not exist may change. -/
theorem Registered.setVdev (h : Registered r) (ha : a ∉ r.rvdevs) (vdev : RprocVdev) : Registered (r.setVdev a vdev) := by
  have hsame : ∀ b, b ∈ r.rvdevs → (r.setVdev a vdev).vdev b = r.vdev b := by
    intro b hb
    refine update_of_ne (fun heq => ?_) _ _
    exact ha (heq ▸ hb)
  have hlive : ∀ v, Live (r.setVdev a vdev) v ↔ Live r v := fun v =>
    and_congr_right fun hv => by rw [hsame v.1 hv]
  have hvring : ∀ v, Live r v → (r.setVdev a vdev).vring v = r.vring v := fun v hv => by
    rw [Rproc.vring, hsame v.1 hv.1, Rproc.vring]
  refine ⟨⟨fun id v => ?_, fun v hv => ?_, fun v hv => ?_⟩, h.nodup, h.next⟩
  · rw [hlive]
    refine (h.names.find id v).trans (and_congr_right fun hv => ?_)
    rw [hvring v hv]
  · rw [hlive] at hv
    rw [hvring v hv]
    exact h.names.rvdev v hv
  · rw [hlive] at hv
    rw [hvring v hv, hsame v.1 hv.1]
    exact h.names.announced v hv

/-- **`rproc_handle_vdev`** always returns, and keeps the ids right. -/
theorem Registered.rprocHandleVdev (env : VdevOutcomes) (h : Registered r) (rsc : FwRscVdev) (offset : ℕ) (avail : ℤ) :
    ∃ t ret, rprocHandleVdev env r rsc offset avail = some (t, ret) ∧ Registered t := by
  unfold Remoteproc.rprocHandleVdev
  split
  · exact ⟨_, _, rfl, h⟩
  split
  · exact ⟨_, _, rfl, h⟩
  split
  · exact ⟨_, _, rfl, h⟩
  split
  · exact ⟨_, _, rfl, h⟩
  dsimp only
  have hbump : Registered { r with next := r.next + 1, nbVdev := r.nbVdev + 1 } :=
    ⟨⟨h.names.find, h.names.rvdev, h.names.announced⟩, h.nodup, fun b hb => Nat.lt_succ_of_lt (h.next b hb)⟩
  have hnew : r.next ∉ r.rvdevs := fun hmem => Nat.lt_irrefl _ (h.next _ hmem)
  split
  · exact ⟨_, _, rfl, hbump⟩
  split
  · exact ⟨_, _, rfl, hbump⟩
  split
  case h_1 => exact ⟨_, _, rfl, hbump⟩
  case h_2 vdev hparse =>
    obtain ⟨hnum, hback⟩ := foldlM_rprocParseVring hparse
    have hset := hbump.setVdev hnew { vdev with rscOffset := offset }
    generalize hr₁ : Rproc.setVdev _ r.next _ = r₁ at hset ⊢
    have hlist₁ : r₁.rvdevs = r.rvdevs ∧ r₁.next = r.next + 1 ∧ r₁.vdev r.next = { vdev with rscOffset := offset } := by
      rw [← hr₁]
      exact ⟨rfl, rfl, update_self ..⟩
    have hfresh : ∀ i, ¬ Live r₁ (r.next, i) := fun i hi => hnew (hlist₁.1 ▸ hi.1)
    obtain ⟨t, ret, ht, hsame, hend⟩ := Names.allocVrings env (List.range rsc.numOfVrings) [] (a := r.next)
      List.nodup_range (hset.names.congr fun v => by simp) hfresh fun i hi => by
        rw [Rproc.vring, hlist₁.2.2]
        exact hback i (.inl hi)
    rw [ht]
    dsimp only
    have hlive : ∀ v, (v.1 ∈ t.rvdevs ∧ v.2 < (t.vdev v.1).numOfVrings) ↔ Live r₁ v := fun v => by
      rw [hsame.rvdevs, hsame.numOfVrings]
      rfl
    have hlt : ∀ b ∈ t.rvdevs, b < t.next := by
      rw [hsame.rvdevs, hsame.next]
      exact hset.next
    rcases hend with ⟨hret, hnames⟩ | ⟨hret, hnames⟩
    · rw [if_pos hret]
      exact ⟨_, _, rfl, hnames.congr fun v => (hlive v).symm, hsame.rvdevs ▸ hset.nodup, hlt⟩
    · rw [if_neg (not_not_intro hret)]
      have hn : (t.vdev r.next).numOfVrings = rsc.numOfVrings := by
        rw [hsame.numOfVrings, hlist₁.2.2]
        exact hnum
      refine ⟨_, _, rfl, (hnames.setRvdevs _).congr fun v => ?_, ?_, fun b hb => ?_⟩
      · rw [← hlive v, List.nil_append, List.mem_range, ← hn]
        unfold Live
        dsimp only
        rw [List.mem_append, List.mem_singleton]
        constructor
        · rintro (⟨hv, hlt⟩ | ⟨hv, hlt⟩)
          · exact ⟨.inr hv, hv ▸ hlt⟩
          · exact ⟨.inl hv, hlt⟩
        · rintro ⟨hv | hv, hlt⟩
          · exact .inr ⟨hv, hlt⟩
          · exact .inl ⟨hv, hv ▸ hlt⟩
      · rw [hsame.rvdevs, hlist₁.1, ← List.concat_eq_append]
        exact h.nodup.concat hnew
      · rcases List.mem_append.mp hb with hb | hb
        · exact hlt b hb
        · rw [List.mem_singleton.mp hb]
          change r.next < t.next
          rw [hsame.next, hlist₁.2.1]
          exact Nat.lt_succ_self _

/-- **`rproc_vdev_release`** of a vdev with two vrings returns, and keeps the ids
right. -/
theorem Registered.rprocVdevRelease (h : Registered r) (ha : a ∈ r.rvdevs)
    (htwo : (r.vdev a).numOfVrings = RVDEV_NUM_VRINGS) : ∃ t, rprocVdevRelease r a = some t ∧ Registered t := by
  have hall : ∀ i ∈ List.range RVDEV_NUM_VRINGS, Live r (a, i) := fun i hi => ⟨ha, htwo ▸ List.mem_range.mp hi⟩
  obtain ⟨t, ht, hsame, hnames⟩ := h.names.freeVrings List.nodup_range hall
  unfold Remoteproc.rprocVdevRelease
  rw [ht, Option.map_some]
  refine ⟨_, rfl, (hnames.setRvdevs _).congr fun v => ?_, ?_, fun b hb => ?_⟩
  · unfold Live
    dsimp only
    rw [hsame.rvdevs, hsame.numOfVrings, h.nodup.mem_erase_iff, List.mem_range, ← htwo]
    constructor
    · rintro ⟨⟨hmem, hlt⟩, hother⟩
      exact ⟨⟨fun heq => hother ⟨heq, heq ▸ hlt⟩, hmem⟩, hlt⟩
    · rintro ⟨⟨hne, hmem⟩, hlt⟩
      exact ⟨⟨hmem, hlt⟩, fun heq => hne heq.1⟩
  · rw [hsame.rvdevs]
    exact h.nodup.erase a
  · dsimp only at hb ⊢
    rw [hsame.rvdevs] at hb
    rw [hsame.next]
    exact h.next b (List.mem_of_mem_erase hb)

/-! ### Runs -/

/-- An entry of the resource table is handled, or a vdev is released. -/
inductive VdevCall where
  | handle (env : VdevOutcomes) (rsc : FwRscVdev) (offset : ℕ) (avail : ℤ)
  | release (a : ℕ)

def vdevStep (r : Rproc) : VdevCall → Option Rproc
  | .handle env rsc offset avail => (rprocHandleVdev env r rsc offset avail).map Prod.fst
  | .release a => rprocVdevRelease r a

/-- A vdev that is released exists and has two vrings. -/
def ReleasesTwoVrings (r : Rproc) : VdevCall → Prop
  | .handle _ _ _ _ => True
  | .release a => a ∈ r.rvdevs ∧ (r.vdev a).numOfVrings = RVDEV_NUM_VRINGS

theorem Registered.vdevStep {call : VdevCall} (h : Registered r) (hG : ReleasesTwoVrings r call) :
    ∃ t, vdevStep r call = some t ∧ Registered t := by
  cases call with
  | handle env rsc offset avail =>
    obtain ⟨t, ret, ht, hreg⟩ := h.rprocHandleVdev env rsc offset avail
    exact ⟨t, by rw [Remoteproc.vdevStep, ht, Option.map_some], hreg⟩
  | release a => exact h.rprocVdevRelease hG.1 hG.2

/-- There are no vdevs, and no ids. -/
structure NoVdevs (r : Rproc) : Prop where
  rvdevs : r.rvdevs = []
  notifyids (id : ℕ) : r.notifyids.find id = none

/-- **The ids name the vrings of the devices.** In every run where the devices that
are released have two vrings, no call follows a back pointer that is not there, and
afterwards the ids in use are those of the vrings, no two have the same, and an
interrupt with the id that was announced comes to the vring it was announced for. -/
theorem notify_ids_name_vrings (hr : NoVdevs r) {calls : List VdevCall}
    (hG : Along vdevStep ReleasesTwoVrings r calls) :
    ∃ t, exec vdevStep r calls = some t ∧
      (∀ id v, t.notifyids.find id = some v ↔ Live t v ∧ (t.vring v).notifyid = id) ∧
      (∀ v w, Live t v → Live t w → (t.vring v).notifyid = (t.vring w).notifyid → v = w) ∧
      ∀ v, Live t v → rprocVqInterrupt t ((t.vdev v.1).announced v.2) = some v := by
  have hnone : ∀ v, ¬ Live r v := by
    intro v hv
    have hmem := hv.1
    rw [hr.rvdevs] at hmem
    exact List.not_mem_nil hmem
  have hinit : Registered r := by
    refine ⟨⟨fun id v => ?_, fun v hv => absurd hv (hnone v), fun v hv => absurd hv (hnone v)⟩, ?_, fun b hb => ?_⟩
    · rw [hr.notifyids]
      exact iff_of_false (by simp) fun hv => hnone v hv.1
    · rw [hr.rvdevs]
      exact List.nodup_nil
    · rw [hr.rvdevs] at hb
      exact absurd hb List.not_mem_nil
  obtain ⟨t, ht, h⟩ := exec_total_along (J := fun _ => Registered) calls.length
    (fun _ _ _ _ h hG => h.vdevStep hG) hinit (Nat.le_of_eq (Nat.zero_add _)) hG
  refine ⟨t, ht, h.names.find, fun v w hv hw => h.names.inj hv hw, fun v hv => ?_⟩
  rw [h.names.announced v hv, rprocVqInterrupt, if_neg (by omega), Int.toNat_natCast]
  exact (h.names.find _ v).mpr ⟨hv, rfl⟩

/-- Everything succeeds. -/
def vdevSucceeds : VdevOutcomes := ⟨true, 0, 0, fun _ => true, fun _ => true⟩

/-- An entry with `n` vrings. -/
def vdevEntry (n : ℕ) : FwRscVdev := ⟨0, n, (0, 0), fun _ => ⟨256, 4096⟩⟩

def noVdevs : Rproc := ⟨fun _ => zeroedVdev 0 0, [], .empty, 0, 0, true, 0⟩

/-- A device with one vring gets the id that follows those of a device with two, and
keeps it when the latter is released. -/
theorem one_vring_keeps_id :
    ∃ t, exec vdevStep noVdevs [.handle vdevSucceeds (vdevEntry 2) 16 1000, .handle vdevSucceeds (vdevEntry 1) 100 1000,
        .release 0] = some t ∧
      (∀ id v, t.notifyids.find id = some v ↔ Live t v ∧ (t.vring v).notifyid = id) ∧
      (∀ v w, Live t v → Live t w → (t.vring v).notifyid = (t.vring w).notifyid → v = w) ∧
      ∀ v, Live t v → rprocVqInterrupt t ((t.vdev v.1).announced v.2) = some v := by
  refine notify_ids_name_vrings ⟨rfl, fun _ => rfl⟩ ?_
  exact Along.cons trivial rfl (Along.cons trivial rfl (Along.cons ⟨by decide, rfl⟩ rfl trivial))

/-- The release of a device with one vring follows the back pointer of the second,
which was not parsed. -/
theorem one_vring_release_faults :
    ∃ t, exec vdevStep noVdevs [.handle vdevSucceeds (vdevEntry 1) 16 1000] = some t ∧
      0 ∈ t.rvdevs ∧ ¬ Live t (0, 1) ∧ (t.vring (0, 1)).rvdev = none ∧
      exec vdevStep noVdevs [.handle vdevSucceeds (vdevEntry 1) 16 1000, .release 0] = none :=
  ⟨_, rfl, by decide, fun h => absurd h.2 (by decide), rfl, rfl⟩

end GfpDrivers.Remoteproc
