import GfpDrivers.Aggregate.Component

/-!
Which component belongs to which aggregate device. This is recorded twice, in
the match lists of the aggregate devices and in the `adev` pointers of the
components, and the two always agree.
-/

namespace GfpDrivers.Aggregate

open Function

variable {s s' : State} {a b c i : ℕ} {mc : ComponentMatchArray} {out : Outcome}

/-- An entry of the registered aggregate device `a` points to `c`. -/
def Points (s : State) (a c : ℕ) : Prop :=
  a ∈ s.aggregateDevices ∧ ∃ mc ∈ (s.aggregate a).compare, mc.component = some c

/-- The match lists and the `adev` pointers agree. -/
structure Owned (s : State) : Prop where
  componentsNodup : s.componentList.Nodup
  aggregatesNodup : s.aggregateDevices.Nodup
  agree : ∀ a c, Points s a c ↔ c ∈ s.componentList ∧ (s.component c).adev = some a
  bound : ∀ a ∈ s.aggregateDevices, (s.aggregate a).bound = true →
    ∀ mc ∈ (s.aggregate a).compare, mc.component ≠ none

/-! ### Reading after writing -/

@[simp] theorem setAdev_aggregate {v : Option ℕ} : (s.setAdev c v).aggregate = s.aggregate := rfl

@[simp] theorem setAdev_componentList {v : Option ℕ} :
    (s.setAdev c v).componentList = s.componentList := rfl

@[simp] theorem setAdev_aggregateDevices {v : Option ℕ} :
    (s.setAdev c v).aggregateDevices = s.aggregateDevices := rfl

theorem setAdev_adev {v : Option ℕ} {d : ℕ} :
    ((s.setAdev c v).component d).adev = if d = c then v else (s.component d).adev := by
  by_cases hd : d = c
  · subst hd
    simp [State.setAdev]
  · simp [State.setAdev, hd]

@[simp] theorem setCompare_component {l : List ComponentMatchArray} :
    (s.setCompare a l).component = s.component := rfl

@[simp] theorem setCompare_componentList {l : List ComponentMatchArray} :
    (s.setCompare a l).componentList = s.componentList := rfl

@[simp] theorem setCompare_aggregateDevices {l : List ComponentMatchArray} :
    (s.setCompare a l).aggregateDevices = s.aggregateDevices := rfl

@[simp] theorem setCompare_self {l : List ComponentMatchArray} :
    (s.setCompare a l).aggregate a = { s.aggregate a with compare := l } := by
  simp [State.setCompare]

theorem setCompare_of_ne {l : List ComponentMatchArray} (h : b ≠ a) :
    (s.setCompare a l).aggregate b = s.aggregate b := by
  simp [State.setCompare, h]

@[simp] theorem setBound_component {v : Bool} : (s.setBound a v).component = s.component := rfl

@[simp] theorem setBound_componentList {v : Bool} :
    (s.setBound a v).componentList = s.componentList := rfl

@[simp] theorem setBound_aggregateDevices {v : Bool} :
    (s.setBound a v).aggregateDevices = s.aggregateDevices := rfl

@[simp] theorem setBound_compare {v : Bool} :
    ((s.setBound a v).aggregate b).compare = (s.aggregate b).compare := by
  by_cases hb : b = a
  · subst hb
    simp [State.setBound]
  · simp [State.setBound, hb]

theorem setBound_bound {v : Bool} :
    ((s.setBound a v).aggregate b).bound = if b = a then v else (s.aggregate b).bound := by
  by_cases hb : b = a
  · subst hb
    simp [State.setBound]
  · simp [State.setBound, hb]

/-! ### Looking for components -/

theorem findComponent_spec (h : findComponent s a mc = some c) :
    c ∈ s.componentList ∧ ((s.component c).adev = none ∨ (s.component c).adev = some a) := by
  have hp := List.find?_some h
  rw [decide_eq_true_eq] at hp
  exact ⟨List.mem_of_find?_eq_some h, hp.1⟩

/-- What bringing up `a` leaves as it is: only free components get a new
owner, and this is `a`. -/
structure Claims (a : ℕ) (s s' : State) : Prop where
  componentList : s'.componentList = s.componentList
  aggregateDevices : s'.aggregateDevices = s.aggregateDevices
  length : (s'.aggregate a).compare.length = (s.aggregate a).compare.length
  bound : ∀ b, (s'.aggregate b).bound = (s.aggregate b).bound
  adev : ∀ c, (s'.component c).adev = (s.component c).adev ∨ (s'.component c).adev = some a

theorem Claims.refl (a : ℕ) (s : State) : Claims a s s :=
  ⟨rfl, rfl, rfl, fun _ => rfl, fun _ => .inl rfl⟩

theorem Claims.trans {s₁ s₂ : State} (h : Claims a s s₁) (h' : Claims a s₁ s₂) : Claims a s s₂ where
  componentList := h'.componentList.trans h.componentList
  aggregateDevices := h'.aggregateDevices.trans h.aggregateDevices
  length := h'.length.trans h.length
  bound b := (h'.bound b).trans (h.bound b)
  adev c := by
    rcases h'.adev c with h₂ | h₂
    · rcases h.adev c with h₁ | h₁
      · exact .inl (h₂.trans h₁)
      · exact .inr (h₂.trans h₁)
    · exact .inr h₂

theorem attachComponent_claims : Claims a s (attachComponent s a i mc c) where
  componentList := rfl
  aggregateDevices := rfl
  length := by simp [attachComponent]
  bound b := by
    by_cases hb : b = a
    · subst hb
      simp [attachComponent]
    · simp [attachComponent, setCompare_of_ne hb]
  adev d := by
    simp only [attachComponent, setAdev_adev, setCompare_component]
    by_cases hd : d = c
    · simp [hd]
    · simp [hd]

theorem attachComponent_compare :
    ((attachComponent s a i mc c).aggregate a).compare = (s.aggregate a).compare.set i
      { mc with duplicate := (s.component c).adev.isSome, component := some c } := by
  simp [attachComponent]

theorem points_set {l : List ComponentMatchArray} {x : ComponentMatchArray} {d : ℕ}
    (hi : l[i]? = some mc) (hmc : mc.component = none) (hx : x.component = some c) :
    (∃ m ∈ l.set i x, m.component = some d) ↔ (∃ m ∈ l, m.component = some d) ∨ d = c := by
  obtain ⟨hlt, -⟩ := List.getElem?_eq_some_iff.mp hi
  refine ⟨fun ⟨m, hm, hd⟩ => ?_, fun h => ?_⟩
  · rcases List.mem_or_eq_of_mem_set hm with hm | rfl
    · exact .inl ⟨m, hm, hd⟩
    · exact .inr (Option.some.inj (hd.symm.trans hx))
  · rcases h with ⟨m, hm, hd⟩ | rfl
    · obtain ⟨j, hj⟩ := List.mem_iff_getElem?.mp hm
      have hne : i ≠ j := by
        rintro rfl
        rw [Option.some.inj (hj.symm.trans hi), hmc] at hd
        cases hd
      exact ⟨m, List.mem_iff_getElem?.mpr ⟨j, by rw [List.getElem?_set_ne hne, hj]⟩, hd⟩
    · exact ⟨x, List.mem_set hlt x, hx⟩

theorem Owned.attach (h : Owned s) (ha : a ∈ s.aggregateDevices)
    (hi : (s.aggregate a).compare[i]? = some mc) (hmc : mc.component = none)
    (hc : c ∈ s.componentList)
    (hfree : (s.component c).adev = none ∨ (s.component c).adev = some a) :
    Owned (attachComponent s a i mc c) where
  componentsNodup := h.componentsNodup
  aggregatesNodup := h.aggregatesNodup
  agree b d := by
    have hold := h.agree b d
    have hadev : ((attachComponent s a i mc c).component d).adev =
        if d = c then some a else (s.component d).adev := setAdev_adev
    rw [hadev]
    by_cases hb : b = a
    · subst hb
      have hset := points_set (d := d) hi hmc
        (x := { mc with duplicate := (s.component c).adev.isSome, component := some c }) rfl
      rw [Points, attachComponent_compare, hset]
      simp only [Points, ha, true_and] at hold
      by_cases hd : d = c
      · subst hd
        simpa [attachComponent_claims.aggregateDevices, attachComponent_claims.componentList, hc] using ha
      · simpa [hd, attachComponent_claims.aggregateDevices, attachComponent_claims.componentList, ha] using hold
    · have hsame : (attachComponent s a i mc c).aggregate b = s.aggregate b := by
        simp [attachComponent, setCompare_of_ne hb]
      rw [Points, hsame]
      refine hold.trans ?_
      by_cases hd : d = c
      · subst hd
        have hnb : (s.component d).adev ≠ some b := by
          rcases hfree with h | h <;> simp [h, Ne.symm hb]
        simp [hnb, Ne.symm hb]
      · simp [hd, attachComponent_claims.componentList]
  bound b hb hbound m hm := by
    by_cases hba : b = a
    · subst hba
      rw [attachComponent_compare] at hm
      rw [attachComponent_claims.bound] at hbound
      rcases List.mem_or_eq_of_mem_set hm with hm | rfl
      · exact h.bound b ha hbound m hm
      · simp
    · have hsame : (attachComponent s a i mc c).aggregate b = s.aggregate b := by
        simp [attachComponent, setCompare_of_ne hba]
      rw [hsame] at hbound hm
      exact h.bound b hb hbound m hm

theorem findComponentsLoop_spec {left : ℕ} (h : Owned s) (ha : a ∈ s.aggregateDevices)
    (hlen : i + left = (s.aggregate a).compare.length)
    (hdone : ∀ j < i, ∀ m, (s.aggregate a).compare[j]? = some m → m.component ≠ none) :
    Owned (findComponentsLoop a left i s).1 ∧ Claims a s (findComponentsLoop a left i s).1 ∧
      ((findComponentsLoop a left i s).2 = 0 →
        ∀ m ∈ ((findComponentsLoop a left i s).1.aggregate a).compare, m.component ≠ none) := by
  induction left generalizing s i with
  | zero =>
    refine ⟨h, .refl a s, fun _ (m : ComponentMatchArray) (hm : m ∈ (s.aggregate a).compare) => ?_⟩
    obtain ⟨j, hj⟩ := List.mem_iff_getElem?.mp hm
    obtain ⟨hlt, -⟩ := List.getElem?_eq_some_iff.mp hj
    exact hdone j (by omega) m hj
  | succ left ih =>
    obtain ⟨mc, hmc⟩ : ∃ mc, (s.aggregate a).compare[i]? = some mc :=
      ⟨_, List.getElem?_eq_getElem (by omega)⟩
    rw [findComponentsLoop, hmc]
    simp only
    split_ifs with hsome
    · refine ih h ha (by omega) fun j hj m hm => ?_
      rcases Nat.lt_succ_iff_lt_or_eq.mp hj with hj | rfl
      · exact hdone j hj m hm
      · obtain rfl := Option.some.inj (hm.symm.trans hmc)
        exact Option.isSome_iff_ne_none.mp hsome
    · cases hfind : findComponent s a mc with
      | none => exact ⟨h, .refl a s, fun (h0 : - ENXIO = 0) => absurd h0 (by decide)⟩
      | some c =>
        obtain ⟨hc, hfree⟩ := findComponent_spec hfind
        have hnone : mc.component = none := by simpa using hsome
        have hlen' : i + 1 + left =
            ((attachComponent s a i mc c).aggregate a).compare.length := by
          rw [attachComponent_claims.length]
          omega
        have hdone' : ∀ j < i + 1, ∀ m,
            ((attachComponent s a i mc c).aggregate a).compare[j]? = some m →
            m.component ≠ none := by
          intro j hj m hm
          rw [attachComponent_compare] at hm
          by_cases hji : i = j
          · subst hji
            rw [List.getElem?_set_self (by omega)] at hm
            simp [← Option.some.inj hm]
          · rw [List.getElem?_set_ne hji] at hm
            exact hdone j (by omega) m hm
        obtain ⟨hown, hclaims, hfull⟩ :=
          ih (h.attach ha hmc hnone hc hfree) ha hlen' hdone'
        exact ⟨hown, attachComponent_claims.trans hclaims, hfull⟩

theorem findComponents_spec (h : Owned s) (ha : a ∈ s.aggregateDevices) :
    Owned (findComponents s a).1 ∧ Claims a s (findComponents s a).1 ∧
      ((findComponents s a).2 = 0 →
        ∀ m ∈ ((findComponents s a).1.aggregate a).compare, m.component ≠ none) :=
  findComponentsLoop_spec h ha (Nat.zero_add _) fun j hj => absurd hj (Nat.not_lt_zero j)

/-! ### Bringing up -/

theorem Owned.setBound {v : Bool} (h : Owned s)
    (hfull : v = true → ∀ m ∈ (s.aggregate a).compare, m.component ≠ none) :
    Owned (s.setBound a v) where
  componentsNodup := h.componentsNodup
  aggregatesNodup := h.aggregatesNodup
  agree b c := by
    rw [Points, setBound_compare]
    exact h.agree b c
  bound b hb hbound m hm := by
    rw [setBound_compare] at hm
    rw [setBound_bound] at hbound
    split_ifs at hbound with hba
    · subst hba
      exact hfull hbound m hm
    · exact h.bound b hb hbound m hm

theorem tryToBringUpAggregateDevice_spec (out : Outcome) (component : Option ℕ) (h : Owned s)
    (ha : a ∈ s.aggregateDevices) :
    Owned (tryToBringUpAggregateDevice out s a component).1 ∧
      (tryToBringUpAggregateDevice out s a component).1.componentList = s.componentList ∧
      (tryToBringUpAggregateDevice out s a component).1.aggregateDevices = s.aggregateDevices ∧
      (Claims a s (tryToBringUpAggregateDevice out s a component).1 ∨
        (tryToBringUpAggregateDevice out s a component).2 = 1) := by
  obtain ⟨hown, hclaims, hfull⟩ := findComponents_spec h ha
  have hsame := And.intro hclaims.componentList hclaims.aggregateDevices
  unfold tryToBringUpAggregateDevice
  simp only
  split_ifs with hret hother hgroup hbind
  · exact ⟨hown, hsame.1, hsame.2, .inl hclaims⟩
  · exact ⟨hown, hsame.1, hsame.2, .inl hclaims⟩
  · exact ⟨hown, hsame.1, hsame.2, .inl hclaims⟩
  · exact ⟨hown, hsame.1, hsame.2, .inl hclaims⟩
  · exact ⟨hown.setBound fun _ => hfull (not_not.mp hret), hsame.1, hsame.2, .inr rfl⟩

/-- A new component that is not brought up is owned by a device that is not bound. -/
theorem tryToBringUpMasters_spec (out : Outcome) {adevs : List ℕ} (h : Owned s)
    (hsub : ∀ a ∈ adevs, a ∈ s.aggregateDevices)
    (hfree : ∀ a, (s.component c).adev = some a → (s.aggregate a).bound = false) :
    Owned (tryToBringUpMasters out c s adevs).1 ∧
      (tryToBringUpMasters out c s adevs).1.componentList = s.componentList ∧
      ((tryToBringUpMasters out c s adevs).2 < 0 →
        ∀ a, ((tryToBringUpMasters out c s adevs).1.component c).adev = some a →
          ((tryToBringUpMasters out c s adevs).1.aggregate a).bound = false) := by
  induction adevs generalizing s with
  | nil => exact ⟨h, rfl, fun hneg => absurd hneg (by simp [tryToBringUpMasters])⟩
  | cons a adevs ih =>
    have ha := hsub a (by simp)
    have hsub' : ∀ b ∈ adevs, b ∈ s.aggregateDevices := fun b hb => hsub b (by simp [hb])
    rw [tryToBringUpMasters]
    split_ifs with hbound
    · exact ih h hsub' hfree
    · obtain ⟨hown, hlist, hdevs, hclaims⟩ :=
        tryToBringUpAggregateDevice_spec out (some c) h ha
      have hkeep : Claims a s (tryToBringUpAggregateDevice out s a (some c)).1 → ∀ b,
          ((tryToBringUpAggregateDevice out s a (some c)).1.component c).adev = some b →
          ((tryToBringUpAggregateDevice out s a (some c)).1.aggregate b).bound = false := by
        intro hcl b hb
        rw [hcl.bound]
        rcases hcl.adev c with hold | hnew
        · exact hfree b (hold.symm.trans hb)
        · obtain rfl := Option.some.inj (hb.symm.trans hnew)
          simpa using hbound
      simp only
      split_ifs with hret
      · refine ⟨hown, hlist, fun hneg => ?_⟩
        rcases hclaims with hcl | hone
        · exact hkeep hcl
        · exact absurd hneg (by rw [hone]; decide)
      · rcases hclaims with hcl | hone
        · obtain ⟨hown', hlist', hneg⟩ := ih hown (by rwa [hdevs]) (hkeep hcl)
          exact ⟨hown', hlist'.trans hlist, hneg⟩
        · exact absurd hone (by rw [not_not.mp hret]; decide)

/-! ### Taking away -/

/-- A component leaves the list, and no entry points to it any more. -/
theorem Owned.forget (h : Owned s) (hlist : s'.componentList = s.componentList.erase c)
    (hdevs : s'.aggregateDevices = s.aggregateDevices) (hcomp : s'.component = s.component)
    (hpoints : ∀ b d, Points s' b d ↔ Points s b d ∧ d ≠ c)
    (hbound : ∀ b, (s'.aggregate b).bound = true →
      (s.aggregate b).bound = true ∧ (s'.aggregate b).compare = (s.aggregate b).compare) :
    Owned s' where
  componentsNodup := by
    rw [hlist]
    exact h.componentsNodup.erase c
  aggregatesNodup := by
    rw [hdevs]
    exact h.aggregatesNodup
  agree b d := by
    rw [hpoints, h.agree, hlist, hcomp, h.componentsNodup.mem_erase_iff]
    tauto
  bound b hb hbd m hm := by
    obtain ⟨hbd', hcompare⟩ := hbound b hbd
    rw [hdevs] at hb
    rw [hcompare] at hm
    exact h.bound b hb hbd' m hm

theorem Owned.unlist (h : Owned s) (hc : (s.component c).adev = none) :
    Owned { s with componentList := s.componentList.erase c } := by
  refine h.forget rfl rfl rfl (fun b d => ?_) fun b hb => ⟨hb, rfl⟩
  refine ⟨fun hp => ⟨hp, ?_⟩, And.left⟩
  rintro rfl
  have hadev := ((h.agree b d).mp hp).2
  rw [hc] at hadev
  cases hadev

theorem points_removeComponent (h : Owned s) (hc : (s.component c).adev = some a) (b d : ℕ) :
    Points (removeComponent s a c) b d ↔ Points s b d ∧ d ≠ c := by
  have hmap : ∀ l : List ComponentMatchArray,
      (∃ m ∈ l.map (fun mc => if mc.component = some c then { mc with component := none } else mc),
        m.component = some d) ↔ (∃ m ∈ l, m.component = some d) ∧ d ≠ c := by
    intro l
    simp only [List.mem_map, exists_exists_and_eq_and]
    refine ⟨fun ⟨m, hm, hd⟩ => ?_, fun ⟨⟨m, hm, hd⟩, hdc⟩ => ⟨m, hm, ?_⟩⟩
    · split_ifs at hd with hmc
      refine ⟨⟨m, hm, hd⟩, ?_⟩
      rintro rfl
      exact hmc hd
    · rw [if_neg (by simpa [hd] using hdc), hd]
  by_cases hb : b = a
  · subst hb
    simp only [Points, removeComponent, setCompare_self, setCompare_aggregateDevices, hmap]
    tauto
  · rw [Points, removeComponent, setCompare_of_ne hb]
    refine ⟨fun hp => ⟨hp, ?_⟩, And.left⟩
    rintro rfl
    have hadev := ((h.agree b d).mp hp).2
    exact hb (Option.some.inj (hadev.symm.trans hc))

/-- A component of a device that is not bound leaves the list and the match list. -/
theorem Owned.remove (h : Owned s) (hc : (s.component c).adev = some a)
    (hbound : (s.aggregate a).bound = false) :
    Owned { removeComponent s a c with componentList := s.componentList.erase c } := by
  refine h.forget rfl rfl rfl (points_removeComponent h hc) fun b hb => ?_
  by_cases hba : b = a
  · subst hba
    simp [removeComponent, hbound] at hb
  · have hsame : (removeComponent s a c).aggregate b = s.aggregate b := setCompare_of_ne hba
    exact ⟨by rw [← hsame]; exact hb, by rw [← hsame]⟩

theorem releaseComponents_eq {l : List ComponentMatchArray} :
    (releaseComponents s l).componentList = s.componentList ∧
      (releaseComponents s l).aggregateDevices = s.aggregateDevices ∧
      (releaseComponents s l).aggregate = s.aggregate ∧
      ∀ c, ((releaseComponents s l).component c).adev =
        if ∃ m ∈ l, m.component = some c then none else (s.component c).adev := by
  induction l generalizing s with
  | nil => exact ⟨rfl, rfl, rfl, fun c => by simp [releaseComponents]⟩
  | cons m l ih =>
    rw [releaseComponents]
    cases hm : m.component with
    | none =>
      obtain ⟨h₁, h₂, h₃, h₄⟩ := ih (s := s)
      exact ⟨h₁, h₂, h₃, fun c => by simp [h₄, hm]⟩
    | some d =>
      obtain ⟨h₁, h₂, h₃, h₄⟩ := ih (s := s.setAdev d none)
      refine ⟨h₁, h₂, h₃, fun c => ?_⟩
      simp only [h₄, setAdev_adev]
      by_cases hcd : c = d
      · simp [hcd, hm]
      · simp [hcd, hm, Ne.symm hcd]

theorem Owned.free (h : Owned s) (ha : a ∈ s.aggregateDevices) :
    Owned (freeAggregateDevice s a) := by
  obtain ⟨hlist, hdevs, hagg, hadev⟩ := releaseComponents_eq
    (s := { s with aggregateDevices := s.aggregateDevices.erase a }) (l := (s.aggregate a).compare)
  change (freeAggregateDevice s a).componentList = s.componentList at hlist
  change (freeAggregateDevice s a).aggregateDevices = s.aggregateDevices.erase a at hdevs
  change (freeAggregateDevice s a).aggregate = s.aggregate at hagg
  constructor
  · rw [hlist]
    exact h.componentsNodup
  · rw [hdevs]
    exact h.aggregatesNodup.erase a
  · intro b d
    have hb := h.agree b d
    have hda := h.agree a d
    rw [Points, hagg, hdevs, hlist, h.aggregatesNodup.mem_erase_iff]
    change _ ↔ _ ∧ ((releaseComponents _ _).component d).adev = _
    rw [hadev]
    simp only [Points, ha, true_and] at hb hda
    split_ifs with hp
    · obtain ⟨hd, hda⟩ := hda.mp hp
      simp only [hd, hda, Option.some.injEq, true_and] at hb
      refine ⟨fun ⟨⟨hba, hbm⟩, hbp⟩ => absurd (hb.mp ⟨hbm, hbp⟩).symm hba, fun hfalse => ?_⟩
      simp at hfalse
    · rw [← hb]
      refine ⟨fun ⟨⟨_, hbm⟩, hbp⟩ => ⟨hbm, hbp⟩, fun ⟨hbm, hbp⟩ => ⟨⟨?_, hbm⟩, hbp⟩⟩
      rintro rfl
      exact hp hbp
  · intro b hb
    rw [hdevs] at hb
    rw [hagg]
    exact h.bound b (List.mem_of_mem_erase hb)

theorem Owned.takeDown (h : Owned s) : Owned (takeDownAggregateDevice s a) := by
  unfold takeDownAggregateDevice
  split_ifs
  · exact h.setBound fun hfalse => absurd hfalse Bool.false_ne_true
  · exact h

theorem takeDown_bound : ((takeDownAggregateDevice s a).aggregate a).bound = false := by
  unfold takeDownAggregateDevice
  split_ifs with hbound
  · simp [setBound_bound]
  · simpa using hbound

theorem takeDown_lists : (takeDownAggregateDevice s a).componentList = s.componentList ∧
    (takeDownAggregateDevice s a).aggregateDevices = s.aggregateDevices ∧
    (takeDownAggregateDevice s a).component = s.component := by
  unfold takeDownAggregateDevice
  split_ifs <;> exact ⟨rfl, rfl, rfl⟩

theorem Owned.insertComponent (h : Owned s) (hc : c ∉ s.componentList) (x : Component) (hx : x.adev = none) :
    Owned { s with
      component := update s.component c x
      componentList := s.componentList ++ [c] } where
  componentsNodup := by
    refine List.nodup_append.mpr ⟨h.componentsNodup, by simp, fun d hd e he hde => hc ?_⟩
    rwa [← List.mem_singleton.mp he, ← hde]
  aggregatesNodup := h.aggregatesNodup
  agree a d := by
    refine (h.agree a d).trans ?_
    by_cases hd : d = c
    · subst hd
      simp [hc, hx]
    · simp [hd]
  bound := h.bound

theorem Owned.insertAggregate (h : Owned s) (ha : a ∉ s.aggregateDevices) (x : AggregateDevice) (hx : x.bound = false)
    (hnone : ∀ mc ∈ x.compare, mc.component = none) :
    Owned { s with
      aggregate := update s.aggregate a x
      aggregateDevices := a :: s.aggregateDevices } where
  componentsNodup := h.componentsNodup
  aggregatesNodup := List.nodup_cons.mpr ⟨ha, h.aggregatesNodup⟩
  agree b d := by
    refine Iff.trans ?_ (h.agree b d)
    by_cases hb : b = a
    · subst hb
      simp only [Points, ha, false_and, iff_false, update_self]
      rintro ⟨-, m, hm, hd⟩
      rw [hnone m hm] at hd
      cases hd
    · simp [Points, hb]
  bound b hb hbound m hm := by
    by_cases hba : b = a
    · subst hba
      simp [hx] at hbound
    · simp only [update_of_ne hba] at hbound hm
      exact h.bound b (by simpa [hba] using hb) hbound m hm

/-! ### The four calls -/

theorem Owned.add {component : Option ℕ} {dev ops : ℕ} {subcomponent : ℤ} (h : Owned s)
    (hnew : ∀ c ∈ component, c ∉ s.componentList) :
    Owned (componentAdd out s component dev ops subcomponent).1 := by
  cases component with
  | none => exact h
  | some c =>
    have hc := hnew c rfl
    obtain ⟨hown', hlist, hneg⟩ :=
      tryToBringUpMasters_spec (c := c) out (h.insertComponent hc ⟨none, ops, subcomponent, dev⟩ rfl) (fun a ha => ha) (by simp)
    simp only [componentAdd]
    split_ifs with hret
    · cases hadev : ((tryToBringUpMasters out c _ s.aggregateDevices).1.component c).adev with
      | none => exact hown'.unlist hadev
      | some a => exact hown'.remove hadev (hneg hret a hadev)
    · exact hown'

theorem Owned.del {dev ops : ℕ} (h : Owned s) : Owned (componentDel s dev ops) := by
  unfold componentDel
  split
  · exact h
  · rename_i c _
    simp only
    split
    · rename_i a hadev
      have hcomm : { removeComponent (takeDownAggregateDevice s a) a c with
            componentList := (takeDownAggregateDevice s a).componentList.erase c } =
          removeComponent
            (takeDownAggregateDevice { s with componentList := s.componentList.erase c } a) a c := by
        unfold takeDownAggregateDevice
        split_ifs <;> rfl
      rw [← hcomm]
      refine h.takeDown.remove ?_ takeDown_bound
      rw [takeDown_lists.2.2]
      exact hadev
    · rename_i hadev
      exact h.unlist hadev

theorem Owned.masterAdd {adev : Option ℕ} {parent ops : ℕ}
    {compare : List ComponentMatchArray} (h : Owned s)
    (hnew : ∀ a ∈ adev, a ∉ s.aggregateDevices) (hnone : ∀ mc ∈ compare, mc.component = none) :
    Owned (componentMasterAddWithMatch out s adev parent ops compare).1 := by
  cases adev with
  | none => exact h
  | some a =>
    have ha := hnew a rfl
    obtain ⟨hown', -, hdevs, -⟩ :=
      tryToBringUpAggregateDevice_spec (a := a) out none
        (h.insertAggregate ha ⟨false, ops, parent, compare⟩ rfl hnone) (List.mem_cons_self ..)
    simp only [componentMasterAddWithMatch]
    split_ifs with hret
    · exact hown'.free (by simp [hdevs])
    · exact hown'

theorem Owned.masterDel {parent ops : ℕ} (h : Owned s) :
    Owned (componentMasterDel s parent ops) := by
  unfold componentMasterDel
  split
  · exact h
  · rename_i a hfind
    refine h.takeDown.free ?_
    rw [takeDown_lists.2.1]
    exact List.mem_of_find?_eq_some hfind

theorem Owned.step (h : Owned s) (hstep : Step s s') : Owned s' := by
  cases hstep with
  | componentAdd out c dev ops subcomponent hnew => exact h.add hnew
  | componentDel dev ops => exact h.del
  | componentMasterAdd out adev parent ops compare hnew hmatch =>
    refine h.masterAdd hnew fun mc hmc => ?_
    obtain ⟨f, g, data, duplicate, rfl⟩ := hmatch mc hmc
    rfl
  | componentMasterDel parent ops => exact h.masterDel

theorem Reachable.owned (h : Reachable s) : Owned s := by
  induction h with
  | init hcomponents hdevices =>
    refine ⟨by simp [hcomponents], by simp [hdevices], ?_, by simp [hdevices]⟩
    intro a c
    simp [Points, hcomponents, hdevices]
  | step _ hstep ih => exact ih.step hstep

/-- In every state that calls lead to, the match entries and the `adev`
pointers agree, and a bound aggregate device has all its components. -/
theorem reachable_ownership (h : Reachable s) :
    (∀ a ∈ s.aggregateDevices, ∀ mc ∈ (s.aggregate a).compare, ∀ c, mc.component = some c →
      c ∈ s.componentList ∧ (s.component c).adev = some a) ∧
    (∀ c ∈ s.componentList, ∀ a, (s.component c).adev = some a ↔
      a ∈ s.aggregateDevices ∧ ∃ mc ∈ (s.aggregate a).compare, mc.component = some c) ∧
    (∀ a ∈ s.aggregateDevices, ∀ b ∈ s.aggregateDevices, ∀ c,
      (∃ mc ∈ (s.aggregate a).compare, mc.component = some c) →
      (∃ mc ∈ (s.aggregate b).compare, mc.component = some c) → a = b) ∧
    ∀ a ∈ s.aggregateDevices, (s.aggregate a).bound = true →
      ∀ mc ∈ (s.aggregate a).compare, mc.component ≠ none := by
  have hown := h.owned
  refine ⟨fun a ha mc hmc c hc => (hown.agree a c).mp ⟨ha, mc, hmc, hc⟩, fun c hc a => ?_,
    fun a ha b hb c hac hbc => ?_, hown.bound⟩
  · refine ⟨fun hadev => (hown.agree a c).mpr ⟨hc, hadev⟩, fun hp => ((hown.agree a c).mp hp).2⟩
  · have hadev := ((hown.agree a c).mp ⟨ha, hac⟩).2
    exact Option.some.inj (hadev.symm.trans ((hown.agree b c).mp ⟨hb, hbc⟩).2)

/-- A component is added, and then a master that accepts it. -/
def boundState : State :=
  let out : Outcome := ⟨fun _ => 0, fun _ => true⟩
  let empty : State := ⟨fun _ => ⟨none, 0, 0, 0⟩, fun _ => ⟨false, 0, 0, []⟩, [], []⟩
  let s := (componentAdd out empty (some 3) 7 0 0).1
  (componentMasterAddWithMatch out s (some 5) 9 0
    [componentMatchAdd (some fun dev data => dev = data) none 7 false]).1

theorem boundState_reachable : Reachable boundState := by
  refine .step (.step (.init rfl rfl) (.componentAdd _ (some 3) 7 0 0 (by simp)))
    (.componentMasterAdd _ (some 5) 9 0 _ ?_ ?_)
  · intro a ha
    obtain rfl : 5 = a := by simpa using ha
    decide
  · exact List.forall_mem_singleton.mpr ⟨_, _, _, _, rfl⟩

theorem reachable_ownership_boundState :
    5 ∈ boundState.aggregateDevices ∧ (boundState.aggregate 5).bound = true ∧
    (∀ mc ∈ (boundState.aggregate 5).compare, mc.component ≠ none) ∧
    (boundState.component 3).adev = some 5 := by
  obtain ⟨-, hadev, -, hbound⟩ := reachable_ownership boundState_reachable
  refine ⟨by decide, by decide, hbound 5 (by decide) (by decide), ?_⟩
  exact (hadev 3 (by decide) 5).mpr ⟨by decide, _, List.mem_singleton_self _, rfl⟩

end GfpDrivers.Aggregate
