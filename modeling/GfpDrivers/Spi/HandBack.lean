import GfpDrivers.Spi.QueueRuns

/-!
What a caller of `spi_sync` gets back. Where the core emulates a chip select that
changes after each word, `__spi_validate` splits the transfers and sets
`cs_change` before it has checked anything else. The transfers are put together
again when the message is finalized, so not when it is rejected; and nothing
takes back the flag of a transfer that was short enough to stay.
-/

namespace GfpDrivers.Spi

open Function List

variable {ν : Type} [DecidableEq ν] {ctlr : SpiController} {d : SpiDevice} {maxsize : ℕ}
  {msg msg' msg'' : SpiMessage ν SpiSettings} {x : Xfer ν}

/-- What the caller has set of a transfer. -/
structure SameData (a b : SpiTransfer SpiSettings) : Prop where
  txBuf : b.txBuf = a.txBuf
  rxBuf : b.rxBuf = a.rxBuf
  len : b.len = a.len
  csChange : b.csChange = a.csChange

/-- The message is as it was before. -/
structure HandedBack (msg msg' : SpiMessage ν SpiSettings) : Prop where
  transfers : msg'.transfers = msg.transfers
  data (x : Xfer ν) : x ∈ msg.transfers → SameData (msg.xfer x) (msg'.xfer x)
  resources : msg'.resources = []

theorem SameData.refl (a : SpiTransfer SpiSettings) : SameData a a := ⟨rfl, rfl, rfl, rfl⟩

theorem SameData.trans {a b c : SpiTransfer SpiSettings} (hab : SameData a b) (hbc : SameData b c) : SameData a c :=
  ⟨hbc.txBuf.trans hab.txBuf, hbc.rxBuf.trans hab.rxBuf, hbc.len.trans hab.len, hbc.csChange.trans hab.csChange⟩

theorem SameData.symm {a b : SpiTransfer SpiSettings} (h : SameData a b) : SameData b a :=
  ⟨h.txBuf.symm, h.rxBuf.symm, h.len.symm, h.csChange.symm⟩

/-- A message that is handed back is one that nothing has to be released of. -/
theorem handedBack_iff_release :
    HandedBack msg msg' ↔ msg'.resources = [] ∧ HandedBack msg (spiResRelease msg') := by
  constructor
  · refine fun h => ⟨h.resources, ?_, h.data, rfl⟩
    rw [spiResRelease, h.resources]
    exact h.transfers
  · rintro ⟨hres, h⟩
    refine ⟨?_, h.data, hres⟩
    have htransfers := h.transfers
    rw [spiResRelease, hres] at htransfers
    exact htransfers

/-! ### The checks -/

/-- Nothing changed but the settings of transfers. -/
structure SettingsOnly (msg msg' : SpiMessage ν SpiSettings) : Prop where
  transfers : msg'.transfers = msg.transfers
  resources : msg'.resources = msg.resources
  data (x : Xfer ν) : SameData (msg.xfer x) (msg'.xfer x)

omit [DecidableEq ν] in
theorem SettingsOnly.refl (msg : SpiMessage ν SpiSettings) : SettingsOnly msg msg :=
  ⟨rfl, rfl, fun _ => .refl _⟩

theorem SettingsOnly.handedBack (h : SettingsOnly msg' msg'') :
    HandedBack msg (spiResRelease msg'') ↔ HandedBack msg (spiResRelease msg') := by
  have hlist : (spiResRelease msg'').transfers = (spiResRelease msg').transfers := by
    simp only [spiResRelease, h.transfers, h.resources]
  constructor
  · exact fun hback => ⟨hlist.symm.trans hback.transfers, fun x hx => (hback.data x hx).trans (h.data x).symm, rfl⟩
  · exact fun hback => ⟨hlist.trans hback.transfers, fun x hx => (hback.data x hx).trans (h.data x), rfl⟩

/-- The checks on one transfer. -/
def Passes (ctlr : SpiController) (d : SpiDevice) (t : SpiTransfer SpiSettings) : Prop :=
  (halfDuplex ctlr d → halfDuplexValid ctlr.flags t) ∧ (validateXfer ctlr d t).2 = 0

/-- The last loop sets defaults, and succeeds if every transfer passes. -/
theorem validateXfers_spec (ctlr : SpiController) (d : SpiDevice) {xs : List (Xfer ν)} (hxs : xs.Nodup)
    (msg : SpiMessage ν SpiSettings) :
    SettingsOnly msg (validateXfers ctlr d xs msg).1 ∧
      ((validateXfers ctlr d xs msg).2 = 0 ↔ ∀ x ∈ xs, (validateXfer ctlr d (msg.xfer x)).2 = 0) := by
  induction xs generalizing msg with
  | nil => exact ⟨.refl msg, by simp [validateXfers]⟩
  | cons x xs ih =>
    rw [nodup_cons] at hxs
    unfold validateXfers
    generalize hround : validateXfer ctlr d (msg.xfer x) = q
    obtain ⟨settings, ret⟩ := q
    dsimp only
    have hset : SettingsOnly msg (msg.setXfer x { msg.xfer x with settings := settings }) := by
      refine ⟨rfl, rfl, fun y => ?_⟩
      by_cases hy : y = x
      · subst y
        simp only [SpiMessage.setXfer, update_self]
        exact ⟨rfl, rfl, rfl, rfl⟩
      · simp only [SpiMessage.setXfer, update_of_ne hy]
        exact .refl _
    have hother : ∀ y ∈ xs, (msg.setXfer x { msg.xfer x with settings := settings }).xfer y = msg.xfer y := by
      intro y hy
      refine update_of_ne (fun heq => ?_) _ _
      exact hxs.1 (heq ▸ hy)
    by_cases hret : ret = 0
    · rw [if_neg (not_not_intro hret)]
      obtain ⟨hrest, hiff⟩ := ih hxs.2 (msg.setXfer x { msg.xfer x with settings := settings })
      refine ⟨⟨hrest.transfers, hrest.resources, fun y => (hset.data y).trans (hrest.data y)⟩, ?_⟩
      rw [hiff, forall_mem_cons, hround]
      refine ⟨fun h => ⟨hret, fun y hy => hother y hy ▸ h y hy⟩, fun h y hy => (hother y hy).symm ▸ h.2 y hy⟩
    · rw [if_pos hret]
      refine ⟨hset, iff_of_false hret fun h => hret ?_⟩
      simpa [hround] using h x (mem_cons_self ..)

theorem validateLists_spec (ctlr : SpiController) (d : SpiDevice) (hmsg : msg.transfers.Nodup) :
    SettingsOnly msg (validateLists ctlr d msg).1 ∧
      ((validateLists ctlr d msg).2 = 0 ↔ ∀ x ∈ msg.transfers, Passes ctlr d (msg.xfer x)) := by
  unfold validateLists
  split
  case isTrue hbad =>
    obtain ⟨hhalf, x, hx, hinvalid⟩ := hbad
    exact ⟨.refl msg, iff_of_false (by decide : -EINVAL ≠ 0) fun h => hinvalid ((h x hx).1 hhalf)⟩
  case isFalse hgood =>
    obtain ⟨hset, hiff⟩ := validateXfers_spec ctlr d hmsg msg
    refine ⟨hset, hiff.trans ⟨fun h x hx => ⟨fun hhalf => ?_, h x hx⟩, fun h x hx => (h x hx).2⟩⟩
    by_contra hinvalid
    exact hgood ⟨hhalf, x, hx, hinvalid⟩

/-! ### The emulation -/

/-- The loop that sets `cs_change`. -/
theorem foldl_csChange (xs : List (Xfer ν)) (msg : SpiMessage ν SpiSettings) :
    let msg' := xs.foldl (fun msg x => msg.setXfer x { msg.xfer x with csChange := true }) msg
    msg'.transfers = msg.transfers ∧ msg'.resources = msg.resources ∧
      ∀ y, msg'.xfer y = { msg.xfer y with csChange := (msg.xfer y).csChange || decide (y ∈ xs) } := by
  induction xs generalizing msg with
  | nil => exact ⟨rfl, rfl, fun y => by simp⟩
  | cons x xs ih =>
    obtain ⟨hlist, hres, hdata⟩ := ih (msg.setXfer x { msg.xfer x with csChange := true })
    refine ⟨hlist, hres, fun y => ?_⟩
    rw [foldl_cons, hdata]
    by_cases hy : y = x
    · subst y
      simp [SpiMessage.setXfer]
    · simp [SpiMessage.setXfer, hy]

theorem changeCs_passes (y : Xfer ν) : Passes ctlr d ((changeCs msg).xfer y) ↔ Passes ctlr d (msg.xfer y) := by
  obtain ⟨-, -, hdata⟩ := foldl_csChange msg.transfers.dropLast msg
  rw [changeCs, hdata]
  rfl

section Parted

variable {ρ : Type} {before after : Xfer ν → SpiTransfer ρ} {xs : List (Xfer ν)} {groups : List (List (Xfer ν))}

omit [DecidableEq ν] in
theorem parted_map (h : List.Forall₂ (Parted maxsize before after) xs groups) :
    groups.flatten.map after = xs.flatMap fun x => partsOf maxsize (before x) := by
  induction h with
  | nil => rfl
  | @cons x g xs groups hg _ ih => rw [flatten_cons, map_append, flatMap_cons, ih, hg.2]

omit [DecidableEq ν] in
theorem parted_short (h : List.Forall₂ (Parted maxsize before after) xs groups) (hx : x ∈ xs)
    (hshort : (before x).len ≤ maxsize) : x ∈ groups.flatten := by
  induction h with
  | nil => exact absurd hx not_mem_nil
  | @cons y g xs groups hg _ ih =>
    rw [flatten_cons, mem_append]
    rcases mem_cons.mp hx with rfl | hx
    · rw [hg.1 hshort]
      exact .inl (mem_singleton_self x)
    · exact .inr (ih hx)

omit [DecidableEq ν] in
theorem parted_ne_nil (hmax : 0 < maxsize) {g : List (Xfer ν)} (h : Parted maxsize before after x g) : g ≠ [] := by
  rintro rfl
  have hparts := h.2
  unfold partsOf at hparts
  split at hparts
  · exact absurd hparts (by simp)
  case isFalse hlong =>
    have hpos : 0 < ((before x).len + maxsize - 1) / maxsize := Nat.div_pos (by omega) hmax
    have hlen := congrArg List.length hparts
    simp only [map_nil, length_nil, length_map, length_range] at hlen
    omega

omit [DecidableEq ν] in
/-- The old transfers before the end of the new list are those before the end of
the old one that were short enough. -/
theorem parted_dropLast (hmax : 0 < maxsize) (h : List.Forall₂ (Parted maxsize before after) xs groups)
    (hxs : xs.Nodup) (hnodup : groups.flatten.Nodup) (hkept : ∀ x ∈ xs, after x = before x) (hx : x ∈ xs) :
    x ∈ groups.flatten.dropLast ↔ x ∈ xs.dropLast ∧ (before x).len ≤ maxsize := by
  -- what is in the new list is not too long
  have hlen : ∀ x ∈ xs, x ∈ groups.flatten → (before x).len ≤ maxsize := by
    intro x hx hmem
    rw [← hkept x hx]
    exact stands_len_le (h.imp fun _ _ hg => hg.stands hmax) x hmem
  induction h with
  | nil => exact absurd hx not_mem_nil
  | @cons y g xs groups hg hrest ih =>
    rw [flatten_cons] at hnodup hlen ⊢
    rw [nodup_cons] at hxs
    rw [nodup_append] at hnodup
    cases hrest with
    | nil =>
      have hxy : x = y := by simpa using hx
      subst x
      refine iff_of_false (fun hmem => ?_) (by simp)
      have hmem' : y ∈ g ++ [].flatten := dropLast_subset _ hmem
      rw [hg.1 (hlen y (mem_cons_self ..) hmem')] at hmem
      simp at hmem
    | @cons z g' xs' groups' hg' hrest' =>
      have hne : (g' :: groups').flatten ≠ [] := by
        rw [flatten_cons]
        exact fun hnil => parted_ne_nil hmax hg' (append_eq_nil_iff.mp hnil).1
      rw [dropLast_append_of_ne_nil hne, dropLast_cons_of_ne_nil (by simp), mem_append,
        mem_cons]
      have hdrop : x ∈ (g' :: groups').flatten.dropLast → x ∈ (g' :: groups').flatten :=
        fun hmem => dropLast_subset _ hmem
      have hnext := fun hx' => ih hxs.2 hnodup.2.1 (fun x hx => hkept x (mem_cons_of_mem _ hx)) hx'
        (fun x hx hmem => hlen x (mem_cons_of_mem _ hx) (mem_append_right _ hmem))
      rcases mem_cons.mp hx with rfl | hx'
      · constructor
        · intro hmem
          refine ⟨.inl rfl, hlen x hx (mem_append.mpr (hmem.imp_right hdrop))⟩
        · rintro ⟨-, hshort⟩
          rw [hg.1 hshort]
          exact .inl (mem_singleton_self x)
      · have hxy : x ≠ y := fun heq => hxs.1 (heq ▸ hx')
        have hxg : x ∉ g := by
          intro hmem
          have hshort := hlen x hx (mem_append_left _ hmem)
          exact hnodup.2.2 x hmem x (parted_short (.cons hg' hrest') hx' hshort) rfl
        rw [or_iff_right hxg, or_iff_right hxy]
        exact hnext hx'

end Parted

/-- The flag `cs_change` is set on all transfers before the last that stay in the
list. -/
def CsChangeSet (maxsize : ℕ) (msg : SpiMessage ν SpiSettings) : Prop :=
  ∀ x ∈ msg.transfers.dropLast, (msg.xfer x).len ≤ maxsize → (msg.xfer x).csChange = true

/-- The memory for all pieces is there. -/
def AllocsSucceed (alloc : ℕ → Bool) (maxsize : ℕ) (msg : SpiMessage ν SpiSettings) : Prop :=
  ∀ k < (tooLong maxsize msg.xfer msg.transfers).length, alloc (msg.allocs + k) = true

/-- The transfers pass the checks after they are split. -/
def PartsPass (ctlr : SpiController) (d : SpiDevice) (maxsize : ℕ) (msg : SpiMessage ν SpiSettings) : Prop :=
  ∀ x ∈ msg.transfers, ∀ p ∈ partsOf maxsize (msg.xfer x), Passes ctlr d p

theorem handedBack_changeCs (hmax : 0 < maxsize) (hmsg : msg.Linked) {groups : List (List (Xfer ν))}
    (h : Splitting maxsize msg msg' msg.transfers [] groups) (hres : msg.resources = []) :
    HandedBack msg (spiResRelease (changeCs msg')) ↔ CsChangeSet maxsize msg := by
  obtain ⟨hlist, hresources, hdata⟩ := foldl_csChange msg'.transfers.dropLast msg'
  obtain ⟨rs, hrs, hback, -⟩ := h.released
  have hparted : List.Forall₂ (Parted maxsize msg.xfer msg'.xfer) msg.transfers groups := h.parted.imp fun _ _ hg => hg.1
  have hnew : msg'.transfers = groups.flatten := h.list.trans (append_nil _)
  have hdrop : ∀ x ∈ msg.transfers, (x ∈ msg'.transfers.dropLast ↔
      x ∈ msg.transfers.dropLast ∧ (msg.xfer x).len ≤ maxsize) := by
    intro x hx
    rw [hnew]
    exact parted_dropLast hmax hparted hmsg.nodup (hnew ▸ h.linked.nodup) h.kept hx
  constructor
  · intro hback x hx hshort
    have hmem : x ∈ msg.transfers := dropLast_subset _ hx
    have hsame := (hback.data x hmem).csChange
    rw [show (spiResRelease (changeCs msg')).xfer x = _ from hdata x, h.kept x hmem] at hsame
    rw [← hsame]
    simp [(hdrop x hmem).mpr ⟨hx, hshort⟩]
  · intro hset
    refine ⟨?_, fun x hx => ?_, rfl⟩
    · rw [spiResRelease, changeCs, hlist, hresources, hrs, hres]
      exact hback
    · rw [show (spiResRelease (changeCs msg')).xfer x = _ from hdata x, h.kept x hx]
      refine ⟨rfl, rfl, rfl, ?_⟩
      by_cases hlast : x ∈ msg'.transfers.dropLast
      · obtain ⟨hx', hshort⟩ := (hdrop x hx).mp hlast
        simp [hset x hx' hshort]
      · simp [hlast]

/-- What the emulation comes to. If it fails, the message is as it was only if the
first allocation failed; otherwise a release leads back to the old list. -/
theorem splitTransfers_spec (alloc : ℕ → Bool) (ctlr : SpiController) (d : SpiDevice) (hmax : 0 < maxsize)
    (hmsg : msg.Linked) (hres : msg.resources = []) :
    ∃ msg' ret, spiSplitTransfersMaxsize alloc maxsize msg.transfers.length msg = some (msg', ret) ∧
      ((ret ≠ 0 ∧ tooLong maxsize msg.xfer msg.transfers ≠ [] ∧ ¬ AllocsSucceed alloc maxsize msg ∧
          (HandedBack msg msg' ↔ alloc msg.allocs = false)) ∨
        (ret = 0 ∧ AllocsSucceed alloc maxsize msg ∧ msg'.transfers.Nodup ∧
          (msg'.resources = [] ↔ tooLong maxsize msg.xfer msg.transfers = []) ∧
          (HandedBack msg (spiResRelease (changeCs msg')) ↔ CsChangeSet maxsize msg) ∧
          ((∀ y ∈ msg'.transfers, Passes ctlr d (msg'.xfer y)) ↔ PartsPass ctlr d maxsize msg))) := by
  obtain ⟨msg', ret, hrun, done, todo, groups, hsplit, halloc, hend⟩ :=
    splitFrom_spec alloc hmsg hmax (Nat.le_refl _) (.initial hmsg) rfl fun _ hk => absurd hk (Nat.not_lt_zero _)
  obtain ⟨rs, hrs, hback, hcount⟩ := hsplit.released
  rw [hres, nil_append] at hrs
  refine ⟨msg', ret, hrun, ?_⟩
  rcases hend with ⟨hret, rfl⟩ | ⟨hret, hlong, hfail⟩
  · right
    have hdone : msg.transfers = done := hsplit.before.trans (append_nil _)
    subst hdone
    have hparted : List.Forall₂ (Parted maxsize msg.xfer msg'.xfer) msg.transfers groups :=
      hsplit.parted.imp fun _ _ hg => hg.1
    have hmap : msg'.transfers.map msg'.xfer = msg.transfers.flatMap fun x => partsOf maxsize (msg.xfer x) := by
      rw [hsplit.list, append_nil]
      exact parted_map hparted
    refine ⟨hret, halloc, hsplit.linked.nodup, ?_, handedBack_changeCs hmax hmsg hsplit hres, ?_⟩
    · rw [hrs, ← length_eq_zero_iff, hcount, length_eq_zero_iff]
    · rw [← forall_mem_map, hmap]
      simp only [mem_flatMap, PartsPass]
      exact ⟨fun h x hx p hp => h p ⟨x, hx, hp⟩, fun h p ⟨x, hx, hp⟩ => h x hx p hp⟩
  · left
    have hall : tooLong maxsize msg.xfer msg.transfers =
        tooLong maxsize msg.xfer done ++ tooLong maxsize msg.xfer todo := by
      rw [hsplit.before]
      exact filter_append ..
    have hlt : (tooLong maxsize msg.xfer done).length < (tooLong maxsize msg.xfer msg.transfers).length := by
      rw [hall, length_append]
      have := length_pos_of_ne_nil hlong
      omega
    refine ⟨hret, ne_nil_of_length_pos (by omega), fun h => ?_, ?_⟩
    · exact absurd (h _ hlt) (by simp [hfail])
    · constructor
      · intro hhanded
        have hnone : (tooLong maxsize msg.xfer done).length = 0 := by
          rw [← hcount, length_eq_zero_iff, ← hrs]
          exact hhanded.resources
        rw [hnone] at hfail
        exact hfail
      · intro hfirst
        have hnone : rs = [] := by
          rw [← length_eq_zero_iff, hcount]
          by_contra hpos
          exact absurd (halloc 0 (Nat.pos_of_ne_zero hpos)) (by simp [hfirst])
        rw [hnone] at hrs hback
        refine ⟨hback, fun x hx => ?_, hrs⟩
        rw [hsplit.kept x hx]
        exact .refl _

/-- What `__spi_validate` comes to: it changes nothing that matters, or fails to
split the transfers, or goes on with the split ones. -/
theorem spiValidate_spec (alloc : ℕ → Bool) (ctlr : SpiController) {d : SpiDevice} (hbits : 0 < d.bitsPerWord)
    (hmsg : msg.Linked) (hres : msg.resources = []) :
    ∃ msg' ret, spiValidate alloc ctlr d msg = some (msg', ret) ∧
      ((msg.transfers = [] ∨ ¬ emulatesCsWord ctlr d) ∧ HandedBack msg msg' ∨
        emulatesCsWord ctlr d ∧
          ((ret ≠ 0 ∧ tooLong ((d.bitsPerWord + 7) / 8) msg.xfer msg.transfers ≠ [] ∧
              ¬ AllocsSucceed alloc ((d.bitsPerWord + 7) / 8) msg ∧
              (HandedBack msg msg' ↔ alloc msg.allocs = false)) ∨
            (AllocsSucceed alloc ((d.bitsPerWord + 7) / 8) msg ∧
              (msg'.resources = [] ↔ tooLong ((d.bitsPerWord + 7) / 8) msg.xfer msg.transfers = []) ∧
              (HandedBack msg (spiResRelease msg') ↔ CsChangeSet ((d.bitsPerWord + 7) / 8) msg) ∧
              (ret = 0 ↔ PartsPass ctlr d ((d.bitsPerWord + 7) / 8) msg)))) := by
  have hmax : 0 < (d.bitsPerWord + 7) / 8 := Nat.div_pos (by omega) (by decide)
  unfold spiValidate
  by_cases hempty : msg.transfers = []
  · rw [if_pos hempty]
    exact ⟨_, _, rfl, .inl ⟨.inl hempty, rfl, fun x _ => .refl _, hres⟩⟩
  rw [if_neg hempty]
  by_cases hemulates : emulatesCsWord ctlr d
  · rw [if_pos hemulates]
    obtain ⟨msg', ret, hrun, hsplit⟩ := splitTransfers_spec alloc ctlr d hmax hmsg hres
    rw [hrun]
    rcases hsplit with hfail | ⟨rfl, halloc, hnodup, hlong, hback, hpass⟩
    · refine ⟨_, _, ?_, .inr ⟨hemulates, .inl hfail⟩⟩
      dsimp only
      rw [if_pos hfail.1]
    · obtain ⟨hlist, hresources, -⟩ := foldl_csChange msg'.transfers.dropLast msg'
      have hnodup' : (changeCs msg').transfers.Nodup := by
        rw [changeCs, hlist]
        exact hnodup
      obtain ⟨hset, hchecks⟩ := validateLists_spec ctlr d hnodup'
      refine ⟨(validateLists ctlr d (changeCs msg')).1, (validateLists ctlr d (changeCs msg')).2, ?_,
        .inr ⟨hemulates, .inr ⟨halloc, ?_, hset.handedBack.trans hback, ?_⟩⟩⟩
      · dsimp only
        rw [if_neg (not_not_intro rfl)]
      · rw [hset.resources, changeCs, hresources, hlong]
      · rw [hchecks, ← hpass]
        simp only [changeCs_passes]
        rw [changeCs, hlist]
  · rw [if_neg hemulates]
    obtain ⟨hset, -⟩ := validateLists_spec ctlr d hmsg.nodup
    exact ⟨_, _, rfl, .inl ⟨.inr hemulates, hset.transfers, fun x _ => hset.data x, hset.resources.trans hres⟩⟩

/-! ### The whole call -/

/-- The emulation of a chip select that changes after each word leaves no trace in
the message. -/
def Restorable (alloc : ℕ → Bool) (ctlr : SpiController) (d : SpiDevice) (running : Bool)
    (msg : SpiMessage ν SpiSettings) : Prop :=
  emulatesCsWord ctlr d →
    (tooLong ((d.bitsPerWord + 7) / 8) msg.xfer msg.transfers ≠ [] ∧ alloc msg.allocs = false) ∨
      (CsChangeSet ((d.bitsPerWord + 7) / 8) msg ∧
        (tooLong ((d.bitsPerWord + 7) / 8) msg.xfer msg.transfers = [] ∨
          (running = true ∧ AllocsSucceed alloc ((d.bitsPerWord + 7) / 8) msg ∧
            PartsPass ctlr d ((d.bitsPerWord + 7) / 8) msg)))

theorem spiUnmapMsg_eq (msg : SpiMessage ν SpiSettings) : spiUnmapMsg msg = msg := by
  have hnull : ∀ t : SpiTransfer SpiSettings, restoreNull t = t := by
    intro t
    have hptr : ∀ p : Ptr, (if p = 0 then 0 else p) = p := fun p => ite_eq_right_iff.mpr Eq.symm
    unfold restoreNull dummyTx dummyRx
    rw [hptr, hptr]
  have hset : ∀ (m : SpiMessage ν SpiSettings) (x : Xfer ν), m.setXfer x (restoreNull (m.xfer x)) = m := by
    intro m x
    rw [hnull, SpiMessage.setXfer, update_eq_self]
  unfold spiUnmapMsg
  induction msg.transfers with
  | nil => rfl
  | cons x xs ih => rw [foldl_cons, hset, ih]

variable {μ ι : Type} [DecidableEq μ] [DecidableEq ι] {s t : SpiState μ ν ι} {m : μ}

/-- What `spi_sync` does with a message: it is rejected as the checks left it, or
queued; and if it is finalized, its resources have been released. -/
theorem spiSync_cases (dev : ι → SpiDevice) (env : Outcomes) (s : SpiState μ ν ι) (spi : ι) (m : μ) {ret : ℤ}
    (h : spiValidate env.alloc ctlr (dev spi) (s.msg m).body = some (msg', ret)) :
    ∃ t status, spiSync ctlr dev env s spi m = some (t, status) ∧
      ((¬ (ret = 0 ∧ s.running = true) ∧ (t.msg m).body = msg') ∨
        (ret = 0 ∧ s.running = true ∧ t.queued = s.queued ++ [m] ∧
          (t.finalized = s.finalized ++ [m] → (t.msg m).body = spiResRelease msg'))) := by
  let s₁ := s.setMsg m
    { s.msg m with body := msg', status := if ret ≠ 0 then (s.msg m).status else -EINPROGRESS }
  have hbody₁ : (s₁.msg m).body = msg' := congrArg QueuedMessage.body (SpiState.setMsg_self ..)
  have hsync : spiSync ctlr dev env s spi m = some (if ret ≠ 0 then (s₁, ret) else
      if (spiQueuedTransfer s₁ spi m).2 ≠ 0 then spiQueuedTransfer s₁ spi m else
        ({ spiPumpMessages ctlr dev env (spiQueuedTransfer s₁ spi m).1 with
            returned := (spiPumpMessages ctlr dev env (spiQueuedTransfer s₁ spi m).1).returned ++ [m] },
          ((spiPumpMessages ctlr dev env (spiQueuedTransfer s₁ spi m).1).msg m).status)) := by
    unfold spiSync validateMessage
    rw [h]
  by_cases hret : ret = 0
  · rw [if_neg (not_not_intro hret)] at hsync
    obtain ⟨v, hv, ⟨hrun, hqueue⟩ | ⟨hrun, hqueue⟩⟩ := spiQueuedTransfer_cases s₁ spi m
    · have hbody : ((s₁.setMsg m v).msg m).body = v.body := congrArg QueuedMessage.body (SpiState.setMsg_self s₁ m v)
      rw [hqueue, if_pos (by decide : -ESHUTDOWN ≠ 0)] at hsync
      refine ⟨_, _, hsync, .inl ⟨fun hok => ?_, hbody.trans (hv.trans hbody₁)⟩⟩
      exact absurd (hok.2.symm.trans hrun) (by decide)
    · have hbody : (((s₁.setMsg m v).enqueue m).msg m).body = v.body :=
        congrArg QueuedMessage.body (SpiState.setMsg_self s₁ m v)
      rw [hqueue, if_neg (by decide : ¬ (0 : ℤ) ≠ 0)] at hsync
      refine ⟨_, _, hsync, .inr ⟨hret, hrun, spiPumpMessages_queued _, fun hdone => ?_⟩⟩
      change (spiPumpMessages ctlr dev env ((s₁.setMsg m v).enqueue m)).finalized = s.finalized ++ [m] at hdone
      change ((spiPumpMessages ctlr dev env ((s₁.setMsg m v).enqueue m)).msg m).body = spiResRelease msg'
      have hcases := spiPumpMessages_cases ctlr dev env ((s₁.setMsg m v).enqueue m)
      rcases hcases with hnone | ⟨m', queue, -, hfinal⟩
      · have hsame : s.finalized = s.finalized ++ [m] := hnone.1.symm.trans hdone
        exact absurd hsame.symm (by simp)
      · have hsame : s.finalized ++ [m'] = s.finalized ++ [m] := hfinal.finalized.symm.trans hdone
        rw [append_cancel_left_eq, singleton_inj] at hsame
        subst hsame
        rw [hfinal.body, spiUnmapMsg_eq]
        exact congrArg spiResRelease (hbody.trans (hv.trans hbody₁))
  · rw [if_pos hret] at hsync
    exact ⟨_, _, hsync, .inl ⟨fun hok => hret hok.1, hbody₁⟩⟩

/-- The message was rejected, or it was finalized. -/
def Answered (s t : SpiState μ ν ι) (m : μ) : Prop := t.queued = s.queued ∨ t.finalized = s.finalized ++ [m]

/-- **The caller gets a message back as it was** exactly if the emulation of a chip
select that changes after each word left no trace in it. -/
theorem handed_back_iff (ctlr : SpiController) (dev : ι → SpiDevice) (env : Outcomes) (s : SpiState μ ν ι) (spi : ι) (m : μ)
    (hbits : 0 < (dev spi).bitsPerWord) (hmsg : (s.msg m).body.Linked) (hres : (s.msg m).body.resources = []) :
    ∃ t status, spiSync ctlr dev env s spi m = some (t, status) ∧
      (Answered s t m → (HandedBack (s.msg m).body (t.msg m).body ↔
        Restorable env.alloc ctlr (dev spi) s.running (s.msg m).body)) := by
  obtain ⟨msg', ret, hvalid, hspec⟩ := spiValidate_spec env.alloc ctlr hbits hmsg hres
  obtain ⟨t, status, hsync, hcases⟩ := spiSync_cases dev env s spi m hvalid
  refine ⟨t, status, hsync, fun hanswered => ?_⟩
  generalize (s.msg m).body = msg at *
  rcases hcases with ⟨hrejected, hbody⟩ | ⟨hret, hrun, hqueued, hfinal⟩
  · rw [hbody]
    rcases hspec with ⟨hplain, hback⟩ | ⟨hemulates, ⟨-, hlong, halloc, hfirst⟩ | ⟨halloc, hlong, hback, hpass⟩⟩
    · refine iff_of_true hback fun hemulates => .inr ?_
      rcases hplain with hempty | hplain
      · simp [CsChangeSet, tooLong, hempty]
      · exact absurd hemulates hplain
    · rw [hfirst]
      refine ⟨fun h _ => .inl ⟨hlong, h⟩, fun h => ?_⟩
      rcases h hemulates with ⟨-, h⟩ | ⟨-, h | ⟨-, h, -⟩⟩
      · exact h
      · exact absurd h hlong
      · exact absurd h halloc
    · rw [handedBack_iff_release, hlong, hback]
      refine ⟨fun h _ => .inr ⟨h.2, .inl h.1⟩, fun h => ?_⟩
      rcases h hemulates with ⟨hne, h⟩ | ⟨hset, h | ⟨hrun, -, h⟩⟩
      · have hsome := halloc 0 (List.length_pos_of_ne_nil hne)
        rw [Nat.add_zero, h] at hsome
        exact absurd hsome (by decide)
      · exact ⟨h, hset⟩
      · exact absurd ⟨hpass.mpr h, hrun⟩ hrejected
  · have hdone : t.finalized = s.finalized ++ [m] := by
      rcases hanswered with hsame | hdone
      · exact absurd (hqueued.symm.trans hsame) (by simp)
      · exact hdone
    rw [hfinal hdone]
    rcases hspec with ⟨hplain, hback⟩ | ⟨hemulates, ⟨hfail, -⟩ | ⟨halloc, -, hback, hpass⟩⟩
    · refine iff_of_true (handedBack_iff_release.mp hback).2 fun hemulates => .inr ?_
      rcases hplain with hempty | hplain
      · simp [CsChangeSet, tooLong, hempty]
      · exact absurd hemulates hplain
    · exact absurd hret hfail
    · rw [hback]
      refine ⟨fun h _ => .inr ⟨h, .inr ⟨hrun, halloc, hpass.mp hret⟩⟩, fun h => ?_⟩
      rcases h hemulates with ⟨hne, h⟩ | ⟨hset, -⟩
      · have hsome := halloc 0 (List.length_pos_of_ne_nil hne)
        rw [Nat.add_zero, h] at hsome
        exact absurd hsome (by decide)
      · exact hset

/-- Chips whose chip select is a GPIO that is to change after each byte. -/
def wordChips (_ : Fin 2) : SpiDevice :=
  { chipSelect := 0
    mode := SPI_CS_WORD
    bitsPerWord := 8
    maxSpeedHz := 1000000
    wordDelay := ⟨0, 0⟩
    csGpiod := true }

/-- A transfer of the given length, with both buffers. -/
def bytes (len : ℕ) : SpiTransfer SpiSettings := ⟨4096, 8192, len, 0, 0, false, 0, ⟨8, 1000000, 0, 1, 1, ⟨0, 0⟩⟩⟩

def messagesOf (transfers : List (Xfer ℕ)) (len : ℕ) : SpiState ℕ ℕ (Fin 2) :=
  { unusedState with msg := fun _ => ⟨⟨transfers, [], fun _ => bytes len, 0⟩, 0, 0, 0⟩ }

/-- A transfer of two bytes is sent as two transfers, and handed back as one. -/
theorem two_bytes_handed_back : ∃ t status,
    spiSync plainController wordChips (outcomes 0 0) (messagesOf [.own 0] 2) 0 0 = some (t, status) ∧
      HandedBack ((messagesOf [.own 0] 2).msg 0).body (t.msg 0).body := by
  have hrun : (spiSync plainController wordChips (outcomes 0 0) (messagesOf [.own 0] 2) 0 0).map
      (fun r => r.1.finalized) = some [0] := by decide
  obtain ⟨t, status, hsync, hiff⟩ := handed_back_iff plainController wordChips (outcomes 0 0)
    (messagesOf [.own 0] 2) 0 0 (by decide) ⟨by decide, fun k i hmem => by simp [messagesOf] at hmem⟩ rfl
  rw [hsync] at hrun
  refine ⟨t, status, hsync, (hiff (.inr (Option.some.inj hrun))).mpr fun _ => .inr ⟨?_, .inr ⟨rfl, fun _ _ => rfl, ?_⟩⟩⟩
  · exact fun x hx => absurd hx (by simp [messagesOf])
  · intro x _ p hp
    change p ∈ partsOf 1 (bytes 2) at hp
    have hparts : partsOf 1 (bytes 2) = [pieceOf 1 2 (bytes 2) 0, pieceOf 1 2 (bytes 2) 1] := if_neg (by decide)
    rw [hparts, List.mem_cons, List.mem_singleton] at hp
    rcases hp with rfl | rfl
    · exact ⟨fun h => absurd h (by decide), by decide⟩
    · exact ⟨fun h => absurd h (by decide), by decide⟩

/-- A message of two bytes in two transfers is sent, and comes back with
`cs_change` set on the first; one with a transfer of two bytes that the half duplex
link cannot do is rejected, and comes back in pieces. -/
theorem message_not_handed_back :
    (∃ t, spiSync plainController wordChips (outcomes 0 0) (messagesOf [.own 0, .own 1] 1) 0 0 = some (t, 0) ∧
      t.finalized = [0] ∧ ¬ HandedBack ((messagesOf [.own 0, .own 1] 1).msg 0).body (t.msg 0).body) ∧
    ∃ t, spiSync { plainController with flags := SPI_CONTROLLER_HALF_DUPLEX } wordChips (outcomes 0 0)
        (messagesOf [.own 0] 2) 0 0 = some (t, -EINVAL) ∧
      t.queued = [] ∧ (t.msg 0).body.transfers = [.piece 0 0, .piece 0 1] ∧
      ¬ HandedBack ((messagesOf [.own 0] 2).msg 0).body (t.msg 0).body := by
  refine ⟨⟨_, rfl, rfl, fun h => ?_⟩, _, rfl, rfl, rfl, fun h => ?_⟩
  · exact absurd (h.data (.own 0) (by decide)).csChange (by decide)
  · exact absurd h.transfers (by decide)

end GfpDrivers.Spi
