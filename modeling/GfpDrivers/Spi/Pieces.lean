import GfpDrivers.Spi.Restore

/-!
Splitting preserves a message. The pieces of a transfer cover its buffers once, in
order, and only the last of them keeps what is done at the end of the transfer;
all other transfers stay where they are.
-/

namespace GfpDrivers.Spi

open Function List

variable {ν ρ : Type} {maxsize : ℕ} {t : SpiTransfer ρ}

/-! ### The pieces of a transfer -/

/-- The addresses of a buffer, in order. A buffer that is not there has none. -/
def addresses (buf len : ℕ) : List ℕ := if buf = 0 then [] else List.range' buf len

/-- The buffers of a transfer, in memory and for the device. -/
def SpiTransfer.buffers : List (SpiTransfer ρ → ℕ) := [txBuf, rxBuf, txDma, rxDma]

/-- The transfers `ts` do what `t` does, in parts of at most `maxsize`. -/
structure Covers (maxsize : ℕ) (t : SpiTransfer ρ) (ts : List (SpiTransfer ρ)) : Prop where
  parts : ∀ p ∈ ts, 0 < p.len ∧ p.len ≤ maxsize ∧ p.settings = t.settings
  total : (ts.map SpiTransfer.len).sum = t.len
  buffers : ∀ buf ∈ SpiTransfer.buffers, (ts.flatMap fun p => addresses (buf p) p.len) = addresses (buf t) t.len
  present : ∀ buf ∈ SpiTransfer.buffers, ∀ p ∈ ts, buf p = 0 ↔ buf t = 0
  ends : ∃ front p, ts = front ++ [p] ∧ p.csChange = t.csChange ∧ p.delayValue = t.delayValue ∧
    ∀ q ∈ front, q.csChange = false ∧ q.delayValue = 0

/-- The `i`-th of `n` pieces of a transfer. -/
def pieceOf (maxsize n : ℕ) (t : SpiTransfer ρ) (i : ℕ) : SpiTransfer ρ :=
  { copyTransfer t (n - 1 - i) with
    rxBuf := advance t.rxBuf (i * maxsize)
    rxDma := advance t.rxDma (i * maxsize)
    txBuf := advance t.txBuf (i * maxsize)
    txDma := advance t.txDma (i * maxsize)
    len := min maxsize (t.len - i * maxsize) }

theorem copyTransfer_eq {i : ℕ} : copyTransfer t i =
    { t with csChange := (copyTransfer t i).csChange, delayValue := (copyTransfer t i).delayValue } := by
  unfold copyTransfer
  split <;> rfl

theorem advance_zero {buf : ℕ} : advance buf 0 = buf := by
  unfold advance
  split <;> rfl

theorem advance_eq_zero {buf offset : ℕ} : advance buf offset = 0 ↔ buf = 0 := by
  unfold advance
  split <;> omega

theorem pieceOf_buffer {buf : SpiTransfer ρ → ℕ} (hbuf : buf ∈ SpiTransfer.buffers) (n i : ℕ) :
    buf (pieceOf maxsize n t i) = advance (buf t) (i * maxsize) := by
  simp only [SpiTransfer.buffers, mem_cons, not_mem_nil, or_false] at hbuf
  obtain rfl | rfl | rfl | rfl := hbuf <;> rfl

theorem addresses_append (buf a b : ℕ) : addresses buf a ++ addresses (advance buf a) b = addresses buf (a + b) := by
  unfold addresses advance
  by_cases hbuf : buf = 0
  · simp [hbuf]
  · rw [if_neg hbuf, if_pos hbuf, if_neg (by omega), if_neg hbuf, List.range'_append_1]

theorem min_mul_succ (i len : ℕ) :
    min (i * maxsize) len + min maxsize (len - i * maxsize) = min ((i + 1) * maxsize) len := by
  rw [Nat.succ_mul]
  omega

/-- The first `j` pieces. -/
theorem pieceOf_prefix (maxsize : ℕ) (t : SpiTransfer ρ) (n j : ℕ) :
    (((List.range j).map (pieceOf maxsize n t)).map SpiTransfer.len).sum = min (j * maxsize) t.len ∧
      ∀ buf ∈ SpiTransfer.buffers, (((List.range j).map (pieceOf maxsize n t)).flatMap fun p =>
        addresses (buf p) p.len) = addresses (buf t) (min (j * maxsize) t.len) := by
  induction j with
  | zero => simp [addresses]
  | succ j ih =>
    obtain ⟨hsum, hbufs⟩ := ih
    rw [range_succ, map_append]
    refine ⟨?_, fun buf hbuf => ?_⟩
    · rw [map_append, sum_append, hsum]
      simpa [pieceOf] using min_mul_succ j t.len
    · rw [flatMap_append, hbufs buf hbuf, ← min_mul_succ j t.len, map_singleton,
        flatMap_singleton, pieceOf_buffer hbuf]
      have hlen : (pieceOf maxsize n t j).len = min maxsize (t.len - j * maxsize) := rfl
      rw [hlen]
      by_cases hle : j * maxsize ≤ t.len
      · rw [Nat.min_eq_left hle, addresses_append]
      · have hzero : min maxsize (t.len - j * maxsize) = 0 := by omega
        rw [hzero, Nat.add_zero]
        simp [addresses]

theorem count_spec (hmax : 0 < maxsize) (len : ℕ) :
    len ≤ (len + maxsize - 1) / maxsize * maxsize ∧
      ∀ i < (len + maxsize - 1) / maxsize, i * maxsize < len := by
  have hdiv := Nat.div_add_mod (len + maxsize - 1) maxsize
  have hmod := Nat.mod_lt (len + maxsize - 1) hmax
  rw [Nat.mul_comm] at hdiv
  refine ⟨by omega, fun i hi => ?_⟩
  have hstep : (i + 1) * maxsize ≤ (len + maxsize - 1) / maxsize * maxsize := Nat.mul_le_mul_right _ hi
  rw [Nat.succ_mul] at hstep
  omega

theorem pieceOf_covers (hmax : 0 < maxsize) {n : ℕ} (hn : n = (t.len + maxsize - 1) / maxsize) (hpos : 0 < n) :
    Covers maxsize t ((List.range n).map (pieceOf maxsize n t)) := by
  obtain ⟨htotal, hsmall⟩ := count_spec hmax t.len
  rw [← hn] at htotal hsmall
  have hall : min (n * maxsize) t.len = t.len := by omega
  obtain ⟨hsum, hbufs⟩ := pieceOf_prefix maxsize t n n
  rw [hall] at hsum hbufs
  refine ⟨fun p hp => ?_, hsum, hbufs, fun buf hbuf p hp => ?_, ?_⟩
  · obtain ⟨i, hi, rfl⟩ := mem_map.mp hp
    have hlt := hsmall i (mem_range.mp hi)
    refine ⟨?_, Nat.min_le_left .., ?_⟩
    · change 0 < min maxsize (t.len - i * maxsize)
      omega
    · change (copyTransfer t _).settings = t.settings
      rw [copyTransfer_eq]
  · obtain ⟨i, -, rfl⟩ := mem_map.mp hp
    rw [pieceOf_buffer hbuf, advance_eq_zero]
  · obtain ⟨m, rfl⟩ : ∃ m, n = m + 1 := ⟨n - 1, by omega⟩
    refine ⟨(List.range m).map (pieceOf maxsize (m + 1) t), pieceOf maxsize (m + 1) t m, ?_, ?_, ?_, ?_⟩
    · rw [range_succ, map_append, map_singleton]
    · simp [pieceOf, copyTransfer]
    · simp [pieceOf, copyTransfer]
    · intro q hq
      obtain ⟨i, hi, rfl⟩ := mem_map.mp hq
      have hlt := mem_range.mp hi
      have hne : m + 1 - 1 - i ≠ 0 := by omega
      simp only [pieceOf, copyTransfer, if_neg hne, and_self]

/-! ### Splitting one transfer -/

variable [DecidableEq ν] {alloc : ℕ → Bool} {msg : SpiMessage ν ρ} {pre post : List (Xfer ν)} {x : Xfer ν}

/-- The list of a message links each transfer once, and none that is allocated
later. -/
structure SpiMessage.Linked (msg : SpiMessage ν ρ) : Prop where
  nodup : msg.transfers.Nodup
  fresh : ∀ k i, .piece k i ∈ msg.transfers → k < msg.allocs

/-- One transfer is taken out and `n` copies are put in its place. -/
theorem spiReplaceTransfers_one (hmsg : msg.Linked) (hlist : msg.transfers = pre ++ x :: post)
    (halloc : alloc msg.allocs = true) (n : ℕ) :
    ∃ xfer, spiReplaceTransfers alloc msg x 1 n =
        (⟨pre ++ (pieces msg.allocs n ++ post), msg.resources ++ [⟨msg.allocs, [x], pre.getLast?, n⟩], xfer,
          msg.allocs + 1⟩, .ok ⟨msg.allocs, [x], pre.getLast?, n⟩) ∧
      (∀ i < n, xfer (.piece msg.allocs i) = copyTransfer (msg.xfer x) (n - 1 - i)) ∧
      ∀ y, (∀ i, y ≠ .piece msg.allocs i) → xfer y = msg.xfer y := by
  have hnodup := hmsg.nodup
  rw [hlist, nodup_append] at hnodup
  obtain ⟨hpre, -, hdisj⟩ := hnodup
  have hx : x ∉ pre := fun h => hdisj x h x (by simp) rfl
  have hpiece : ∀ i, x ≠ .piece msg.allocs i := by
    rintro i rfl
    have hlt := hmsg.fresh msg.allocs i (by simp [hlist])
    omega
  have hremove : removeTransfers pre.getLast? 1 [] (pre ++ x :: post) = .ok ([x], pre ++ post) := by
    rw [removeTransfers, nextOf_getLast hpre]
    simp only [removeTransfers, listDel, nil_append]
    rw [erase_append_right _ hx, erase_cons_head]
  let mid : SpiMessage ν ρ := { msg with allocs := msg.allocs + 1, transfers := pre ++ post }
  obtain ⟨hlist', hres, hallocs, hcopies, hother⟩ :=
    foldl_insertTransfer hpre hpiece (show mid.transfers = pre ++ post from rfl) (Nat.le_refl n)
  refine ⟨_, ?_, fun i hi => hcopies i (by omega) hi, fun y hy => hother y fun i _ _ => hy i⟩
  rw [spiReplaceTransfers, halloc]
  dsimp only
  rw [hlist, if_neg (by simp), prevOf_mid hx, hremove]
  dsimp only
  rw [Nat.sub_self, ← range_eq_range'] at hlist'
  refine Prod.ext ?_ rfl
  refine SpiMessage.mk.injEq .. |>.mpr ⟨hlist', ?_, rfl, hallocs⟩
  exact congrArg (· ++ _) hres

/-- The message after a transfer is split into `n` pieces. -/
def SpiMessage.split (msg : SpiMessage ν ρ) (pre : List (Xfer ν)) (x : Xfer ν) (post : List (Xfer ν)) (n : ℕ)
    (xfer : Xfer ν → SpiTransfer ρ) : SpiMessage ν ρ :=
  ⟨pre ++ (pieces msg.allocs n ++ post), msg.resources ++ [⟨msg.allocs, [x], pre.getLast?, n⟩], xfer,
    msg.allocs + 1⟩

/-- A split fails for lack of memory, or the pieces are in place of the transfer. -/
theorem spiSplitTransferMaxsize_cases (alloc : ℕ → Bool) (hmsg : msg.Linked) (hlist : msg.transfers = pre ++ x :: post)
    {n : ℕ} (hn : n = ((msg.xfer x).len + maxsize - 1) / maxsize) (hpos : 0 < n) :
    (alloc msg.allocs = false ∧
      spiSplitTransferMaxsize alloc maxsize msg x = ({ msg with allocs := msg.allocs + 1 }, .error (-ENOMEM))) ∨
    (alloc msg.allocs = true ∧
      ∃ xfer, spiSplitTransferMaxsize alloc maxsize msg x =
          (msg.split pre x post n xfer, .ok (.piece msg.allocs (n - 1))) ∧
        (∀ i < n, xfer (.piece msg.allocs i) = pieceOf maxsize n (msg.xfer x) i) ∧
        ∀ y, (∀ i, y ≠ .piece msg.allocs i) → xfer y = msg.xfer y) := by
  rw [spiSplitTransferMaxsize]
  dsimp only
  rw [← hn]
  by_cases halloc : alloc msg.allocs = true
  · refine .inr ⟨halloc, ?_⟩
    obtain ⟨xfer, hreplace, hcopies, hother⟩ := spiReplaceTransfers_one hmsg hlist halloc n
    have hx : ∀ i, x ≠ .piece msg.allocs i := by
      rintro i rfl
      have hlt := hmsg.fresh msg.allocs i (by simp [hlist])
      omega
    rw [hreplace]
    dsimp only
    let first : SpiMessage ν ρ := (msg.split pre x post n xfer).setXfer (.piece msg.allocs 0)
      { xfer (.piece msg.allocs 0) with len := min maxsize (xfer x).len }
    obtain ⟨hlist', hres, hallocs, hpieces, hrest⟩ := foldl_fixupTransfer msg.allocs maxsize first hpos
    have hfirst : first.xfer = update xfer (.piece msg.allocs 0)
        { xfer (.piece msg.allocs 0) with len := min maxsize (msg.xfer x).len } := by
      rw [← hother x hx]
      rfl
    refine ⟨(((List.range n).drop 1).foldl (fixupTransfer msg.allocs maxsize) first).xfer, Prod.ext ?_ rfl,
      fun i hi => ?_, fun y hy => ?_⟩
    · exact SpiMessage.mk.injEq .. |>.mpr ⟨hlist', hres, rfl, hallocs⟩
    · cases i with
      | zero =>
        rw [hrest _ fun j hj _ h => by
          have := (Xfer.piece.inj h).2
          omega, hfirst, update_self, hcopies 0 hpos, pieceOf, copyTransfer_eq]
        simp [advance_zero]
      | succ i =>
        rw [hpieces (i + 1) (by omega) hi, hfirst, update_of_ne (by simp), hcopies (i + 1) hi,
          pieceOf, copyTransfer_eq]
    · rw [hrest y fun i _ _ => hy i, hfirst, update_of_ne (hy 0)]
      exact hother y hy
  · refine .inl ⟨by simpa using halloc, ?_⟩
    rw [spiReplaceTransfers]
    dsimp only
    rw [if_pos (by simpa using halloc)]

omit [DecidableEq ν] in
theorem SpiMessage.Linked.split (hmsg : msg.Linked) (hlist : msg.transfers = pre ++ x :: post) (n : ℕ)
    (xfer : Xfer ν → SpiTransfer ρ) : (msg.split pre x post n xfer).Linked := by
  have hnodup := hmsg.nodup
  have hfresh := hmsg.fresh
  rw [hlist] at hnodup hfresh
  have hout : ∀ y ∈ pieces msg.allocs n, y ∉ pre ++ x :: post := by
    intro y hy hmem
    obtain ⟨i, -, rfl⟩ := mem_pieces.mp hy
    exact absurd (hfresh _ _ hmem) (by omega)
  refine ⟨?_, fun k i hmem => ?_⟩
  · change (pre ++ (pieces msg.allocs n ++ post)).Nodup
    rw [nodup_append] at hnodup
    obtain ⟨hpre, hpost, hdisj⟩ := hnodup
    rw [nodup_append, nodup_append]
    refine ⟨hpre, ⟨pieces_nodup, (nodup_cons.mp hpost).2, ?_⟩, ?_⟩
    · rintro a ha b hb rfl
      exact hout a ha (by simp [hb])
    · rintro a ha b hb rfl
      cases mem_append.mp hb with
      | inl hb => exact hout a hb (by simp [ha])
      | inr hb => exact hdisj a ha a (by simp [hb]) rfl
  · change .piece k i ∈ pre ++ (pieces msg.allocs n ++ post) at hmem
    change k < msg.allocs + 1
    rw [mem_append, mem_append, mem_pieces] at hmem
    obtain hmem | ⟨j, -, hmem⟩ | hmem := hmem
    · have := hfresh k i (by simp [hmem])
      omega
    · have := (Xfer.piece.inj hmem).1
      omega
    · have := hfresh k i (by simp [hmem])
      omega

/-! ### The loop -/

/-- The transfers `g` stand for the transfer `x`: it is itself among them if it is
short enough, and otherwise they cover it. -/
def Stands (maxsize : ℕ) (before after : Xfer ν → SpiTransfer ρ) (x : Xfer ν) (g : List (Xfer ν)) : Prop :=
  ((before x).len ≤ maxsize ∧ g = [x] ∧ after x = before x) ∨
    (maxsize < (before x).len ∧ Covers maxsize (before x) (g.map after))

/-- What a transfer is split into: itself if it is short enough, or its pieces. -/
def partsOf (maxsize : ℕ) (t : SpiTransfer ρ) : List (SpiTransfer ρ) :=
  if t.len ≤ maxsize then [t]
  else
    let n := (t.len + maxsize - 1) / maxsize
    (List.range n).map (pieceOf maxsize n t)

/-- The transfers `g` are in the place of `x`, and have the parts of it. -/
def Parted (maxsize : ℕ) (before after : Xfer ν → SpiTransfer ρ) (x : Xfer ν) (g : List (Xfer ν)) : Prop :=
  ((before x).len ≤ maxsize → g = [x]) ∧ g.map after = partsOf maxsize (before x)

omit [DecidableEq ν] in
theorem Parted.stands {before after : Xfer ν → SpiTransfer ρ} {g : List (Xfer ν)} (hmax : 0 < maxsize)
    (h : Parted maxsize before after x g) : Stands maxsize before after x g := by
  obtain ⟨hshort, hparts⟩ := h
  unfold partsOf at hparts
  split at hparts
  case isTrue hle =>
    have hg := hshort hle
    subst hg
    exact .inl ⟨hle, rfl, singleton_inj.mp hparts⟩
  case isFalse hlong =>
    refine .inr ⟨by omega, ?_⟩
    rw [hparts]
    exact pieceOf_covers hmax rfl (Nat.div_pos (by omega) hmax)

/-- The transfers among `xs` that are too long. -/
def tooLong (maxsize : ℕ) (before : Xfer ν → SpiTransfer ρ) (xs : List (Xfer ν)) : List (Xfer ν) :=
  xs.filter fun x => maxsize < (before x).len

/-- The loop on the message `msg₀` is done with the transfers `done`, for which the
`groups` stand, and the transfers `todo` are still as they were. -/
structure Splitting (maxsize : ℕ) (msg₀ msg : SpiMessage ν ρ) (done todo : List (Xfer ν))
    (groups : List (List (Xfer ν))) : Prop where
  linked : msg.Linked
  before : msg₀.transfers = done ++ todo
  list : msg.transfers = groups.flatten ++ todo
  parted : List.Forall₂ (fun x g => Parted maxsize msg₀.xfer msg.xfer x g ∧
    ∀ k i, .piece k i ∈ g → k < msg.allocs) done groups
  allocs : msg₀.allocs ≤ msg.allocs
  kept : ∀ x ∈ msg₀.transfers, msg.xfer x = msg₀.xfer x
  released : ∃ rs, msg.resources = msg₀.resources ++ rs ∧
    rs.reverse.foldl spiReplaceTransfersRelease msg.transfers = msg₀.transfers ∧
    rs.length = (tooLong maxsize msg₀.xfer done).length

variable {msg₀ : SpiMessage ν ρ} {done todo : List (Xfer ν)} {groups : List (List (Xfer ν))}

theorem Splitting.initial (h : msg.Linked) : Splitting maxsize msg msg [] msg.transfers [] where
  linked := h
  before := rfl
  list := rfl
  parted := .nil
  allocs := Nat.le_refl _
  kept := fun _ _ => rfl
  released := ⟨[], by simp, rfl, rfl⟩

theorem Splitting.failed (h : Splitting maxsize msg₀ msg done todo groups) :
    Splitting maxsize msg₀ { msg with allocs := msg.allocs + 1 } done todo groups where
  linked := ⟨h.linked.nodup, fun k i hmem => Nat.lt_succ_of_lt (h.linked.fresh k i hmem)⟩
  before := h.before
  list := h.list
  parted := h.parted.imp fun _ _ hg => ⟨hg.1, fun k i hmem => Nat.lt_succ_of_lt (hg.2 k i hmem)⟩
  allocs := Nat.le_succ_of_le h.allocs
  kept := h.kept
  released := h.released

theorem Splitting.keep (h : Splitting maxsize msg₀ msg done (x :: todo) groups)
    (hlen : (msg.xfer x).len ≤ maxsize) : Splitting maxsize msg₀ msg (done ++ [x]) todo (groups ++ [[x]]) where
  linked := h.linked
  before := by rw [h.before, append_assoc, singleton_append]
  list := by rw [h.list, flatten_append, flatten_singleton, append_assoc, singleton_append]
  parted := by
    have hkept := h.kept x (by simp [h.before])
    rw [hkept] at hlen
    have hparts : [x].map msg.xfer = partsOf maxsize (msg₀.xfer x) := by
      rw [partsOf, if_pos hlen, map_singleton, hkept]
    refine rel_append h.parted (.cons ⟨⟨fun _ => rfl, hparts⟩, fun k i hmem => ?_⟩ .nil)
    rw [mem_singleton] at hmem
    exact h.linked.fresh k i (by simp [h.list, hmem])
  allocs := h.allocs
  kept := h.kept
  released := by
    obtain ⟨rs, hrs, hreleased, hcount⟩ := h.released
    rw [h.kept x (by simp [h.before])] at hlen
    have hshort : tooLong maxsize msg₀.xfer [x] = [] := by simp [tooLong, hlen]
    refine ⟨rs, hrs, hreleased, ?_⟩
    rw [hcount, tooLong, tooLong, filter_append]
    exact (congrArg List.length (append_right_eq_self.mpr hshort)).symm

/-- A transfer that is too long is replaced by its pieces. -/
theorem Splitting.replace (hmsg₀ : msg₀.Linked) (h : Splitting maxsize msg₀ msg done (x :: todo) groups)
    (hlen : maxsize < (msg.xfer x).len) {n : ℕ} (hn : n = ((msg.xfer x).len + maxsize - 1) / maxsize) {xfer : Xfer ν → SpiTransfer ρ}
    (hpieces : ∀ i < n, xfer (.piece msg.allocs i) = pieceOf maxsize n (msg.xfer x) i)
    (hother : ∀ y, (∀ i, y ≠ .piece msg.allocs i) → xfer y = msg.xfer y) :
    Splitting maxsize msg₀ (msg.split groups.flatten x todo n xfer) (done ++ [x]) todo
      (groups ++ [pieces msg.allocs n]) where
  linked := h.linked.split h.list n xfer
  before := by rw [h.before, append_assoc, singleton_append]
  list := by
    rw [flatten_append, flatten_singleton, append_assoc]
    rfl
  parted := by
    have hkept := h.kept x (by simp [h.before])
    have hlong : ¬ (msg₀.xfer x).len ≤ maxsize := by
      rw [← hkept]
      omega
    -- the pieces of earlier splits are not touched
    have hsame : ∀ g : List (Xfer ν), (∀ k i, .piece k i ∈ g → k < msg.allocs) → g.map xfer = g.map msg.xfer := by
      refine fun g hg => map_congr_left fun z hz => hother z fun i heq => ?_
      subst heq
      exact absurd (hg _ _ hz) (by omega)
    have hmap : (pieces msg.allocs n).map xfer = partsOf maxsize (msg₀.xfer x) := by
      rw [partsOf, if_neg hlong, ← hkept, ← hn, pieces, map_map]
      exact map_congr_left fun i hi => hpieces i (mem_range.mp hi)
    refine rel_append (h.parted.imp fun y g hg => ?_) (.cons ⟨⟨fun hle => absurd hle hlong, hmap⟩, ?_⟩ .nil)
    · exact ⟨⟨hg.1.1, (hsame g hg.2).trans hg.1.2⟩, fun k i hmem => Nat.lt_succ_of_lt (hg.2 k i hmem)⟩
    · intro k i hmem
      obtain ⟨j, -, heq⟩ := mem_pieces.mp hmem
      exact (Xfer.piece.inj heq).1 ▸ Nat.lt_succ_self _
  allocs := Nat.le_succ_of_le h.allocs
  kept := by
    intro y hy
    refine (hother y fun i heq => ?_).trans (h.kept y hy)
    subst heq
    exact absurd (hmsg₀.fresh _ _ hy) (by have := h.allocs; omega)
  released := by
    obtain ⟨rs, hrs, hreleased, hcount⟩ := h.released
    rw [h.kept x (by simp [h.before])] at hlen
    have hlong : tooLong maxsize msg₀.xfer [x] = [x] := by simp [tooLong, hlen]
    refine ⟨rs ++ [⟨msg.allocs, [x], groups.flatten.getLast?, n⟩], ?_, ?_, ?_⟩
    · rw [← append_assoc, ← hrs]
      rfl
    -- the last replacement is undone first
    · have hnodup := h.linked.nodup
      rw [h.list, nodup_append] at hnodup
      rw [reverse_append, reverse_singleton, singleton_append, foldl_cons]
      change List.foldl _ (spiReplaceTransfersRelease (groups.flatten ++ (pieces msg.allocs n ++ todo)) _) _ = _
      rw [spiReplaceTransfersRelease_pieces hnodup.1, ← h.list]
      · exact hreleased
      · intro i hmem
        have hlt := h.linked.fresh msg.allocs i (by
          rw [h.list]
          simp only [mem_append, mem_cons] at hmem ⊢
          tauto)
        omega
    · unfold tooLong at hlong ⊢
      rw [length_append, hcount, filter_append, hlong, length_append, length_singleton,
        length_singleton]
      rfl

theorem Splitting.next_keep (h : Splitting maxsize msg₀ msg done (x :: todo) groups) :
    nextOf msg.transfers (some x) = todo.head? := by
  have hnodup := h.linked.nodup
  rw [h.list, nodup_append] at hnodup
  rw [h.list, nextOf_mid fun hmem => hnodup.2.2 x hmem x (by simp) rfl]

theorem next_split (hmsg : msg.Linked) (hlist : msg.transfers = pre ++ x :: post) {n : ℕ} (hpos : 0 < n)
    (xfer : Xfer ν → SpiTransfer ρ) :
    nextOf (msg.split pre x post n xfer).transfers (some (.piece msg.allocs (n - 1))) = post.head? := by
  obtain ⟨m, rfl⟩ : ∃ m, n = m + 1 := ⟨n - 1, by omega⟩
  have hnodup := (hmsg.split hlist (m + 1) xfer).nodup
  have hsplit : (msg.split pre x post (m + 1) xfer).transfers =
      (pre ++ pieces msg.allocs m) ++ .piece msg.allocs m :: post := by
    simp [SpiMessage.split, pieces, range_succ]
  rw [hsplit, nodup_append] at hnodup
  rw [hsplit, Nat.add_sub_cancel]
  exact nextOf_mid fun hmem => hnodup.2.2 _ hmem _ (by simp) rfl

/-- The loop comes to its end. It fails at the first transfer for which no memory is
left, and otherwise is done with all of them. -/
theorem splitFrom_spec (alloc : ℕ → Bool) (hmsg₀ : msg₀.Linked) (hmax : 0 < maxsize) {fuel : ℕ} (hfuel : todo.length ≤ fuel)
    (h : Splitting maxsize msg₀ msg done todo groups)
    (hallocs : msg.allocs = msg₀.allocs + (tooLong maxsize msg₀.xfer done).length)
    (halloc : ∀ k < (tooLong maxsize msg₀.xfer done).length, alloc (msg₀.allocs + k) = true) :
    ∃ msg' ret, splitFrom alloc maxsize fuel msg todo.head? = some (msg', ret) ∧
      ∃ done' todo' groups', Splitting maxsize msg₀ msg' done' todo' groups' ∧
        (∀ k < (tooLong maxsize msg₀.xfer done').length, alloc (msg₀.allocs + k) = true) ∧
        (ret = 0 ∧ todo' = [] ∨
          ret ≠ 0 ∧ tooLong maxsize msg₀.xfer todo' ≠ [] ∧
            alloc (msg₀.allocs + (tooLong maxsize msg₀.xfer done').length) = false) := by
  induction todo generalizing msg done groups fuel with
  | nil =>
    refine ⟨msg, 0, ?_, done, [], groups, h, halloc, .inl ⟨rfl, rfl⟩⟩
    cases fuel <;> rfl
  | cons x todo ih =>
    obtain ⟨fuel, rfl⟩ : ∃ m, fuel = m + 1 := ⟨fuel - 1, by simp at hfuel; omega⟩
    have hfuel' : todo.length ≤ fuel := by simpa using hfuel
    have hkept := h.kept x (by simp [h.before])
    have hcount : tooLong maxsize msg₀.xfer (done ++ [x]) =
        tooLong maxsize msg₀.xfer done ++ tooLong maxsize msg₀.xfer [x] := filter_append ..
    rw [List.head?_cons, splitFrom]
    by_cases hlen : maxsize < (msg.xfer x).len
    · rw [if_pos hlen]
      have hlong : tooLong maxsize msg₀.xfer [x] = [x] := by simp [tooLong, ← hkept, hlen]
      have hpos : 0 < ((msg.xfer x).len + maxsize - 1) / maxsize := Nat.div_pos (by omega) hmax
      obtain ⟨hnone, hfail⟩ | ⟨hsome, xfer, hok, hpieces, hother⟩ :=
        spiSplitTransferMaxsize_cases alloc h.linked h.list rfl hpos
      · rw [hfail]
        refine ⟨_, _, rfl, done, x :: todo, groups, h.failed, halloc, .inr ⟨by decide, ?_, hallocs ▸ hnone⟩⟩
        simp [tooLong, ← hkept, hlen]
      · rw [hok]
        dsimp only
        rw [next_split h.linked h.list hpos]
        refine ih hfuel' (h.replace hmsg₀ hlen rfl hpieces hother) ?_ ?_
        · change msg.allocs + 1 = _
          rw [hcount, hlong, length_append, length_singleton, hallocs, Nat.add_assoc]
        · intro k hk
          rw [hcount, hlong, length_append, length_singleton] at hk
          rcases Nat.lt_succ_iff_lt_or_eq.mp hk with hk | rfl
          · exact halloc k hk
          · exact hallocs ▸ hsome
    · rw [if_neg hlen, h.next_keep]
      have hshort : tooLong maxsize msg₀.xfer [x] = [] := by simpa [tooLong, ← hkept] using hlen
      rw [hshort, append_nil] at hcount
      exact ih hfuel' (h.keep (by omega)) (hcount ▸ hallocs) (hcount ▸ halloc)

omit [DecidableEq ν] in
theorem stands_len_le {before after : Xfer ν → SpiTransfer ρ} {xs : List (Xfer ν)}
    (h : List.Forall₂ (Stands maxsize before after) xs groups) : ∀ y ∈ groups.flatten, (after y).len ≤ maxsize := by
  induction h with
  | nil => simp
  | @cons x g xs groups hg _ ih =>
    intro y hy
    rw [flatten_cons, mem_append] at hy
    cases hy with
    | inr hy => exact ih y hy
    | inl hy =>
      cases hg with
      | inl hshort =>
        obtain ⟨hle, rfl, heq⟩ := hshort
        rw [mem_singleton.mp hy, heq]
        exact hle
      | inr hlong => exact (hlong.2.parts _ (mem_map_of_mem hy)).2.1

/-- Splitting the transfers of a message ends after a round for each of them. If it
succeeds no transfer is too long and the new transfers stand, in order, for the
old ones; in any case the release of the resources leads back to the old list. -/
theorem spiSplitTransfersMaxsize_spec (alloc : ℕ → Bool) {maxsize : ℕ} (hmax : 0 < maxsize) (hmsg : msg.Linked) {fuel : ℕ}
    (hfuel : msg.transfers.length ≤ fuel) :
    ∃ msg' ret, spiSplitTransfersMaxsize alloc maxsize fuel msg = some (msg', ret) ∧
      (ret = 0 → (∀ y ∈ msg'.transfers, (msg'.xfer y).len ≤ maxsize) ∧
        ∃ groups, msg'.transfers = groups.flatten ∧
          List.Forall₂ (Stands maxsize msg.xfer msg'.xfer) msg.transfers groups) ∧
      (spiResRelease msg').transfers = (spiResRelease msg).transfers ∧
      (msg.resources = [] → (spiResRelease msg').transfers = msg.transfers) ∧
      ∀ x ∈ msg.transfers, (spiResRelease msg').xfer x = msg.xfer x := by
  obtain ⟨msg', ret, hrun, done, todo, groups, hsplit, -, hend⟩ :=
    splitFrom_spec alloc hmsg hmax hfuel (.initial hmsg) rfl fun _ hk => absurd hk (Nat.not_lt_zero _)
  obtain ⟨rs, hrs, hback, -⟩ := hsplit.released
  have hrelease : (spiResRelease msg').transfers = (spiResRelease msg).transfers := by
    simp only [spiResRelease]
    rw [hrs, List.reverse_append, List.foldl_append, hback]
  refine ⟨msg', ret, hrun, fun hret => ?_, hrelease, fun hnone => ?_, hsplit.kept⟩
  · have hall : todo = [] := hend.elim And.right fun hfail => absurd hret hfail.1
    have hbefore := hsplit.before
    have hlist := hsplit.list
    rw [hall, List.append_nil] at hbefore hlist
    have hstands : List.Forall₂ (Stands maxsize msg.xfer msg'.xfer) msg.transfers groups := by
      rw [hbefore]
      exact hsplit.parted.imp fun _ _ hg => hg.1.stands hmax
    exact ⟨hlist ▸ stands_len_le hstands, groups, hlist, hstands⟩
  · rw [hrelease]
    simp only [spiResRelease, hnone, List.reverse_nil, List.foldl_nil]

/-- Two long transfers next to each other, and a short one. -/
def threeTransfers : SpiMessage ℕ Unit where
  transfers := [.own 0, .own 1, .own 2]
  resources := []
  xfer
    | .own 0 => ⟨4096, 0, 5, 0, 0, true, 7, ()⟩
    | .own 1 => ⟨0, 8192, 8, 0, 0, false, 9, ()⟩
    | _ => ⟨4096, 8192, 2, 0, 0, true, 3, ()⟩
  allocs := 0

theorem threeTransfers_split_and_released :
    (∃ msg', spiSplitTransfersMaxsize (fun _ => true) 3 3 threeTransfers = some (msg', 0) ∧
      msg'.transfers = [.piece 0 0, .piece 0 1, .piece 1 0, .piece 1 1, .piece 1 2, .own 2] ∧
      (spiResRelease msg').transfers = [.own 0, .own 1, .own 2]) ∧
    ∃ msg' ret, spiSplitTransfersMaxsize (fun k => k = 0) 3 3 threeTransfers = some (msg', ret) ∧ ret = -ENOMEM ∧
      (spiResRelease msg').transfers = [.own 0, .own 1, .own 2] := by
  have hlinked : threeTransfers.Linked := ⟨by decide, fun k i hmem => by simp [threeTransfers] at hmem⟩
  refine ⟨?_, ?_⟩
  · obtain ⟨msg', ret, hrun, -, -, hback, -⟩ := spiSplitTransfersMaxsize_spec (fun _ => true)
      (show 0 < 3 by decide) hlinked (Nat.le_refl 3)
    have hret : (spiSplitTransfersMaxsize (fun _ => true) 3 3 threeTransfers).map
        (fun r => (r.1.transfers, r.2)) =
        some ([.piece 0 0, .piece 0 1, .piece 1 0, .piece 1 1, .piece 1 2, .own 2], 0) := by decide
    rw [hrun] at hret
    obtain ⟨hlist, rfl⟩ := Prod.mk.inj (Option.some.inj hret)
    exact ⟨msg', hrun, hlist, hback rfl⟩
  · obtain ⟨msg', ret, hrun, -, -, hback, -⟩ := spiSplitTransfersMaxsize_spec (fun k => k = 0)
      (show 0 < 3 by decide) hlinked (Nat.le_refl 3)
    have hret : (spiSplitTransfersMaxsize (fun k => k = 0) 3 3 threeTransfers).map Prod.snd = some (-ENOMEM) := by
      decide
    rw [hrun] at hret
    exact ⟨msg', ret, hrun, Option.some.inj hret, hback rfl⟩

end GfpDrivers.Spi
