import GfpDrivers.Spi.Split

/-!
What splitting the transfers of a message leaves in the list, and that releasing
the resources leads back. The loop has a part of the list behind it, where each
transfer stands for itself or for its pieces, and the rest before it as it was.
-/

namespace GfpDrivers.Spi

open Function

/-! ### Lists -/

section Lists

variable {α : Type} [DecidableEq α] {pre post xs : List α} {x : α}

theorem nextOf_mid (h : x ∉ pre) : nextOf (pre ++ x :: post) (some x) = post.head? := by
  rw [nextOf, List.idxOf_append_of_notMem h, List.idxOf_cons_self, Nat.add_zero,
    List.getElem?_append_right (by omega), Nat.add_sub_cancel_left, List.getElem?_cons_succ,
    List.head?_eq_getElem?]

theorem prevOf_mid (h : x ∉ pre) : prevOf (pre ++ x :: post) x = pre.getLast? := by
  rw [prevOf, List.idxOf_append_of_notMem h, List.idxOf_cons_self, Nat.add_zero]
  cases pre with
  | nil => rfl
  | cons a pre =>
    rw [if_neg (by simp), List.getElem?_append_left (by simp), List.getLast?_eq_getElem?]

theorem nextOf_getLast (h : pre.Nodup) : nextOf (pre ++ x :: post) pre.getLast? = some x := by
  cases List.eq_nil_or_concat pre with
  | inl hnil =>
    subst hnil
    rfl
  | inr hconcat =>
    obtain ⟨zs, z, rfl⟩ := hconcat
    rw [List.concat_eq_append] at h ⊢
    have hz : z ∉ zs := fun hz => (List.nodup_append.mp h).2.2 z hz z (by simp) rfl
    rw [List.getLast?_concat, List.append_assoc, List.singleton_append, nextOf_mid hz]
    rfl

/-- A list is put in after the last node of `pre`. -/
theorem listSplice_getLast (h : pre.Nodup) : listSplice xs pre.getLast? (pre ++ post) = pre ++ (xs ++ post) := by
  induction pre with
  | nil => cases post <;> rfl
  | cons a pre ih =>
    rw [List.nodup_cons] at h
    cases pre with
    | nil => simp [listSplice]
    | cons b pre =>
      have hlast : (a :: b :: pre).getLast? = (b :: pre).getLast? := List.getLast?_cons_cons
      obtain ⟨z, hz⟩ : ∃ z, (b :: pre).getLast? = some z := ⟨_, List.getLast?_eq_some_getLast (by simp)⟩
      have hne : a ≠ z := by
        rintro rfl
        exact h.1 (List.mem_of_getLast? hz)
      have hrest := ih h.2
      rw [hz] at hrest
      rw [hlast, hz, List.cons_append, listSplice, if_neg hne, hrest]
      rfl

theorem foldl_listDel (h : ∀ y ∈ xs, y ∉ pre) (hxs : xs.Nodup) :
    xs.foldl (fun l y => listDel y l) (pre ++ (xs ++ post)) = pre ++ post := by
  induction xs with
  | nil => rfl
  | cons y xs ih =>
    rw [List.forall_mem_cons] at h
    rw [List.nodup_cons] at hxs
    rw [List.foldl_cons, listDel, List.erase_append_right _ h.1, List.cons_append, List.erase_cons_head]
    exact ih h.2 hxs.2

end Lists

variable {ν ρ : Type} [DecidableEq ν] {maxsize : ℕ} {msg : SpiMessage ν ρ}
  {pre post : List (Xfer ν)} {x : Xfer ν} {k n : ℕ}

/-! ### One replacement -/

/-- The pieces of the `k`-th replacement. -/
def pieces (k n : ℕ) : List (Xfer ν) := (List.range n).map (Xfer.piece k)

omit [DecidableEq ν] in
theorem mem_pieces {y : Xfer ν} : y ∈ pieces k n ↔ ∃ i, i < n ∧ y = .piece k i := by
  unfold pieces
  simp only [List.mem_map, List.mem_range]
  exact ⟨fun ⟨i, hi, h⟩ => ⟨i, hi, h.symm⟩, fun ⟨i, hi, h⟩ => ⟨i, hi, h.symm⟩⟩

omit [DecidableEq ν] in
theorem pieces_nodup : (pieces k n : List (Xfer ν)).Nodup :=
  List.nodup_range.map fun _ _ h => (Xfer.piece.inj h).2

theorem spiReplaceTransfersRelease_pieces (hpre : pre.Nodup) (hfresh : ∀ i, .piece k i ∉ pre ++ [x]) :
    spiReplaceTransfersRelease (pre ++ (pieces k n ++ post)) ⟨k, [x], pre.getLast?, n⟩ = pre ++ x :: post := by
  have hfold : ∀ l : List (Xfer ν), (List.range n).foldl (fun l i => listDel (.piece k i) l) l =
      (pieces k n).foldl (fun l y => listDel y l) l := by
    intro l
    rw [pieces, List.foldl_map]
  rw [spiReplaceTransfersRelease, listSplice_getLast hpre, hfold, ← List.append_assoc,
    foldl_listDel (fun y hy => ?_) pieces_nodup, List.append_assoc, List.singleton_append]
  obtain ⟨i, -, rfl⟩ := mem_pieces.mp hy
  exact hfresh i

/-- The loop that puts the copies into the list, after `j` of `n` rounds. -/
theorem foldl_insertTransfer (hpre : pre.Nodup) (hx : ∀ i, x ≠ .piece k i) (hlist : msg.transfers = pre ++ post)
    {j : ℕ} (hj : j ≤ n) :
    let msg' := (List.range j).foldl (insertTransfer k n x pre.getLast?) msg
    msg'.transfers = pre ++ (((List.range' (n - j) j).map (Xfer.piece k)) ++ post) ∧
      msg'.resources = msg.resources ∧ msg'.allocs = msg.allocs ∧
      (∀ i, n - j ≤ i → i < n → msg'.xfer (.piece k i) = copyTransfer (msg.xfer x) (n - 1 - i)) ∧
      ∀ y, (∀ i, n - j ≤ i → i < n → y ≠ .piece k i) → msg'.xfer y = msg.xfer y := by
  induction j with
  | zero =>
    refine ⟨by simpa using hlist, rfl, rfl, fun i hi hi' => by omega, fun _ _ => rfl⟩
  | succ j ih =>
    obtain ⟨hlist', hres, hallocs, hpieces, hother⟩ := ih (by omega)
    simp only [List.range_succ, List.foldl_concat] at *
    generalize (List.range j).foldl (insertTransfer k n x pre.getLast?) msg = m at *
    have hxm : m.xfer x = msg.xfer x := hother x fun i _ _ => hx i
    refine ⟨?_, hres, hallocs, fun i hi hi' => ?_, fun y hy => ?_⟩
    · have hrange : List.range' (n - (j + 1)) (j + 1) = (n - 1 - j) :: List.range' (n - j) j := by
        rw [List.range'_succ, show n - (j + 1) = n - 1 - j by omega, show n - 1 - j + 1 = n - j by omega]
      rw [insertTransfer]
      dsimp only [SpiMessage.setXfer]
      rw [hlist', listAdd, listSplice_getLast hpre, hrange]
      rfl
    · rw [insertTransfer]
      dsimp only [SpiMessage.setXfer]
      by_cases heq : i = n - 1 - j
      · subst heq
        rw [update_self, hxm, show n - 1 - (n - 1 - j) = j by omega]
      · rw [update_of_ne (fun h => heq (Xfer.piece.inj h).2)]
        exact hpieces i (by omega) hi'
    · rw [insertTransfer]
      dsimp only [SpiMessage.setXfer]
      rw [update_of_ne (hy (n - 1 - j) (by omega) (by omega))]
      exact hother y fun i hi hi' => hy i (by omega) hi'

theorem foldl_fixupTransfer (k maxsize : ℕ) (msg : SpiMessage ν ρ) (hn : 0 < n) :
    let msg' := ((List.range n).drop 1).foldl (fixupTransfer k maxsize) msg
    msg'.transfers = msg.transfers ∧ msg'.resources = msg.resources ∧ msg'.allocs = msg.allocs ∧
      (∀ i, 0 < i → i < n → msg'.xfer (.piece k i) =
        { msg.xfer (.piece k i) with
          rxBuf := advance (msg.xfer (.piece k i)).rxBuf (i * maxsize)
          rxDma := advance (msg.xfer (.piece k i)).rxDma (i * maxsize)
          txBuf := advance (msg.xfer (.piece k i)).txBuf (i * maxsize)
          txDma := advance (msg.xfer (.piece k i)).txDma (i * maxsize)
          len := min maxsize ((msg.xfer (.piece k i)).len - i * maxsize) }) ∧
      ∀ y, (∀ i, 0 < i → i < n → y ≠ .piece k i) → msg'.xfer y = msg.xfer y := by
  induction n with
  | zero => omega
  | succ n ih =>
    cases n with
    | zero => exact ⟨rfl, rfl, rfl, fun i hi hi' => by omega, fun _ _ => rfl⟩
    | succ n =>
      obtain ⟨hlist, hres, hallocs, hpieces, hother⟩ := ih (by omega)
      have hdrop : (List.range (n + 1 + 1)).drop 1 = (List.range (n + 1)).drop 1 ++ [n + 1] := by
        rw [List.range_succ, List.drop_append_of_le_length (by simp)]
      simp only [hdrop, List.foldl_concat] at *
      generalize ((List.range (n + 1)).drop 1).foldl (fixupTransfer k maxsize) msg = m at *
      refine ⟨hlist, hres, hallocs, fun i hi hi' => ?_, fun y hy => ?_⟩
      · rw [fixupTransfer]
        dsimp only [SpiMessage.setXfer]
        by_cases heq : i = n + 1
        · subst heq
          rw [update_self, hother _ fun i _ hi' h => by
            have := (Xfer.piece.inj h).2
            omega]
        · rw [update_of_ne (fun h => heq (Xfer.piece.inj h).2)]
          exact hpieces i hi (by omega)
      · rw [fixupTransfer]
        dsimp only [SpiMessage.setXfer]
        rw [update_of_ne (hy (n + 1) (by omega) (by omega))]
        exact hother y fun i hi hi' => hy i hi (by omega)

end GfpDrivers.Spi
