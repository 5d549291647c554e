import Mathlib.Algebra.BigOperators.Group.Finset.Piecewise
import Mathlib.Algebra.Order.BigOperators.Group.Finset

/-!
A pool of indices threaded through one array of links. One chain of the
array holds the free indices, the others are handed out; a chain is handed
out by cutting it off the front of the free chain, and returned by linking
its last index to the head of the free chain. Only the last link of a
returned chain is ever written.
-/

namespace GfpDrivers.Lib

open Function

/-- The `n` indices met from `i` on when following `next`. -/
def chain (next : ℕ → ℕ) : ℕ → ℕ → List ℕ
  | _, 0 => []
  | i, n + 1 => i :: chain next (next i) n

variable {next next' : ℕ → ℕ}

@[simp] theorem chain_zero (i : ℕ) : chain next i 0 = [] := rfl

theorem chain_succ (i n : ℕ) : chain next i (n + 1) = i :: chain next (next i) n := rfl

@[simp] theorem length_chain (i n : ℕ) : (chain next i n).length = n := by
  induction n generalizing i with
  | zero => rfl
  | succ n ih => simp [chain_succ, ih]

theorem chain_add (i m n : ℕ) :
    chain next i (m + n) = chain next i m ++ chain next (next^[m] i) n := by
  induction m generalizing i with
  | zero => simp
  | succ m ih => rw [Nat.succ_add, chain, ih, chain_succ, iterate_succ_apply]; rfl

theorem head_mem_chain (next : ℕ → ℕ) (i : ℕ) {n : ℕ} (hn : n ≠ 0) : i ∈ chain next i n := by
  obtain ⟨m, rfl⟩ := Nat.exists_eq_succ_of_ne_zero hn
  simp [chain_succ]

theorem mem_chain_of_le {i m n x : ℕ} (hle : m ≤ n) (hx : x ∈ chain next i m) :
    x ∈ chain next i n := by
  rw [← Nat.add_sub_cancel' hle, chain_add]
  exact List.mem_append_left _ hx

/-- The last index of a chain. -/
theorem chain_succ_eq_concat (i n : ℕ) :
    chain next i (n + 1) = chain next i n ++ [next^[n] i] := by
  rw [chain_add]
  rfl

/-- A chain that is not empty ends in its last index. -/
theorem chain_eq_concat (i : ℕ) {n : ℕ} (hn : n ≠ 0) :
    chain next i n = chain next i (n - 1) ++ [next^[n - 1] i] := by
  obtain ⟨m, rfl⟩ := Nat.exists_eq_succ_of_ne_zero hn
  exact chain_succ_eq_concat i m

theorem last_mem_chain (next : ℕ → ℕ) (i : ℕ) {n : ℕ} (hn : n ≠ 0) : next^[n - 1] i ∈ chain next i n := by
  rw [chain_eq_concat i hn]
  simp

/-- In a chain without repetitions the last index is met only at the end. -/
theorem last_notMem_chain {i n : ℕ} (hn : n ≠ 0) (h : (chain next i n).Nodup) :
    next^[n - 1] i ∉ chain next i (n - 1) := by
  rw [chain_eq_concat i hn, List.nodup_append] at h
  exact fun hx => h.2.2 _ hx _ (List.mem_singleton_self _) rfl

theorem nodup_chain_of_le {i m n : ℕ} (hle : m ≤ n) (h : (chain next i n).Nodup) :
    (chain next i m).Nodup := by
  rw [← Nat.add_sub_cancel' hle, chain_add, List.nodup_append] at h
  exact h.1

/-- The links of the indices before the last one determine the chain. -/
theorem chain_congr {i n : ℕ} (h : ∀ x ∈ (chain next i n).dropLast, next' x = next x) :
    chain next' i n = chain next i n := by
  induction n generalizing i with
  | zero => rfl
  | succ n ih =>
    cases n with
    | zero => rfl
    | succ n =>
      have hi : next' i = next i := h i (by simp [chain_succ])
      have hrest : chain next' (next i) (n + 1) = chain next (next i) (n + 1) := by
        apply ih
        intro x hx
        exact h x (List.mem_cons_of_mem i hx)
      change i :: chain next' (next' i) (n + 1) = i :: chain next (next i) (n + 1)
      rw [hi, hrest]

theorem chain_update_of_notMem {i n j : ℕ} (h : j ∉ chain next i n) (v : ℕ) :
    chain (update next j v) i n = chain next i n := by
  apply chain_congr
  intro x hx
  apply update_of_ne
  rintro rfl
  exact h (List.mem_of_mem_dropLast hx)

/-- Chains that are equal end in the same index. -/
theorem iterate_eq_of_chain_eq {i n : ℕ} (h : chain next' i n = chain next i n) (hn : n ≠ 0) :
    next'^[n - 1] i = next^[n - 1] i := by
  rw [chain_eq_concat i hn, chain_eq_concat i hn] at h
  exact List.singleton_inj.mp (List.append_inj' h rfl).2

/-- Writing the last link of a chain without repetitions does not change the
chain, and the step after it goes where the link says. -/
theorem chain_update_last {i n : ℕ} (h : (chain next i (n + 1)).Nodup) (v : ℕ) :
    chain (update next (next^[n] i) v) i (n + 1) = chain next i (n + 1) ∧
      (update next (next^[n] i) v)^[n + 1] i = v := by
  have hsame : chain (update next (next^[n] i) v) i (n + 1) = chain next i (n + 1) := by
    apply chain_congr
    intro x hx
    apply update_of_ne
    rintro rfl
    rw [chain_succ_eq_concat, List.dropLast_concat] at hx
    rw [chain_succ_eq_concat, List.nodup_append] at h
    exact h.2.2 _ hx _ (List.mem_singleton_self _) rfl
  refine ⟨hsame, ?_⟩
  have hlast := iterate_eq_of_chain_eq hsame n.succ_ne_zero
  rw [Nat.add_sub_cancel] at hlast
  rw [iterate_succ_apply', hlast, update_self]

/-- The sum over an initial segment after one value has been replaced. -/
theorem sum_range_update (f : ℕ → ℕ) {num j : ℕ} (hj : j < num) (v : ℕ) :
    ∑ i ∈ Finset.range num, update f j v i + f j = ∑ i ∈ Finset.range num, f i + v := by
  have hmem := Finset.mem_range.mpr hj
  rw [Finset.sum_update_of_mem hmem, ← Finset.erase_eq, ← Finset.add_sum_erase _ f hmem]
  omega

theorem sum_range_update_le (f : ℕ → ℕ) (num j v : ℕ) :
    ∑ i ∈ Finset.range num, update f j v i ≤ ∑ i ∈ Finset.range num, f i + v := by
  by_cases hj : j < num
  · have := sum_range_update f hj v
    omega
  · have hsame : ∑ i ∈ Finset.range num, update f j v i = ∑ i ∈ Finset.range num, f i := by
      refine Finset.sum_congr rfl fun i hi => update_of_ne ?_ v f
      rintro rfl
      exact hj (Finset.mem_range.mp hi)
    omega

/-- The pool: `len h` is the length of the chain handed out at `h`, and 0
where none is. -/
structure Pool (next : ℕ → ℕ) (num freeHead numFree : ℕ) (len : ℕ → ℕ) : Prop where
  free_lt : ∀ x ∈ chain next freeHead numFree, x < num
  free_nodup : (chain next freeHead numFree).Nodup
  busy_lt : ∀ h, ∀ x ∈ chain next h (len h), x < num
  busy_nodup : ∀ h, (chain next h (len h)).Nodup
  free_busy : ∀ h, ∀ x ∈ chain next freeHead numFree, x ∉ chain next h (len h)
  busy_busy : ∀ h h', h ≠ h' → ∀ x ∈ chain next h (len h), x ∉ chain next h' (len h')
  total : numFree + ∑ h ∈ Finset.range num, len h = num

namespace Pool

variable {num freeHead numFree : ℕ} {len : ℕ → ℕ}

theorem head_lt (p : Pool next num freeHead numFree len) {h : ℕ} (hlen : len h ≠ 0) : h < num :=
  p.busy_lt h h (head_mem_chain next h hlen)

theorem freeHead_lt (p : Pool next num freeHead numFree len) (h : numFree ≠ 0) :
    freeHead < num :=
  p.free_lt freeHead (head_mem_chain next freeHead h)

/-- Nothing is handed out at the head of the free chain. -/
theorem len_freeHead (p : Pool next num freeHead numFree len) (h : numFree ≠ 0) :
    len freeHead = 0 := by
  by_contra hlen
  exact p.free_busy freeHead freeHead (head_mem_chain next _ h) (head_mem_chain next _ hlen)

theorem numFree_le (p : Pool next num freeHead numFree len) : numFree ≤ num := by
  have := p.total
  omega

/-- A chain handed out is no longer than the pool. -/
theorem len_le (p : Pool next num freeHead numFree len) (h : ℕ) : len h ≤ num := by
  by_cases hlen : len h = 0
  · omega
  · have hle : len h ≤ ∑ h ∈ Finset.range num, len h :=
      Finset.single_le_sum (fun _ _ => Nat.zero_le _) (Finset.mem_range.mpr (p.head_lt hlen))
    have := p.total
    omega

/-- All indices are free and linked in order. -/
theorem init (hnext : ∀ i, i + 1 < num → next i = i + 1) :
    Pool next num 0 num (fun _ => 0) := by
  have hchain : ∀ n i, i + n ≤ num → chain next i n = List.range' i n := by
    intro n
    induction n with
    | zero => intro i _; rfl
    | succ n ih =>
      intro i hi
      cases n with
      | zero => rfl
      | succ n =>
        change i :: chain next (next i) (n + 1) = i :: List.range' (i + 1) (n + 1)
        rw [hnext i (by omega), ih (i + 1) (by omega)]
  have hfree := hchain num 0 (by omega)
  refine ⟨?_, ?_, by simp, by simp, by simp, by simp, by simp⟩
  · intro x hx
    rw [hfree, List.mem_range'_1] at hx
    omega
  · rw [hfree]
    exact List.nodup_range' ..

/-- Handing out `n` indices from the front of the free chain. -/
theorem alloc (p : Pool next num freeHead numFree len) {n : ℕ} (hn : n ≠ 0) (hle : n ≤ numFree) :
    Pool next num (next^[n] freeHead) (numFree - n) (update len freeHead n) := by
  have hne : numFree ≠ 0 := by omega
  have hzero := p.len_freeHead hne
  have hsplit : chain next freeHead numFree =
      chain next freeHead n ++ chain next (next^[n] freeHead) (numFree - n) := by
    rw [← chain_add, Nat.add_sub_cancel' hle]
  have hnodup := p.free_nodup
  rw [hsplit, List.nodup_append] at hnodup
  obtain ⟨hnod₁, hnod₂, hdisj⟩ := hnodup
  have hmem₁ : ∀ x ∈ chain next freeHead n, x ∈ chain next freeHead numFree := by
    intro x hx; rw [hsplit]; exact List.mem_append_left _ hx
  have hmem₂ : ∀ x ∈ chain next (next^[n] freeHead) (numFree - n),
      x ∈ chain next freeHead numFree := by
    intro x hx; rw [hsplit]; exact List.mem_append_right _ hx
  constructor
  · exact fun x hx => p.free_lt x (hmem₂ x hx)
  · exact hnod₂
  · intro h x hx
    by_cases hh : h = freeHead
    · subst hh
      rw [update_self] at hx
      exact p.free_lt x (hmem₁ x hx)
    · rw [update_of_ne hh] at hx
      exact p.busy_lt h x hx
  · intro h
    by_cases hh : h = freeHead
    · subst hh
      rwa [update_self]
    · rw [update_of_ne hh]
      exact p.busy_nodup h
  · intro h x hx
    by_cases hh : h = freeHead
    · subst hh
      rw [update_self]
      exact fun hx' => hdisj x hx' x hx rfl
    · rw [update_of_ne hh]
      exact p.free_busy h x (hmem₂ x hx)
  · intro h h' hne' x hx
    by_cases hh : h = freeHead
    · subst hh
      rw [update_self] at hx
      rw [update_of_ne (Ne.symm hne')]
      exact p.free_busy h' x (hmem₁ x hx)
    · rw [update_of_ne hh] at hx
      by_cases hh' : h' = freeHead
      · subst hh'
        rw [update_self]
        exact fun hx' => p.free_busy h x (hmem₁ x hx') hx
      · rw [update_of_ne hh']
        exact p.busy_busy h h' hne' x hx
  · have hsum := sum_range_update len (p.freeHead_lt hne) n
    have := p.total
    omega

/-- Returning the chain handed out at `h`: its last link is set to the old
head of the free chain. -/
theorem release (p : Pool next num freeHead numFree len) {h m : ℕ} (hlen : len h = m + 1) :
    Pool (update next (next^[m] h) freeHead) num h (numFree + (m + 1))
      (update len h 0) := by
  have hlt : h < num := p.head_lt (by omega)
  have hnod := p.busy_nodup h
  rw [hlen] at hnod
  have hlast : next^[m] h ∈ chain next h (len h) := by
    rw [hlen, chain_succ_eq_concat]
    simp
  obtain ⟨hsame, hstep⟩ := chain_update_last hnod freeHead
  have hfreeSame : chain (update next (next^[m] h) freeHead) freeHead numFree =
      chain next freeHead numFree :=
    chain_update_of_notMem (fun hx => p.free_busy h _ hx hlast) freeHead
  have hfree : chain (update next (next^[m] h) freeHead) h (numFree + (m + 1)) =
      chain next h (len h) ++ chain next freeHead numFree := by
    rw [Nat.add_comm, chain_add, hsame, hstep, hfreeSame, hlen]
  have hother : ∀ h', h' ≠ h → chain (update next (next^[m] h) freeHead) h' (len h') =
      chain next h' (len h') :=
    fun h' hh' => chain_update_of_notMem (p.busy_busy h h' (Ne.symm hh') _ hlast) freeHead
  constructor
  · intro x hx
    rw [hfree, List.mem_append] at hx
    exact hx.elim (p.busy_lt h x) (p.free_lt x)
  · rw [hfree, List.nodup_append]
    refine ⟨p.busy_nodup h, p.free_nodup, ?_⟩
    rintro x hx _ hx' rfl
    exact p.free_busy h x hx' hx
  · intro h' x hx
    by_cases hh : h' = h
    · subst hh; simp at hx
    · rw [update_of_ne hh, hother h' hh] at hx
      exact p.busy_lt h' x hx
  · intro h'
    by_cases hh : h' = h
    · subst hh; simp
    · rw [update_of_ne hh, hother h' hh]
      exact p.busy_nodup h'
  · intro h' x hx
    by_cases hh : h' = h
    · subst hh; simp
    · rw [update_of_ne hh, hother h' hh]
      rw [hfree, List.mem_append] at hx
      exact hx.elim (p.busy_busy h h' (Ne.symm hh) x) (p.free_busy h' x)
  · intro h₁ h₂ hne x hx
    by_cases hh₁ : h₁ = h
    · subst hh₁; simp at hx
    · rw [update_of_ne hh₁, hother h₁ hh₁] at hx
      by_cases hh₂ : h₂ = h
      · subst hh₂; simp
      · rw [update_of_ne hh₂, hother h₂ hh₂]
        exact p.busy_busy h₁ h₂ hne x hx
  · have hsum := sum_range_update len hlt 0
    have := p.total
    omega

end Pool

end GfpDrivers.Lib
