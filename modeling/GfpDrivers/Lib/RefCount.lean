import Mathlib.Algebra.BigOperators.Group.Finset.Piecewise
import Mathlib.Algebra.Order.BigOperators.Group.Finset
import Mathlib.Data.Fintype.EquivFin

/-!
Reference counts in a forest. Each node counts the references that are held on
it from outside, its own ones, and one reference for each child that has a
count. So a first reference on a node takes one on its parent, and the last
one gives it back. The lemmas say how a single reference moves: through the
first and the last reference on a node, and from one parent to another.
-/

namespace GfpDrivers.Lib

open Function

variable {α : Type*} {parent parent' : α → Option α} {own own' n n' : α → ℕ} {c d p : α}
  {q : Option α}

/-! ### Forests by parent links -/

/-- The parent of `c` is `p`. -/
def ChildOf (parent : α → Option α) (c p : α) : Prop := parent c = some p

/-- The parent links lead from `c` to `p` in one or more steps. -/
def Under (parent : α → Option α) : α → α → Prop := Relation.TransGen (ChildOf parent)

/-- No node is under itself. -/
def Acyclic (parent : α → Option α) : Prop := ∀ c, ¬Under parent c c

/-- `d` is `q` or above it. -/
def Above (parent : α → Option α) (q : Option α) (d : α) : Prop :=
  ∃ c ∈ q, Relation.ReflTransGen (ChildOf parent) c d

theorem above_self : Above parent (some c) c := ⟨c, rfl, .refl⟩

theorem Above.of_parent (h : Above parent (parent c) d) : Above parent (some c) d := by
  obtain ⟨p, hp, hd⟩ := h
  exact ⟨c, rfl, .head hp hd⟩

theorem Acyclic.not_above_parent (h : Acyclic parent) : ¬Above parent (parent c) c :=
  fun ⟨_, hp, hc⟩ => h c (.head' hp hc)

theorem under_of_parent (h : parent c = some p) : Under parent c p := Relation.TransGen.single h

/-- Parents come first in some order. -/
theorem acyclic_of_lt (f : α → ℕ) (h : ∀ c p, parent c = some p → f p < f c) : Acyclic parent := by
  have hunder : ∀ {c p}, Under parent c p → f p < f c := by
    intro c p hp
    induction hp with
    | single hp => exact h _ _ hp
    | tail _ hp ih => exact (h _ _ hp).trans ih
  exact fun c hc => lt_irrefl _ (hunder hc)

section Reparent

variable [DecidableEq α]

/-- A path of the new links is a path of the old ones, or its last part is one
that starts at the new parent. -/
theorem reach_of_reparent {x y : α}
    (h : Relation.ReflTransGen (ChildOf (update parent c q)) x y) :
    Relation.ReflTransGen (ChildOf parent) x y ∨
      ∃ p, q = some p ∧ Relation.ReflTransGen (ChildOf parent) p y := by
  induction h using Relation.ReflTransGen.head_induction_on with
  | refl => exact .inl .refl
  | @head x x' hx _ ih =>
    by_cases hxc : x = c
    · subst hxc
      have hq : q = some x' := by simpa [ChildOf] using hx
      exact .inr (ih.elim (fun h => ⟨x', hq, h⟩) id)
    · have hstep : ChildOf parent x x' := by simpa [ChildOf, hxc] using hx
      exact ih.imp_left (.head hstep)

/-- A path of the new links is a path of the old ones, or it goes through the
new link. -/
theorem under_of_reparent {x y : α} (h : Under (update parent c q) x y) :
    Under parent x y ∨ ∃ p, q = some p ∧
      Relation.ReflTransGen (ChildOf (update parent c q)) x c ∧
      Relation.ReflTransGen (ChildOf (update parent c q)) p y := by
  have hlink : ∀ {x' y' : α}, ChildOf (update parent c q) x' y' →
      x' = c ∧ q = some y' ∨ ChildOf parent x' y' := by
    intro x' y' hx
    by_cases hxc : x' = c
    · subst hxc
      exact .inl ⟨rfl, by simpa [ChildOf] using hx⟩
    · exact .inr (by simpa [ChildOf, hxc] using hx)
  induction h with
  | single hx =>
    rcases hlink hx with ⟨rfl, hq⟩ | hx
    · exact .inr ⟨_, hq, .refl, .refl⟩
    · exact .inl (.single hx)
  | tail hxy hy ih =>
    rcases ih with ih | ⟨p, hq, hxc, hp⟩
    · rcases hlink hy with ⟨rfl, hq⟩ | hy
      · exact .inr ⟨_, hq, hxy.to_reflTransGen, .refl⟩
      · exact .inl (ih.tail hy)
    · exact .inr ⟨p, hq, hxc, hp.tail hy⟩

/-- The forest stays one when the new parent is not below the node. -/
theorem Acyclic.reparent (h : Acyclic parent)
    (hq : ∀ p ∈ q, ¬Relation.ReflTransGen (ChildOf parent) p c) :
    Acyclic (update parent c q) := by
  intro x hx
  rcases under_of_reparent hx with hx | ⟨p, hp, hxc, hpx⟩
  · exact h x hx
  · rcases reach_of_reparent (hpx.trans hxc) with hpc | ⟨p', hp', hpc⟩
    · exact hq p hp hpc
    · exact hq p' hp' hpc

/-- The new parent of a node in a forest was not below the node. -/
theorem Acyclic.not_above_of_reparent (h : Acyclic (update parent c q)) : ¬Above parent q c := by
  rintro ⟨p, hp, hpc⟩
  have hpath : Relation.ReflTransGen (ChildOf (update parent c q)) p c := by
    clear hp
    induction hpc using Relation.ReflTransGen.head_induction_on with
    | refl => exact .refl
    | @head x y hxy _ ih =>
      by_cases hx : x = c
      · rw [hx]
      · exact .head (show update parent c q x = some y by rwa [update_of_ne hx]) ih
  exact h c (.head' (show update parent c q c = some p by rwa [update_self]) hpath)

/-- The links of the other nodes are still there when a node gets a parent. -/
theorem Above.of_detached (h : Above (update parent c none) q d) (q' : Option α) :
    Above (update parent c q') q d := by
  obtain ⟨b, hb, hbd⟩ := h
  have hlink : ∀ x y, ChildOf (update parent c none) x y → ChildOf (update parent c q') x y := by
    unfold ChildOf
    intro x y hxy
    by_cases hx : x = c
    · simp [hx] at hxy
    · rwa [update_of_ne hx] at hxy ⊢
  exact ⟨b, hb, hbd.lift id hlink⟩

end Reparent

section Finite

variable [Finite α]

/-- What holds of a node when it holds of its children holds of all nodes. -/
theorem Acyclic.wellFounded (h : Acyclic parent) : WellFounded (Under parent) := by
  have : IsTrans α (Under parent) := ⟨fun _ _ _ => Relation.TransGen.trans⟩
  have : Std.Irrefl (Under parent) := ⟨h⟩
  exact Finite.wellFounded_of_trans_of_irrefl (Under parent)

end Finite

section Depth

variable [Fintype α]

open Classical in
/-- The number of nodes above a node. -/
noncomputable def depth (parent : α → Option α) (c : α) : ℕ :=
  (Finset.univ.filter (Under parent c)).card

open Classical in
theorem Acyclic.depth_lt (h : Acyclic parent) (hp : parent c = some p) :
    depth parent p < depth parent c := by
  refine Finset.card_lt_card (Finset.ssubset_iff_of_subset ?_ |>.mpr ⟨p, ?_, ?_⟩)
  · intro d hd
    simp only [Finset.mem_filter, Finset.mem_univ, true_and] at hd ⊢
    exact Relation.TransGen.head hp hd
  · simpa using under_of_parent hp
  · simpa using h p

open Classical in
theorem Acyclic.depth_lt_card (h : Acyclic parent) : depth parent c < Fintype.card α :=
  Finset.card_lt_univ_of_notMem (x := c) (by simpa using h c)

end Depth

/-! ### Counts -/

section Hold

variable [DecidableEq α]

/-- One more reference on `q`. -/
def hold (own : α → ℕ) (q : Option α) (c : α) : ℕ := own c + if q = some c then 1 else 0

@[simp] theorem hold_none : hold own none = own := by
  funext c
  simp [hold]

theorem hold_some : hold own (some c) = update own c (own c + 1) := by
  funext d
  by_cases hd : d = c
  · subst hd
    simp [hold]
  · simp [hold, hd, Ne.symm hd]

theorem hold_comm {q q' : Option α} : hold (hold own q) q' = hold (hold own q') q := by
  funext c
  simp only [hold]
  omega

end Hold

section Counts

variable [Fintype α] [DecidableEq α]

/-- The number of children with a count. -/
def refs (parent : α → Option α) (n : α → ℕ) (c : α) : ℕ :=
  (Finset.univ.filter fun d => parent d = some c ∧ 0 < n d).card

/-- Each node counts its own references and one for each child with a count. -/
def Balanced (parent : α → Option α) (own n : α → ℕ) : Prop := ∀ c, n c = own c + refs parent n c

theorem refs_congr (h : ∀ d, 0 < n' d ↔ 0 < n d) : refs parent n' = refs parent n := by
  funext c
  simp only [refs, h]

theorem refs_pos (hp : parent c = some p) (hc : 0 < n c) : 0 < refs parent n p :=
  Finset.card_pos.mpr ⟨c, by simp [hp, hc]⟩

/-- A node that gets its first reference counts for its parent. -/
theorem refs_update {k : ℕ} (hc : n c = 0) (hk : 0 < k) :
    refs parent (update n c k) p = refs parent n p + if parent c = some p then 1 else 0 := by
  have hset : (Finset.univ.filter fun d => parent d = some p ∧ 0 < update n c k d) =
      if parent c = some p then insert c (Finset.univ.filter fun d => parent d = some p ∧ 0 < n d)
      else Finset.univ.filter fun d => parent d = some p ∧ 0 < n d := by
    ext d
    by_cases hd : d = c
    · subst hd
      by_cases hp : parent d = some p <;> simp [hp, hk]
    · by_cases hp : parent c = some p <;> simp [hp, hd]
  rw [refs, hset]
  split
  · rw [Finset.card_insert_of_notMem (by simp [hc])]
    rfl
  · rfl

/-- A node with a count takes its reference along to its new parent. -/
theorem refs_reparent (hc : 0 < n c) :
    refs (update parent c q) n p + (if parent c = some p then 1 else 0) =
      refs parent n p + if q = some p then 1 else 0 := by
  have hsplit : ∀ f : α → Option α, refs f n p =
      ((Finset.univ.erase c).filter fun d => f d = some p ∧ 0 < n d).card +
        if f c = some p then 1 else 0 := by
    intro f
    rw [refs, ← Finset.insert_erase (Finset.mem_univ c), Finset.filter_insert,
      Finset.erase_insert_eq_erase]
    by_cases hf : f c = some p
    · rw [if_pos ⟨hf, hc⟩, if_pos hf, Finset.card_insert_of_notMem (by simp)]
      simp
    · rw [if_neg fun h => hf h.1, if_neg hf]
      simp
  have hrest : ((Finset.univ.erase c).filter fun d => update parent c q d = some p ∧ 0 < n d) =
      (Finset.univ.erase c).filter fun d => parent d = some p ∧ 0 < n d := by
    refine Finset.filter_congr fun d hd => ?_
    rw [update_of_ne (Finset.ne_of_mem_erase hd)]
  rw [hsplit parent, hsplit (update parent c q), hrest, update_self]
  omega

/-- A node without a count is of no account for its parents. -/
theorem refs_reparent_zero (hc : n c = 0) :
    refs (update parent c q) n p = refs parent n p := by
  refine congrArg Finset.card (Finset.filter_congr fun d _ => ?_)
  by_cases hd : d = c
  · subst hd
    simp [hc]
  · rw [update_of_ne hd]

namespace Balanced

theorem pos_parent (h : Balanced parent own n) (hp : parent c = some p) (hc : 0 < n c) : 0 < n p := by
  have := refs_pos hp hc
  rw [h p]
  omega

theorem pos_above (h : Balanced parent own n) (hq : ∀ c ∈ q, 0 < n c) (hd : Above parent q d) : 0 < n d := by
  obtain ⟨c, hc, hcd⟩ := hd
  induction hcd with
  | refl => exact hq c hc
  | tail _ hp ih => exact h.pos_parent hp ih

theorem pos_of_hold (h : Balanced parent (hold own (some c)) n) : 0 < n c := by
  rw [h c, hold, if_pos rfl]
  omega

/-- One more reference on a node that has some. -/
theorem take (h : Balanced parent own n) (hc : 0 < n c) :
    Balanced parent (hold own (some c)) (update n c (n c + 1)) := by
  have hrefs : refs parent (update n c (n c + 1)) = refs parent n := by
    refine refs_congr fun d => ?_
    by_cases hd : d = c
    · subst hd
      simp [hc]
    · simp [hd]
  intro d
  rw [hrefs, hold_some]
  by_cases hd : d = c
  · subst hd
    have := h d
    simp only [update_self]
    omega
  · simpa [hd] using h d

/-- The first reference on a node, after one on its parent. -/
theorem take_first (h : Balanced parent (hold own (parent c)) n) (hc : n c = 0) :
    Balanced parent (hold own (some c)) (update n c 1) := by
  intro d
  rw [refs_update hc Nat.one_pos, hold_some]
  have hd := h d
  simp only [hold] at hd
  by_cases hdc : d = c
  · subst hdc
    simp only [update_self]
    omega
  · simp only [update_of_ne hdc]
    omega

/-- A reference is given back, and others stay. -/
theorem drop (h : Balanced parent (hold own (some c)) n) (hc : 1 < n c) :
    Balanced parent own (update n c (n c - 1)) := by
  have hrefs : refs parent (update n c (n c - 1)) = refs parent n := by
    refine refs_congr fun d => ?_
    by_cases hd : d = c
    · subst hd
      simp only [update_self]
      omega
    · simp [hd]
  intro d
  rw [hrefs]
  have hd := h d
  rw [hold_some] at hd
  by_cases hdc : d = c
  · subst hdc
    simp only [update_self] at hd ⊢
    omega
  · simpa [hdc] using hd

/-- The last reference is given back, and one on the parent is left over. -/
theorem drop_last (h : Balanced parent (hold own (some c)) n) (hc : n c = 1) :
    Balanced parent (hold own (parent c)) (update n c 0) := by
  have hback : n = update (update n c 0) c 1 := by
    rw [update_idem, ← hc, update_eq_self]
  intro d
  have hd := h d
  have hrefs : refs parent n d =
      refs parent (update n c 0) d + if parent c = some d then 1 else 0 := by
    conv_lhs => rw [hback]
    exact refs_update (update_self ..) Nat.one_pos
  rw [hrefs, hold_some] at hd
  simp only [hold]
  by_cases hdc : d = c
  · subst hdc
    simp only [update_self] at hd ⊢
    omega
  · simp only [update_of_ne hdc] at hd ⊢
    omega

/-- A node with a count goes from one parent to another, and a reference on the
new parent becomes one on the old parent. -/
theorem move (h : Balanced parent (hold own q) n) (hc : 0 < n c) :
    Balanced (update parent c q) (hold own (parent c)) n := by
  intro d
  have hd := h d
  have hrefs : refs (update parent c q) n d + (if parent c = some d then 1 else 0) =
      refs parent n d + if q = some d then 1 else 0 := refs_reparent hc
  simp only [hold] at hd ⊢
  omega

theorem move_zero (h : Balanced parent own n) (hc : n c = 0) :
    Balanced (update parent c q) own n := by
  intro d
  rw [refs_reparent_zero hc]
  exact h d

/-- The counts in a part of the forest that holds all nodes below its nodes are
given by the own references there. -/
theorem eq_on {D : Set α} (hacyc : Acyclic parent) (h : Balanced parent own n)
    (h' : Balanced parent' own' n') (hD : ∀ c ∈ D, ∀ d, parent d = some c → d ∈ D)
    (hpar : ∀ c ∈ D, ∀ d, parent' d = some c ↔ parent d = some c) (hown : ∀ c ∈ D, own' c = own c) :
    ∀ c ∈ D, n' c = n c := by
  intro c
  induction c using hacyc.wellFounded.induction with
  | h c ih =>
    intro hc
    rw [h c, h' c, hown c hc]
    refine congrArg (own c + ·) (congrArg Finset.card (Finset.filter_congr fun d _ => ?_))
    rw [hpar c hc d]
    refine and_congr_right fun hd => ?_
    rw [ih d (under_of_parent hd) (hD c hc d hd)]

/-- The counts are given by the own references. -/
theorem unique (hacyc : Acyclic parent) (h : Balanced parent own n) (h' : Balanced parent own n') :
    n' = n :=
  funext fun c => h.eq_on hacyc h' (D := Set.univ) (fun _ _ _ _ => trivial) (fun _ _ _ => Iff.rfl)
    (fun _ _ => rfl) c trivial

/-- Where all own references of one kind come with one of the other kind, a
count of the one kind comes with a count of the other. -/
theorem pos_of_pos (hacyc : Acyclic parent) (h : Balanced parent own n) (h' : Balanced parent own' n')
    (hown : ∀ c, 0 < own c → 0 < own' c) : ∀ c, 0 < n c → 0 < n' c := by
  intro c
  induction c using hacyc.wellFounded.induction with
  | h c ih =>
    intro hc
    rw [h c] at hc
    rw [h' c]
    by_cases hzero : own c = 0
    · obtain ⟨d, hd⟩ := Finset.card_pos.mp (by omega : 0 < refs parent n c)
      simp only [Finset.mem_filter, Finset.mem_univ, true_and] at hd
      have := refs_pos hd.1 (ih d (under_of_parent hd.1) hd.2)
      omega
    · have := hown c (by omega)
      omega

end Balanced

end Counts

/-! ### Taking and giving back -/

/-- There are enough rounds to get from `q` to the top. -/
def Reaches (parent : α → Option α) : ℕ → Option α → Prop
  | _, none => True
  | 0, some _ => False
  | fuel + 1, some c => Reaches parent fuel (parent c)

theorem Acyclic.reaches [Fintype α] (h : Acyclic parent) {fuel : ℕ} (hfuel : Fintype.card α ≤ fuel) :
    Reaches parent fuel q := by
  have hdepth : ∀ fuel (q : Option α), (∀ c ∈ q, depth parent c < fuel) → Reaches parent fuel q := by
    intro fuel
    induction fuel with
    | zero =>
      intro q hq
      cases q with
      | none => trivial
      | some c => exact absurd (hq c rfl) (by omega)
    | succ fuel ih =>
      intro q hq
      cases q with
      | none => trivial
      | some c =>
        refine ih _ fun p hp => ?_
        have := hq c rfl
        have := h.depth_lt hp
        omega
  exact hdepth fuel q fun c _ => h.depth_lt_card.trans_le hfuel

section Walks

variable [DecidableEq α]

/-- Takes a reference on `q`, which may need one on its parent first. -/
def acquire (parent : α → Option α) : ℕ → (α → ℕ) → Option α → Option (α → ℕ)
  | _, n, none => some n
  | 0, _, some _ => none
  | fuel + 1, n, some c =>
      (if n c = 0 then acquire parent fuel n (parent c) else some n).map fun n =>
        Function.update n c (n c + 1)

/-- Gives a reference on `q` back. A node without one is left alone, and so is
the last one of a node that `keep` is for. -/
def release (parent : α → Option α) (keep : α → Bool) : ℕ → (α → ℕ) → Option α → Option (α → ℕ)
  | _, n, none => some n
  | 0, _, some _ => none
  | fuel + 1, n, some c =>
      if n c = 0 ∨ n c = 1 ∧ keep c then some n
      else if 1 < n c then some (Function.update n c (n c - 1))
      else release parent keep fuel (Function.update n c 0) (parent c)

theorem acquire_succ (parent : α → Option α) (fuel : ℕ) (n : α → ℕ) (c : α) :
    acquire parent (fuel + 1) n (some c) =
      (if n c = 0 then acquire parent fuel n (parent c) else some n).map fun n => update n c (n c + 1) := rfl

theorem release_succ (parent : α → Option α) (keep : α → Bool) (fuel : ℕ) (n : α → ℕ) (c : α) :
    release parent keep (fuel + 1) n (some c) =
      if n c = 0 ∨ n c = 1 ∧ keep c then some n
      else if 1 < n c then some (update n c (n c - 1))
      else release parent keep fuel (update n c 0) (parent c) := rfl

variable {fuel : ℕ} {keep : α → Bool}

/-- Only nodes above `q` are touched. -/
theorem acquire_frame (h : acquire parent fuel n q = some n') (hd : ¬Above parent q d) : n' d = n d := by
  induction fuel generalizing n' q with
  | zero =>
    cases q with
    | none => rw [← Option.some.inj h]
    | some c => cases h
  | succ fuel ih =>
    cases q with
    | none => rw [← Option.some.inj h]
    | some c =>
      have hne : d ≠ c := fun heq => hd (heq ▸ above_self)
      obtain ⟨n₁, hn₁, rfl⟩ := Option.map_eq_some_iff.mp h
      rw [update_of_ne hne]
      split at hn₁
      · exact ih hn₁ fun habove => hd habove.of_parent
      · rw [Option.some.inj hn₁]

/-- The node itself gets one more reference. -/
theorem acquire_self (hacyc : Acyclic parent) (h : acquire parent fuel n (some c) = some n') :
    n' c = n c + 1 := by
  cases fuel with
  | zero => cases h
  | succ fuel =>
    obtain ⟨n₁, hn₁, rfl⟩ := Option.map_eq_some_iff.mp h
    rw [update_self]
    split at hn₁
    · rw [acquire_frame hn₁ hacyc.not_above_parent]
    · rw [Option.some.inj hn₁]

theorem exists_acquire (n : α → ℕ) (h : Reaches parent fuel q) :
    ∃ n', acquire parent fuel n q = some n' := by
  induction fuel generalizing q with
  | zero =>
    cases q with
    | none => exact ⟨n, rfl⟩
    | some c => exact h.elim
  | succ fuel ih =>
    cases q with
    | none => exact ⟨n, rfl⟩
    | some c =>
      obtain ⟨n₁, hn₁⟩ := ih h
      by_cases hc : n c = 0
      · exact ⟨update n₁ c (n₁ c + 1), by simp [acquire_succ, hc, hn₁]⟩
      · exact ⟨update n c (n c + 1), by simp [acquire_succ, hc]⟩

theorem exists_release (keep : α → Bool) (n : α → ℕ) (h : Reaches parent fuel q) :
    ∃ n', release parent keep fuel n q = some n' := by
  induction fuel generalizing n q with
  | zero =>
    cases q with
    | none => exact ⟨n, rfl⟩
    | some c => exact h.elim
  | succ fuel ih =>
    cases q with
    | none => exact ⟨n, rfl⟩
    | some c =>
      rw [release_succ]
      split
      · exact ⟨n, rfl⟩
      · split
        · exact ⟨_, rfl⟩
        · exact ih _ h

/-- What was taken can be given back. -/
theorem release_acquire (hacyc : Acyclic parent) (h : acquire parent fuel n q = some n')
    (hkeep : ∀ c, Above parent q c → keep c → 0 < n c) : release parent keep fuel n' q = some n := by
  induction fuel generalizing n' q with
  | zero =>
    cases q with
    | none => exact h.symm
    | some c => cases h
  | succ fuel ih =>
    cases q with
    | none => exact h.symm
    | some c =>
      obtain ⟨n₁, hn₁, rfl⟩ := Option.map_eq_some_iff.mp h
      split at hn₁
      case isTrue hc =>
        have hn₁c : n₁ c = 0 := by
          rw [acquire_frame hn₁ hacyc.not_above_parent, hc]
        have hnot : ¬keep c := fun hk => by
          have := hkeep c above_self hk
          omega
        have hback : update (update n₁ c (n₁ c + 1)) c 0 = n₁ := by
          rw [update_idem, ← hn₁c, update_eq_self]
        simp only [release_succ, update_self, hn₁c, hnot]
        rw [hn₁c] at hback
        simpa [hback] using ih hn₁ fun d hd => hkeep d hd.of_parent
      case isFalse hc =>
        obtain rfl := Option.some.inj hn₁
        simp only [release_succ, update_self, update_idem]
        rw [if_neg (by omega), if_pos (by omega), Nat.add_sub_cancel, update_eq_self]

theorem release_frame (h : release parent keep fuel n q = some n') (hd : ¬Above parent q d) : n' d = n d := by
  induction fuel generalizing n q with
  | zero =>
    cases q with
    | none => rw [← Option.some.inj h]
    | some c => cases h
  | succ fuel ih =>
    cases q with
    | none => rw [← Option.some.inj h]
    | some c =>
      have hne : d ≠ c := fun heq => hd (heq ▸ above_self)
      rw [release_succ] at h
      split at h
      · rw [← Option.some.inj h]
      · split at h
        · rw [← Option.some.inj h, update_of_ne hne]
        · rw [ih h fun habove => hd habove.of_parent, update_of_ne hne]

theorem release_le (h : release parent keep fuel n q = some n') : n' d ≤ n d := by
  induction fuel generalizing n q with
  | zero =>
    cases q with
    | none => rw [← Option.some.inj h]
    | some c => cases h
  | succ fuel ih =>
    cases q with
    | none => rw [← Option.some.inj h]
    | some c =>
      have hupdate : ∀ k, k ≤ n c → update n c k d ≤ n d := by
        intro k hk
        by_cases hd : d = c
        · rw [hd, update_self]
          exact hk
        · rw [update_of_ne hd]
      rw [release_succ] at h
      split at h
      · rw [← Option.some.inj h]
      · split at h
        · rw [← Option.some.inj h]
          exact hupdate _ (Nat.sub_le _ _)
        · exact (ih h).trans (hupdate 0 (Nat.zero_le _))

/-- What was given back can be taken again, where each node with a reference has
one on its parent. -/
theorem acquire_release (hacyc : Acyclic parent) (hq : ∀ c ∈ q, 0 < n c)
    (hup : ∀ c p, Above parent q c → parent c = some p → 0 < n c → 0 < n p)
    (h : release parent (fun _ => false) fuel n q = some n') : acquire parent fuel n' q = some n := by
  induction fuel generalizing n q with
  | zero =>
    cases q with
    | none => exact h.symm
    | some c => cases h
  | succ fuel ih =>
    cases q with
    | none => exact h.symm
    | some c =>
      have hpos := hq c rfl
      rw [release_succ, if_neg (by simp; omega)] at h
      by_cases hone : 1 < n c
      · rw [if_pos hone] at h
        obtain rfl := Option.some.inj h
        rw [acquire_succ, update_self, if_neg (by omega), Option.map_some, update_self,
          update_idem, Nat.sub_add_cancel hpos, update_eq_self]
      · rw [if_neg hone] at h
        have hne : ∀ d, Above parent (parent c) d → d ≠ c := fun d hd heq =>
          hacyc.not_above_parent (heq ▸ hd)
        have hrest := ih (n := update n c 0) (q := parent c)
          (fun p hp => by
            rw [update_of_ne (hne p ⟨p, hp, .refl⟩)]
            exact hup c p above_self hp hpos)
          (fun d p hd hp hpos => by
            obtain ⟨e, he, hed⟩ := hd
            rw [update_of_ne (hne d ⟨e, he, hed⟩)] at hpos
            rw [update_of_ne (hne p ⟨e, he, hed.tail hp⟩)]
            exact hup d p (Above.of_parent ⟨e, he, hed⟩) hp hpos) h
        have hzero : n' c = 0 := by
          rw [release_frame h hacyc.not_above_parent, update_self]
        rw [acquire_succ, if_pos hzero, hrest, Option.map_some, update_self, update_idem,
          show 0 + 1 = n c by omega, update_eq_self]

section Counts

variable [Fintype α]

theorem balanced_of_release (h : Balanced parent (hold own q) n) (hkeep : ∀ c, keep c → 0 < own c)
    (hn : release parent keep fuel n q = some n') : Balanced parent own n' := by
  induction fuel generalizing n q with
  | zero =>
    cases q with
    | none => exact Option.some.inj hn ▸ by simpa using h
    | some c => cases hn
  | succ fuel ih =>
    cases q with
    | none => exact Option.some.inj hn ▸ by simpa using h
    | some c =>
      have hpos : 0 < n c := h.pos_of_hold
      have hstop : ¬(n c = 0 ∨ n c = 1 ∧ keep c) := by
        rintro (hc | ⟨hc, hk⟩)
        · omega
        · have := hkeep c hk
          have := h c
          simp only [hold, if_true] at this
          omega
      rw [release_succ, if_neg hstop] at hn
      split at hn
      · next hc => exact Option.some.inj hn ▸ h.drop hc
      · exact ih (h.drop_last (by omega)) hn

theorem acquire_balanced (hacyc : Acyclic parent) (h : Balanced parent own n)
    (hn : acquire parent fuel n q = some n') : Balanced parent (hold own q) n' := by
  induction fuel generalizing n' q with
  | zero =>
    cases q with
    | none =>
      rw [hold_none, ← Option.some.inj hn]
      exact h
    | some c => cases hn
  | succ fuel ih =>
    cases q with
    | none =>
      rw [hold_none, ← Option.some.inj hn]
      exact h
    | some c =>
      obtain ⟨n₁, hn₁, rfl⟩ := Option.map_eq_some_iff.mp hn
      split at hn₁
      case isTrue hc =>
        have hn₁c : n₁ c = 0 := by
          rw [acquire_frame hn₁ hacyc.not_above_parent, hc]
        rw [hn₁c]
        exact (ih hn₁).take_first hn₁c
      case isFalse hc =>
        obtain rfl := Option.some.inj hn₁
        exact h.take (by omega)

theorem release_balanced (h : Balanced parent (hold own q) n) (hkeep : ∀ c, keep c → 0 < own c)
    (hfuel : Reaches parent fuel q) :
    ∃ n', release parent keep fuel n q = some n' ∧ Balanced parent own n' := by
  obtain ⟨n', hn'⟩ := exists_release keep n hfuel
  exact ⟨n', hn', balanced_of_release h hkeep hn'⟩

/-- The reference that a node with a count has on its parent is given back, and
one on the new parent is taken. Nothing happens for a node without a count. -/
def Carried (parent : α → Option α) (fuel : ℕ) (c : α) (q : Option α) (n n' : α → ℕ) : Prop :=
  if n c = 0 then n' = n
  else
    ∃ n₁, release (Function.update parent c none) (fun _ => false) fuel n (parent c) = some n₁ ∧
      acquire (Function.update parent c none) fuel n₁ q = some n'

/-- If the own references stay, the counts change as the node goes to another
parent, and not in any other way. -/
theorem Balanced.carried (hacyc : Acyclic parent) (hacyc' : Acyclic (update parent c q))
    (h : Balanced parent own n) (h' : Balanced (update parent c q) own n')
    (hfuel : Fintype.card α ≤ fuel) : Carried parent fuel c q n n' := by
  unfold Carried
  split
  · next hc => exact (h.move_zero hc).unique hacyc' h'
  · next hc =>
      have hdetached : Acyclic (update parent c none) := hacyc.reparent (by simp)
      have hmove : Balanced (update parent c none) (hold own (parent c)) n :=
        Balanced.move (by simpa using h) (Nat.pos_of_ne_zero hc)
      obtain ⟨n₁, hn₁, hbal₁⟩ : ∃ n₁, release (update parent c none) (fun _ => false) fuel n
          (parent c) = some n₁ ∧ Balanced (update parent c none) own n₁ :=
        release_balanced hmove (by simp) (hdetached.reaches hfuel)
      obtain ⟨n₂, hn₂⟩ := exists_acquire n₁ (hdetached.reaches hfuel : Reaches _ fuel q)
      have hbal₂ := acquire_balanced hdetached hbal₁ hn₂
      -- neither of the walks comes to the node itself
      have hold_ne : ¬Above (update parent c none) (parent c) c := by
        intro habove
        have := habove.of_detached (parent c)
        rw [update_eq_self] at this
        exact hacyc.not_above_parent this
      have hnew_ne : ¬Above (update parent c none) q c := by
        intro habove
        have hparent := hacyc'.not_above_parent (c := c)
        rw [update_self] at hparent
        exact hparent (habove.of_detached q)
      have hpos : 0 < n₂ c := by
        rw [acquire_frame hn₂ hnew_ne, release_frame hn₁ hold_ne]
        exact Nat.pos_of_ne_zero hc
      have hbal := hbal₂.move hpos
      rw [update_idem, update_self, hold_none] at hbal
      exact ⟨n₁, hn₁, hbal.unique hacyc' h' ▸ hn₂⟩

end Counts

end Walks

/-! ### Holders -/

section Holders

variable {ι : Type*} [Fintype ι] [DecidableEq ι] {target : ι → α} {l : ι → ℕ} {i : ι}

theorem sum_update (q : ι → Prop) [DecidablePred q] (f : ι → ℕ) (i : ι) (n : ℕ) :
    (∑ j with q j, update f i n j) + (if q i then f i else 0) =
      (∑ j with q j, f j) + if q i then n else 0 := by
  by_cases hi : q i
  · have hmem : i ∈ Finset.univ.filter q := by simp [hi]
    rw [Finset.sum_update_of_mem hmem, if_pos hi, if_pos hi, ← Finset.sum_sdiff (Finset.singleton_subset_iff.2 hmem),
      Finset.sum_singleton]
    omega
  · rw [if_neg hi, if_neg hi]
    congr 1
    refine Finset.sum_congr rfl fun j hj => update_of_ne ?_ _ _
    rintro rfl
    exact hi (Finset.mem_filter.1 hj).2

variable [DecidableEq α]

/-- The references on a node that its holders have, where `target` gives the node
of a holder. -/
def heldBy (target : ι → α) (l : ι → ℕ) (c : α) : ℕ := ∑ i with target i = c, l i

/-- A holder takes one more. -/
theorem heldBy_take :
    heldBy target (update l i (l i + 1)) = hold (heldBy target l) (some (target i)) := by
  funext c
  have hsum := sum_update (fun j => target j = c) l i (l i + 1)
  simp only [heldBy, hold, Option.some.injEq]
  by_cases hi : target i = c
  · rw [if_pos hi, if_pos hi] at hsum
    rw [if_pos hi]
    omega
  · rw [if_neg hi, if_neg hi] at hsum
    rw [if_neg hi]
    exact hsum

omit [DecidableEq ι] in
theorem le_heldBy (target : ι → α) (l : ι → ℕ) (i : ι) : l i ≤ heldBy target l (target i) :=
  Finset.single_le_sum (fun _ _ => Nat.zero_le _) (by simp)

omit [DecidableEq ι] in
theorem exists_of_heldBy_pos (h : 0 < heldBy target l c) : ∃ i, target i = c ∧ 0 < l i := by
  obtain ⟨i, hi, hpos⟩ := Finset.exists_ne_zero_of_sum_ne_zero (Nat.ne_of_gt h)
  exact ⟨i, (Finset.mem_filter.mp hi).2, Nat.pos_of_ne_zero hpos⟩

end Holders

end GfpDrivers.Lib
