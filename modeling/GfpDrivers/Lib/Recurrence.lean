import Mathlib.Data.Set.Finite.Basic
import Mathlib.Order.WellFounded

/-!
Walks along a relation that is not well-founded in general. A walk comes back to a place where it
has been (`Recurs`) or ends, if it can only come to finitely many places (`acc_iff_not_recurs`).

`Acc (flip r) a` is the form in which the end of the walk is used: by induction on it a loop that goes
along `r` returns, and by induction on the rounds of a loop that has returned it holds.
-/

namespace GfpDrivers.Lib

open Relation

variable {α : Type*} {r : α → α → Prop} {a b c : α}

/-- The walk comes to a place that it comes back to. -/
def Recurs (r : α → α → Prop) (a : α) : Prop := ∃ b, ReflTransGen r a b ∧ TransGen r b b

/-- A walk that recurs has a first step after which it still does. -/
theorem Recurs.exists_step (ha : Recurs r a) : ∃ b, r a b ∧ Recurs r b := by
  obtain ⟨c, hac, hcc⟩ := ha
  rcases ReflTransGen.cases_head hac with rfl | ⟨b, hab, hbc⟩
  · obtain ⟨b, hab, hba⟩ := TransGen.head'_iff.mp hcc
    exact ⟨b, hab, a, hba, hcc⟩
  · exact ⟨b, hab, c, hbc, hcc⟩

/-- A walk that ends does so from each place that it comes to. -/
theorem acc_of_reflTransGen (ha : Acc (flip r) a) (hab : ReflTransGen r a b) : Acc (flip r) b := by
  induction hab with
  | refl => exact ha
  | tail _ hbc ih => exact ih.inv hbc

/-- A walk that ends does not recur. -/
theorem not_recurs_of_acc (ha : Acc (flip r) a) : ¬ Recurs r a := by
  induction ha with
  | intro a _ ih =>
    intro hrec
    obtain ⟨b, hab, hb⟩ := hrec.exists_step
    exact ih b hab hb

/-- Among finitely many places a walk ends or recurs. -/
theorem acc_of_not_recurs (hfin : {b | ReflTransGen r a b}.Finite) (ha : ¬ Recurs r a) : Acc (flip r) a := by
  have hfinite : Finite {b // ReflTransGen r a b} := hfin
  let before (x y : {b // ReflTransGen r a b}) : Prop := TransGen r y.1 x.1
  have htrans : IsTrans {b // ReflTransGen r a b} before := ⟨fun _ _ _ hxy hyz => hyz.trans hxy⟩
  have hirrefl : Std.Irrefl before := ⟨fun x hx => ha ⟨x.1, x.2, hx⟩⟩
  have hwf : WellFounded before := Finite.wellFounded_of_trans_of_irrefl before
  have hacc : ∀ x : {b // ReflTransGen r a b}, Acc (flip r) x.1 := fun x => by
    induction x using hwf.induction with
    | _ x ih => exact ⟨_, fun y hy => ih ⟨y, x.2.tail hy⟩ (.single hy)⟩
  exact hacc ⟨a, .refl⟩

theorem acc_iff_not_recurs (hfin : {b | ReflTransGen r a b}.Finite) : Acc (flip r) a ↔ ¬ Recurs r a :=
  ⟨not_recurs_of_acc, acc_of_not_recurs hfin⟩

/-- The places of a walk are among those that the steps stay in. -/
theorem finite_of_closed {s : Set α} (hs : s.Finite) (ha : a ∈ s) (hstep : ∀ b ∈ s, ∀ c, r b c → c ∈ s) :
    {b | ReflTransGen r a b}.Finite := by
  refine hs.subset fun b hb => ?_
  induction hb with
  | refl => exact ha
  | tail _ hbc ih => exact hstep _ ih _ hbc

end GfpDrivers.Lib
