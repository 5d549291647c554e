import GfpDrivers.Of.DmaLimit
import GfpDrivers.Of.PhandleCache

/-!
What the parsers of references read of a device tree that does not change: properties, parents,
and the nodes that phandles lead to. The lookups of phandles write to the cache, but what they
find does not depend on it (`CacheOk.exists_view`).
-/

namespace GfpDrivers

def EFAULT : ℤ := 14
def EOVERFLOW : ℤ := 75

namespace Of

open Lib

/-- The results of `of_get_property`, `of_get_parent` and `of_find_node_by_phandle`, and the names
of the nodes. -/
structure TreeView where
  ofGetProperty : ℕ → String → Option (Bytes × ℕ)
  fullName : ℕ → String
  ofGetParent : ℕ → Option ℕ
  ofFindNodeByPhandle : ℕ → Option ℕ
  find_zero : ofFindNodeByPhandle 0 = none

namespace TreeView

/-- `of_property_read_u32` -/
def ofPropertyReadU32 (v : TreeView) (np : ℕ) (name : String) : Except ℤ ℕ :=
  match v.ofGetProperty np name with
  | none => .error (-EINVAL)
  | some (value, length) => if length < 4 then .error (-EOVERFLOW) else .ok (be32ToCpup value)

/-- `of_property_read_u32_index`. The offset behind the cell is a number of 32 bits. -/
def ofPropertyReadU32Index (v : TreeView) (np : ℕ) (name : String) (index : ℕ) : Except ℤ ℕ :=
  match v.ofGetProperty np name with
  | none => .error (-EINVAL)
  | some (value, length) =>
      if length < (index + 1) % 2 ^ 32 * 4 % 2 ^ 32 then .error (-EOVERFLOW) else .ok (cells value index)

/-- `of_device_is_available` -/
def ofDeviceIsAvailable (v : TreeView) (device : ℕ) : Bool :=
  match v.ofGetProperty device "status" with
  | none => true
  | some (value, statlen) => 0 < statlen && (strEq value "okay" || strEq value "ok")

/-- The view shows what the functions return for the nodes of the live tree. -/
structure Shows (v : TreeView) (s : DevTree) : Prop where
  property : ∀ np, Live s np → ∀ name, Returns (fun fuel => Of.ofGetProperty fuel s np name) (v.ofGetProperty np name)
  fullName : ∀ np, v.fullName np = (s.node np).fullName
  parent : ∀ np, v.ofGetParent np = (s.node np).parent
  phandle : ∀ handle, ∃ s', Returns (fun fuel => Of.ofFindNodeByPhandle fuel s handle) (s', v.ofFindNodeByPhandle handle)

end TreeView

variable {s s' : DevTree} {r np n handle fuel : ℕ} {K : Forest ℕ} {v : TreeView} {found : Option ℕ}

theorem be32ToCpup_lt (b : Bytes) : be32ToCpup b < 2 ^ 32 := by
  have h₀ := (b 0).toNat_lt
  have h₁ := (b 1).toNat_lt
  have h₂ := (b 2).toNat_lt
  have h₃ := (b 3).toNat_lt
  unfold be32ToCpup
  omega

namespace TreeView

theorem ofPropertyReadU32_lt {name : String} {x : ℕ} (h : v.ofPropertyReadU32 np name = .ok x) : x < 2 ^ 32 := by
  unfold ofPropertyReadU32 at h
  cases hprop : v.ofGetProperty np name with
  | none => simp [hprop] at h
  | some p =>
    obtain ⟨value, length⟩ := p
    simp only [hprop] at h
    split_ifs at h
    obtain rfl := Except.ok.inj h
    exact be32ToCpup_lt value

theorem Shows.available (h : v.Shows s) (hlive : Live s np) :
    Returns (fun fuel => Of.ofDeviceIsAvailable fuel s np) (v.ofDeviceIsAvailable np) := by
  obtain ⟨k, hk⟩ := h.property np hlive "status"
  refine ⟨k, fun fuel hfuel => ?_⟩
  have hprop : Of.ofGetProperty fuel s np "status" = some (v.ofGetProperty np "status") := hk fuel hfuel
  change (Of.ofGetProperty fuel s np "status").map _ = _
  rw [hprop]
  rfl

end TreeView

theorem Returns.below {α : Type} {f : ℕ → ℕ → Option α} {a : ℕ → α} {n : ℕ}
    (h : ∀ j < n, Returns (f j) (a j)) : ∃ k, ∀ fuel ≥ k, ∀ j < n, f j fuel = some (a j) := by
  induction n with
  | zero => exact ⟨0, fun _ _ j hj => absurd hj (Nat.not_lt_zero j)⟩
  | succ n ih =>
    obtain ⟨k, hk⟩ := ih fun j hj => h j (hj.trans (Nat.lt_succ_self n))
    obtain ⟨k', hk'⟩ := h n (Nat.lt_succ_self n)
    refine ⟨max k k', fun fuel hfuel j hj => ?_⟩
    rcases Nat.lt_succ_iff_lt_or_eq.mp hj with hj | rfl
    · exact hk fuel (by omega) j hj
    · exact hk' fuel (by omega)

/-! ### The view of a live tree -/

theorem ofFindNodeByPhandle_frame (h : ofFindNodeByPhandle fuel s handle = some (s', found)) :
    ∃ cache, s' = { s with phandleCache := cache } := by
  unfold ofFindNodeByPhandle at h
  split_ifs at h with hzero
  · obtain ⟨rfl, -⟩ := Prod.mk.inj (Option.some.inj h)
    exact ⟨_, rfl⟩
  · cases hhit : phandleCacheHit s handle with
    | some c =>
      simp only [hhit] at h
      obtain ⟨rfl, -⟩ := Prod.mk.inj (Option.some.inj h)
      exact ⟨_, rfl⟩
    | none =>
      simp only [hhit] at h
      obtain ⟨scanned, -, h⟩ := Option.map_eq_some_iff.mp h
      cases scanned with
      | none =>
        obtain ⟨rfl, -⟩ := Prod.mk.inj h
        exact ⟨_, rfl⟩
      | some c =>
        obtain ⟨rfl, -⟩ := Prod.mk.inj h
        exact ⟨_, rfl⟩

theorem ofGetProperty_listed {as : List ℕ} (h : Chain .next s.link (.properties np) as) (name : String) :
    ∃ value, Returns (fun fuel => ofGetProperty fuel s np name) value := by
  obtain ⟨bs, cs, -, -, -, hwalk⟩ := h.walk_eq (fun pp => (s.prop pp).name = name) (Nat.lt_succ_self as.length)
  have hget : ∃ value, ofGetProperty (as.length + 1) s np name = some value := by
    unfold ofGetProperty ofFindProperty walkProps
    rw [hwalk]
    exact ⟨_, rfl⟩
  obtain ⟨value, hvalue⟩ := hget
  exact ⟨value, ofGetProperty_returns hvalue⟩

theorem CacheOk.exists_view (h : CacheOk s r K)
    (hprops : ∀ np, Live s np → ∃ as, Chain .next s.link (.properties np) as) : ∃ v : TreeView, v.Shows s := by
  have hget : ∀ np name, ∃ value, Live s np → Returns (fun fuel => ofGetProperty fuel s np name) value := by
    intro np name
    by_cases hlive : Live s np
    · obtain ⟨as, has⟩ := hprops np hlive
      obtain ⟨value, hvalue⟩ := ofGetProperty_listed has name
      exact ⟨value, fun _ => hvalue⟩
    · exact ⟨none, fun hnp => absurd hnp hlive⟩
  choose prop hprop using hget
  let find : ℕ → Option ℕ := fun handle =>
    if handle = 0 then none else (Forest.cons r K .nil).nodes.find? fun n => Matches s handle n
  refine ⟨⟨prop, fun np => (s.node np).fullName, fun np => (s.node np).parent, find, rfl⟩,
    fun np hnp name => hprop np name hnp, fun _ => rfl, fun _ => rfl, fun handle => ?_⟩
  by_cases hzero : handle = 0
  · exact ⟨s, 0, fun fuel _ => by simp [ofFindNodeByPhandle, find, hzero]⟩
  · obtain ⟨s', hs', -⟩ := h.find hzero
    refine ⟨s', ?_⟩
    simp only [find, if_neg hzero]
    exact hs'

theorem TreeView.Shows.find_eq (h : v.Shows s) (hcache : CacheOk s r K) (hhandle : handle ≠ 0) :
    v.ofFindNodeByPhandle handle = (Forest.cons r K .nil).nodes.find? fun n => Matches s handle n := by
  obtain ⟨s₁, h₁⟩ := h.phandle handle
  obtain ⟨s₂, h₂, -⟩ := hcache.find hhandle
  exact (Prod.mk.inj (h₁.unique h₂)).2

/-- A lookup finds what the view shows, and the view stays the same afterwards. -/
theorem TreeView.Shows.find (h : v.Shows s) (hcache : CacheOk s r K)
    (hfind : Returns (fun fuel => Of.ofFindNodeByPhandle fuel s handle) (s', found)) :
    found = v.ofFindNodeByPhandle handle ∧ v.Shows s' ∧ CacheOk s' r K := by
  obtain ⟨s₁, h₁⟩ := h.phandle handle
  obtain ⟨k, hk⟩ := hfind
  obtain ⟨cache, rfl⟩ := ofFindNodeByPhandle_frame (hk k le_rfl)
  have hcache' : CacheOk { s with phandleCache := cache } r K := by
    by_cases hzero : handle = 0
    · have hrun : Of.ofFindNodeByPhandle k s handle = some ({ s with phandleCache := cache }, found) := hk k le_rfl
      have hsame : some (s, (none : Option ℕ)) = some ({ s with phandleCache := cache }, found) := by
        rw [← hrun, Of.ofFindNodeByPhandle, if_pos hzero]
      rw [← (Prod.mk.inj (Option.some.inj hsame)).1]
      exact hcache
    · obtain ⟨s₂, h₂, hok⟩ := hcache.find hzero
      rwa [(Prod.mk.inj (Returns.unique ⟨k, hk⟩ h₂)).1]
  refine ⟨(Prod.mk.inj (Returns.unique ⟨k, hk⟩ h₁)).2, ⟨fun np hlive name => ?_, h.fullName, h.parent, fun handle => ?_⟩, hcache'⟩
  · have hlive' : Live s np := by
      rw [hcache.forest.live_iff]
      exact hcache'.forest.live_iff.mp hlive
    exact h.property np hlive' name
  · by_cases hzero : handle = 0
    · rw [hzero, v.find_zero]
      exact ⟨_, 0, fun fuel _ => if_pos rfl⟩
    · obtain ⟨s₂, h₂, -⟩ := hcache'.find hzero
      rw [h.find_eq hcache hzero]
      exact ⟨s₂, h₂⟩

end Of

end GfpDrivers
