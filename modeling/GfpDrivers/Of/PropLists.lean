import GfpDrivers.Of.Changeset
import Mathlib.Order.BooleanAlgebra.Set

/-!
The lists of live and of removed properties. Every property belongs to one
node, its home, and is in at most one of the two lists of that node. What the
lists stand for is the set of live properties; each function is described by
what it does to this set.
-/

namespace GfpDrivers.Of

open Lib Function

variable {s : DevTree} {link : PropSlot → Option ℕ} {name : ℕ → String} {home : ℕ → ℕ}
  {m n p q fuel : ℕ} {V : Set ℕ}

/-! ### Writing links -/

/-- The tree with other links between the properties. -/
def DevTree.withLink (s : DevTree) (link : PropSlot → Option ℕ) : DevTree :=
  { s with
    node := fun n =>
      { s.node n with properties := link (.properties n), deadprops := link (.deadprops n) }
    prop := fun p => { s.prop p with next := link (.next p) } }

@[simp] theorem withLink_link : (s.withLink link).link = link := by
  funext slot
  cases slot <;> rfl

@[simp] theorem withLink_withLink {link' : PropSlot → Option ℕ} :
    (s.withLink link).withLink link' = s.withLink link' := rfl

@[simp] theorem withLink_self : s.withLink s.link = s := rfl

@[simp] theorem withLink_name : ((s.withLink link).prop p).name = (s.prop p).name := rfl

theorem write_eq (slot : PropSlot) (v : Option ℕ) :
    slot.write s v = s.withLink (update s.link slot v) := by
  cases slot with
  | properties np =>
    simp only [PropSlot.write, DevTree.setNode, DevTree.withLink, DevTree.mk.injEq, and_true]
    refine ⟨?_, funext fun p => by rw [update_of_ne (by simp)]; rfl⟩
    funext n
    by_cases hn : n = np
    · subst hn
      simp [DevTree.link, PropSlot.read]
    · simp [hn, DevTree.link, PropSlot.read]
  | deadprops np =>
    simp only [PropSlot.write, DevTree.setNode, DevTree.withLink, DevTree.mk.injEq, and_true]
    refine ⟨?_, funext fun p => by rw [update_of_ne (by simp)]; rfl⟩
    funext n
    by_cases hn : n = np
    · subst hn
      simp [DevTree.link, PropSlot.read]
    · simp [hn, DevTree.link, PropSlot.read]
  | next pp =>
    simp only [PropSlot.write, DevTree.setNext, DevTree.withLink, DevTree.mk.injEq, and_true]
    refine ⟨?_, ?_⟩
    · funext n
      rw [update_of_ne (by simp), update_of_ne (by simp)]
      rfl
    · funext p
      by_cases hp : p = pp
      · subst hp
        simp
      · simp [hp, DevTree.link, PropSlot.read]

theorem setNext_eq (v : Option ℕ) :
    s.setNext p v = s.withLink (update s.link (.next p) v) :=
  write_eq (.next p) v

theorem read_eq (slot : PropSlot) : slot.read s = s.link slot := rfl

theorem prop_next : (s.prop p).next = s.link (.next p) := rfl

theorem node_deadprops : (s.node n).deadprops = s.link (.deadprops n) := rfl

/-! ### The lists -/

/-- The lists of properties: each node has the live and the removed ones. -/
inductive PropList where
  | live (n : ℕ)
  | dead (n : ℕ)
deriving DecidableEq

def PropList.head : PropList → PropSlot
  | .live n => .properties n
  | .dead n => .deadprops n

def PropList.node : PropList → ℕ
  | .live n => n
  | .dead n => n

theorem propLayout : Layout PropList.head PropSlot.next where
  head_inj k k' h := by cases k <;> cases k' <;> simp_all [PropList.head]
  nxt_inj p q h := PropSlot.next.inj h
  head_ne k p := by cases k <;> simp [PropList.head]

/-- The lists `props`, none of them longer than `m`, hold the live properties `V`. -/
structure PropShape (name : ℕ → String) (home : ℕ → ℕ) (m : ℕ) (V : Set ℕ)
    (link : PropSlot → Option ℕ) (props : PropList → List ℕ) : Prop where
  lists : Lists PropList.head .next link props
  homed : ∀ k, ∀ p ∈ props k, home p = k.node
  mem_live : ∀ p, p ∈ V ↔ p ∈ props (.live (home p))
  short : ∀ k, (props k).length ≤ m
  unique : ∀ p ∈ V, ∀ q ∈ V, home p = home q → name p = name q → p = q

/-- The links keep the live properties `V`. -/
def Keeps (name : ℕ → String) (home : ℕ → ℕ) (m : ℕ) (V : Set ℕ)
    (link : PropSlot → Option ℕ) : Prop :=
  ∃ props, PropShape name home m V link props

namespace PropShape

variable {props : PropList → List ℕ} {xs ys : List ℕ}

theorem mono (h : PropShape name home m V link props) (hm : m ≤ n) :
    PropShape name home n V link props :=
  { h with short := fun k => (h.short k).trans hm }

theorem mem_iff (h : PropShape name home m V link props) :
    p ∈ props (.live n) ↔ p ∈ V ∧ home p = n := by
  rw [h.mem_live]
  refine ⟨fun hp => ?_, fun ⟨hp, hn⟩ => hn ▸ hp⟩
  have hn : home p = n := h.homed (.live n) p hp
  exact ⟨hn.symm ▸ hp, hn⟩

theorem linked_iff (h : PropShape name home m V link props) :
    Linked .next link (.properties n) p ↔ p ∈ V ∧ home p = n :=
  (h.lists.chain (.live n)).linked_iff.trans h.mem_iff

theorem not_mem (h : PropShape name home m V link props) (hV : p ∉ V)
    (hdead : p ∉ props (.dead (home p))) (k : PropList) : p ∉ props k := by
  intro hp
  have hn := h.homed k p hp
  cases k with
  | live n => exact hV (h.mem_iff.mp hp).1
  | dead n => exact hdead (by rw [hn]; exact hp)

/-! ### The four ways to rewrite the lists -/

theorem bury (h : Lists PropList.head .next link props) (hp : ∀ k, p ∉ props k) :
    Lists PropList.head .next
      (update (update link (.next p) (link (.deadprops n))) (.deadprops n) (some p))
      (update props (.dead n) (p :: props (.dead n))) := by
  refine (h.free propLayout hp).insert (k := .dead n) propLayout (List.nil_append _).symm hp ?_
  rw [update_self]
  exact (h.chain (.dead n)).first

theorem not_mem_removed (h : Lists PropList.head .next link props) {k : PropList}
    (hk : props k = xs ++ p :: ys) (k' : PropList) :
    p ∉ update props k (xs ++ ys) k' := by
  by_cases hkk : k' = k
  · subst hkk
    have hnod := h.nodup k'
    rw [hk] at hnod
    rw [update_self]
    exact (List.nodup_cons.mp (List.nodup_middle.mp hnod)).1
  · rw [update_of_ne hkk]
    intro hp
    exact hkk (h.apart k' k p hp (by simp [hk]))

/-- A property is taken out of the list of removed ones. -/
theorem take (h : PropShape name home m V link props) (hdead : props (.dead n) = xs ++ p :: ys) :
    PropShape name home m V
      (update
        (update link (locAfter .next (.deadprops n) xs) (link (.next p))) (.next p) none)
      (update props (.dead n) (xs ++ ys)) where
  lists := (h.lists.remove propLayout hdead).free propLayout (not_mem_removed h.lists hdead)
  homed k q hq := by
    by_cases hk : k = .dead n
    · subst hk
      rw [update_self] at hq
      exact h.homed (.dead n) q (by rw [hdead]; simp at hq ⊢; tauto)
    · rw [update_of_ne hk] at hq
      exact h.homed k q hq
  mem_live q := by rw [update_of_ne (by simp)]; exact h.mem_live q
  short k := by
    by_cases hk : k = .dead n
    · subst hk
      have := h.short (.dead n)
      rw [hdead] at this
      rw [update_self]
      simp at this ⊢
      omega
    · rw [update_of_ne hk]
      exact h.short k
  unique := h.unique

theorem append (h : PropShape name home m V link props) (hp : ∀ k, p ∉ props k) (hn : home p = n)
    (hname : ∀ q ∈ V, home q = n → name q ≠ name p) :
    PropShape name home (m + 1) (insert p V)
      (update (update link (.next p) none)
        (locAfter .next (.properties n) (props (.live n))) (some p))
      (update props (.live n) (props (.live n) ++ [p])) where
  lists := by
    refine (h.lists.free propLayout hp).insert (k := .live n) propLayout (List.append_nil _).symm hp ?_
    exact update_self ..
  homed k q hq := by
    by_cases hk : k = .live n
    · subst hk
      rw [update_self, List.mem_append, List.mem_singleton] at hq
      rcases hq with hq | rfl
      · exact h.homed (.live n) q hq
      · exact hn
    · rw [update_of_ne hk] at hq
      exact h.homed k q hq
  mem_live q := by
    by_cases hq : home q = n
    · rw [hq, update_self, List.mem_append, List.mem_singleton, h.mem_iff]
      simp [hq, or_comm]
    · have hqp : q ≠ p := by
        rintro rfl
        exact hq hn
      rw [update_of_ne (by simpa using hq), ← h.mem_live, Set.mem_insert_iff]
      simp [hqp]
  short k := by
    by_cases hk : k = .live n
    · subst hk
      simpa using h.short (.live n)
    · rw [update_of_ne hk]
      exact (h.short k).trans (Nat.le_succ m)
  unique := by
    rintro a (rfl | ha) b (rfl | hb) hhome hab
    · rfl
    · exact absurd hab.symm (hname b hb (hhome.symm.trans hn))
    · exact absurd hab (hname a ha (hhome.trans hn))
    · exact h.unique a ha b hb hhome hab

/-- The list of live properties is exchanged, and `p` joins the removed ones. -/
theorem exchange {link' : PropSlot → Option ℕ} {V' : Set ℕ} {L : List ℕ}
    (h : PropShape name home m V link props)
    (hlists : Lists PropList.head .next link'
      (update (update props (.live n) L) (.dead n) (p :: props (.dead n))))
    (hn : home p = n) (hL : ∀ q ∈ L, home q = n) (hlen : L.length ≤ m)
    (hV : ∀ q, q ∈ V' ↔ if home q = n then q ∈ L else q ∈ V)
    (hunique : ∀ p ∈ L, ∀ q ∈ L, name p = name q → p = q) :
    PropShape name home (m + 1) V' link'
      (update (update props (.live n) L) (.dead n) (p :: props (.dead n))) where
  lists := hlists
  homed k q hq := by
    by_cases hd : k = .dead n
    · subst hd
      rw [update_self, List.mem_cons] at hq
      rcases hq with rfl | hq
      · exact hn
      · exact h.homed (.dead n) q hq
    · rw [update_of_ne hd] at hq
      by_cases hl : k = .live n
      · subst hl
        rw [update_self] at hq
        exact hL q hq
      · rw [update_of_ne hl] at hq
        exact h.homed k q hq
  mem_live q := by
    rw [update_of_ne (by simp), hV]
    split_ifs with hq
    · rw [hq, update_self]
    · rw [update_of_ne (by simpa using hq), h.mem_live]
  short k := by
    by_cases hd : k = .dead n
    · subst hd
      simpa using h.short (.dead n)
    · rw [update_of_ne hd]
      by_cases hl : k = .live n
      · subst hl
        rw [update_self]
        omega
      · rw [update_of_ne hl]
        exact (h.short k).trans (Nat.le_succ m)
  unique a ha b hb hhome hab := by
    rw [hV] at ha hb
    rw [hhome] at ha
    split_ifs at ha hb with hq
    · exact hunique a ha b hb hab
    · exact h.unique a ha b hb hhome hab

theorem drop (h : PropShape name home m V link props) (hlive : props (.live n) = xs ++ p :: ys)
    {link₁ : PropSlot → Option ℕ}
    (hlink : link₁ = update link (locAfter .next (.properties n) xs) (link (.next p))) :
    ∃ props', PropShape name home (m + 1) (V \ {p})
      (update (update link₁ (.next p) (link₁ (.deadprops n))) (.deadprops n)
        (some p)) props' := by
  have hL : Lists PropList.head .next link₁ (update props (.live n) (xs ++ ys)) := by
    rw [hlink]
    exact h.lists.remove propLayout hlive
  have hp := not_mem_removed h.lists hlive
  have hbury := bury (n := n) hL hp
  rw [update_of_ne (by simp : PropList.dead n ≠ .live n)] at hbury
  have hmem : ∀ q, q ∈ xs ++ ys ↔ q ≠ p ∧ q ∈ props (.live n) := by
    intro q
    have hpn := hp (.live n)
    rw [update_self] at hpn
    rw [hlive]
    by_cases hq : q = p
    · subst hq
      simpa using hpn
    · simp [hq]
  have hlen := h.short (.live n)
  rw [hlive] at hlen
  have hn : home p = n := h.homed (.live n) p (by simp [hlive])
  refine ⟨_, h.exchange hbury hn (fun q hq => h.homed (.live n) q ((hmem q).mp hq).2) ?_ ?_ ?_⟩
  · simp at hlen ⊢
    omega
  · intro q
    rw [hmem, h.mem_iff, Set.mem_sdiff, Set.mem_singleton_iff]
    split_ifs with hq
    · tauto
    · have hqp : q ≠ p := by
        rintro rfl
        exact hq hn
      tauto
  · intro a ha b hb
    obtain ⟨ha, hna⟩ := h.mem_iff.mp ((hmem a).mp ha).2
    obtain ⟨hb, hnb⟩ := h.mem_iff.mp ((hmem b).mp hb).2
    exact h.unique a ha b hb (hna.trans hnb.symm)

/-- A live property is moved to the removed ones, and `q` takes its place. -/
theorem replace (h : PropShape name home m V link props) (hlive : props (.live n) = xs ++ p :: ys)
    (hq : ∀ k, q ∉ props k) (hqn : home q = n) (hname : name q = name p)
    {link₁ : PropSlot → Option ℕ}
    (hlink : link₁ = update (update link (.next q) (link (.next p)))
      (locAfter .next (.properties n) xs) (some q)) :
    ∃ props', PropShape name home (m + 1) (insert q (V \ {p}))
      (update (update link₁ (.next p) (link₁ (.deadprops n))) (.deadprops n)
        (some p)) props' := by
  have hqp : p ≠ q := by
    rintro rfl
    exact hq (.live n) (by simp [hlive])
  have hqxs : q ∉ xs := fun hmem => hq (.live n) (by simp [hlive, hmem])
  have hp := not_mem_removed h.lists hlive
  have hL : Lists PropList.head .next link₁ (update props (.live n) (xs ++ q :: ys)) := by
    have hrem := (h.lists.free (v := link (.next p)) propLayout hq).remove propLayout hlive
    rw [update_of_ne (by simpa using hqp)] at hrem
    have hins := hrem.insert (k := .live n) (a := q) propLayout (update_self ..) ?_ ?_
    · rw [update_idem, update_idem] at hins
      rw [hlink]
      exact hins
    · intro k
      by_cases hk : k = .live n
      · subst hk
        have hlq := hq (.live n)
        rw [hlive] at hlq
        rw [update_self]
        simp at hlq ⊢
        tauto
      · rw [update_of_ne hk]
        exact hq k
    · rw [update_of_ne (Lists.loc_ne_nxt propLayout hqxs), update_self]
      have hc := h.lists.chain (.live n)
      rw [hlive, List.append_cons] at hc
      simpa using hc.read
  have hp' : ∀ k, p ∉ update props (.live n) (xs ++ q :: ys) k := by
    intro k
    have hpk := hp k
    by_cases hk : k = .live n
    · subst hk
      rw [update_self] at hpk ⊢
      simp at hpk ⊢
      tauto
    · rwa [update_of_ne hk] at hpk ⊢
  have hbury := bury (n := n) hL hp'
  rw [update_of_ne (by simp : PropList.dead n ≠ .live n)] at hbury
  have hmem : ∀ r, r ∈ xs ++ q :: ys ↔ r = q ∨ r ≠ p ∧ r ∈ props (.live n) := by
    intro r
    have hpn := hp (.live n)
    rw [update_self] at hpn
    rw [hlive]
    by_cases hr : r = p
    · subst hr
      simp at hpn
      simp [hpn]
    · simp [hr]
      tauto
  have hn : home p = n := h.homed (.live n) p (by simp [hlive])
  have hpV : p ∈ V := (h.mem_iff.mp (by simp [hlive] : p ∈ props (.live n))).1
  refine ⟨_, h.exchange hbury hn ?_ ?_ ?_ ?_⟩
  · intro r hr
    rcases (hmem r).mp hr with rfl | ⟨-, hr⟩
    · exact hqn
    · exact h.homed (.live n) r hr
  · have hlen := h.short (.live n)
    rw [hlive] at hlen
    simpa using hlen
  · intro r
    rw [hmem, h.mem_iff, Set.mem_insert_iff, Set.mem_sdiff, Set.mem_singleton_iff]
    split_ifs with hr
    · tauto
    · have hrp : r ≠ p ∧ r ≠ q := by
        refine ⟨?_, ?_⟩ <;> rintro rfl
        · exact hr hn
        · exact hr hqn
      tauto
  · have hother : ∀ r, r ≠ p → r ∈ props (.live n) → name r ≠ name q := by
      intro r hr hrl heq
      obtain ⟨hrV, hrn⟩ := h.mem_iff.mp hrl
      exact hr (h.unique r hrV p hpV (hrn.trans hn.symm) (heq.trans hname))
    intro a ha b hb hab
    rcases (hmem a).mp ha with rfl | ⟨hap, hal⟩ <;> rcases (hmem b).mp hb with rfl | ⟨hbp, hbl⟩
    · rfl
    · exact absurd hab.symm (hother b hbp hbl)
    · exact absurd hab (hother a hap hal)
    · obtain ⟨haV, hna⟩ := h.mem_iff.mp hal
      obtain ⟨hbV, hnb⟩ := h.mem_iff.mp hbl
      exact h.unique a haV b hbV (hna.trans hnb.symm) hab

end PropShape

/-! ### The functions -/

section Functions

variable {props : PropList → List ℕ}

theorem walkProps_eq (h : PropShape name home m V s.link props) (stop : ℕ → Bool) (k : PropList)
    (hfuel : m < fuel) :
    ∃ xs ys, props k = xs ++ ys ∧ (∀ x ∈ xs, stop x = false) ∧ (∀ y ∈ ys.head?, stop y = true) ∧
      walkProps s stop fuel k.head = some (locAfter .next k.head xs) ∧
      s.link (locAfter .next k.head xs) = ys.head? := by
  have hc := h.lists.chain k
  obtain ⟨xs, ys, heq, hxs, hys, hwalk⟩ :=
    hc.walk_eq stop (lt_of_le_of_lt (h.short k) hfuel)
  rw [heq] at hc
  exact ⟨xs, ys, heq, hxs, hys, hwalk, hc.read⟩

theorem ofFindProperty_eq (h : PropShape name home m V s.link props) (nm : String)
    (hname : ∀ p, (s.prop p).name = name p) (hfuel : m < fuel) :
    ∃ r, ofFindProperty fuel s n nm = some r ∧
      ∀ q, r = some q ↔ q ∈ V ∧ home q = n ∧ name q = nm := by
  obtain ⟨xs, ys, heq, hxs, hys, hwalk, hread⟩ :=
    walkProps_eq h (fun pp => (s.prop pp).name = nm) (.live n) hfuel
  refine ⟨ys.head?, ?_, fun q => ⟨fun hq => ?_, fun ⟨hV, hn, hq⟩ => ?_⟩⟩
  · rw [ofFindProperty, show (PropSlot.properties n) = (PropList.live n).head from rfl, hwalk]
    exact congrArg some hread
  · have hmem : q ∈ props (.live n) := by
      rw [heq]
      exact List.mem_append_right _ (List.mem_of_mem_head? hq)
    have hstop := hys q hq
    rw [decide_eq_true_eq, hname] at hstop
    obtain ⟨hV, hn⟩ := h.mem_iff.mp hmem
    exact ⟨hV, hn, hstop⟩
  · have hmem := h.mem_iff.mpr ⟨hV, hn⟩
    rw [heq, List.mem_append] at hmem
    rcases hmem with hmem | hmem
    · have hstop := hxs q hmem
      rw [decide_eq_false_iff_not, hname] at hstop
      exact absurd hq hstop
    · cases ys with
      | nil => simp at hmem
      | cons y ys =>
        have hy := hys y rfl
        rw [decide_eq_true_eq, hname] at hy
        obtain ⟨hyV, hyn⟩ := h.mem_iff.mp (by simp [heq] : y ∈ props (.live n))
        rw [List.head?_cons, h.unique y hyV q hV (hyn.trans hn.symm) (hy.trans hq.symm)]

/-- A property that is not live is in no list after it was taken off the removed ones. -/
theorem takeDeadprop_eq (h : PropShape name home m V s.link props) (hfuel : m < fuel) (hV : p ∉ V)
    (hp : home p = n) :
    ∃ link props', takeDeadprop fuel s n p = some (s.withLink link) ∧
      PropShape name home m V link props' ∧ ∀ k, p ∉ props' k := by
  obtain ⟨xs, ys, heq, hxs, hys, hwalk, hread⟩ :=
    walkProps_eq h (fun pp => pp = p) (.dead n) hfuel
  rw [takeDeadprop, show (PropSlot.deadprops n) = (PropList.dead n).head from rfl, hwalk]
  simp only [Option.map_some, read_eq, hread]
  cases ys with
  | nil =>
    refine ⟨s.link, props, rfl, h, h.not_mem hV ?_⟩
    rw [hp, heq, List.append_nil]
    intro hmem
    simpa using hxs p hmem
  | cons y ys =>
    obtain rfl : y = p := by simpa using hys y rfl
    refine ⟨_, _, ?_, h.take heq, PropShape.not_mem_removed h.lists heq⟩
    rw [List.head?_cons]
    simp only [write_eq, setNext_eq, prop_next, withLink_link, withLink_withLink]
    rfl

/-- A property that is live is not among the removed ones. -/
theorem takeDeadprop_live (h : PropShape name home m V s.link props) (hfuel : m < fuel) (hV : p ∈ V) :
    takeDeadprop fuel s n p = some s := by
  obtain ⟨xs, ys, heq, hxs, hys, hwalk, hread⟩ :=
    walkProps_eq h (fun pp => pp = p) (.dead n) hfuel
  rw [takeDeadprop, show (PropSlot.deadprops n) = (PropList.dead n).head from rfl, hwalk]
  simp only [Option.map_some, read_eq, hread]
  cases ys with
  | nil => rfl
  | cons y ys =>
    obtain rfl : y = p := by simpa using hys y rfl
    have hboth := h.lists.apart _ (.dead n) y ((h.mem_live y).mp hV) (by simp [heq])
    simp at hboth

theorem ofAddProperty_eq (h : PropShape name home m V s.link props)
    (hname : ∀ p, (s.prop p).name = name p) (hfuel : m < fuel) (hp : ∀ k, p ∉ props k)
    (hn : home p = n) :
    ((∀ q ∈ V, home q = n → name q ≠ name p) → ∃ link,
      ofAddProperty fuel s n p = some (s.withLink link, 0) ∧
        Keeps name home (m + 1) (insert p V) link) ∧
    ((∃ q ∈ V, home q = n ∧ name q = name p) → ∃ link,
      ofAddProperty fuel s n p = some (s.withLink link, -EEXIST) ∧
        Keeps name home m V link) := by
  have hfree := h.lists.free (v := none) propLayout hp
  have h' : PropShape name home m V (s.setNext p none).link props := by
    rw [setNext_eq, withLink_link]
    exact { h with lists := hfree }
  obtain ⟨xs, ys, heq, hxs, hys, hwalk, hread⟩ :=
    walkProps_eq h'
      (fun pp => ((s.setNext p none).prop p).name = ((s.setNext p none).prop pp).name) (.live n) hfuel
  have hsame : ∀ q, ((s.setNext p none).prop q).name = name q := by
    intro q
    rw [setNext_eq, withLink_name, hname]
  simp only [hsame] at hxs hys hwalk
  rw [ofAddProperty]
  simp only [hsame]
  rw [show (PropSlot.properties n) = (PropList.live n).head from rfl, hwalk]
  simp only [Option.map_some, read_eq, hread]
  refine ⟨fun hfresh => ?_, fun ⟨q, hqV, hqn, hq⟩ => ?_⟩
  · cases ys with
    | nil =>
      rw [List.append_nil] at heq
      refine ⟨_, ?_, _, h.append hp hn hfresh⟩
      rw [List.head?_nil, ← heq]
      simp only [write_eq, setNext_eq, withLink_link, withLink_withLink]
      rfl
    | cons y ys =>
      obtain ⟨hyV, hyn⟩ := h.mem_iff.mp (by simp [heq] : y ∈ props (.live n))
      have hy := hys y rfl
      rw [decide_eq_true_eq] at hy
      exact absurd hy.symm (hfresh y hyV hyn)
  · cases ys with
    | nil =>
      have hmem := h.mem_iff.mpr ⟨hqV, hqn⟩
      rw [heq, List.append_nil] at hmem
      have hx := hxs q hmem
      rw [decide_eq_false_iff_not] at hx
      exact absurd hq.symm hx
    | cons y ys =>
      refine ⟨update s.link (.next p) none, ?_, props, { h with lists := hfree }⟩
      rw [List.head?_cons, setNext_eq]

/-- A property that is live already is not added, but the list is cut behind it. -/
theorem ofAddProperty_live (h : PropShape name home m V s.link props)
    (hname : ∀ p, (s.prop p).name = name p) (hfuel : m < fuel) (hV : p ∈ V) (hn : home p = n) :
    ∃ s', ofAddProperty fuel s n p = some (s', -EEXIST) := by
  obtain ⟨xs, ys, heq⟩ := List.append_of_mem (h.mem_iff.mpr ⟨hV, hn⟩)
  have hc := h.lists.chain (.live n)
  have hnod := h.lists.nodup (.live n)
  have hlen := h.short (.live n)
  rw [heq] at hc hnod hlen
  have hpx : p ∉ xs := fun hmem => (List.nodup_append.mp hnod).2.2 p hmem p (by simp) rfl
  have hcut : Chain .next (s.setNext p none).link (.properties n) (xs ++ [p]) := by
    rw [setNext_eq, withLink_link]
    refine hc.splice (Lists.nodup_slots propLayout (List.nodup_append.mp hnod).1) ?_ ?_
    · intro x hx _
      refine update_of_ne ?_ ..
      rintro rfl
      simp [hpx, PropList.head] at hx
    · refine ⟨?_, update_self ..⟩
      have hne : PropSlot.next p ≠ locAfter .next (PropList.live n).head xs :=
        Lists.loc_ne_nxt propLayout hpx
      rw [update_of_ne hne.symm]
      exact hc.suffix.1
  have hsame : ∀ q, ((s.setNext p none).prop q).name = name q := by
    intro q
    rw [setNext_eq, withLink_name, hname]
  obtain ⟨as, bs, has, hbefore, -, hwalk⟩ :=
    hcut.walk_eq (fun pp => ((s.setNext p none).prop p).name = ((s.setNext p none).prop pp).name)
      (by simp at hlen ⊢; omega : _ < fuel)
  rw [has] at hcut
  cases bs with
  | nil =>
    have hp := hbefore p (by simpa using congrArg (p ∈ ·) has.symm)
    simp at hp
  | cons b bs =>
    refine ⟨s.setNext p none, ?_⟩
    simp only [ofAddProperty, walkProps, hwalk, Option.map_some, read_eq, hcut.read, List.head?_cons]

theorem ofRemoveProperty_eq (h : PropShape name home m V s.link props) (hfuel : m < fuel)
    (hn : home p = n) :
    (p ∈ V → ∃ link, ofRemoveProperty fuel s n p = some (s.withLink link, 0) ∧
      Keeps name home (m + 1) (V \ {p}) link) ∧
    (p ∉ V → ofRemoveProperty fuel s n p = some (s, -ENODEV)) := by
  obtain ⟨xs, ys, heq, hxs, hys, hwalk, hread⟩ :=
    walkProps_eq h (fun pp => pp = p) (.live n) hfuel
  rw [ofRemoveProperty, show (PropSlot.properties n) = (PropList.live n).head from rfl, hwalk]
  simp only [Option.map_some, read_eq, hread]
  have hmem := h.mem_iff (p := p) (n := n)
  rw [heq] at hmem
  cases ys with
  | nil =>
    refine ⟨fun hV => ?_, fun _ => rfl⟩
    have hx := hxs p (by simpa using hmem.mpr ⟨hV, hn⟩)
    simp at hx
  | cons y ys =>
    obtain rfl : y = p := by simpa using hys y rfl
    refine ⟨fun _ => ?_, fun hV => absurd (hmem.mp (by simp)).1 hV⟩
    obtain ⟨props', hdrop⟩ := h.drop heq rfl
    refine ⟨_, ?_, props', hdrop⟩
    rw [List.head?_cons]
    simp only [write_eq, setNext_eq, prop_next, node_deadprops, withLink_link, withLink_withLink]
    rfl

theorem ofUpdateProperty_eq (h : PropShape name home m V s.link props)
    (hname : ∀ p, (s.prop p).name = name p) (hfuel : m < fuel) (hp : ∀ k, p ∉ props k)
    (hn : home p = n) :
    (∀ q ∈ V, home q = n → name q = name p → ∃ link,
      ofUpdateProperty fuel s n p = some (s.withLink link, 0) ∧
        Keeps name home (m + 1) (insert p (V \ {q})) link) ∧
    ((∀ q ∈ V, home q = n → name q ≠ name p) → ∃ link,
      ofUpdateProperty fuel s n p = some (s.withLink link, 0) ∧
        Keeps name home (m + 1) (insert p V) link) := by
  obtain ⟨xs, ys, heq, hxs, hys, hwalk, hread⟩ :=
    walkProps_eq h (fun pp => (s.prop pp).name = (s.prop p).name) (.live n) hfuel
  rw [ofUpdateProperty, show (PropSlot.properties n) = (PropList.live n).head from rfl, hwalk]
  simp only [Option.map_some, read_eq, hread]
  simp only [hname] at hxs hys
  cases ys with
  | nil =>
    rw [List.append_nil] at heq
    have hfresh : ∀ q ∈ V, home q = n → name q ≠ name p := by
      intro q hqV hqn
      have hx := hxs q (heq ▸ h.mem_iff.mpr ⟨hqV, hqn⟩)
      rwa [decide_eq_false_iff_not] at hx
    refine ⟨fun q hqV hqn hq => absurd hq (hfresh q hqV hqn), fun _ => ?_⟩
    refine ⟨_, ?_, _, h.append hp hn hfresh⟩
    rw [List.head?_nil, ← heq]
    simp only [write_eq, setNext_eq, withLink_link, withLink_withLink]
    rfl
  | cons y ys =>
    obtain ⟨hyV, hyn⟩ := h.mem_iff.mp (by simp [heq] : y ∈ props (.live n))
    have hy := hys y rfl
    rw [decide_eq_true_eq] at hy
    refine ⟨fun q hqV hqn hq => ?_, fun hfresh => absurd hy (hfresh y hyV hyn)⟩
    obtain rfl := h.unique y hyV q hqV (hyn.trans hqn.symm) (hy.trans hq.symm)
    obtain ⟨props', hrep⟩ := h.replace heq hp hn hy.symm rfl
    refine ⟨_, ?_, props', hrep⟩
    rw [List.head?_cons]
    simp only [write_eq, setNext_eq, prop_next, node_deadprops, withLink_link, withLink_withLink]
    rfl

end Functions

end GfpDrivers.Of
