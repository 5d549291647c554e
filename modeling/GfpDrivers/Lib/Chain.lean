import Mathlib.Data.List.Nodup

/-!
Singly linked lists through locations. A location holds a link, which is a
node or the end of the list; each node has a location of its own for the link
to the next one. Writing a link is updating the function `link`, so that any
number of lists, kept in locations of any kind, can live side by side.
-/

namespace GfpDrivers.Lib

open Function

variable {ℓ α : Type*} {nxt : α → ℓ} {link link' : ℓ → Option α} {l : ℓ} {as bs cs : List α}
  {a b : α} {v : Option α}

/-- From the location `l` the links lead through `as` to the end. -/
def Chain (nxt : α → ℓ) (link : ℓ → Option α) : ℓ → List α → Prop
  | l, [] => link l = none
  | l, a :: as => link l = some a ∧ Chain nxt link (nxt a) as

/-- The location that is reached after the nodes `as`. -/
def locAfter (nxt : α → ℓ) : ℓ → List α → ℓ
  | l, [] => l
  | _, a :: as => locAfter nxt (nxt a) as

/-- The nodes that the links lead to from `l`. -/
inductive Linked (nxt : α → ℓ) (link : ℓ → Option α) (l : ℓ) : α → Prop
  | first {a : α} : link l = some a → Linked nxt link l a
  | next {a b : α} : Linked nxt link l a → link (nxt a) = some b → Linked nxt link l b

@[simp] theorem locAfter_nil : locAfter nxt l [] = l := rfl

@[simp] theorem locAfter_cons : locAfter nxt l (a :: as) = locAfter nxt (nxt a) as := rfl

@[simp] theorem locAfter_append : locAfter nxt l (as ++ bs) = locAfter nxt (locAfter nxt l as) bs := by
  induction as generalizing l with
  | nil => rfl
  | cons a as ih => exact ih

theorem locAfter_mem : locAfter nxt l as ∈ l :: as.map nxt := by
  induction as generalizing l with
  | nil => simp
  | cons a as ih => exact List.mem_cons_of_mem l ih

/-- A link of a chain leads to the next node of it. -/
theorem Chain.mem_of_link (h : Chain nxt link l as) (ha : a ∈ as) (hb : link (nxt a) = some b) :
    b ∈ as := by
  induction as generalizing l with
  | nil => simp at ha
  | cons c as ih =>
    rcases List.mem_cons.mp ha with rfl | ha
    · cases as with
      | nil => exact absurd (h.2.symm.trans hb) (by simp)
      | cons d as => simp [Option.some.inj (h.2.1.symm.trans hb)]
    · exact List.mem_cons_of_mem c (ih h.2 ha)

theorem Linked.of_link (ha : link l = some a) (hb : Linked nxt link (nxt a) b) :
    Linked nxt link l b := by
  induction hb with
  | first hb => exact .next (.first ha) hb
  | next _ hc ih => exact .next ih hc

/-- The nodes of a chain are those that the links lead to. -/
theorem Chain.linked_iff (h : Chain nxt link l as) : Linked nxt link l a ↔ a ∈ as := by
  refine ⟨fun ha => ?_, fun ha => ?_⟩
  · induction ha with
    | first ha =>
      cases as with
      | nil => exact absurd (h.symm.trans ha) (by simp)
      | cons b as => simp [Option.some.inj (h.1.symm.trans ha)]
    | next _ hb ih => exact h.mem_of_link ih hb
  · induction as generalizing l with
    | nil => simp at ha
    | cons b as ih =>
      rcases List.mem_cons.mp ha with rfl | ha
      · exact .first h.1
      · exact .of_link h.1 (ih h.2 ha)

theorem not_linked (h : link l = none) : ¬Linked nxt link l a := by
  intro ha
  have hmem := (show Chain nxt link l [] from h).linked_iff.mp ha
  simp at hmem

/-- A chain is given by the links at its locations. -/
theorem Chain.congr (h : Chain nxt link l as) (hl : ∀ x ∈ l :: as.map nxt, link' x = link x) :
    Chain nxt link' l as := by
  induction as generalizing l with
  | nil => exact (hl l (by simp)).trans h
  | cons a as ih =>
    refine ⟨(hl l (by simp)).trans h.1, ih h.2 fun x hx => hl x ?_⟩
    exact List.mem_cons_of_mem l hx

theorem Chain.suffix (h : Chain nxt link l (as ++ bs)) : Chain nxt link (locAfter nxt l as) bs := by
  induction as generalizing l with
  | nil => exact h
  | cons a as ih => exact ih h.2

theorem Chain.read (h : Chain nxt link l (as ++ bs)) : link (locAfter nxt l as) = bs.head? := by
  have hs := h.suffix
  cases bs with
  | nil => exact hs
  | cons b bs => exact hs.1

theorem Chain.first (h : Chain nxt link l as) : link l = as.head? :=
  (show Chain nxt link l ([] ++ as) from h).read

/-- The rest of a chain is exchanged: all links up to it stay, and from there
on the links lead through `cs`. -/
theorem Chain.splice (h : Chain nxt link l (as ++ bs)) (hnod : (l :: as.map nxt).Nodup)
    (hlink : ∀ x ∈ l :: as.map nxt, x ≠ locAfter nxt l as → link' x = link x)
    (hcs : Chain nxt link' (locAfter nxt l as) cs) : Chain nxt link' l (as ++ cs) := by
  induction as generalizing l with
  | nil => exact hcs
  | cons a as ih =>
    obtain ⟨hl, hnod⟩ := List.nodup_cons.mp hnod
    refine ⟨?_, ih h.2 hnod (fun x hx => hlink x (List.mem_cons_of_mem l hx)) hcs⟩
    rw [hlink l (by simp) fun heq => hl (heq ▸ locAfter_mem)]
    exact h.1

/-- A list goes on behind another location, if the link is the same there. -/
theorem Chain.moved {l' : ℓ} (h : Chain nxt link l as) (hl : link' l' = link l)
    (hnext : ∀ a ∈ as, link' (nxt a) = link (nxt a)) : Chain nxt link' l' as := by
  cases as with
  | nil => exact hl.trans h
  | cons a as =>
    refine ⟨hl.trans h.1, h.2.congr fun x hx => ?_⟩
    obtain ⟨b, hb, rfl⟩ := List.mem_map.mp (by simpa using hx : x ∈ (a :: as).map nxt)
    exact hnext b hb

section Edit

variable [DecidableEq ℓ]

/-- The node behind `as` is taken out. -/
theorem Chain.remove (h : Chain nxt link l (as ++ a :: bs)) (hnod : (l :: as.map nxt).Nodup)
    (hbs : ∀ b ∈ bs, nxt b ≠ locAfter nxt l as) :
    Chain nxt (update link (locAfter nxt l as) (link (nxt a))) l (as ++ bs) := by
  refine h.splice hnod (fun x _ hx => update_of_ne hx ..) ?_
  exact h.suffix.2.moved (update_self ..) fun b hb => update_of_ne (hbs b hb) ..

/-- A node is put in behind `as`. -/
theorem Chain.insert (h : Chain nxt link l (as ++ bs)) (hnod : (l :: as.map nxt).Nodup)
    (ha : nxt a ≠ locAfter nxt l as) (hbs : ∀ b ∈ bs, nxt b ≠ locAfter nxt l as)
    (hnext : link (nxt a) = bs.head?) :
    Chain nxt (update link (locAfter nxt l as) (some a)) l (as ++ a :: bs) := by
  refine h.splice hnod (fun x _ hx => update_of_ne hx ..)
    ⟨update_self .., h.suffix.moved ?_ fun b hb => update_of_ne (hbs b hb) ..⟩
  rw [update_of_ne ha, hnext, h.read]

end Edit

/-! ### Several lists side by side -/

/-- The lists `L k` start at the locations `head k` and have no node in common. -/
structure Lists {κ : Type*} (head : κ → ℓ) (nxt : α → ℓ) (link : ℓ → Option α) (L : κ → List α) :
    Prop where
  chain : ∀ k, Chain nxt link (head k) (L k)
  nodup : ∀ k, (L k).Nodup
  apart : ∀ k k' a, a ∈ L k → a ∈ L k' → k = k'

/-- The locations are all different. -/
structure Layout {κ : Type*} (head : κ → ℓ) (nxt : α → ℓ) : Prop where
  head_inj : Function.Injective head
  nxt_inj : Function.Injective nxt
  head_ne : ∀ k a, head k ≠ nxt a

namespace Lists

variable {κ : Type*} {head : κ → ℓ} {L : κ → List α} {k k' : κ}

theorem nodup_slots (hlay : Layout head nxt) (hnod : as.Nodup) : (head k :: as.map nxt).Nodup := by
  refine List.nodup_cons.mpr ⟨?_, hnod.map hlay.nxt_inj⟩
  rw [List.mem_map]
  rintro ⟨a, -, ha⟩
  exact hlay.head_ne k a ha.symm

/-- The location behind `as` is the head of the list or belongs to a node of `as`. -/
theorem loc_ne_nxt (hlay : Layout head nxt) (ha : a ∉ as) : nxt a ≠ locAfter nxt (head k) as := by
  intro heq
  have hmem : locAfter nxt (head k) as ∈ head k :: as.map nxt := locAfter_mem
  rw [← heq, List.mem_cons, List.mem_map] at hmem
  rcases hmem with h | ⟨b, hb, h⟩
  · exact hlay.head_ne k a h.symm
  · exact ha (hlay.nxt_inj h ▸ hb)

theorem loc_ne_head (hlay : Layout head nxt) (hk : k' ≠ k) :
    head k' ≠ locAfter nxt (head k) as := by
  intro heq
  have hmem : locAfter nxt (head k) as ∈ head k :: as.map nxt := locAfter_mem
  rw [← heq, List.mem_cons, List.mem_map] at hmem
  rcases hmem with h | ⟨b, -, h⟩
  · exact hk (hlay.head_inj h)
  · exact hlay.head_ne k' b h.symm

/-- One of the lists is exchanged, and its old and new nodes are in no other. -/
theorem exchange [DecidableEq κ] (h : Lists head nxt link L) (hnew : Chain nxt link' (head k) cs) (hnod : cs.Nodup)
    (hcs : ∀ a ∈ cs, ∀ k' ≠ k, a ∉ L k')
    (hother : ∀ k' ≠ k, Chain nxt link' (head k') (L k')) :
    Lists head nxt link' (update L k cs) := by
  constructor
  · intro k'
    by_cases hk : k' = k
    · subst hk
      rwa [update_self]
    · rw [update_of_ne hk]
      exact hother k' hk
  · intro k'
    by_cases hk : k' = k
    · subst hk
      rwa [update_self]
    · rw [update_of_ne hk]
      exact h.nodup k'
  · intro k₁ k₂ a h₁ h₂
    by_cases hk₁ : k₁ = k <;> by_cases hk₂ : k₂ = k
    · rw [hk₁, hk₂]
    · subst hk₁
      rw [update_self] at h₁
      rw [update_of_ne hk₂] at h₂
      exact absurd h₂ (hcs a h₁ k₂ hk₂)
    · subst hk₂
      rw [update_self] at h₂
      rw [update_of_ne hk₁] at h₁
      exact absurd h₁ (hcs a h₂ k₁ hk₁)
    · rw [update_of_ne hk₁] at h₁
      rw [update_of_ne hk₂] at h₂
      exact h.apart k₁ k₂ a h₁ h₂

variable [DecidableEq ℓ]

/-- A write to a location of one list does not change the others. -/
theorem other (hlay : Layout head nxt) (h : Lists head nxt link L) (hk : k' ≠ k)
    (has : ∀ a ∈ as, a ∈ L k) :
    Chain nxt (update link (locAfter nxt (head k) as) v) (head k') (L k') := by
  refine (h.chain k').congr fun x hx => update_of_ne ?_ ..
  rcases List.mem_cons.mp hx with rfl | hx
  · exact loc_ne_head hlay hk
  · obtain ⟨a, ha, rfl⟩ := List.mem_map.mp hx
    exact loc_ne_nxt hlay fun hmem => hk (h.apart k' k a ha (has a hmem))

/-- The link of a node that is in no list may be written. -/
theorem free (hlay : Layout head nxt) (h : Lists head nxt link L) (ha : ∀ k, a ∉ L k) :
    Lists head nxt (update link (nxt a) v) L := by
  refine ⟨fun k => (h.chain k).congr fun x hx => update_of_ne ?_ .., h.nodup, h.apart⟩
  rcases List.mem_cons.mp hx with rfl | hx
  · exact hlay.head_ne k a
  · obtain ⟨b, hb, rfl⟩ := List.mem_map.mp hx
    intro heq
    exact ha k (hlay.nxt_inj heq ▸ hb)

/-- A node is taken out of its list. -/
theorem remove [DecidableEq κ] (hlay : Layout head nxt) (h : Lists head nxt link L) (hk : L k = as ++ a :: bs) :
    Lists head nxt (update link (locAfter nxt (head k) as) (link (nxt a)))
      (update L k (as ++ bs)) := by
  have hc := h.chain k
  have hnod := h.nodup k
  rw [hk] at hc hnod
  have hsub : (as ++ bs).Sublist (as ++ a :: bs) := (List.sublist_cons_self a bs).append_left as
  have hnod' := hnod.sublist hsub
  obtain ⟨has, -, hdisj⟩ := List.nodup_append.mp hnod
  refine h.exchange ?_ hnod' ?_ ?_
  · refine hc.remove (nodup_slots hlay has) fun b hb => ?_
    exact loc_ne_nxt hlay fun hmem => hdisj b hmem b (by simp [hb]) rfl
  · intro b hb k' hk' hmem
    refine hk' (h.apart k' k b hmem ?_)
    rw [hk]
    exact hsub.subset hb
  · intro k' hk'
    refine h.other hlay hk' fun b hb => ?_
    rw [hk]
    exact List.mem_append_left _ hb

/-- A node that is in no list is put into one. -/
theorem insert [DecidableEq κ] (hlay : Layout head nxt) (h : Lists head nxt link L) (hk : L k = as ++ bs)
    (ha : ∀ k, a ∉ L k) (hnext : link (nxt a) = bs.head?) :
    Lists head nxt (update link (locAfter nxt (head k) as) (some a))
      (update L k (as ++ a :: bs)) := by
  have hc := h.chain k
  have hnod := h.nodup k
  have hak := ha k
  rw [hk] at hc hnod hak
  have hnod' : (as ++ a :: bs).Nodup := List.nodup_middle.mpr (List.nodup_cons.mpr ⟨hak, hnod⟩)
  obtain ⟨has, -, hdisj⟩ := List.nodup_append.mp hnod
  refine h.exchange ?_ hnod' ?_ ?_
  · refine hc.insert (nodup_slots hlay has) ?_ (fun b hb => ?_) hnext
    · exact loc_ne_nxt hlay fun hmem => hak (List.mem_append_left _ hmem)
    · exact loc_ne_nxt hlay fun hmem => hdisj b hmem b hb rfl
  · intro b hb k' hk' hmem
    rcases List.mem_append.mp hb with hb | hb
    · exact hk' (h.apart k' k b hmem (by rw [hk]; exact List.mem_append_left _ hb))
    · rcases List.mem_cons.mp hb with rfl | hb
      · exact ha k' hmem
      · exact hk' (h.apart k' k b hmem (by rw [hk]; exact List.mem_append_right _ hb))
  · intro k' hk'
    refine h.other hlay hk' fun b hb => ?_
    rw [hk]
    exact List.mem_append_left _ hb

end Lists

section Walk

variable (nxt link) in
/-- The loop over a list: it stops at the location of the first node that is
looked for, or at the end. -/
def walk (stop : α → Bool) : ℕ → ℓ → Option ℓ
  | 0, _ => none
  | fuel + 1, l =>
      match link l with
      | none => some l
      | some a => if stop a then some l else walk stop fuel (nxt a)

/-- A loop that stops makes the same rounds if it may make more of them. -/
theorem walk_mono {fuel fuel' : ℕ} {stop : α → Bool} {l' : ℓ} (h : walk nxt link stop fuel l = some l')
    (hle : fuel ≤ fuel') : walk nxt link stop fuel' l = some l' := by
  induction fuel generalizing fuel' l with
  | zero => cases h
  | succ fuel ih =>
    obtain ⟨fuel', rfl⟩ := Nat.exists_eq_add_of_le' (Nat.one_le_of_lt hle)
    rw [walk] at h ⊢
    cases hlink : link l with
    | none =>
      rw [hlink] at h
      exact h
    | some a =>
      simp only [hlink] at h ⊢
      split_ifs at h ⊢ with hstop
      · exact h
      · exact ih h (Nat.le_of_succ_le_succ hle)

theorem Chain.walk_eq {fuel : ℕ} (h : Chain nxt link l as) (stop : α → Bool)
    (hfuel : as.length < fuel) :
    ∃ bs cs, as = bs ++ cs ∧ (∀ b ∈ bs, stop b = false) ∧ (∀ c ∈ cs.head?, stop c = true) ∧
      walk nxt link stop fuel l = some (locAfter nxt l bs) := by
  induction fuel generalizing l as with
  | zero => omega
  | succ fuel ih =>
    cases as with
    | nil =>
      have hl : link l = none := h
      exact ⟨[], [], rfl, by simp, by simp, by simp [walk, hl]⟩
    | cons a as =>
      cases hstop : stop a with
      | true => exact ⟨[], a :: as, rfl, by simp, by simpa using hstop, by simp [walk, h.1, hstop]⟩
      | false =>
        obtain ⟨bs, cs, rfl, hbs, hcs, hrun⟩ := ih h.2 (by simpa using hfuel)
        refine ⟨a :: bs, cs, rfl, by simpa [hstop] using hbs, hcs, ?_⟩
        simp [walk, h.1, hstop, hrun]

end Walk

end GfpDrivers.Lib
