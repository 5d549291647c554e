import GfpDrivers.ResourceTree.WellFormed

/-!
Writing one link of a list of siblings. A loop that has passed the children
`cs` holds the address of the link after them (`Slot.after`); a write there
redirects the list from that point on, and the path up to it stays.
-/

namespace GfpDrivers.ResourceTree

open Lib

variable {h : Heap} {p p' : Slot} {v e : Option ℕ} {a n q : ℕ} {cs ds es ms : List ℕ}

/-- The resource that a link is part of. -/
def Slot.owner : Slot → ℕ
  | .child a => a
  | .sibling a => a

/-- The link at the end of `cs`, if `p` is the one at its beginning. -/
def Slot.after : Slot → List ℕ → Slot
  | p, [] => p
  | _, c :: cs => (Slot.sibling c).after cs

theorem Slot.owner_after (p : Slot) (cs : List ℕ) : (p.after cs).owner ∈ p.owner :: cs := by
  induction cs generalizing p with
  | nil => simp [Slot.after]
  | cons c cs ih => exact List.mem_cons_of_mem _ (ih (.sibling c))

@[simp] theorem Slot.after_concat (p : Slot) (cs : List ℕ) (c : ℕ) :
    p.after (cs ++ [c]) = .sibling c := by
  induction cs generalizing p with
  | nil => rfl
  | cons d cs ih => exact ih (.sibling d)

/-! ### Reading after a write -/

theorem write_of_ne (ha : a ≠ p.owner) : p.write h v a = h a := by
  cases p with
  | child b => exact Function.update_of_ne ha _ _
  | sibling b => exact Function.update_of_ne ha _ _

@[simp] theorem write_start : (p.write h v a).start = (h a).start := by
  by_cases ha : a = p.owner
  · subst ha
    cases p with
    | child b => simp [Slot.write, Slot.owner]
    | sibling b => simp [Slot.write, Slot.owner]
  · rw [write_of_ne ha]

@[simp] theorem write_end : (p.write h v a).end_ = (h a).end_ := by
  by_cases ha : a = p.owner
  · subst ha
    cases p with
    | child b => simp [Slot.write, Slot.owner]
    | sibling b => simp [Slot.write, Slot.owner]
  · rw [write_of_ne ha]

@[simp] theorem write_flags : (p.write h v a).flags = (h a).flags := by
  by_cases ha : a = p.owner
  · subst ha
    cases p with
    | child b => simp [Slot.write, Slot.owner]
    | sibling b => simp [Slot.write, Slot.owner]
  · rw [write_of_ne ha]

@[simp] theorem write_parent : (p.write h v a).parent = (h a).parent := by
  by_cases ha : a = p.owner
  · subst ha
    cases p with
    | child b => simp [Slot.write, Slot.owner]
    | sibling b => simp [Slot.write, Slot.owner]
  · rw [write_of_ne ha]

@[simp] theorem write_sibling_child : (Slot.write h v (.sibling n) a).child = (h a).child := by
  by_cases ha : a = n
  · simp [Slot.write, ha]
  · rw [write_of_ne ha]

@[simp] theorem write_child_sibling : (Slot.write h v (.child n) a).sibling = (h a).sibling := by
  by_cases ha : a = n
  · simp [Slot.write, ha]
  · rw [write_of_ne ha]

@[simp] theorem write_sibling_self : (Slot.write h v (.sibling n) n).sibling = v := by
  simp [Slot.write]

@[simp] theorem write_child_self : (Slot.write h v (.child n) n).child = v := by
  simp [Slot.write]

theorem write_congr {h' : Heap} (ha : h' a = h a) : p.write h' v a = p.write h v a := by
  by_cases hown : a = p.owner
  · subst hown
    cases p with
    | child b =>
      have hb : h' b = h b := ha
      simp [Slot.write, Slot.owner, hb]
    | sibling b =>
      have hb : h' b = h b := ha
      simp [Slot.write, Slot.owner, hb]
  · rw [write_of_ne hown, write_of_ne hown, ha]

theorem write_read {h' : Heap} (ha : h' a = p.write h v a) : p.write h' (p.read h) a = h a := by
  by_cases hown : a = p.owner
  · subst hown
    cases p with
    | child b =>
      have hb : h' b = { h b with child := v } := by simpa [Slot.write, Slot.owner] using ha
      simp [Slot.write, Slot.owner, Slot.read, hb]
    | sibling b =>
      have hb : h' b = { h b with sibling := v } := by simpa [Slot.write, Slot.owner] using ha
      simp [Slot.write, Slot.owner, Slot.read, hb]
  · rw [write_of_ne hown, ha, write_of_ne hown]

/-- Writing the link after some children of `q` changes the first child of at
most `q`. -/
theorem write_after_child (ha : a ≠ q) :
    (((Slot.child q).after cs).write h v a).child = (h a).child := by
  cases cs with
  | nil => rw [Slot.after, write_of_ne ha]
  | cons c cs =>
    have hsib : ∃ n, (Slot.sibling c).after cs = .sibling n := by
      clear ha
      induction cs generalizing c with
      | nil => exact ⟨c, rfl⟩
      | cons d cs ih => exact ih d
    obtain ⟨n, hn⟩ := hsib
    rw [Slot.after, hn, write_sibling_child]

theorem write_after_sibling (ha : a ∉ cs) :
    (((Slot.child q).after cs).write h v a).sibling = (h a).sibling := by
  cases cs with
  | nil => rw [Slot.after, write_child_sibling]
  | cons c cs =>
    rw [write_of_ne]
    intro hown
    have hmem := Slot.owner_after (.sibling c) cs
    exact ha (hown ▸ hmem)

@[simp] theorem setParent_start : (setParent h n v a).start = (h a).start := by
  by_cases ha : a = n
  · simp [setParent, ha]
  · simp [setParent, ha]

@[simp] theorem setParent_end : (setParent h n v a).end_ = (h a).end_ := by
  by_cases ha : a = n
  · simp [setParent, ha]
  · simp [setParent, ha]

@[simp] theorem setParent_flags : (setParent h n v a).flags = (h a).flags := by
  by_cases ha : a = n
  · simp [setParent, ha]
  · simp [setParent, ha]

@[simp] theorem setParent_sibling : (setParent h n v a).sibling = (h a).sibling := by
  by_cases ha : a = n
  · simp [setParent, ha]
  · simp [setParent, ha]

@[simp] theorem setParent_child : (setParent h n v a).child = (h a).child := by
  by_cases ha : a = n
  · simp [setParent, ha]
  · simp [setParent, ha]

@[simp] theorem setParent_parent_self : (setParent h n v n).parent = v := by
  simp [setParent]

theorem setParent_of_ne (ha : a ≠ n) : setParent h n v a = h a :=
  Function.update_of_ne ha _ _

/-- The heap after the parent of all of `ms` is set. -/
def setParents (h : Heap) (ms : List ℕ) (v : Option ℕ) : Heap :=
  fun a => if a ∈ ms then { h a with parent := v } else h a

@[simp] theorem setParents_start : (setParents h ms v a).start = (h a).start := by
  by_cases ha : a ∈ ms <;> simp [setParents, ha]

@[simp] theorem setParents_end : (setParents h ms v a).end_ = (h a).end_ := by
  by_cases ha : a ∈ ms <;> simp [setParents, ha]

@[simp] theorem setParents_sibling : (setParents h ms v a).sibling = (h a).sibling := by
  by_cases ha : a ∈ ms <;> simp [setParents, ha]

@[simp] theorem setParents_child : (setParents h ms v a).child = (h a).child := by
  by_cases ha : a ∈ ms <;> simp [setParents, ha]

theorem setParents_parent_of_mem (ha : a ∈ ms) : (setParents h ms v a).parent = v := by
  simp [setParents, ha]

theorem setParents_of_not_mem (ha : a ∉ ms) : setParents h ms v a = h a := by
  simp [setParents, ha]

theorem setParents_setParent : setParents (setParent h n v) ms v = setParents h (n :: ms) v := by
  funext a
  by_cases han : a = n
  · by_cases ha : a ∈ ms <;> simp [setParents, setParent, han]
  · by_cases ha : a ∈ ms <;> simp [setParents, setParent, han, ha]

/-! ### Paths -/

/-- The path of siblings in a heap. -/
abbrev Siblings (h : Heap) : Option ℕ → List ℕ → Option ℕ → Prop := Path fun c => (h c).sibling

theorem read_after (hp : Siblings h (p.read h) cs e) : (p.after cs).read h = e := by
  induction cs generalizing p with
  | nil => exact hp
  | cons c cs ih => exact ih (p := .sibling c) hp.2

/-- **Redirecting a path**: the write of the link after `cs` moves its end. -/
theorem path_write (hp : Siblings h (p.read h) cs e) (hown : p.owner ∉ cs) (hnod : cs.Nodup) :
    Siblings ((p.after cs).write h v) (p.read ((p.after cs).write h v)) cs v := by
  induction cs generalizing p with
  | nil =>
    cases p with
    | child b => exact write_child_self
    | sibling b => exact write_sibling_self
  | cons c cs ih =>
    rw [List.nodup_cons] at hnod
    refine ⟨?_, ih (p := .sibling c) hp.2 hnod.1 hnod.2⟩
    have hne : p.owner ≠ ((Slot.sibling c).after cs).owner := by
      intro h
      exact hown (h ▸ Slot.owner_after (.sibling c) cs)
    have hread : p.read (((Slot.sibling c).after cs).write h v) = p.read h := by
      cases p with
      | child b => exact congrArg Resource.child (write_of_ne hne)
      | sibling b => exact congrArg Resource.sibling (write_of_ne hne)
    exact hread.trans hp.1

/-- The loop that hands children over to `v` sets the parent of all of them. -/
theorem hoistChildren_eq {chd last fuel : ℕ} (hp : Siblings h (some chd) (ms ++ [last]) none)
    (hfuel : ms.length < fuel) :
    hoistChildren v fuel h chd = some (setParents h (ms ++ [last]) v, last) := by
  induction fuel generalizing h chd ms with
  | zero => omega
  | succ fuel ih =>
    cases ms with
    | nil =>
      obtain ⟨hchd, hlast⟩ := hp
      obtain rfl := Option.some.inj hchd
      have hsib : (h chd).sibling = none := hlast
      simp only [hoistChildren, setParent_sibling, hsib]
      rw [List.nil_append, ← setParents_setParent]
      rfl
    | cons c ms =>
      obtain ⟨hchd, hrest⟩ := hp
      obtain rfl := Option.some.inj hchd
      have hrest' : Siblings h (h chd).sibling (ms ++ [last]) none := hrest
      cases hsib : (h chd).sibling with
      | none =>
        rw [hsib] at hrest'
        cases ms with
        | nil => cases hrest'.1
        | cons d ms => cases hrest'.1
      | some next =>
        rw [hsib] at hrest'
        have hpath : Siblings (setParent h chd v) (some next) (ms ++ [last]) none :=
          hrest'.congr fun c _ => setParent_sibling
        simp only [hoistChildren, setParent_sibling, hsib]
        rw [ih hpath (by simpa using hfuel), setParents_setParent]
        rfl

theorem adoptChildren_eq {new fuel : ℕ} (hp : Siblings h e ms none) (hfuel : ms.length < fuel) :
    adoptChildren new fuel h e = some (setParents h ms (some new)) := by
  induction fuel generalizing h e ms with
  | zero => omega
  | succ fuel ih =>
    cases ms with
    | nil =>
      have he : e = none := hp
      rw [he]
      rfl
    | cons c ms =>
      obtain ⟨he, hrest⟩ := hp
      have hpath : Siblings (setParent h c (some new)) (h c).sibling ms none :=
        hrest.congr fun d _ => setParent_sibling
      rw [he, adoptChildren, setParent_sibling, ih hpath (by simpa using hfuel),
        setParents_setParent]

/-- The loop that looks for the resource before `first` finds the last of the
children before it. -/
theorem siblingBefore_eq {first last next fuel : ℕ}
    (hp : Siblings h (some next) (ms ++ [last]) (some first)) (hfirst : first ∉ ms ++ [last])
    (hfuel : ms.length < fuel) : siblingBefore h first fuel next = some last := by
  induction fuel generalizing next ms with
  | zero => omega
  | succ fuel ih =>
    cases ms with
    | nil =>
      obtain ⟨hnext, hlast⟩ := hp
      obtain rfl := Option.some.inj hnext
      have hsib : (h next).sibling = some first := hlast
      simp [siblingBefore, hsib]
    | cons c ms =>
      obtain ⟨hnext, hrest⟩ := hp
      obtain rfl := Option.some.inj hnext
      have hd : ∃ d, (h next).sibling = some d ∧ d ∈ ms ++ [last] := by
        cases ms with
        | nil => exact ⟨last, hrest.1, by simp⟩
        | cons d ms => exact ⟨d, hrest.1, by simp⟩
      obtain ⟨d, hsib, hmem⟩ := hd
      have hne : d ≠ first := by
        rintro rfl
        exact hfirst (List.mem_cons_of_mem next hmem)
      have hpath : Siblings h (some d) (ms ++ [last]) (some first) := hsib ▸ hrest
      simp only [siblingBefore, hsib, Option.bind_some, if_neg hne]
      exact ih hpath (fun hm => hfirst (List.mem_cons_of_mem next hm)) (by simpa using hfuel)

/-- Redirecting the list of the children of `q` after `ds` to another path. -/
theorem path_splice (hds : Siblings h (h q).child ds e) (hes : Siblings h v es none)
    (hq : q ∉ ds) (hnod : (ds ++ es).Nodup) :
    Siblings (((Slot.child q).after ds).write h v) (((Slot.child q).after ds).write h v q).child
      (ds ++ es) none := by
  obtain ⟨hdn, -, hdisj⟩ := List.nodup_append.mp hnod
  refine path_append.mpr ⟨v, path_write (p := .child q) hds hq hdn, hes.congr fun c hc => ?_⟩
  exact write_after_sibling fun hcd => hdisj c hcd c hc rfl

end GfpDrivers.ResourceTree
