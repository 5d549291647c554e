import Mathlib.Data.List.Nodup

/-!
Circular doubly linked lists through nodes of any type. A list is a head node
and the nodes met from it; the same links may hold any number of disjoint
lists, and a node linked to itself is an empty list of its own.

The operations are those of an intrusive list: they write the links of the
node and of its neighbours, and nothing else. What they do is stated for
the list of nodes that a head stands for (`IsList`).
-/

namespace GfpDrivers.Lib

open Function List

/-- The links of all nodes. -/
structure Links (ν : Type*) where
  next : ν → ν
  prev : ν → ν

namespace Links

variable {ν : Type*} {L L' : Links ν} {a b h t x y : ν} {xs ys ts : List ν}

/-- From `a` the links lead through `xs` to `b`, and back. -/
def Seg (L : Links ν) : ν → List ν → ν → Prop
  | a, [], b => L.next a = b ∧ L.prev b = a
  | a, x :: xs, b => (L.next a = x ∧ L.prev x = a) ∧ Seg L x xs b

/-- `h` is the head of the list `xs`. -/
structure IsList (L : Links ν) (h : ν) (xs : List ν) : Prop where
  nodup : (h :: xs).Nodup
  seg : L.Seg h xs h

/-! ### Segments -/

theorem seg_append : L.Seg a (xs ++ x :: ys) b ↔ L.Seg a xs x ∧ L.Seg x ys b := by
  induction xs generalizing a with
  | nil => exact Iff.rfl
  | cons y xs ih =>
    simp only [cons_append, Seg, ih]
    tauto

/-- A segment is given by the links of its nodes. -/
theorem Seg.congr (hs : L.Seg a xs b) (hnext : ∀ y ∈ a :: xs, L'.next y = L.next y)
    (hprev : ∀ y ∈ xs ++ [b], L'.prev y = L.prev y) : L'.Seg a xs b := by
  induction xs generalizing a with
  | nil =>
    refine ⟨?_, ?_⟩
    · rw [hnext a (by simp)]; exact hs.1
    · rw [hprev b (by simp)]; exact hs.2
  | cons x xs ih =>
    refine ⟨⟨?_, ?_⟩, ih hs.2 (fun y hy => hnext y (by simp [hy])) fun y hy => hprev y ?_⟩
    · rw [hnext a (by simp)]; exact hs.1.1
    · rw [hprev x (by simp)]; exact hs.1.2
    · exact mem_cons_of_mem x hy

/-- The node before the end of a segment. -/
theorem Seg.prev_mem (hs : L.Seg a xs b) : L.prev b ∈ a :: xs := by
  induction xs generalizing a with
  | nil => rw [hs.2]; simp
  | cons x xs ih => exact mem_cons_of_mem a (ih hs.2)

theorem Seg.prev_mem_of_mem (hs : L.Seg a xs b) (hy : y ∈ xs) : L.prev y ∈ a :: xs := by
  obtain ⟨ys, zs, rfl⟩ := append_of_mem hy
  have hmem := (seg_append.mp hs).1.prev_mem
  rw [mem_cons] at hmem ⊢
  exact hmem.imp_right fun h' => mem_append_left _ h'

/-- The node after the start of a segment. -/
theorem Seg.next_mem (hs : L.Seg a xs b) : L.next a ∈ xs ++ [b] := by
  cases xs with
  | nil => rw [hs.1]; simp
  | cons x xs => rw [hs.1.1]; simp

/-- From `b` the links lead back through `xs` to `a`, wherever they lead forward. -/
def Back (L : Links ν) : ν → List ν → ν → Prop
  | a, [], b => L.prev b = a
  | a, x :: xs, b => L.prev x = a ∧ Back L x xs b

theorem Seg.back (hs : L.Seg a xs b) : L.Back a xs b := by
  induction xs generalizing a with
  | nil => exact hs.2
  | cons x xs ih => exact ⟨hs.1.2, ih hs.2⟩

theorem back_append : L.Back a (xs ++ x :: ys) b ↔ L.Back a xs x ∧ L.Back x ys b := by
  induction xs generalizing a with
  | nil => exact Iff.rfl
  | cons y xs ih => rw [cons_append, Back, ih, Back, and_assoc]

theorem Back.prev_eq (hs : L.Back a xs b) : L.prev b = xs.getLastD a := by
  cases eq_nil_or_concat xs with
  | inl hnil =>
    subst hnil
    exact hs
  | inr hconcat =>
    obtain ⟨zs, z, rfl⟩ := hconcat
    rw [concat_eq_append] at hs ⊢
    rw [getLastD_concat]
    exact (back_append.mp hs).2

/-- What leads back from one end leads back from another one that is behind the same node. -/
theorem Back.congr {b' : ν} (hs : L.Back a xs b) (hprev : ∀ y ∈ xs, L'.prev y = L.prev y) (hend : L'.prev b' = L.prev b) :
    L'.Back a xs b' := by
  induction xs generalizing a with
  | nil => exact hend.trans hs
  | cons x xs ih =>
    exact ⟨(hprev x (mem_cons_self ..)).trans hs.1, ih hs.2 fun y hy => hprev y (mem_cons_of_mem x hy)⟩

/-! ### Lists -/

theorem isList_nil_iff : L.IsList h [] ↔ L.next h = h ∧ L.prev h = h :=
  ⟨fun hl => hl.seg, fun hs => ⟨by simp, hs⟩⟩

/-- The links of a list stay within it. -/
theorem IsList.next_mem (hl : L.IsList h xs) (hx : x ∈ h :: xs) : L.next x ∈ h :: xs := by
  rcases mem_cons.mp hx with rfl | hx
  · have := hl.seg.next_mem
    simp only [mem_append, mem_cons, not_mem_nil, or_false] at this ⊢
    tauto
  · obtain ⟨ys, zs, rfl⟩ := append_of_mem hx
    have := (seg_append.mp hl.seg).2.next_mem
    simp only [mem_append, mem_cons, not_mem_nil, or_false] at this ⊢
    tauto

theorem IsList.prev_mem (hl : L.IsList h xs) (hx : x ∈ h :: xs) : L.prev x ∈ h :: xs := by
  rcases mem_cons.mp hx with rfl | hx
  · exact hl.seg.prev_mem
  · obtain ⟨ys, zs, rfl⟩ := append_of_mem hx
    have := (seg_append.mp hl.seg).1.prev_mem
    simp only [mem_append, mem_cons] at this ⊢
    tauto

/-- A list is given by the links of its nodes. -/
theorem IsList.congr (hl : L.IsList h xs) (hnext : ∀ y ∈ h :: xs, L'.next y = L.next y)
    (hprev : ∀ y ∈ h :: xs, L'.prev y = L.prev y) : L'.IsList h xs := by
  refine ⟨hl.nodup, hl.seg.congr hnext fun y hy => hprev y ?_⟩
  simp only [mem_append, mem_cons, not_mem_nil, or_false] at hy ⊢
  tauto

/-- Where the links lead from a node of a list. -/
theorem IsList.next_eq (hl : L.IsList h (xs ++ x :: ys)) :
    L.next x = ys.headD h := by
  have hs := (seg_append.mp hl.seg).2
  cases ys with
  | nil => exact hs.1
  | cons y ys => exact hs.1.1

theorem IsList.next_head (hl : L.IsList h xs) : L.next h = xs.headD h := by
  have hs := hl.seg
  cases xs with
  | nil => exact hs.1
  | cons y ys => exact hs.1.1

theorem IsList.prev_eq (hl : L.IsList h (xs ++ x :: ys)) : L.prev x = xs.getLastD h := by
  have hs := (seg_append.mp hl.seg).1
  cases eq_nil_or_concat xs with
  | inl hnil => subst hnil; exact hs.2
  | inr hconcat =>
    obtain ⟨zs, z, rfl⟩ := hconcat
    rw [concat_eq_append] at hs ⊢
    simpa using (seg_append.mp hs).2.2

theorem IsList.prev_head (hl : L.IsList h xs) : L.prev h = xs.getLastD h := by
  have hs := hl.seg
  cases eq_nil_or_concat xs with
  | inl hnil => subst hnil; exact hs.2
  | inr hconcat =>
    obtain ⟨zs, z, rfl⟩ := hconcat
    rw [concat_eq_append] at hs ⊢
    simpa using (seg_append.mp hs).2.2

/-! ### Operations -/

variable [DecidableEq ν]

/-- `INIT_LIST_HEAD` -/
def init (L : Links ν) (x : ν) : Links ν where
  next := Function.update L.next x x
  prev := Function.update L.prev x x

/-- `__list_del_entry`: the neighbours of `x` are linked with each other. -/
def del (L : Links ν) (x : ν) : Links ν where
  next := Function.update L.next (L.prev x) (L.next x)
  prev := Function.update L.prev (L.next x) (L.prev x)

/-- `list_del_init` -/
def delInit (L : Links ν) (x : ν) : Links ν := (L.del x).init x

/-- `list_add_tail` -/
def addTail (L : Links ν) (x h : ν) : Links ν where
  next := Function.update (Function.update L.next x h) (L.prev h) x
  prev := Function.update (Function.update L.prev h x) x (L.prev h)

/-- `list_add` -/
def add (L : Links ν) (x h : ν) : Links ν where
  next := Function.update (Function.update L.next x (L.next h)) h x
  prev := Function.update (Function.update L.prev (L.next h) x) x h

/-- `list_move_tail` -/
def moveTail (L : Links ν) (x h : ν) : Links ν := (L.del x).addTail x h

/-- `list_empty` -/
def isEmpty (L : Links ν) (h : ν) : Bool := L.next h = h

/-- Walking back from `x` to the head, up to the first node that `f` accepts.
`none` if the walk is longer than allowed. -/
def findBack {α : Type*} (L : Links ν) (h : ν) (f : ν → Option α) : ℕ → ν → Option (Option α)
  | 0, _ => none
  | fuel + 1, x =>
      if x = h then some none
      else
        match f x with
        | some a => some (some a)
        | none => findBack L h f fuel (L.prev x)

/-- The nodes met from `x` on before the head, at most so many of them. -/
def nodesFrom (L : Links ν) (h : ν) : ℕ → ν → List ν
  | 0, _ => []
  | fuel + 1, x => if x = h then [] else x :: nodesFrom L h fuel (L.next x)

/-- A node of a list is not an empty list of its own. -/
theorem IsList.isEmpty_of_mem (hl : L.IsList h xs) (hx : x ∈ xs) : L.isEmpty x = false := by
  obtain ⟨ys, zs, rfl⟩ := append_of_mem hx
  have hnod := hl.nodup
  have hs := (seg_append.mp hl.seg).2
  simp only [isEmpty, decide_eq_false_iff_not]
  cases zs with
  | nil =>
    rw [hs.1]
    rintro rfl
    simp at hnod
  | cons z zs =>
    rw [hs.1.1]
    rintro rfl
    simp [nodup_append] at hnod

/-- Unlinking the node between two segments joins them. -/
theorem seg_del (hxs : L.Seg a xs x) (hys : L.Seg x ys b) (hx : x ∉ a :: xs) (hx' : x ∉ ys ++ [b])
    (hxsn : (a :: xs).Nodup) (hysn : (ys ++ [b]).Nodup)
    (hdisj : ∀ y ∈ xs, y ∉ ys ++ [b]) (ha : a ∉ ys) : (L.del x).Seg a (xs ++ ys) b := by
  induction xs generalizing a with
  | nil =>
    have hp : L.prev x = a := hxs.2
    cases ys with
    | nil =>
      have hn : L.next x = b := hys.1
      simp [Seg, del, hp, hn]
    | cons y ys =>
      have hn : L.next x = y := hys.1.1
      refine ⟨⟨by simp [del, hp, hn], by simp [del, hp, hn]⟩, hys.2.congr ?_ ?_⟩
      · intro z hz
        have hza : z ≠ a := by
          rintro rfl
          exact ha hz
        simp [del, hp, hza]
      · intro z hz
        have hzy : z ≠ y := by
          rintro rfl
          rw [cons_append, nodup_cons] at hysn
          exact hysn.1 hz
        simp [del, hn, hzy]
  | cons z xs ih =>
    have hpz : L.prev x ∈ z :: xs := hxs.2.prev_mem
    have hnx : L.next x ∈ ys ++ [b] := hys.next_mem
    rw [nodup_cons] at hxsn
    refine ⟨⟨?_, ?_⟩, ih hxs.2 (fun h => hx (by simp [mem_cons.mp h])) hxsn.2
      (fun y hy => hdisj y (by simp [hy])) fun h => hdisj z (by simp) (by simp [h])⟩
    · have hne : a ≠ L.prev x := fun h => hxsn.1 (h ▸ hpz)
      simp only [del, update_of_ne hne]
      exact hxs.1.1
    · have hne : z ≠ L.next x := fun h => hdisj z (by simp) (h ▸ hnx)
      simp only [del, update_of_ne hne]
      exact hxs.1.2

/-! ### What the operations do -/

/-- Unlinking a node takes it out of its list. -/
theorem IsList.del (hl : L.IsList h (xs ++ x :: ys)) : (L.del x).IsList h (xs ++ ys) := by
  have hnod := hl.nodup
  obtain ⟨hxs, hys⟩ := seg_append.mp hl.seg
  simp only [nodup_cons, nodup_append, mem_append, mem_cons, not_or] at hnod
  obtain ⟨⟨hhxs, hhx, hhys⟩, hxsn, ⟨hxys, hysn⟩, hdisj⟩ := hnod
  have hxxs : x ∉ xs := fun hx => hdisj x hx x (.inl rfl) rfl
  have hsep : ∀ y ∈ xs, y ∉ ys := fun y hy hy' => hdisj y hy y (.inr hy') rfl
  refine ⟨?_, seg_del hxs hys ?_ ?_ ?_ ?_ ?_ hhys⟩
  · simp only [nodup_cons, nodup_append, mem_append, not_or]
    exact ⟨⟨hhxs, hhys⟩, hxsn, hysn, fun y hy z hz hyz => hsep y hy (hyz ▸ hz)⟩
  · simp only [mem_cons, not_or]
    exact ⟨fun h => hhx h.symm, hxxs⟩
  · simp only [mem_append, mem_singleton, not_or]
    exact ⟨hxys, fun h => hhx h.symm⟩
  · exact nodup_cons.mpr ⟨hhxs, hxsn⟩
  · rw [nodup_append]
    refine ⟨hysn, by simp, ?_⟩
    rintro y hy z hz rfl
    rw [mem_singleton] at hz
    exact hhys (hz ▸ hy)
  · intro y hy
    simp only [mem_append, mem_singleton, not_or]
    exact ⟨hsep y hy, fun h => hhxs (h ▸ hy)⟩

/-- Unlinking a node writes only links of its list. -/
theorem IsList.del_frame (hl : L.IsList h xs) (hx : x ∈ xs) (hy : y ∉ h :: xs) :
    (L.del x).next y = L.next y ∧ (L.del x).prev y = L.prev y := by
  have hx' : x ∈ h :: xs := mem_cons_of_mem h hx
  have hp : y ≠ L.prev x := fun h => hy (h ▸ hl.prev_mem hx')
  have hn : y ≠ L.next x := fun h => hy (h ▸ hl.next_mem hx')
  simp [Links.del, hp, hn]

theorem init_frame (hy : y ≠ x) : (L.init x).next y = L.next y ∧ (L.init x).prev y = L.prev y := by
  simp [init, hy]

omit [DecidableEq ν] in
/-- A node that is its own list and whose links are not written. -/
theorem IsList.of_frame (hl : L.IsList x []) (hx : L'.next x = L.next x ∧ L'.prev x = L.prev x) :
    L'.IsList x [] := by
  rw [isList_nil_iff] at hl ⊢
  rw [hx.1, hx.2]
  exact hl

/-- Initialising a node that is not in the list. -/
theorem IsList.init (hl : L.IsList h xs) (hx : x ∉ h :: xs) : (L.init x).IsList h xs := by
  have hne : ∀ y ∈ h :: xs, y ≠ x := by
    rintro y hy rfl
    exact hx hy
  exact hl.congr (fun y hy => (init_frame (hne y hy)).1) fun y hy => (init_frame (hne y hy)).2

theorem isList_init (L : Links ν) (x : ν) : (L.init x).IsList x [] := by
  rw [isList_nil_iff]
  simp [init]

/-- A node added at the tail is the last one. -/
theorem IsList.addTail (hl : L.IsList h xs) (hx : x ∉ h :: xs) :
    (L.addTail x h).IsList h (xs ++ [x]) := by
  have hnod := hl.nodup
  rw [mem_cons, not_or] at hx
  refine ⟨?_, ?_⟩
  · rw [← cons_append, nodup_append]
    refine ⟨hnod, by simp, ?_⟩
    rintro y hy z hz rfl
    rw [mem_singleton] at hz
    subst hz
    rcases mem_cons.mp hy with rfl | hy
    · exact hx.1 rfl
    · exact hx.2 hy
  · have hxh : h ≠ x := fun h => hx.1 h.symm
    cases eq_nil_or_concat xs with
    | inl hnil =>
      subst hnil
      have hp : L.prev h = h := hl.seg.2
      simp [Seg, Links.addTail, hp, hx.1, hxh]
    | inr hconcat =>
      obtain ⟨zs, z, rfl⟩ := hconcat
      rw [concat_eq_append] at hl hnod hx ⊢
      have hp : L.prev h = z := by
        rw [hl.prev_head]
        simp
      simp only [nodup_cons, nodup_append, mem_append, mem_singleton,
        not_or] at hnod hx
      obtain ⟨⟨hhzs, hhz⟩, -, -, hzz⟩ := hnod
      rw [append_assoc, singleton_append, seg_append]
      refine ⟨((seg_append.mp hl.seg).1).congr ?_ ?_, ?_⟩
      · intro y hy
        have hyz : y ≠ z := by
          rintro rfl
          rcases mem_cons.mp hy with rfl | hy
          · exact hhz rfl
          · exact hzz y hy y rfl rfl
        have hyx : y ≠ x := by
          rintro rfl
          rcases mem_cons.mp hy with rfl | hy
          · exact hx.1 rfl
          · exact hx.2.1 hy
        simp [Links.addTail, hp, hyz, hyx]
      · intro y hy
        rw [mem_append, mem_singleton] at hy
        have hyh : y ≠ h := by
          rintro rfl
          exact hy.elim hhzs hhz
        have hyx : y ≠ x := by
          rintro rfl
          exact hy.elim hx.2.1 hx.2.2
        simp [Links.addTail, hyh, hyx]
      · simp [Seg, Links.addTail, hp, hxh, hx.2.2]

theorem addTail_prev : (L.addTail x h).prev y = if y = x then L.prev h else if y = h then x else L.prev y := by
  simp only [Links.addTail, update_apply]

/-- In an empty list both ends are the same. -/
theorem IsList.add_of_empty (hl : L.IsList h []) (hx : x ≠ h) : (L.add x h).IsList h [x] := by
  obtain ⟨hn, hp⟩ := isList_nil_iff.mp hl
  refine ⟨by simpa using hx.symm, ?_⟩
  simp [Seg, Links.add, hn, hx, hx.symm]

theorem IsList.add_frame (hl : L.IsList h xs) (hy : y ∉ h :: xs) (hyx : y ≠ x) :
    (L.add x h).next y = L.next y ∧ (L.add x h).prev y = L.prev y := by
  have hn : y ≠ L.next h := fun h' => hy (h' ▸ hl.next_mem (mem_cons_self ..))
  have hyh : y ≠ h := fun h' => hy (h' ▸ mem_cons_self ..)
  simp [Links.add, hn, hyh, hyx]

/-- Adding a node writes only links of its list and its own. -/
theorem IsList.addTail_frame (hl : L.IsList h xs) (hy : y ∉ h :: xs) (hyx : y ≠ x) :
    (L.addTail x h).next y = L.next y ∧ (L.addTail x h).prev y = L.prev y := by
  have hp : y ≠ L.prev h := fun h' => hy (h' ▸ hl.prev_mem (mem_cons_self ..))
  have hyh : y ≠ h := fun h' => hy (h' ▸ mem_cons_self ..)
  simp [Links.addTail, hp, hyh, hyx]

theorem IsList.delInit (hl : L.IsList h (xs ++ x :: ys)) :
    (L.delInit x).IsList h (xs ++ ys) ∧ (L.delInit x).IsList x [] := by
  refine ⟨hl.del.congr (fun y hy => ?_) (fun y hy => ?_), isList_init _ x⟩
  all_goals
    have hne : y ≠ x := by
      rintro rfl
      have hnod := hl.nodup
      simp only [nodup_cons, nodup_append, mem_append, mem_cons,
        not_or] at hnod hy
      rcases hy with rfl | hy | hy
      · exact hnod.1.2.1 rfl
      · exact hnod.2.2.2 y hy y (.inl rfl) rfl
      · exact hnod.2.2.1.1 hy
    first
      | exact (init_frame hne).1
      | exact (init_frame hne).2

theorem IsList.delInit_frame (hl : L.IsList h xs) (hx : x ∈ xs) (hy : y ∉ h :: xs) :
    (L.delInit x).next y = L.next y ∧ (L.delInit x).prev y = L.prev y := by
  have hne : y ≠ x := fun h' => hy (h' ▸ mem_cons_of_mem h hx)
  obtain ⟨hn, hp⟩ := init_frame (L := L.del x) hne
  obtain ⟨hn', hp'⟩ := hl.del_frame hx hy
  exact ⟨hn.trans hn', hp.trans hp'⟩

/-- Unlinking a node that is in no list changes nothing. -/
theorem delInit_of_empty (hl : L.IsList x []) : L.delInit x = L := by
  obtain ⟨hn, hp⟩ := isList_nil_iff.mp hl
  have hnext : update L.next x x = L.next := by
    rw [← hn, update_eq_self_iff, hn, hn]
  have hprev : update L.prev x x = L.prev := by
    rw [← hp, update_eq_self_iff, hp, hp]
  simp only [Links.delInit, Links.del, init, hn, hp, hnext, hprev]

/-- Moving a node from one list to the tail of another. -/
theorem IsList.moveTail (hl : L.IsList h (xs ++ x :: ys)) (ht : L.IsList t ts)
    (hdisj : ∀ y ∈ h :: (xs ++ x :: ys), y ∉ t :: ts) :
    (L.moveTail x t).IsList h (xs ++ ys) ∧ (L.moveTail x t).IsList t (ts ++ [x]) := by
  have hx : x ∈ xs ++ x :: ys := by simp
  have hxh : x ∈ h :: (xs ++ x :: ys) := mem_cons_of_mem h hx
  have hdel : (L.del x).IsList t ts := by
    refine ht.congr (fun y hy => ?_) (fun y hy => ?_)
    · exact (hl.del_frame hx fun hy' => hdisj y hy' hy).1
    · exact (hl.del_frame hx fun hy' => hdisj y hy' hy).2
  refine ⟨?_, hdel.addTail (hdisj x hxh)⟩
  have hsub : ∀ y ∈ h :: (xs ++ ys), y ∉ t :: ts ∧ y ≠ x := by
    intro y hy
    have hnod := hl.nodup
    simp only [nodup_cons, nodup_append, mem_append, mem_cons,
      not_or] at hnod hy
    refine ⟨hdisj y ?_, ?_⟩
    · simp only [mem_cons, mem_append]
      tauto
    · rintro rfl
      rcases hy with rfl | hy | hy
      · exact hnod.1.2.1 rfl
      · exact hnod.2.2.2 y hy y (.inl rfl) rfl
      · exact hnod.2.2.1.1 hy
  refine hl.del.congr (fun y hy => ?_) (fun y hy => ?_)
  · exact (hdel.addTail_frame (hsub y hy).1 (hsub y hy).2).1
  · exact (hdel.addTail_frame (hsub y hy).1 (hsub y hy).2).2

theorem IsList.moveTail_frame (hl : L.IsList h xs) (ht : L.IsList t ts)
    (hdisj : ∀ y ∈ h :: xs, y ∉ t :: ts) (hx : x ∈ xs) (hy : y ∉ h :: xs) (hy' : y ∉ t :: ts) :
    (L.moveTail x t).next y = L.next y ∧ (L.moveTail x t).prev y = L.prev y := by
  have hdel : (L.del x).IsList t ts := by
    refine ht.congr (fun z hz => ?_) (fun z hz => ?_)
    · exact (hl.del_frame hx fun hz' => hdisj z hz' hz).1
    · exact (hl.del_frame hx fun hz' => hdisj z hz' hz).2
  have hyx : y ≠ x := fun h' => hy (h' ▸ mem_cons_of_mem h hx)
  obtain ⟨hn, hp⟩ := hdel.addTail_frame hy' hyx
  obtain ⟨hn', hp'⟩ := hl.del_frame hx hy
  exact ⟨hn.trans hn', hp.trans hp'⟩

/-- The walk back finds the last node of the list that is accepted. -/
theorem IsList.findBack_eq {α : Type*} {f : ν → Option α} {fuel : ℕ} (hl : L.IsList h (xs ++ ys))
    (hfuel : xs.length < fuel) :
    L.findBack h f fuel (xs.getLastD h) = some (xs.reverse.findSome? f) := by
  induction fuel generalizing xs ys with
  | zero => omega
  | succ fuel ih =>
    cases eq_nil_or_concat xs with
    | inl hnil => simp [hnil, findBack]
    | inr hconcat =>
      obtain ⟨zs, z, rfl⟩ := hconcat
      rw [concat_eq_append] at hl hfuel ⊢
      rw [append_assoc, singleton_append] at hl
      have hz : z ≠ h := by
        rintro rfl
        have hnod := hl.nodup
        simp at hnod
      have hlast : (zs ++ [z]).getLastD h = z := by simp
      rw [hlast, findBack, if_neg hz, reverse_append, reverse_singleton,
        singleton_append, List.findSome?_cons, hl.prev_eq]
      cases hf : f z with
      | some a => rfl
      | none => exact ih hl (by simpa using hfuel)

theorem IsList.nodesFrom_append {fuel : ℕ} (hl : L.IsList h (xs ++ ys)) (hfuel : ys.length < fuel) :
    L.nodesFrom h fuel (ys.headD h) = ys := by
  induction fuel generalizing xs ys with
  | zero => omega
  | succ fuel ih =>
    cases ys with
    | nil => simp [nodesFrom]
    | cons y ys =>
      have hy : y ≠ h := by
        rintro rfl
        have hnod := hl.nodup
        simp at hnod
      have hnext := hl.next_eq
      rw [headD_cons, nodesFrom, if_neg hy, hnext]
      rw [append_cons] at hl
      exact congrArg _ (ih hl (by simpa using hfuel))

/-- The walk forward reads the list. -/
theorem IsList.nodesFrom_eq {fuel : ℕ} (hl : L.IsList h xs) (hfuel : xs.length < fuel) :
    L.nodesFrom h fuel (L.next h) = xs := by
  rw [hl.next_head]
  exact IsList.nodesFrom_append (by simpa using hl : L.IsList h ([] ++ xs)) hfuel

/-! ### Joining two lists -/

/-- `list_splice_init`: the nodes of `l` come to the front of `h`. -/
def spliceInit (L : Links ν) (l h : ν) : Links ν :=
  if L.next l = l then L
  else init
    { next := Function.update (Function.update L.next h (L.next l)) (L.prev l) (L.next h)
      prev := Function.update (Function.update L.prev (L.next l) h) (L.next h) (L.prev l) } l

theorem spliceInit_of_empty (hl : L.next t = t) : L.spliceInit t h = L := if_pos hl

theorem spliceInit_next (hl : L.next t ≠ t) : (L.spliceInit t h).next y =
    if y = t then t else if y = L.prev t then L.next h else if y = h then L.next t else L.next y := by
  rw [spliceInit, if_neg hl]
  simp only [Links.init, update_apply]

theorem spliceInit_prev (hl : L.next t ≠ t) : (L.spliceInit t h).prev y =
    if y = t then t else if y = L.next h then L.prev t else if y = L.next t then h else L.prev y := by
  rw [spliceInit, if_neg hl]
  simp only [Links.init, update_apply]

omit [DecidableEq ν] in
/-- What leads to the end of one list leads on through the other. -/
theorem seg_join (hxs : L.Seg a xs t) (hys : L.Seg h ys b) (hnext : ∀ y ∈ a :: xs, y ≠ L.prev t → L'.next y = L.next y)
    (hprev : ∀ y ∈ xs, L'.prev y = L.prev y) (hlast : L'.next (L.prev t) = L.next h)
    (hfirst : L'.prev (L.next h) = L.prev t) (hnext' : ∀ y ∈ ys, L'.next y = L.next y)
    (hprev' : ∀ y ∈ ys ++ [b], y ≠ L.next h → L'.prev y = L.prev y) (hnod : (a :: xs).Nodup) (hnod' : (ys ++ [b]).Nodup) :
    L'.Seg a (xs ++ ys) b := by
  induction xs generalizing a with
  | nil =>
    have hp : L.prev t = a := hxs.2
    rw [hp] at hlast hfirst
    cases ys with
    | nil =>
      have hn : L.next h = b := hys.1
      exact ⟨hlast.trans hn, hn ▸ hfirst⟩
    | cons y ys =>
      have hn : L.next h = y := hys.1.1
      refine ⟨⟨hlast.trans hn, hn ▸ hfirst⟩, hys.2.congr hnext' fun z hz => hprev' z (mem_cons_of_mem y hz) ?_⟩
      rintro rfl
      rw [hn, cons_append, nodup_cons] at *
      exact hnod'.1 hz
  | cons x xs ih =>
    have hp : L.prev t ∈ x :: xs := hxs.2.prev_mem
    have hne : a ≠ L.prev t := by
      rintro rfl
      exact (nodup_cons.mp hnod).1 hp
    refine ⟨⟨?_, ?_⟩, ih hxs.2 (fun y hy => hnext y (mem_cons_of_mem a hy))
      (fun y hy => hprev y (mem_cons_of_mem x hy)) (nodup_cons.mp hnod).2⟩
    · rw [hnext a (mem_cons_self ..) hne]
      exact hxs.1.1
    · rw [hprev x (mem_cons_self ..)]
      exact hxs.1.2

theorem IsList.spliceInit (ht : L.IsList t ts) (hl : L.IsList h xs) (hdisj : ∀ y ∈ t :: ts, y ∉ h :: xs) :
    (L.spliceInit t h).IsList t [] ∧ (L.spliceInit t h).IsList h (ts ++ xs) := by
  cases ts with
  | nil =>
    rw [spliceInit_of_empty (isList_nil_iff.mp ht).1]
    exact ⟨ht, hl⟩
  | cons z zs =>
    have hfirst : L.next t = z := ht.next_head
    have hlast : L.prev t ∈ z :: zs := ht.seg.2.prev_mem
    have htn := ht.nodup
    have hhn := hl.nodup
    have hne : L.next t ≠ t := by
      rw [hfirst]
      rintro rfl
      exact (nodup_cons.mp htn).1 (mem_cons_self ..)
    have hnot : ∀ y ∈ h :: xs, y ∉ t :: z :: zs := fun y hy hy' => hdisj y hy' hy
    have hat : L.next h ∈ h :: xs := hl.next_mem (mem_cons_self ..)
    rw [nodup_cons] at htn
    have hadd : ∀ y ∈ z :: zs, y ≠ t ∧ y ≠ h ∧ y ≠ L.next h := fun y hy =>
      ⟨fun h' => htn.1 (h' ▸ hy), fun h' => hdisj y (mem_cons_of_mem t hy) (h' ▸ mem_cons_self ..),
        fun h' => hdisj y (mem_cons_of_mem t hy) (h' ▸ hat)⟩
    have hkeep : ∀ y ∈ h :: xs, y ≠ t ∧ y ≠ L.prev t ∧ y ≠ L.next t := fun y hy =>
      ⟨fun h' => hnot y hy (h' ▸ mem_cons_self ..), fun h' => hnot y hy (h' ▸ mem_cons_of_mem t hlast),
        fun h' => hnot y hy (h' ▸ hfirst ▸ mem_cons_of_mem t (mem_cons_self ..))⟩
    refine ⟨isList_nil_iff.mpr ⟨by rw [spliceInit_next hne, if_pos rfl], by rw [spliceInit_prev hne, if_pos rfl]⟩, ?_,
      ⟨?_, ?_⟩, ?_⟩
    · rw [nodup_cons] at hhn ⊢
      rw [nodup_append, mem_append, not_or]
      exact ⟨⟨fun h' => (hadd h h').2.1 rfl, hhn.1⟩, htn.2, hhn.2, fun y hy w hw hyw =>
        hdisj y (mem_cons_of_mem t hy) (hyw ▸ mem_cons_of_mem h hw)⟩
    · obtain ⟨h1, h2, -⟩ := hkeep h (mem_cons_self ..)
      rw [spliceInit_next hne, if_neg h1, if_neg h2, if_pos rfl, hfirst]
    · obtain ⟨h1, -, h3⟩ := hadd z (mem_cons_self ..)
      rw [spliceInit_prev hne, if_neg h1, if_neg h3, if_pos hfirst.symm]
    · have hzn := nodup_cons.mp htn.2
      refine seg_join ht.seg.2 hl.seg (fun y hy hy' => ?_) (fun y hy => ?_) ?_ ?_ (fun y hy => ?_) (fun y hy hy' => ?_) htn.2 ?_
      · obtain ⟨h1, h2, -⟩ := hadd y hy
        rw [spliceInit_next hne, if_neg h1, if_neg hy', if_neg h2]
      · obtain ⟨h1, -, h3⟩ := hadd y (mem_cons_of_mem z hy)
        have hyz : y ≠ L.next t := fun h' => hzn.1 (hfirst ▸ h' ▸ hy)
        rw [spliceInit_prev hne, if_neg h1, if_neg h3, if_neg hyz]
      · rw [spliceInit_next hne, if_neg (hadd _ hlast).1, if_pos rfl]
      · rw [spliceInit_prev hne, if_neg (hkeep _ hat).1, if_pos rfl]
      · obtain ⟨h1, h2, -⟩ := hkeep y (mem_cons_of_mem h hy)
        have hyh : y ≠ h := fun h' => (nodup_cons.mp hhn).1 (h' ▸ hy)
        rw [spliceInit_next hne, if_neg h1, if_neg h2, if_neg hyh]
      · have hmem : y ∈ h :: xs := by
          rw [mem_append, mem_singleton] at hy
          exact mem_cons.mpr hy.symm
        obtain ⟨h1, -, h3⟩ := hkeep y hmem
        rw [spliceInit_prev hne, if_neg h1, if_neg hy', if_neg h3]
      · rw [nodup_append]
        refine ⟨(nodup_cons.mp hhn).2, nodup_singleton h, ?_⟩
        rintro y hy w hw rfl
        rw [mem_singleton] at hw
        exact (nodup_cons.mp hhn).1 (hw ▸ hy)

/-- Joining two lists writes only links of these. -/
theorem IsList.spliceInit_frame (ht : L.IsList t ts) (hl : L.IsList h xs) (hy : y ∉ t :: ts) (hy' : y ∉ h :: xs) :
    (L.spliceInit t h).next y = L.next y ∧ (L.spliceInit t h).prev y = L.prev y := by
  by_cases hne : L.next t = t
  · rw [spliceInit_of_empty hne]
    exact ⟨rfl, rfl⟩
  have ht' : t ∈ t :: ts := mem_cons_self ..
  have hh' : h ∈ h :: xs := mem_cons_self ..
  have h1 : y ≠ t := fun h' => hy (h' ▸ ht')
  have h2 : y ≠ h := fun h' => hy' (h' ▸ hh')
  have h3 : y ≠ L.prev t := fun h' => hy (h' ▸ ht.prev_mem ht')
  have h4 : y ≠ L.next h := fun h' => hy' (h' ▸ hl.next_mem hh')
  have h5 : y ≠ L.next t := fun h' => hy (h' ▸ ht.next_mem ht')
  rw [spliceInit_next hne, if_neg h1, if_neg h3, if_neg h2, spliceInit_prev hne, if_neg h1, if_neg h4, if_neg h5]
  exact ⟨rfl, rfl⟩

/-- A list that is disjoint from the two is kept. -/
theorem IsList.spliceInit_other {b : ν} {bs : List ν} (ht : L.IsList t ts) (hl : L.IsList h xs) (hb : L.IsList b bs)
    (hbt : ∀ y ∈ b :: bs, y ∉ t :: ts) (hbh : ∀ y ∈ b :: bs, y ∉ h :: xs) : (L.spliceInit t h).IsList b bs :=
  hb.congr (fun y hy => (ht.spliceInit_frame hl (hbt y hy) (hbh y hy)).1)
    fun y hy => (ht.spliceInit_frame hl (hbt y hy) (hbh y hy)).2

end Links

end GfpDrivers.Lib
