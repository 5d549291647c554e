import GfpDrivers.Interconnect.Crossing
import Mathlib.Data.List.TakeWhile

/-!
When the search is right. It goes wrong at the first link that is `NULL` or leads back to the source, but where that is the
first link of the source, or where `dst` is at hand and the links lead to nothing new.
-/

namespace GfpDrivers.Interconnect.PathFind

open Lib List

variable {ν : Type} [DecidableEq ν] {links : ν → List (Option ν)} {src dst u v w : ν} {s s' s₁ : SearchState ν}
  {T E V A B : List ν} {ls ls' : List (Option ν)} {seen : Finset ν} {e e₁ : Exit} {d n fuel rounds : ℕ}

/-! ### The first link that is not in order -/

/-- A link of `u` is `NULL` or leads back to the source. -/
def Bad (links : ν → List (Option ν)) (src u : ν) : Prop := none ∈ links u ∨ some src ∈ links u

omit [DecidableEq ν] in
theorem plain_of_not_bad (h : ¬Bad links src u) : none ∉ links u ∧ some src ∉ links u := not_or.mp h

theorem exists_first {α : Type} {p : α → Prop} {l : List α} (h : ∃ x ∈ l, p x) :
    ∃ l₁ x l₂, l = l₁ ++ x :: l₂ ∧ p x ∧ ∀ y ∈ l₁, ¬p y := by
  classical
  obtain ⟨x, hx, hp⟩ := h
  have hsome : (l.find? (p ·)).isSome := List.find?_isSome.mpr ⟨x, hx, by simpa using hp⟩
  obtain ⟨y, hy⟩ := Option.isSome_iff_exists.mp hsome
  obtain ⟨hpy, l₁, l₂, rfl, hnot⟩ := List.find?_eq_some_iff_append.mp hy
  exact ⟨l₁, y, l₂, rfl, by simpa using hpy, by simpa using hnot⟩

omit [DecidableEq ν] in
theorem Bad.first (h : Bad links src u) :
    ∃ ls l ls', links u = ls ++ l :: ls' ∧ (l = none ∨ l = some src) ∧ none ∉ ls ∧ some src ∉ ls := by
  have hex : ∃ l ∈ links u, l = none ∨ l = some src :=
    h.elim (fun hl => ⟨none, hl, .inl rfl⟩) fun hl => ⟨some src, hl, .inr rfl⟩
  obtain ⟨ls, l, ls', heq, hl, hnot⟩ := exists_first hex
  exact ⟨ls, l, ls', heq, hl, fun hmem => hnot _ hmem (.inl rfl), fun hmem => hnot _ hmem (.inr rfl)⟩

/-- A level with such a link before `dst`. -/
theorem exists_first_bad (h : ∃ x ∈ T.takeWhile (· ≠ dst), Bad links src x) :
    ∃ A u B, T = A ++ u :: B ∧ u ≠ dst ∧ Bad links src u ∧ ∀ x ∈ A, x ≠ dst ∧ none ∉ links x ∧ some src ∉ links x := by
  obtain ⟨A, u, B, heq, hu, hA⟩ := exists_first h
  have hne : ∀ x ∈ A ++ u :: B, x ≠ dst := by
    intro x hx
    rw [← heq] at hx
    simpa using mem_takeWhile_imp hx
  refine ⟨A, u, B ++ T.dropWhile (· ≠ dst), ?_, hne u (by simp), hu, fun x hx =>
    ⟨hne x (mem_append_left _ hx), plain_of_not_bad (hA x hx)⟩⟩
  rw [← cons_append, ← append_assoc, ← heq, takeWhile_append_dropWhile]

theorem levelsFrom_nil : levelsFrom links n seen [] = [] := by
  induction n generalizing seen with
  | zero => rfl
  | succ n ih => exact ih

/-! ### What a level with such a link leads to -/

/-- The search fails at once, or it goes on and fails. -/
def LevelFails (links : ν → List (Option ν)) (dst : ν) (rounds : ℕ) (s₁ : SearchState ν) (e₁ : Exit) : Prop :=
  (e₁ ≠ .done ∧ Fails s₁) ∨
    (e₁ = .done ∧ (s₁.nextLevel.list.next traverseList = traverseList → Fails s₁.nextLevel) ∧
      (s₁.nextLevel.list.next traverseList ≠ traverseList → FailsFrom links dst rounds s₁.nextLevel))

theorem Lost.levelFails (h : Lost s₁) : LevelFails links dst rounds s₁ e₁ := by
  have hnext := kept_lost.nextLevel s₁ h
  by_cases he : e₁ = .done
  · exact .inr ⟨he, fun _ => hnext.fails, fun _ => kept_lost.failsFrom (fun _ h => h.fails) hnext⟩
  · exact .inl ⟨he, h.fails⟩

theorem Level.reach (h : Level links src d s (A ++ u :: B) V seen)
    (hA : ∀ x ∈ A, x ≠ dst ∧ none ∉ links x ∧ some src ∉ links x) (hrounds : A.length ≤ rounds)
    (hrun : traverseFrom links dst rounds (s.list.next traverseList) s = some (s₁, e₁)) :
    ∃ s' fuel, Mid src s' (A ++ u :: B) (discover seen (A.flatMap links)) V
        (seen ∪ (discover seen (A.flatMap links)).toFinset) ∧
      traverseFrom links dst fuel (.node u) s' = some (s₁, e₁) := by
  obtain ⟨fuel, rfl⟩ := Nat.exists_eq_add_of_le hrounds
  have hmid₀ : Mid src s ([] ++ (A ++ u :: B)) [] V seen := h.mid
  obtain ⟨s', hrun', hmid, -, -⟩ := hmid₀.traverse_nodes dst fuel hA
  rw [h.mid.lists.traverse.next_head, hrun', map_cons, headD_cons] at hrun
  exact ⟨s', fuel, hmid, hrun⟩

/-- A link that is `NULL`. -/
theorem Mid.null (h : Mid src s T E V seen) (hdst : u ≠ dst) (hlinks : links u = ls ++ none :: ls') (hnull : none ∉ ls)
    (hback : some src ∉ ls) (hrun : traverseFrom links dst fuel (.node u) s = some (s₁, e₁)) :
    e₁ = .out ∧ Mid src s₁ T (E ++ discover seen ls) V (seen ∪ (discover seen ls).toFinset) := by
  have hscan : scanLinks u (links u) s = (addEdges u (discover seen ls) s, true) := by
    rw [hlinks, scanLinks_eq h.marks hnull, discover_erase hback, scanLinks]
  cases fuel with
  | zero => cases hrun
  | succ fuel =>
    rw [traverseFrom, if_neg hdst, hscan, if_pos rfl] at hrun
    obtain ⟨rfl, rfl⟩ := Prod.mk.inj (Option.some.inj hrun)
    exact ⟨rfl, h.add_new u ls⟩

theorem Mid.far {V : List ν} (h : Mid src s T E (w :: (V ++ [src])) seen) (hdst : u ≠ dst)
    (hlinks : links u = ls ++ some src :: ls') (hnull : none ∉ ls) (hback : some src ∉ ls)
    (hrun : traverseFrom links dst fuel (.node u) s = some (s₁, e₁)) : Lost s₁ := by
  have hmid := h.add_new u ls
  have hscan : scanLinks u (links u) s = scanLinks u ls' ((addEdges u (discover seen ls) s).addEdge u src) := by
    rw [hlinks, scanLinks_eq h.marks hnull, discover_erase hback, scanLinks, if_neg (by simp [hmid.isTraversed_src])]
  have hlost := (scanLinks_spec u ls' kept_lost.stable (hmid.lost (u := u))).1
  rw [← hscan] at hlost
  cases fuel with
  | zero => cases hrun
  | succ fuel =>
    rw [traverseFrom, if_neg hdst] at hrun
    split at hrun
    · obtain ⟨rfl, rfl⟩ := Prod.mk.inj (Option.some.inj hrun)
      exact hlost
    · exact kept_lost.traverseFrom hlost hrun

omit [DecidableEq ν] in
theorem beyond_of_lists {L : Links (Loc ν)} {E₁ E₂ : List ν} (hT : T ≠ []) (hlists : Lists L T E₁ [src])
    (hcross : Crossed src L s T E₁ E₂) : ∃ t T', T = t :: T' ∧ Beyond src L s t T' E₁ E₂ := by
  cases T with
  | nil => exact absurd rfl hT
  | cons t T => exact ⟨t, T, rfl, hlists, hcross⟩

theorem Lost.levelFails_done (h : Lost s.nextLevel) : LevelFails links dst rounds s .done :=
  .inr ⟨rfl, fun _ => h.fails, fun _ => kept_lost.failsFrom (fun _ h => h.fails) h⟩

theorem Beyond.levelFails_done {L : Links (Loc ν)} {t : ν} {E₁ E₂ : List ν} (h : Beyond src L s t T E₁ E₂) :
    LevelFails links dst rounds s .done := by
  obtain rfl | ⟨E, p, rfl⟩ := eq_nil_or_concat E₁
  · exact h.lost.levelFails_done
  · rw [concat_eq_append] at h
    exact h.lost_of_concat.levelFails_done

/-- The first level, where the search comes through it with the source at the edge. -/
theorem Itself.levelFails_done {L : Links (Loc ν)} {E₁ E₂ : List ν} (h : Itself src L s E₁ E₂) (hdst : src ≠ dst)
    (hidle : Idle links s src) : LevelFails links dst rounds s .done := by
  obtain rfl | ⟨E, p, rfl⟩ := eq_nil_or_concat E₁
  · refine .inr ⟨rfl, fun hnil => ?_, fun _ => h.failsFrom hdst hidle⟩
    obtain ⟨l, -, hlast⟩ := prev_of_seg_end h.crossed.edge.seg.2
    rw [h.heads.nextLevel_next _ (by simp) h.crossed.edge.next_head hlast, if_neg (by simp), if_neg (by simp), if_pos rfl] at hnil
    exact nomatch hnil
  · rw [concat_eq_append] at h
    exact h.lost.levelFails_done

/-! ### Level by level -/

section

variable [Fintype ν] {V' : List ν}

/-- Where no such link is in a level, the search comes to the next one with it. -/
theorem Level.next_of_bad (h : Level links src d s T V seen)
    (hbad : ∃ x ∈ (levelsFrom links (n + 1) seen T).takeWhile (· ≠ dst), Bad links src x)
    (hplain : ¬∃ x ∈ T.takeWhile (· ≠ dst), Bad links src x) (hrounds : Fintype.card ν < rounds) :
    T ≠ [] ∧ dst ∉ T ∧ ∃ s' T', Level links src (d + 1) s'.nextLevel T' (T ++ V) (seen ∪ T'.toFinset) ∧
      (∃ x ∈ (levelsFrom links n (seen ∪ T'.toFinset) T').takeWhile (· ≠ dst), Bad links src x) ∧
      T' = discover seen (T.flatMap links) ∧ s'.nextLevel.list.next traverseList ≠ traverseList ∧
      ∀ s₁ e₁, traverseFrom links dst rounds (s.list.next traverseList) s = some (s₁, e₁) → s₁ = s' ∧ e₁ = .done := by
  obtain ⟨x, hx, hxbad⟩ := hbad
  rw [levelsFrom] at hx
  have hdst : dst ∉ T := by
    intro hmem
    obtain ⟨T₁, T₂, rfl, hnot⟩ := eq_append_cons_of_mem hmem
    have hlevel := takeWhile_level T₂ [] hnot
    rw [append_nil] at hlevel
    rw [takeWhile_level _ _ hnot] at hx
    exact hplain ⟨x, by rwa [hlevel], hxbad⟩
  have hwhole : T.takeWhile (· ≠ dst) = T := by
    have hlevels := takeWhile_levels [] hdst
    rwa [append_nil, takeWhile_nil, append_nil] at hlevels
  rw [hwhole] at hplain
  rw [takeWhile_levels _ hdst, mem_append] at hx
  have hlevel : ∀ u ∈ T, u ≠ dst ∧ none ∉ links u ∧ some src ∉ links u := fun u hu =>
    ⟨fun heq => hdst (heq ▸ hu), plain_of_not_bad fun hbad => hplain ⟨u, hu, hbad⟩⟩
  have hlen : T.length ≤ Fintype.card ν := h.nodup.length_le_card
  obtain ⟨k, rfl⟩ : ∃ k, rounds = T.length + (k + 1) := ⟨rounds - T.length - 1, by omega⟩
  obtain ⟨s', hrun, hnext⟩ := h.step k hlevel
  have hx' := hx.resolve_left fun hxT => hplain ⟨x, hxT, hxbad⟩
  have hne : discover seen (T.flatMap links) ≠ [] := by
    intro hnil
    rw [hnil, levelsFrom_nil] at hx'
    exact not_mem_nil hx'
  refine ⟨?_, hdst, s', _, hnext, ⟨x, hx', hxbad⟩, rfl, ?_, fun s₁ e₁ hrun' => ?_⟩
  · rintro rfl
    exact hne rfl
  · rw [hnext.mid.lists.traverse.next_head]
    generalize discover seen (T.flatMap links) = T' at hne
    cases T' with
    | nil => exact absurd rfl hne
    | cons t T' => simp
  · rw [hrun] at hrun'
    obtain ⟨rfl, rfl⟩ := Prod.mk.inj (Option.some.inj hrun')
    exact ⟨rfl, rfl⟩

/-- From the second level behind the source on every such link is wrong. -/
theorem Level.failsFrom_far (h : Level links src d s T (w :: (V' ++ [src])) seen)
    (hbad : ∃ x ∈ (levelsFrom links n seen T).takeWhile (· ≠ dst), Bad links src x) (hrounds : Fintype.card ν < rounds) :
    FailsFrom links dst rounds s := by
  induction n generalizing d s T w V' seen with
  | zero =>
    obtain ⟨x, hx, -⟩ := hbad
    exact absurd hx not_mem_nil
  | succ n ih =>
    refine failsFrom_of_level fun s₁ e₁ hrun => ?_
    by_cases hfirst : ∃ x ∈ T.takeWhile (· ≠ dst), Bad links src x
    · obtain ⟨A, u, B, rfl, hdst, hu, hA⟩ := exists_first_bad hfirst
      have hlen : (A ++ u :: B).length ≤ Fintype.card ν := h.nodup.length_le_card
      rw [length_append] at hlen
      obtain ⟨s', fuel, hmid, hrun'⟩ := h.reach hA (by omega) hrun
      obtain ⟨ls, l, ls', hlinks, rfl | rfl, hnull, hback⟩ := hu.first
      · obtain ⟨rfl, hmid'⟩ := hmid.null hdst hlinks hnull hback hrun'
        have huT : u ∈ A ++ u :: B := by simp
        refine .inl ⟨by decide, hmid'.fails (.inl huT) ?_⟩
        rintro rfl
        exact h.mid.lists.traverse_visited u huT (by simp)
      · exact (hmid.far hdst hlinks hnull hback hrun').levelFails
    · obtain ⟨hT, -, s', T', hnext, hbad', -, hne, hrun'⟩ := h.next_of_bad hbad hfirst hrounds
      obtain ⟨rfl, rfl⟩ := hrun' s₁ e₁ hrun
      refine .inr ⟨rfl, fun hnil => absurd hnil hne, fun _ => ?_⟩
      cases T with
      | nil => exact absurd rfl hT
      | cons t T =>
        have happ : t :: T ++ w :: (V' ++ [src]) = t :: ((T ++ w :: V') ++ [src]) := by simp
        rw [happ] at hnext
        exact ih hnext hbad'

omit [Fintype ν] in
theorem Level.linked (h : Level links src 1 s T V seen) (hv : v ∈ T) : some v ∈ links src := by
  obtain ⟨⟨x, hx, hlink⟩, -⟩ := (h.level v).mp hv
  obtain rfl : x = src := hx
  exact hlink

/-- Where the links of the first level lead to nothing new before `dst`. -/
theorem Level.beside {B₁ B₂ : List ν} {L : Links (Loc ν)} (h : Level links src 1 s (A ++ u :: (B₁ ++ dst :: B₂)) V seen)
    (hsrc : none ∉ links src ∧ some src ∉ links src)
    (hscan : scanned links src dst =
      src :: (levelsFrom links (n + 1) seen (A ++ u :: (B₁ ++ dst :: B₂))).takeWhile (· ≠ dst))
    (hA : ∀ x ∈ A, none ∉ links x) (hnew : discover seen (A.flatMap links) = [])
    (hcross : Crossed src L s₁ (A ++ u :: (B₁ ++ dst :: B₂)) [] []) (hidle : ∀ v ∈ u :: B₁, Idle links s₁ v) :
    Beside links src dst := by
  have happ : A ++ u :: (B₁ ++ dst :: B₂) = (A ++ u :: B₁) ++ dst :: B₂ := by simp
  have hnot : dst ∉ A ++ u :: B₁ := by
    have hnod := h.nodup
    rw [happ, nodup_append] at hnod
    exact fun hmem => hnod.2.2 dst hmem dst (mem_cons_self ..) rfl
  have hok : ∀ v ∈ A ++ u :: (B₁ ++ dst :: B₂), some v ≠ none ∧ some v ∈ links src := fun v hv =>
    ⟨nofun, h.linked hv⟩
  refine ⟨h.linked (by simp), hsrc.1, hsrc.2, fun x hx hne l hl => ?_⟩
  rw [hscan, levelsFrom, happ, takeWhile_level _ _ hnot, mem_cons, mem_append] at hx
  obtain hxA | hxB := hx.resolve_left hne
  · cases l with
    | none => exact absurd hl (hA x hxA)
    | some v =>
      have hv : v ∈ seen := by
        by_contra hv
        have hmem := mem_discover.mpr ⟨mem_flatMap.mpr ⟨x, hxA, hl⟩, hv⟩
        rw [hnew] at hmem
        exact not_mem_nil hmem
      obtain ⟨m, hm, hhops⟩ := (h.reached v).mp hv
      by_cases hvs : v = src
      · exact .inl (by rw [hvs])
      · refine .inr (hok v ((h.level v).mpr ⟨?_, ?_⟩))
        · obtain rfl : m = 1 := by
            by_contra hm1
            obtain rfl : m = 0 := by omega
            exact hvs hhops
          exact hhops
        · intro k hk
          obtain rfl : k = 0 := by omega
          exact hvs
  · obtain ⟨v, rfl, hmark⟩ := hidle x hxB l hl
    obtain hvT | hvs := (hcross.marks v).mp hmark
    · exact .inr (hok v hvT)
    · exact .inl (congrArg _ (mem_singleton.mp hvs))

/-- In the first level behind the source such a link is wrong where the links lead to something new. -/
theorem Level.failsFrom_near (h : Level links src 1 s T [src] seen)
    (hbad : ∃ x ∈ (levelsFrom links n seen T).takeWhile (· ≠ dst), Bad links src x) (hrounds : Fintype.card ν < rounds)
    (hsrc : none ∉ links src ∧ some src ∉ links src)
    (hscan : scanned links src dst = src :: (levelsFrom links n seen T).takeWhile (· ≠ dst))
    (hbeside : ¬Beside links src dst) : FailsFrom links dst rounds s := by
  cases n with
  | zero =>
    obtain ⟨x, hx, -⟩ := hbad
    exact absurd hx not_mem_nil
  | succ n =>
    refine failsFrom_of_level fun s₁ e₁ hrun => ?_
    by_cases hfirst : ∃ x ∈ T.takeWhile (· ≠ dst), Bad links src x
    · obtain ⟨A, u, B, rfl, hdst, hu, hA⟩ := exists_first_bad hfirst
      have hlen : (A ++ u :: B).length ≤ Fintype.card ν := h.nodup.length_le_card
      rw [length_append] at hlen
      obtain ⟨s', fuel, hmid, hrun'⟩ := h.reach hA (by omega) hrun
      have hneT : ∀ v ∈ A ++ u :: B, v ≠ src := by
        rintro v hv rfl
        exact h.mid.lists.traverse_visited v hv (mem_singleton_self v)
      obtain ⟨ls, l, ls', hlinks, rfl | rfl, hnull, hback⟩ := hu.first
      · obtain ⟨rfl, hmid'⟩ := hmid.null hdst hlinks hnull hback hrun'
        exact .inl ⟨by decide, hmid'.fails (.inl (by simp)) (hneT u (by simp))⟩
      · have hsrcE : src ∉ discover seen (A.flatMap links) := fun hmem => (mem_discover.mp hmem).2 h.mid.src_mem
        obtain ⟨s₀, E₂, hcross, hend⟩ := hmid.cross (fun v hv => mem_singleton.mp hv) hsrcE
          (fun v hv => hneT v (by simp [hv])) hdst hlinks hnull hback hrun'
        have hlists := (hmid.add_new u ls).lists
        generalize hE₁ : discover seen (A.flatMap links) ++ _ = E₁ at hcross hlists
        obtain ⟨t, T', hT, hb⟩ := beyond_of_lists (append_ne_nil_of_right_ne_nil A (cons_ne_nil u B)) hlists hcross
        obtain ⟨rfl, rfl⟩ | ⟨rfl, rfl, B₁, B₂, rfl, hidle⟩ | ⟨rfl, rfl, -⟩ := hend
        · exact .inl ⟨by decide, hb.fails⟩
        · refine .inl ⟨by decide, hb.fails_collect ?_⟩
          rintro ⟨rfl, rfl⟩
          refine hbeside (h.beside hsrc hscan (fun x hx => (hA x hx).2.1) (append_eq_nil_iff.mp hE₁).1 hcross hidle)
        · exact hb.levelFails_done
    · obtain ⟨hT, -, s', T', hnext, hbad', -, hne, hrun'⟩ := h.next_of_bad hbad hfirst hrounds
      obtain ⟨rfl, rfl⟩ := hrun' s₁ e₁ hrun
      refine .inr ⟨rfl, fun hnil => absurd hnil hne, fun _ => ?_⟩
      cases T with
      | nil => exact absurd rfl hT
      | cons t T => exact hnext.failsFrom_far hbad' hrounds

/-- A search that is not in one of the three cases fails. -/
theorem failsFrom_start (hmarks : ∀ v, s.isTraversed v = false) (hplain : ¬Plain links src dst) (hfirst : ¬NullFirst links src)
    (hbeside : ¬Beside links src dst) (hrounds : Fintype.card ν < rounds) : FailsFrom links dst rounds (s.start src) := by
  have h := level_start links src hmarks
  obtain ⟨n, hn⟩ : ∃ n, Fintype.card ν = n + 1 :=
    Nat.exists_eq_add_one.mpr (Fintype.card_pos_iff.mpr ⟨src⟩)
  have hscan : scanned links src dst = (levelsFrom links (n + 1) {src} [src]).takeWhile (· ≠ dst) := by
    rw [scanned, hn]
  have hbad : ∃ x ∈ (levelsFrom links (n + 1) {src} [src]).takeWhile (· ≠ dst), Bad links src x := by
    rw [← hscan]
    by_contra hnone
    exact hplain fun u hu => plain_of_not_bad fun hbad => hnone ⟨u, hu, hbad⟩
  refine failsFrom_of_level fun s₁ e₁ hrun => ?_
  by_cases hlevel : ∃ x ∈ [src].takeWhile (· ≠ dst), Bad links src x
  · obtain ⟨A, u, B, heq, hdst, hu, hA⟩ := exists_first_bad hlevel
    obtain ⟨rfl, rfl, rfl⟩ : A = [] ∧ src = u ∧ B = [] := by
      cases A with
      | nil => simpa [eq_comm] using heq
      | cons a A => simp at heq
    obtain ⟨s', fuel, hmid, hrun'⟩ := Level.reach (A := []) h hA (Nat.zero_le _) hrun
    obtain ⟨ls, l, ls', hlinks, rfl | rfl, hnull, hback⟩ := hu.first
    · obtain ⟨rfl, hmid'⟩ := hmid.null hdst hlinks hnull hback hrun'
      cases ls with
      | nil => exact absurd (by rw [NullFirst, hlinks]; rfl) hfirst
      | cons l ls =>
        cases l with
        | none => exact absurd (mem_cons_self ..) hnull
        | some v =>
          have hv : v ≠ src := by
            rintro rfl
            exact hback (mem_cons_self ..)
          refine .inl ⟨by decide, hmid'.fails (w := v) (.inr ?_) hv⟩
          rw [flatMap_nil, discover, nil_append, mem_discover]
          refine ⟨mem_cons_self .., ?_⟩
          simpa using hv
    · obtain ⟨s₀, E₂, hcross, hend⟩ := hmid.cross (fun v hv => absurd hv not_mem_nil) (by simp [discover])
        (fun v hv => absurd hv not_mem_nil) hdst hlinks hnull hback hrun'
      have hitself : Itself src _ s₀ _ E₂ := ⟨(hmid.add_new src ls).lists, hcross⟩
      obtain ⟨rfl, rfl⟩ | ⟨-, -, B₁, B₂, hB, -⟩ | ⟨rfl, rfl, hidle⟩ := hend
      · exact .inl ⟨by decide, hitself.fails⟩
      · simp at hB
      · exact hitself.levelFails_done hdst hidle
  · obtain ⟨-, hdst, s', T', hnext, hbad', hT', hne, hrun'⟩ := h.next_of_bad hbad hlevel hrounds
    obtain ⟨rfl, rfl⟩ := hrun' s₁ e₁ hrun
    refine .inr ⟨rfl, fun hnil => absurd hnil hne, fun _ => hnext.failsFrom_near hbad' hrounds ?_ ?_ hbeside⟩
    · refine plain_of_not_bad fun hbad => hlevel ⟨src, ?_, hbad⟩
      have hne : src ≠ dst := fun heq => hdst (mem_singleton.mpr heq.symm)
      rw [takeWhile_cons_of_pos (by simpa using hne)]
      exact mem_cons_self ..
    · rw [hscan, levelsFrom, takeWhile_levels _ hdst, ← hT', singleton_append]

theorem SearchRight.cases (h : SearchRight links src dst) :
    Plain links src dst ∨ NullFirst links src ∨ Beside links src dst := by
  by_contra hnot
  rw [not_or, not_or] at hnot
  obtain ⟨hplain, hfirst, hbeside⟩ := hnot
  obtain ⟨rounds, hrounds⟩ := h true ⟨⟨id, id⟩, fun _ => false, fun _ => none⟩ fun _ => rfl
  obtain ⟨s', r, hfind, hmarks, -⟩ := hrounds (max rounds (Fintype.card ν + 1)) (le_max_left _ _)
  rw [pathFind, Option.bind_eq_some_iff] at hfind
  obtain ⟨⟨s₁, e, depth⟩, hrun, hfind⟩ := hfind
  rw [Option.bind_eq_some_iff] at hfind
  obtain ⟨s₂, hreset, hfind⟩ := hfind
  obtain ⟨path, -, hpath⟩ := Option.map_eq_some_iff.mp hfind
  obtain ⟨rfl, rfl⟩ := Prod.mk.inj hpath
  have hfails := failsFrom_start (fun _ => rfl) hplain hfirst hbeside
    (Nat.lt_of_succ_le (le_max_right _ _)) _ _ _ _ _ hrun
  obtain ⟨v, hv⟩ := hfails _ _ hreset
  exact Bool.false_ne_true ((hmarks v).symm.trans hv)

end

/-! ### Searches that are right all the same -/

theorem traverse_idle {stop : Loc ν} (hidle : ∀ v ∈ B, v ≠ dst ∧ Idle links s v)
    (hchain : ∀ B₁ v B₂, B = B₁ ++ v :: B₂ → s.list.next (.node v) = (B₂.map .node).headD stop) :
    traverseFrom links dst (B.length + fuel) ((B.map .node).headD stop) s = traverseFrom links dst fuel stop s := by
  induction B with
  | nil => rw [length_nil, Nat.zero_add, map_nil, headD_nil]
  | cons v B ih =>
    obtain ⟨hdst, hv⟩ := hidle v (mem_cons_self ..)
    rw [length_cons, Nat.add_right_comm, map_cons, headD_cons, traverseFrom, if_neg hdst, scanLinks_idle hv,
      if_neg Bool.false_ne_true, hchain [] v B rfl]
    exact ih (fun x hx => hidle x (mem_cons_of_mem v hx)) fun B₁ x B₂ hB => hchain (v :: B₁) x B₂ (congrArg _ hB)

/-- With nothing else at the edge all nodes are collected. -/
theorem Beyond.allVisited_collect {L : Links (Loc ν)} {t : ν} (h : Beyond src L s t T [] []) : AllVisited s.collect := by
  obtain ⟨b, hb, hheads⟩ := h.heads
  obtain ⟨l, hl, hlast⟩ := h.edge_last
  obtain rfl := mem_singleton.mp hl
  have hprev : ∀ y, s.collect.list.prev y = _ := fun y => hheads.collect_prev y h.crossed.edge.next_head hlast
  have hnod : (t :: T).Nodup :=
    (nodup_map_iff fun _ _ h => Loc.node.inj h).mp (nodup_cons.mp h.lists.traverse.nodup).2
  refine ⟨t :: T ++ [l], ?_, ?_, fun v hv => ?_⟩
  · rw [nodup_append]
    refine ⟨hnod, nodup_singleton l, ?_⟩
    rintro v hv w hw rfl
    exact h.ne hv (mem_singleton.mp hw)
  · rw [map_append, map_singleton, Links.back_append]
    refine ⟨⟨?_, ?_⟩, ?_⟩
    · have ht := h.ne (mem_cons_self ..)
      rw [hprev, if_neg (by simp), if_neg (by simpa using ht), if_pos rfl]
    · refine h.lists.traverse.seg.2.back.congr (fun y hy => ?_) ?_
      · obtain ⟨v, hv, rfl⟩ := mem_map.mp hy
        have hvs := h.ne (mem_cons_of_mem t hv)
        have hvt : v ≠ t := by
          rintro rfl
          exact (nodup_cons.mp hnod).1 hv
        rw [hprev, if_neg (by simp), if_neg (by simpa using hvs), if_neg (by simpa using hvt), if_neg (by simp),
          if_neg (by simpa using hvs), (h.crossed.node v (mem_cons_of_mem t hv) hvs).2]
      · rw [hprev, if_neg (by simp), if_pos rfl, ← hheads.last, (h.crossed.head .traverse (by decide)).2]
    · rw [Links.Back, hprev, if_neg (by simp), if_neg (by simp), if_neg (by simp), if_neg (by simp), if_neg (by simp), h.visited]
  · obtain hv | hv := (h.crossed.marks v).mp hv
    · exact mem_append_left _ hv
    · exact mem_append_right _ hv

section

variable [Fintype ν]

/-- The first level behind the source, with a link back to it and nothing new before `dst`. -/
theorem Level.search_beside (h : Level links src 1 s T [src] seen) (hdst : dst ∈ T)
    (hback : ∃ x ∈ T.takeWhile (· ≠ dst), some src ∈ links x)
    (hlinks : ∀ x ∈ T.takeWhile (· ≠ dst), ∀ l ∈ links x, l = some src ∨ (l ≠ none ∧ l ∈ links src))
    (hrounds : Fintype.card ν < rounds) :
    ∃ s', traverseFrom links dst rounds (s.list.next traverseList) s = some (s', .found) ∧ AllVisited s' ∧
      Tree links src s'.reverse 1 := by
  obtain ⟨T₁, T₂, rfl, hnot⟩ := eq_append_cons_of_mem hdst
  have hwhile := takeWhile_level T₂ [] hnot
  rw [append_nil] at hwhile
  rw [hwhile] at hback hlinks
  have hknown : ∀ x ∈ T₁, ∀ l ∈ links x, ∃ v, l = some v ∧ v ∈ seen := by
    intro x hx l hl
    obtain rfl | ⟨hne, hmem⟩ := hlinks x hx l hl
    · exact ⟨src, rfl, h.mid.src_mem⟩
    · obtain ⟨v, rfl⟩ := Option.ne_none_iff_exists'.mp hne
      exact ⟨v, rfl, (h.reached v).mpr ⟨1, Nat.le_refl 1, src, rfl, hmem⟩⟩
  have hnull : ∀ x ∈ T₁, none ∉ links x := by
    intro x hx hmem
    obtain ⟨v, hv, -⟩ := hknown x hx none hmem
    exact nomatch hv
  have hold : ∀ {ls : List (Option ν)}, (∀ l ∈ ls, ∃ v, l = some v ∧ v ∈ seen) → discover seen ls = [] := by
    intro ls hls
    refine eq_nil_iff_forall_not_mem.mpr fun v hv => ?_
    obtain ⟨hmem, hnew⟩ := mem_discover.mp hv
    obtain ⟨w, hw, hseen⟩ := hls _ hmem
    exact hnew (Option.some.inj hw ▸ hseen)
  obtain ⟨A, u, B, rfl, hu, hA⟩ := exists_first hback
  have hneT : ∀ v ∈ A ++ u :: B ++ dst :: T₂, v ≠ src := by
    rintro v hv rfl
    exact h.mid.lists.traverse_visited v hv (mem_singleton_self v)
  have hlen : (A ++ u :: B ++ dst :: T₂).length ≤ Fintype.card ν := h.nodup.length_le_card
  simp only [length_append, length_cons] at hlen
  obtain ⟨k, rfl⟩ : ∃ k, rounds = A.length + (B.length + (k + 1) + 1) := ⟨rounds - A.length - B.length - 2, by omega⟩
  -- the nodes before the link back
  have happ : A ++ u :: B ++ dst :: T₂ = A ++ (u :: (B ++ dst :: T₂)) := by simp
  have hmid₀ : Mid src s ([] ++ (A ++ (u :: (B ++ dst :: T₂)))) [] [src] seen := by
    rw [nil_append, ← happ]
    exact h.mid
  obtain ⟨s₁, hrun, hmid, -, hkeep⟩ := hmid₀.traverse_nodes dst (B.length + (k + 1) + 1) (fun x hx =>
    ⟨fun heq => hnot (heq ▸ mem_append_left _ hx), hnull x (mem_append_left _ hx), hA x hx⟩)
  rw [hold fun l hl => by
    obtain ⟨x, hx, hlx⟩ := mem_flatMap.mp hl
    exact hknown x (mem_append_left _ hx) l hlx, toFinset_nil, Finset.union_empty, nil_append,
    nil_append] at hmid
  -- the node with the link back
  obtain ⟨ls, ls', hlu, hls⟩ := eq_append_cons_of_mem hu
  have huT : u ∈ A ++ u :: B := by simp
  have hu' : u ≠ dst := by
    rintro rfl
    exact hnot huT
  have hmid' := hmid.crossed (u := u) (fun v hv => mem_singleton.mp hv)
    (hmid.added (u := u) not_mem_nil)
  have hmark : ∀ {s'}, s' = s₁.addEdge u src → ∀ l, (∃ v, l = some v ∧ v ∈ seen) → ∃ v, l = some v ∧ s'.isTraversed v = true := by
    rintro s' rfl l ⟨v, rfl, hv⟩
    refine ⟨v, rfl, ?_⟩
    rw [SearchState.addEdge_isTraversed]
    split
    · rfl
    next hne => exact (hmid.marks v).mpr (Finset.mem_erase.mpr ⟨hne, hv⟩)
  have hscan : scanLinks u (links u) s₁ = (s₁.addEdge u src, false) := by
    have hknown' := hknown u huT
    rw [hlu] at hknown'
    rw [hlu, scanLinks_eq hmid.marks fun hmem => hnull u huT (hlu ▸ mem_append_left _ hmem), discover_erase hls,
      hold fun l hl => hknown' l (mem_append_left _ hl)]
    rw [scanLinks, if_neg (by simp [addEdges, hmid.isTraversed_src])]
    exact scanLinks_idle fun l hl => hmark rfl l (hknown' l (mem_append_right _ (mem_cons_of_mem _ hl)))
  -- the nodes behind it, and `dst`
  have hheadD : ∀ (B : List ν) (x : Loc ν), ((B ++ dst :: T₂).map .node).headD x = (B.map .node).headD (.node dst) := by
    intro B x
    cases B with
    | nil => rfl
    | cons v B => rfl
  have hlist := hmid.lists.traverse
  have hchain : ∀ B₁ v B₂, B = B₁ ++ v :: B₂ →
      (s₁.addEdge u src).list.next (.node v) = (B₂.map .node).headD (.node dst) := by
    rintro B₁ v B₂ rfl
    rw [(hmid'.node v (by simp) (hneT v (by simp))).1]
    have happ' : A ++ u :: (B₁ ++ v :: B₂ ++ dst :: T₂) = (A ++ u :: B₁) ++ v :: (B₂ ++ dst :: T₂) := by simp
    rw [happ', map_append, map_cons] at hlist
    rw [hlist.next_eq, hheadD]
  have hidle : ∀ v ∈ B, v ≠ dst ∧ Idle links (s₁.addEdge u src) v := by
    intro v hv
    have hvT : v ∈ A ++ u :: B := by simp [hv]
    exact ⟨fun heq => hnot (heq ▸ hvT), fun l hl => hmark rfl l (hknown v hvT l hl)⟩
  obtain ⟨t, T', -, hb⟩ := beyond_of_lists (append_ne_nil_of_right_ne_nil A (cons_ne_nil _ _)) hmid.lists hmid'
  refine ⟨(s₁.addEdge u src).collect, ?_, hb.allVisited_collect, fun m hm v hv => ?_⟩
  · rw [map_append, map_cons] at hlist
    rw [h.mid.lists.traverse.next_head, happ, hrun, map_cons, headD_cons, traverseFrom,
      if_neg hu', hscan, if_neg Bool.false_ne_true, hlist.next_eq, hheadD,
      traverse_idle hidle hchain, traverseFrom, if_pos rfl]
  · have hvs : v ≠ src := by
      rintro rfl
      exact hv.2 0 (Nat.succ_pos m) rfl
    obtain ⟨x, hrev, hx⟩ := h.tree m hm v hv
    refine ⟨x, ?_, hx⟩
    rw [show (s₁.addEdge u src).collect.reverse = (s₁.addEdge u src).reverse from rfl, SearchState.addEdge_reverse, if_neg hvs,
      hkeep v ((h.reached v).mpr ⟨m + 1, hm, hv.1⟩), hrev]

theorem scanned_self : scanned links src src = [] := by
  obtain ⟨n, hn⟩ : ∃ n, Fintype.card ν = n + 1 := Nat.exists_eq_add_one.mpr (Fintype.card_pos_iff.mpr ⟨src⟩)
  rw [scanned, hn, levelsFrom, singleton_append, takeWhile_cons_of_neg (by simp)]

/-- The source is looked at first, and then the nodes that it links. -/
theorem scanned_eq (hdst : src ≠ dst) (hn : Fintype.card ν = n + 1) :
    scanned links src dst = src :: (levelsFrom links n ({src} ∪ (discover {src} ([src].flatMap links)).toFinset)
      (discover {src} ([src].flatMap links))).takeWhile (· ≠ dst) := by
  rw [scanned, hn, levelsFrom, takeWhile_levels _ (by simpa using hdst.symm), singleton_append]

/-- Where the first link of the source is `NULL` nothing is done. -/
theorem searchRight_of_nullFirst (h : NullFirst links src) : SearchRight links src dst := by
  by_cases hdst : src = dst
  · refine searchRight_of_plain fun u hu => ?_
    rw [← hdst, scanned_self] at hu
    exact absurd hu not_mem_nil
  intro alloc s hmarks
  obtain ⟨ls, hls⟩ := List.head?_eq_some_iff.mp h
  refine ⟨Fintype.card ν + 1, fun fuel hfuel => ?_⟩
  obtain ⟨k, rfl⟩ : ∃ k, fuel = k + 1 := ⟨fuel - 1, by omega⟩
  have hlists := lists_start s src
  have hlevel : traverseFrom links dst (k + 1) ((s.start src).list.next traverseList) (s.start src) =
      some (s.start src, .out) := by
    rw [hlists.traverse.next_head, map_cons, headD_cons, traverseFrom, if_neg hdst, hls, scanLinks, if_pos rfl]
  have hall : AllVisited (s.start src) :=
    allVisited_of_isList hlists.visited fun v hv => absurd hv (by simp [SearchState.start, hmarks v])
  obtain ⟨s', hfind, hreset⟩ := pathFind_of_allVisited alloc (by omega) (searchLevels_exit hlevel (by decide)) hall rfl
  obtain ⟨n, hn⟩ : ∃ n, Fintype.card ν = n + 1 := Nat.exists_eq_add_one.mpr (Fintype.card_pos_iff.mpr ⟨src⟩)
  refine ⟨s', _, hfind, hreset, .null ⟨src, ?_, ?_⟩⟩
  · rw [scanned_eq hdst hn]
    exact mem_cons_self ..
  · rw [hls]
    exact mem_cons_self ..

/-- Where `dst` is next to the source, a link back does no harm if there is nothing else at the edge. -/
theorem searchRight_of_beside (h : Beside links src dst) : SearchRight links src dst := by
  obtain ⟨hdst, hnull, hback, hrest⟩ := h
  have hne : src ≠ dst := by
    rintro rfl
    exact hback hdst
  have hnull' : ∀ u ∈ scanned links src dst, none ∉ links u := by
    intro u hu hmem
    by_cases hus : u = src
    · exact hnull (hus ▸ hmem)
    · obtain heq | ⟨hnn, -⟩ := hrest u hu hus none hmem
      · cases heq
      · exact hnn rfl
  by_cases hex : ∃ x ∈ scanned links src dst, some src ∈ links x
  swap
  · exact searchRight_of_plain fun u hu => ⟨hnull' u hu, fun hmem => hex ⟨u, hu, hmem⟩⟩
  intro alloc s hmarks
  have hcard := Finset.card_le_univ ({src, dst} : Finset ν)
  rw [Finset.card_pair hne] at hcard
  obtain ⟨n, hn⟩ : ∃ n, Fintype.card ν = n + 1 + 1 := ⟨Fintype.card ν - 2, by omega⟩
  refine ⟨Fintype.card ν + 1, fun fuel hfuel => ?_⟩
  obtain ⟨k, rfl⟩ : ∃ k, fuel = k + 1 + 1 := ⟨fuel - 2, by omega⟩
  have hsrc : ∀ u ∈ [src], u ≠ dst ∧ none ∉ links u ∧ some src ∉ links u := by
    intro u hu
    rw [mem_singleton.mp hu]
    exact ⟨hne, hnull, hback⟩
  obtain ⟨s', hrun, hlevel⟩ := (level_start links src hmarks).step k hsrc
  rw [length_singleton, Nat.add_comm 1] at hrun
  have hat : At links src 1 dst := by
    refine ⟨⟨src, rfl, hdst⟩, fun m hm hops => ?_⟩
    obtain rfl : m = 0 := by omega
    exact hne hops.symm
  have hmem := (hlevel.level dst).mpr hat
  have hscan : scanned links src dst = _ := scanned_eq hne hn
  obtain ⟨T₁, T₂, hT, hnot⟩ := eq_append_cons_of_mem hmem
  have hwhile := takeWhile_level T₂ [] hnot
  rw [append_nil] at hwhile
  rw [levelsFrom, hT, takeWhile_level _ _ hnot] at hscan
  obtain ⟨s₁, hrun₁, hall, htree⟩ := Level.search_beside hlevel hmem (by
    rw [hT, hwhile]
    obtain ⟨x, hx, hlink⟩ := hex
    rw [hscan, mem_cons] at hx
    refine ⟨x, hx.resolve_left ?_, hlink⟩
    rintro rfl
    exact hback hlink) (by
    rw [hT, hwhile]
    intro x hx
    refine hrest x (hscan ▸ mem_cons_of_mem src hx) ?_
    rintro rfl
    exact hlevel.mid.lists.traverse_visited x (hT ▸ mem_append_left _ hx) (mem_singleton_self x))
    (show Fintype.card ν < k + 1 + 1 by omega)
  have hcons : s'.nextLevel.list.next traverseList ≠ traverseList := by
    rw [hlevel.mid.lists.traverse.next_head, hT]
    cases T₁ with
    | nil => simp
    | cons t T₁ => simp
  have hsearch : searchLevels links dst (k + 1 + 1) (k + 1 + 1) 1 (s.start src) = some (s₁, .found, 1 + 1) := by
    rw [searchLevels_done hrun, if_neg hcons]
    exact searchLevels_exit hrun₁ (by decide)
  obtain ⟨r, hr, hanswer⟩ := (Ended.found 1 hat htree).answer alloc (by
    rintro ⟨u, hu, hmem⟩
    exact hnull' u hu hmem)
  obtain ⟨s'', hfind, hreset⟩ := pathFind_of_allVisited alloc (by omega) hsearch hall hr
  exact ⟨s'', r, hfind, hreset, hanswer⟩

/-- The search is right in three cases: the links that are looked at before `dst` are in order, or the first one is `NULL`,
or `dst` is next to the source and what is looked at before leads to nothing new. -/
theorem pathFind_right_iff : SearchRight links src dst ↔ Plain links src dst ∨ NullFirst links src ∨ Beside links src dst := by
  constructor
  · exact SearchRight.cases
  · rintro (hplain | hfirst | hbeside)
    · exact searchRight_of_plain hplain
    · exact searchRight_of_nullFirst hfirst
    · exact searchRight_of_beside hbeside

end

/-- Two nodes that link each other, and a third one. -/
def pair : Fin 3 → List (Option (Fin 3))
  | 0 => [some 1]
  | 1 => [some 0]
  | 2 => []

theorem pair_not_searchRight : ¬SearchRight pair 0 2 := by
  intro h
  obtain hplain | hfirst | hbeside := h.cases
  · exact absurd (hplain 1 (by decide)).2 (by decide)
  · exact absurd (show (pair 0).head? = some none from hfirst) (by decide)
  · exact absurd hbeside.1 (by decide)

end GfpDrivers.Interconnect.PathFind
