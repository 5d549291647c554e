import Mathlib.Data.List.Nodup
import Mathlib.Data.List.Perm.Basic

/-!
Ordered forests, and what it takes to change one in one place: the forest
below a single node is replaced by another one (`Replace`). A property that
speaks of a node and the roots below it holds all over the new forest if it
holds of the new part and nothing else was touched (`Replace.all`).

The roots of a forest are meant to be kept in a chain; `Path` is a part of a
chain.
-/

namespace GfpDrivers.Lib

inductive Forest (α : Type*) where
  | nil
  | cons (a : α) (kids rest : Forest α)

namespace Forest

variable {α : Type*} {P P' : α → List α → Prop} {a q : α} {K K' L F F' G : Forest α}

def append : Forest α → Forest α → Forest α
  | nil, G => G
  | cons a kids rest, G => cons a kids (rest.append G)

instance forestAppend : Append (Forest α) := ⟨append⟩

def roots : Forest α → List α
  | nil => []
  | cons a _ rest => a :: rest.roots

/-- The nodes, each before those below it. -/
def nodes : Forest α → List α
  | nil => []
  | cons a kids rest => a :: (kids.nodes ++ rest.nodes)

/-- `P` holds of every node and the roots of the forest below it. -/
def All (P : α → List α → Prop) : Forest α → Prop
  | nil => True
  | cons a kids rest => P a kids.roots ∧ kids.All P ∧ rest.All P

@[simp] theorem nil_append : nil ++ G = G := rfl

@[simp] theorem cons_append : cons a K F ++ G = cons a K (F ++ G) := rfl

theorem append_assoc : F ++ G ++ K = F ++ (G ++ K) := by
  induction F with
  | nil => rfl
  | cons a kids rest _ ih => simp [ih]

@[simp] theorem roots_nil : (nil : Forest α).roots = [] := rfl

@[simp] theorem roots_cons : (cons a K F).roots = a :: F.roots := rfl

@[simp] theorem nodes_nil : (nil : Forest α).nodes = [] := rfl

@[simp] theorem nodes_cons : (cons a K F).nodes = a :: (K.nodes ++ F.nodes) := rfl

@[simp] theorem roots_append : (F ++ G).roots = F.roots ++ G.roots := by
  induction F with
  | nil => rfl
  | cons a kids rest _ ih => simp [ih]

@[simp] theorem nodes_append : (F ++ G).nodes = F.nodes ++ G.nodes := by
  induction F with
  | nil => rfl
  | cons a kids rest _ ih => simp [ih]

@[simp] theorem all_nil : (nil : Forest α).All P := trivial

@[simp] theorem all_cons : (cons a K F).All P ↔ P a K.roots ∧ K.All P ∧ F.All P := Iff.rfl

@[simp] theorem all_append : (F ++ G).All P ↔ F.All P ∧ G.All P := by
  induction F with
  | nil => simp
  | cons a kids rest _ ih => simp [ih, and_assoc]

/-- A root in the middle, with what is below it. -/
theorem nodes_middle : (F ++ cons a K G).nodes.Perm (a :: (F ++ (K ++ G)).nodes) := by
  simp only [nodes_append, nodes_cons]
  exact List.perm_middle

theorem roots_sublist_nodes : F.roots.Sublist F.nodes := by
  induction F with
  | nil => exact .slnil
  | cons a kids rest _ ih => exact (ih.trans (List.sublist_append_right ..)).cons_cons a

theorem roots_subset_nodes : F.roots ⊆ F.nodes := roots_sublist_nodes.subset

theorem length_roots_le : F.roots.length ≤ F.nodes.length := roots_sublist_nodes.length_le

/-- A forest is split where its roots are. -/
theorem split_roots {cs ds : List α} (h : F.roots = cs ++ ds) :
    ∃ G H, F = G ++ H ∧ G.roots = cs ∧ H.roots = ds := by
  induction cs generalizing F with
  | nil => exact ⟨nil, F, rfl, rfl, h⟩
  | cons c cs ih =>
    cases F with
    | nil => simp at h
    | cons a kids rest =>
      rw [roots_cons, List.cons_append, List.cons.injEq] at h
      obtain ⟨G, H, rfl, hG, hH⟩ := ih h.2
      exact ⟨cons a kids G, H, rfl, by simp [h.1, hG], hH⟩

theorem split_root {cs ds : List α} (h : F.roots = cs ++ a :: ds) :
    ∃ G K H, F = G ++ cons a K H ∧ G.roots = cs ∧ H.roots = ds := by
  obtain ⟨G, H, rfl, hG, hH⟩ := split_roots h
  cases H with
  | nil => simp at hH
  | cons b K H =>
    rw [roots_cons, List.cons.injEq] at hH
    exact ⟨G, K, H, by rw [hH.1], hG, hH.2⟩

theorem eq_of_roots (h : F.roots = [a]) : ∃ K, F = cons a K nil := by
  obtain ⟨G, K, H, rfl, hG, hH⟩ := split_root (show F.roots = [] ++ a :: [] from h)
  cases G with
  | cons b kids rest => simp at hG
  | nil =>
    cases H with
    | cons b kids rest => simp at hH
    | nil => exact ⟨K, rfl⟩

/-- A property that holds all over a forest is kept when only the roots are
touched, as what is below a node has no root of the forest. -/
theorem All.inner (hnod : F.nodes.Nodup) (hall : F.All P)
    (himp : ∀ n cs, n ∈ F.nodes → (∀ c ∈ cs, c ∈ F.nodes ∧ c ∉ F.roots) → P n cs → P' n cs) :
    F.All P' := by
  induction F with
  | nil => trivial
  | cons a kids rest ihk ihr =>
    simp only [nodes_cons, List.nodup_cons, List.nodup_append, List.mem_append, not_or] at hnod
    obtain ⟨⟨hak, har⟩, hkn, hrn, hkr⟩ := hnod
    have hinner : ∀ c ∈ kids.nodes, c ∈ (cons a kids rest).nodes ∧ c ∉ (cons a kids rest).roots := by
      intro c hc
      refine ⟨by simp [hc], ?_⟩
      simp only [roots_cons, List.mem_cons, not_or]
      refine ⟨?_, fun h => hkr c hc c (roots_subset_nodes h) rfl⟩
      rintro rfl
      exact hak hc
    refine ⟨himp a _ (by simp) (fun c hc => hinner c (roots_subset_nodes hc)) hall.1,
      ihk hkn hall.2.1 fun n cs hn hcs => himp n cs (hinner n hn).1 fun c hc => hinner c (hcs c hc).1,
      ihr hrn hall.2.2 fun n cs hn hcs => himp n cs (by simp [hn]) fun c hc => ?_⟩
    obtain ⟨hc, hc'⟩ := hcs c hc
    refine ⟨by simp [hc], ?_⟩
    simp only [roots_cons, List.mem_cons, not_or]
    refine ⟨?_, hc'⟩
    rintro rfl
    exact har hc

/-! ### Places -/

/-- `F'` is `F` with the forest `K` below the node `q` replaced by `K'`. -/
inductive Replace (q : α) (K K' : Forest α) : Forest α → Forest α → Prop
  | here (rest : Forest α) : Replace q K K' (cons q K rest) (cons q K' rest)
  | kids {kids kids' : Forest α} (a : α) (rest : Forest α) :
      Replace q K K' kids kids' → Replace q K K' (cons a kids rest) (cons a kids' rest)
  | rest {rest rest' : Forest α} (a : α) (kids : Forest α) :
      Replace q K K' rest rest' → Replace q K K' (cons a kids rest) (cons a kids rest')

/-- `K` is the forest below the node `q` of `F`. -/
def At (F : Forest α) (q : α) (K : Forest α) : Prop := Replace q K K F F

theorem Replace.roots_eq (h : Replace q K K' F F') : F'.roots = F.roots := by
  induction h with
  | here rest => rfl
  | kids a rest _ _ => rfl
  | rest a kids _ ih => simp [ih]

theorem At.replace (h : F.At q K) (K' : Forest α) : ∃ F', Replace q K K' F F' := by
  have h' : ∀ {F F' : Forest α}, Replace q K K F F' → ∃ F', Replace q K K' F F' := by
    intro F F' h
    induction h with
    | here rest => exact ⟨_, .here rest⟩
    | kids a rest _ ih => exact ⟨_, .kids a rest ih.choose_spec⟩
    | rest a kids _ ih => exact ⟨_, .rest a kids ih.choose_spec⟩
  exact h' h

theorem Replace.symm (h : Replace q K K' F F') : Replace q K' K F' F := by
  induction h with
  | here rest => exact .here rest
  | kids a rest _ ih => exact .kids a rest ih
  | rest a kids _ ih => exact .rest a kids ih

/-- After a replacement, the new forest is the one below the node. -/
theorem Replace.at_right (h : Replace q K K' F F') : F'.At q K' := by
  induction h with
  | here rest => exact .here rest
  | kids a rest _ ih => exact .kids a rest ih
  | rest a kids _ ih => exact .rest a kids ih

/-- The nodes on both sides of a replacement. -/
theorem Replace.nodes_perm (h : Replace q K K' F F') :
    ∃ cs, F.nodes.Perm (q :: (K.nodes ++ cs)) ∧ F'.nodes.Perm (q :: (K'.nodes ++ cs)) := by
  induction h with
  | here rest => exact ⟨rest.nodes, .refl _, .refl _⟩
  | @kids kids kids' a rest _ ih =>
    obtain ⟨cs, hF, hF'⟩ := ih
    have hmove : ∀ (ns L : List α), ns.Perm (q :: (L ++ cs)) →
        (a :: (ns ++ rest.nodes)).Perm (q :: (L ++ a :: (cs ++ rest.nodes))) := by
      intro ns L hns
      have h₁ := (hns.append_right rest.nodes).cons a
      simp only [List.cons_append, List.append_assoc] at h₁
      exact h₁.trans ((List.Perm.swap ..).trans (List.perm_middle.symm.cons q))
    exact ⟨a :: (cs ++ rest.nodes), hmove _ _ hF, hmove _ _ hF'⟩
  | @rest rest rest' a kids _ ih =>
    obtain ⟨cs, hF, hF'⟩ := ih
    have hmove : ∀ (ns L : List α), ns.Perm (q :: (L ++ cs)) →
        (a :: (kids.nodes ++ ns)).Perm (q :: (L ++ a :: (kids.nodes ++ cs))) := by
      intro ns L hns
      have h₁ : (kids.nodes ++ ns).Perm (q :: (L ++ (kids.nodes ++ cs))) := by
        refine (hns.append_left kids.nodes).trans (List.perm_middle.trans (.cons q ?_))
        rw [← List.append_assoc, ← List.append_assoc]
        exact List.perm_append_comm.append_right cs
      exact (h₁.cons a).trans ((List.Perm.swap ..).trans (List.perm_middle.symm.cons q))
    exact ⟨a :: (kids.nodes ++ cs), hmove _ _ hF, hmove _ _ hF'⟩

theorem At.nodes_perm (h : F.At q K) : ∃ cs, F.nodes.Perm (q :: (K.nodes ++ cs)) := by
  obtain ⟨cs, hF, -⟩ := Replace.nodes_perm h
  exact ⟨cs, hF⟩

theorem At.mem (h : F.At q K) : q ∈ F.nodes := by
  obtain ⟨cs, hF⟩ := h.nodes_perm
  exact hF.mem_iff.mpr (by simp)

theorem At.subset (h : F.At q K) : K.nodes ⊆ F.nodes := by
  obtain ⟨cs, hF⟩ := h.nodes_perm
  intro b hb
  exact hF.mem_iff.mpr (by simp [hb])

theorem At.length_lt (h : F.At q K) : K.nodes.length < F.nodes.length := by
  obtain ⟨cs, hF⟩ := h.nodes_perm
  rw [hF.length_eq, List.length_cons, List.length_append]
  omega

theorem At.nodup (h : F.At q K) (hnod : F.nodes.Nodup) : q ∉ K.nodes ∧ K.nodes.Nodup := by
  obtain ⟨cs, hF⟩ := h.nodes_perm
  have hnod' := hF.nodup_iff.mp hnod
  rw [List.nodup_cons, List.nodup_append, List.mem_append, not_or] at hnod'
  exact ⟨hnod'.1.1, hnod'.2.1⟩

theorem At.all (h : F.At q K) (hall : F.All P) : P q K.roots ∧ K.All P := by
  have h' : ∀ {F F' : Forest α}, Replace q K K F F' → F.All P → P q K.roots ∧ K.All P := by
    intro F F' h
    induction h with
    | here rest => exact fun hall => ⟨hall.1, hall.2.1⟩
    | kids a rest _ ih => exact fun hall => ih hall.2.1
    | rest a kids _ ih => exact fun hall => ih hall.2.2
  exact h' h hall

/-- The roots of the forest below a node have forests below them. -/
theorem At.root (h : F.At q (G ++ cons a K L)) : F.At a K := by
  have hroot : ∀ G : Forest α, Replace a K K (G ++ cons a K L) (G ++ cons a K L) := by
    intro G
    induction G with
    | nil => exact .here L
    | cons b kids rest _ ih => exact .rest b kids ih
  have h' : ∀ {F F' : Forest α}, Replace q (G ++ cons a K L) (G ++ cons a K L) F F' → F.At a K := by
    intro F F' h
    induction h with
    | here rest => exact .kids q rest (hroot G)
    | kids b rest _ ih => exact .kids b rest ih
    | rest b kids _ ih => exact .rest b kids ih
  exact h' h

theorem exists_at (h : q ∈ F.nodes) : ∃ K, F.At q K := by
  induction F with
  | nil => simp at h
  | cons a kids rest ihk ihr =>
    simp only [nodes_cons, List.mem_cons, List.mem_append] at h
    rcases h with rfl | h | h
    · exact ⟨kids, .here rest⟩
    · obtain ⟨K, hK⟩ := ihk h
      exact ⟨K, .kids a rest hK⟩
    · obtain ⟨K, hK⟩ := ihr h
      exact ⟨K, .rest a kids hK⟩

/-- A node is a root, or a root of the forest below another node. -/
theorem root_or_below (h : a ∈ F.nodes) : a ∈ F.roots ∨ ∃ q K, F.At q K ∧ a ∈ K.roots := by
  induction F with
  | nil => simp at h
  | cons b kids rest ihk ihr =>
    simp only [nodes_cons, List.mem_cons, List.mem_append] at h
    rcases h with rfl | h | h
    · exact .inl (by simp)
    · rcases ihk h with hroot | ⟨q, K, hK, ha⟩
      · exact .inr ⟨b, kids, .here rest, hroot⟩
      · exact .inr ⟨q, K, .kids b rest hK, ha⟩
    · rcases ihr h with hroot | ⟨q, K, hK, ha⟩
      · exact .inl (by simp [hroot])
      · exact .inr ⟨q, K, .rest b kids hK, ha⟩

theorem Replace.mem (h : Replace q K K' F F') : ∀ b ∈ q :: K.nodes, b ∈ F.nodes := by
  obtain ⟨cs, hperm, -⟩ := h.nodes_perm
  intro b hb
  refine hperm.mem_iff.mpr ?_
  simp only [List.mem_cons, List.mem_append] at hb ⊢
  tauto

/-- No root of the whole is in the replaced part. -/
theorem Replace.root_outside (h : Replace q K K' F F') (hnod : F.nodes.Nodup) {c : α}
    (hc : c ∈ F.roots) : c ∉ K.nodes := by
  induction h with
  | here rest =>
    simp only [nodes_cons, List.nodup_cons, List.nodup_append, List.mem_append, not_or] at hnod
    rcases List.mem_cons.mp hc with rfl | hc
    · exact hnod.1.1
    · exact fun hcK => hnod.2.2.2 c hcK c (roots_subset_nodes hc) rfl
  | @kids kids kids' a rest hr _ =>
    intro hcK
    have hck := hr.mem c (List.mem_cons_of_mem q hcK)
    simp only [nodes_cons, List.nodup_cons, List.nodup_append, List.mem_append, not_or] at hnod
    rcases List.mem_cons.mp hc with rfl | hc
    · exact hnod.1.1 hck
    · exact hnod.2.2.2 c hck c (roots_subset_nodes hc) rfl
  | @rest rest rest' a kids hr ih =>
    intro hcK
    have hcr := hr.mem c (List.mem_cons_of_mem q hcK)
    simp only [nodes_cons, List.nodup_cons, List.nodup_append, List.mem_append, not_or] at hnod
    rcases List.mem_cons.mp hc with rfl | hc
    · exact hnod.1.2 hcr
    · exact ih hnod.2.2.1 hc hcK

/-- **Replacing a forest below a node.** What holds of every node holds after
the replacement, if it holds of the new part, and if it carries over where
neither the node nor the roots below it were in the old part. -/
theorem Replace.all (h : Replace q K K' F F') (hnod : F.nodes.Nodup) (hall : F.All P)
    (hq : P' q K'.roots) (hK' : K'.All P')
    (himp : ∀ n cs, n ∈ F.nodes → n ∉ q :: K.nodes → (∀ c ∈ cs, c ∈ F.nodes ∧ c ∉ K.nodes) →
      P n cs → P' n cs) : F'.All P' := by
  induction h with
  | here rest =>
    simp only [nodes_cons, List.nodup_cons, List.nodup_append, List.mem_append, not_or] at hnod
    refine ⟨hq, hK', hall.2.2.inner hnod.2.2.1 fun n cs hn hcs => himp n cs (by simp [hn]) ?_ ?_⟩
    · rw [List.mem_cons, not_or]
      refine ⟨?_, fun hnK => hnod.2.2.2 n hnK n hn rfl⟩
      rintro rfl
      exact hnod.1.2 hn
    · exact fun c hc => ⟨by simp [(hcs c hc).1], fun hcK => hnod.2.2.2 c hcK c (hcs c hc).1 rfl⟩
  | @kids kids kids' a rest hr ih =>
    have hout := fun c hc => hr.root_outside (c := c)
      (List.nodup_append.mp (List.nodup_cons.mp hnod).2).1 hc
    simp only [nodes_cons, List.nodup_cons, List.nodup_append, List.mem_append, not_or] at hnod
    refine ⟨?_, ih hnod.2.1 hall.2.1 ?_, hall.2.2.inner hnod.2.2.1 ?_⟩
    · rw [hr.roots_eq]
      refine himp a _ (by simp) (fun ha => hnod.1.1 (hr.mem a ha)) ?_ hall.1
      exact fun c hc => ⟨by simp [roots_subset_nodes hc], hout c hc⟩
    · exact fun n cs hn hn' hcs => himp n cs (by simp [hn]) hn' fun c hc =>
        ⟨by simp [(hcs c hc).1], (hcs c hc).2⟩
    · refine fun n cs hn hcs => himp n cs (by simp [hn])
        (fun hn' => hnod.2.2.2 n (hr.mem n hn') n hn rfl) fun c hc => ⟨by simp [(hcs c hc).1], ?_⟩
      exact fun hcK => hnod.2.2.2 c (hr.mem c (List.mem_cons_of_mem q hcK)) c (hcs c hc).1 rfl
  | @rest rest rest' a kids hr ih =>
    simp only [nodes_cons, List.nodup_cons, List.nodup_append, List.mem_append, not_or] at hnod
    have hkids : ∀ c ∈ kids.nodes, c ∉ q :: K.nodes := fun c hc hc' =>
      hnod.2.2.2 c hc c (hr.mem c hc') rfl
    have hkids' : ∀ c ∈ kids.nodes, c ∉ K.nodes := fun c hc hc' =>
      hkids c hc (List.mem_cons_of_mem q hc')
    refine ⟨?_, hall.2.1.inner hnod.2.1 ?_, ih hnod.2.2.1 hall.2.2 ?_⟩
    · refine himp a _ (by simp) (fun ha => hnod.1.2 (hr.mem a ha)) ?_ hall.1
      exact fun c hc => ⟨by simp [roots_subset_nodes hc], hkids' c (roots_subset_nodes hc)⟩
    · exact fun n cs hn hcs => himp n cs (by simp [hn]) (hkids n hn) fun c hc =>
        ⟨by simp [(hcs c hc).1], hkids' c (hcs c hc).1⟩
    · exact fun n cs hn hn' hcs => himp n cs (by simp [hn]) hn' fun c hc =>
        ⟨by simp [(hcs c hc).1], (hcs c hc).2⟩

end Forest

/-! ### Chains -/

/-- From `p` the links lead through `cs` to `e`. -/
def Path {α : Type*} (next : α → Option α) : Option α → List α → Option α → Prop
  | p, [], e => p = e
  | p, c :: cs, e => p = some c ∧ Path next (next c) cs e

section

variable {α : Type*} {next next' : α → Option α} {p e : Option α} {cs ds : List α}

theorem path_append : Path next p (cs ++ ds) e ↔ ∃ m, Path next p cs m ∧ Path next m ds e := by
  induction cs generalizing p with
  | nil => simp [Path]
  | cons c cs ih =>
    simp only [List.cons_append, Path, ih]
    refine ⟨fun ⟨hp, m, hcs, hds⟩ => ⟨m, ⟨hp, hcs⟩, hds⟩, fun ⟨m, ⟨hp, hcs⟩, hds⟩ => ⟨hp, m, hcs, hds⟩⟩

/-- A path is given by the links of its nodes. -/
theorem Path.congr (h : Path next p cs e) (hnext : ∀ c ∈ cs, next' c = next c) :
    Path next' p cs e := by
  induction cs generalizing p with
  | nil => exact h
  | cons c cs ih =>
    refine ⟨h.1, ?_⟩
    rw [hnext c (by simp)]
    exact ih h.2 fun d hd => hnext d (by simp [hd])

/-- A link of a path leads to the next node of it. -/
theorem Path.mem_of_link (h : Path next p cs e) {c d : α} (hc : c ∈ cs) (hd : next c = some d) :
    d ∈ cs ∨ e = some d := by
  induction cs generalizing p with
  | nil => simp at hc
  | cons b cs ih =>
    rcases List.mem_cons.mp hc with rfl | hc
    · cases cs with
      | nil => exact .inr (h.2.symm.trans hd)
      | cons b' cs => exact .inl (by simp [Option.some.inj (h.2.1.symm.trans hd)])
    · exact (ih h.2 hc).imp_left (List.mem_cons_of_mem b)

theorem Path.mem_of_start (h : Path next p cs e) {c : α} (hp : p = some c) :
    c ∈ cs ∨ e = some c := by
  cases cs with
  | nil => exact .inr (h.symm.trans hp)
  | cons b cs => exact .inl (by simp [Option.some.inj (h.1.symm.trans hp)])

end

end GfpDrivers.Lib
