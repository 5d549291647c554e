import GfpDrivers.Lib.Traced
import GfpDrivers.Of.DmaLimit
import GfpDrivers.Of.Unflatten

/-!
Which memory unflattening uses (`fdt.c`): the cells of `nps`, and the pieces of the block that
`unflatten_dt_alloc` gives out. The functions are those of `Fdt`, without what is written into the pieces
(`unflattenDtNodes_mem`).

The dry run starts at address 0 and the second run at the block. Both make the same sequence of pieces, and
moving the start by a multiple of the alignments moves all of them.
-/

namespace GfpDrivers.Of

open Lib List

/-- An access to a cell of `nps`, and a piece that is given out to be written to. -/
inductive BlockEvent where
  | nps (i : ℕ)
  | piece (addr size : ℕ)
deriving DecidableEq

/-- `unflatten_dt_alloc`. In a dry run nothing is written to the piece. -/
def layPiece (dryrun : Bool) (mem size align : ℕ) : Traced BlockEvent ℕ := do
  if dryrun then pure () else Traced.emit (.piece (unflattenDtAlloc mem size align).1 size)
  pure (unflattenDtAlloc mem size align).2

/-- The loop of `populate_properties`. -/
def layProps (z : Sizes) (dryrun : Bool) : List FlatProp → ℕ → Traced BlockEvent ℕ
  | [], mem => pure mem
  | _ :: ps, mem => do
      let mem ← layPiece dryrun mem z.prop z.propAlign
      layProps z dryrun ps mem

/-- `populate_properties` -/
def layFields (z : Sizes) (dryrun : Bool) (mem : ℕ) (n : FlatNode) : Traced BlockEvent ℕ := do
  let mem ← layProps z dryrun n.props mem
  if n.hasName then pure mem
  else
    let t := NameScan.run (chars n.name)
    layPiece dryrun mem (z.prop + (t.stop - t.ps + 1)) z.propAlign

/-- `populate_node` -/
def layNode (z : Sizes) (dryrun : Bool) (mem : ℕ) (n : FlatNode) : Traced BlockEvent ℕ := do
  let mem ← layPiece dryrun mem (z.node + ((chars n.name).length + 1)) z.nodeAlign
  layFields z dryrun mem n

/-- `of_fdt_device_is_available` -/
def ofFdtDeviceIsAvailable (n : FlatNode) : Bool :=
  match n.props.find? fun p => p.name = "status" with
  | none => true
  | some p => strEq p.value "ok" || strEq p.value "okay"

/-- The loop of `unflatten_dt_nodes`. Without `CONFIG_OF_KOBJ` nodes that are not available are left out. -/
def layNodes (z : Sizes) (ofKobj dryrun : Bool) : List (ℕ × FlatNode) → ℕ → Traced BlockEvent ℕ
  | [], mem => pure mem
  | (depth, n) :: vs, mem =>
      if fdtMaxDepth ≤ depth then layNodes z ofKobj dryrun vs mem
      else if ofKobj = false ∧ ofFdtDeviceIsAvailable n = false then layNodes z ofKobj dryrun vs mem
      else do
        Traced.emit (.nps depth)
        Traced.emit (.nps (depth + 1))
        let mem ← layNode z dryrun mem n
        layNodes z ofKobj dryrun vs mem

/-- `initial_depth` -/
def initialDepth (dad : Option ℕ) : ℕ := if dad.isSome then 1 else 0

/-- `unflatten_dt_nodes`. The difference of the pointers is returned as an `int`. -/
def layDtNodes (z : Sizes) (ofKobj : Bool) (blob : Forest FlatNode) (mem : ℕ) (dad : Option ℕ) : Traced BlockEvent ℤ := do
  Traced.emit (.nps (initialDepth dad))
  let stop ← layNodes z ofKobj (mem = 0) (visits (initialDepth dad) blob) mem
  pure (((stop - mem : ℕ) : ℤ).bmod (2 ^ 32))

/-- The sizes and alignments as a compiler chooses them: a pointer to a node is one to a property, too. -/
structure NodeLayout extends Sizes where
  propAlign_dvd : propAlign ∣ nodeAlign

/-- The accesses to `nps` are in the array, in both runs, and the second run uses the bytes that the dry run returns. There
is no second run if these are none, or an error. -/
structure StaysInBlock (z : Sizes) (ofKobj : Bool) (blob : Forest FlatNode) (dad : Option ℕ) (block : ℕ) : Prop where
  dry_nps : ∀ i, .nps i ∈ (layDtNodes z ofKobj blob 0 dad).trace → i < fdtMaxDepth
  nps : ∀ i, .nps i ∈ (layDtNodes z ofKobj blob block dad).trace → i < fdtMaxDepth
  same : ∀ size > 0, (layDtNodes z ofKobj blob 0 dad).result = some size → (layDtNodes z ofKobj blob block dad).result = some size
  within : ∀ size > 0, (layDtNodes z ofKobj blob 0 dad).result = some size →
    ∀ addr n, .piece addr n ∈ (layDtNodes z ofKobj blob block dad).trace → block ≤ addr ∧ (addr + n : ℕ) ≤ block + size

variable {z : Sizes} {ofKobj dryrun : Bool} {mem mid stop base size align depth : ℕ} {n : FlatNode} {ps : List FlatProp}
  {vs : List (ℕ × FlatNode)} {x : Traced BlockEvent ℕ} {f : ℕ → Traced BlockEvent ℕ} {dad : Option ℕ}
  {blob : Forest FlatNode} {is js : List ℕ}

/-! ### Pieces one behind the other -/

/-- The program goes to the cells `is` of `nps` and gives out pieces from `mem` up to `stop`, up to the last byte, unless
it is a dry run. -/
structure Lays (dryrun : Bool) (mem stop : ℕ) (is : List ℕ) (x : Traced BlockEvent ℕ) : Prop where
  result : x.result = some stop
  le : mem ≤ stop
  within : ∀ addr size, .piece addr size ∈ x.trace → mem ≤ addr ∧ addr + size ≤ stop
  last : dryrun = false → mem < stop → ∃ addr size, .piece addr size ∈ x.trace ∧ addr + size = stop
  nps : ∀ i, .nps i ∈ x.trace ↔ i ∈ is

theorem Lays.pure : Lays dryrun mem mem [] (Pure.pure mem) :=
  ⟨rfl, le_rfl, fun _ _ h => absurd h not_mem_nil, fun _ h => absurd h (lt_irrefl _),
    fun _ => iff_of_false not_mem_nil not_mem_nil⟩

theorem Lays.bind (hx : Lays dryrun mem mid is x) (hf : Lays dryrun mid stop js (f mid)) :
    Lays dryrun mem stop (is ++ js) (x >>= f) := by
  have htrace : (x >>= f).trace = x.trace ++ (f mid).trace := Traced.trace_bind hx.result
  have hle := hx.le
  have hle' := hf.le
  refine ⟨by rw [Traced.result_bind, hx.result, Option.bind_some, hf.result], by omega, fun addr size h => ?_, fun hwet hlt => ?_,
    fun i => by rw [htrace, mem_append, mem_append, hx.nps, hf.nps]⟩
  · rw [htrace, mem_append] at h
    rcases h with h | h
    · obtain ⟨hlo, hhi⟩ := hx.within addr size h
      exact ⟨hlo, by omega⟩
    · obtain ⟨hlo, hhi⟩ := hf.within addr size h
      exact ⟨by omega, hhi⟩
  · rw [htrace]
    by_cases hmid : mid < stop
    · obtain ⟨addr, size, hmem, hend⟩ := hf.last hwet hmid
      exact ⟨addr, size, mem_append_right _ hmem, hend⟩
    · obtain rfl : mid = stop := by omega
      obtain ⟨addr, size, hmem, hend⟩ := hx.last hwet hlt
      exact ⟨addr, size, mem_append_left _ hmem, hend⟩

theorem Lays.access (i : ℕ) (hx : Lays dryrun mem stop is x) :
    Lays dryrun mem stop (i :: is) (Traced.emit (.nps i) >>= fun _ => x) := by
  have htrace : (Traced.emit (.nps i) >>= fun _ => x).trace = .nps i :: x.trace := Traced.trace_emit_bind
  refine ⟨by rw [Traced.result_bind, Traced.result_emit, Option.bind_some, hx.result], hx.le, fun addr size h => ?_,
    fun hwet hlt => ?_, fun j => by rw [htrace, mem_cons, mem_cons, BlockEvent.nps.injEq, hx.nps]⟩
  · rw [htrace] at h
    exact hx.within addr size (by simpa using h)
  · obtain ⟨addr, size, hmem, hend⟩ := hx.last hwet hlt
    exact ⟨addr, size, htrace ▸ mem_cons_of_mem _ hmem, hend⟩

theorem layPiece_lays (halign : 0 < align) :
    Lays dryrun mem (unflattenDtAlloc mem size align).2 [] (layPiece dryrun mem size align) := by
  have hle : mem ≤ (unflattenDtAlloc mem size align).1 := le_ptrAlign halign
  have hend : (unflattenDtAlloc mem size align).2 = (unflattenDtAlloc mem size align).1 + size := rfl
  cases dryrun with
  | true =>
    exact ⟨rfl, by omega, fun _ _ h => absurd h not_mem_nil, fun h => absurd h (by decide),
      fun _ => iff_of_false not_mem_nil not_mem_nil⟩
  | false =>
    refine ⟨rfl, by omega, fun addr size' h => ?_, fun _ _ => ⟨_, size, mem_singleton.mpr rfl, hend.symm⟩,
      fun i => iff_of_false (fun h => ?_) not_mem_nil⟩
    · obtain ⟨rfl, rfl⟩ := BlockEvent.piece.inj (mem_singleton.mp h)
      exact ⟨hle, hend.ge⟩
    · exact absurd (mem_singleton.mp h) (by simp)

theorem layProps_lays : Lays dryrun mem (z.propsEnd mem ps) [] (layProps z dryrun ps mem) := by
  induction ps generalizing mem with
  | nil => exact .pure
  | cons p ps ih => exact (layPiece_lays z.propAlign_pos).bind ih

theorem layFields_lays : Lays dryrun mem (z.fieldsEnd mem n) [] (layFields z dryrun mem n) := by
  refine layProps_lays.bind ?_
  unfold Sizes.fieldsEnd
  split_ifs
  · exact .pure
  · rw [← nameProperty_length]
    exact layPiece_lays z.propAlign_pos

theorem layNode_lays : Lays dryrun mem (z.nodeEnd mem n) [] (layNode z dryrun mem n) :=
  (layPiece_lays z.nodeAlign_pos).bind layFields_lays

/-- The nodes that are made: those that are not too deep and not left out. -/
def madeNodes (ofKobj : Bool) (vs : List (ℕ × FlatNode)) : List (ℕ × FlatNode) :=
  vs.filter fun v => v.1 < fdtMaxDepth && (ofKobj || ofFdtDeviceIsAvailable v.2)

/-- The memory behind the nodes `vs`. -/
def Sizes.nodesEnd (z : Sizes) (mem : ℕ) (vs : List (ℕ × FlatNode)) : ℕ := vs.foldl (fun mem v => z.nodeEnd mem v.2) mem

theorem layNodes_lays (z : Sizes) (ofKobj dryrun : Bool) (vs : List (ℕ × FlatNode)) (mem : ℕ) :
    Lays dryrun mem (z.nodesEnd mem (madeNodes ofKobj vs)) ((madeNodes ofKobj vs).flatMap fun v => [v.1, v.1 + 1])
      (layNodes z ofKobj dryrun vs mem) := by
  induction vs generalizing mem with
  | nil => exact .pure
  | cons v vs ih =>
    obtain ⟨depth, n⟩ := v
    rw [layNodes]
    split_ifs with hdeep hskip
    · have hmade : madeNodes ofKobj ((depth, n) :: vs) = madeNodes ofKobj vs :=
        filter_cons_of_neg (by simp [Nat.not_lt.mpr hdeep])
      rw [hmade]
      exact ih mem
    · have hmade : madeNodes ofKobj ((depth, n) :: vs) = madeNodes ofKobj vs := filter_cons_of_neg (by simp [hskip])
      rw [hmade]
      exact ih mem
    · have hmade : madeNodes ofKobj ((depth, n) :: vs) = (depth, n) :: madeNodes ofKobj vs :=
        filter_cons_of_pos (by simpa [Nat.not_le.mp hdeep, or_iff_not_imp_left] using hskip)
      rw [hmade]
      exact .access depth (.access (depth + 1) (layNode_lays.bind (ih _)))

/-! ### The two runs -/

theorem ptrAlign_add {p a : ℕ} (ha : 0 < a) (h : a ∣ base) : ptrAlign (p + base) a = ptrAlign p a + base := by
  obtain ⟨k, rfl⟩ := h
  rw [ptrAlign, show p + a * k + (a - 1) = p + (a - 1) + a * k by omega, Nat.add_mul_div_left _ _ ha, Nat.add_mul, Nat.mul_comm k a]
  rfl

theorem propsEnd_add (h : z.propAlign ∣ base) : z.propsEnd (mem + base) ps = z.propsEnd mem ps + base := by
  induction ps using List.reverseRecOn with
  | nil => rfl
  | append_singleton ps p ih =>
    simp only [Sizes.propsEnd, foldl_append, foldl_cons, foldl_nil, unflattenDtAlloc] at ih ⊢
    rw [ih, ptrAlign_add z.propAlign_pos h]
    omega

theorem nodeEnd_add (hnode : z.nodeAlign ∣ base) (hprop : z.propAlign ∣ base) :
    z.nodeEnd (mem + base) n = z.nodeEnd mem n + base := by
  simp only [Sizes.nodeEnd, Sizes.fieldsEnd, unflattenDtAlloc, ptrAlign_add z.nodeAlign_pos hnode]
  rw [Nat.add_right_comm _ base, propsEnd_add hprop, ptrAlign_add z.propAlign_pos hprop]
  split_ifs
  · rfl
  · omega

theorem nodesEnd_add (hnode : z.nodeAlign ∣ base) (hprop : z.propAlign ∣ base) :
    z.nodesEnd (mem + base) vs = z.nodesEnd mem vs + base := by
  induction vs generalizing mem with
  | nil => rfl
  | cons v vs ih =>
    simp only [Sizes.nodesEnd, foldl_cons] at ih ⊢
    rw [nodeEnd_add hnode hprop, ih]

/-- The nodes of a blob that are made. -/
def blobNodes (ofKobj : Bool) (blob : Forest FlatNode) (dad : Option ℕ) : List (ℕ × FlatNode) :=
  madeNodes ofKobj (visits (initialDepth dad) blob)

theorem layDtNodes_result (z : Sizes) (ofKobj : Bool) (blob : Forest FlatNode) (mem : ℕ) (dad : Option ℕ) :
    (layDtNodes z ofKobj blob mem dad).result =
      some (((z.nodesEnd mem (blobNodes ofKobj blob dad) - mem : ℕ) : ℤ).bmod (2 ^ 32)) := by
  simp only [layDtNodes, Traced.result_bind, Traced.result_emit, Option.bind_some, (layNodes_lays _ _ _ _ _).result, Traced.result_pure]
  rfl

theorem mem_layDtNodes {e : BlockEvent} : e ∈ (layDtNodes z ofKobj blob mem dad).trace ↔
    e = .nps (initialDepth dad) ∨ e ∈ (layNodes z ofKobj (mem = 0) (visits (initialDepth dad) blob) mem).trace := by
  rw [layDtNodes, Traced.trace_emit_bind, Traced.trace_bind (layNodes_lays _ _ _ _ _).result, mem_cons, Traced.trace_pure, append_nil]

theorem initialDepth_le (dad : Option ℕ) : initialDepth dad ≤ 1 := by
  unfold initialDepth
  split_ifs <;> omega

/-- The accesses to `nps` of a run. -/
theorem nps_lt_iff : (∀ i, .nps i ∈ (layDtNodes z ofKobj blob mem dad).trace → i < fdtMaxDepth) ↔
    ∀ v ∈ blobNodes ofKobj blob dad, v.1 ≠ fdtMaxDepth - 1 := by
  have hmade : ∀ v ∈ blobNodes ofKobj blob dad, v.1 < fdtMaxDepth := fun v hv => by
    have hkept := (mem_filter.mp hv).2
    simpa using (Bool.and_eq_true_iff.mp hkept).1
  have hinitial := initialDepth_le dad
  unfold fdtMaxDepth at *
  simp only [mem_layDtNodes, BlockEvent.nps.injEq, (layNodes_lays _ _ _ _ _).nps, mem_flatMap, mem_cons, not_mem_nil, or_false]
  constructor
  · intro h v hv
    have hnext := h (v.1 + 1) (.inr ⟨v, hv, .inr rfl⟩)
    omega
  · rintro h i (rfl | ⟨v, hv, rfl | rfl⟩)
    · omega
    · exact hmade v hv
    · have hlt := hmade v hv
      have hne := h v hv
      omega

/-- Unflattening stays in its buffers, whatever the block, exactly if no node that is made is at the last depth that
passes the check, and the bytes that the nodes take are less than `2 ^ 31`, or so many that the dry run returns nothing
positive. -/
theorem unflatten_stays_iff (z : NodeLayout) (ofKobj : Bool) (n : FlatNode) (K : Forest FlatNode) (dad : Option ℕ) :
    (∀ block ≠ 0, z.nodeAlign ∣ block → StaysInBlock z.toSizes ofKobj (.cons n K .nil) dad block) ↔
      (∀ v ∈ blobNodes ofKobj (.cons n K .nil) dad, v.1 ≠ fdtMaxDepth - 1) ∧
      (z.nodesEnd 0 (blobNodes ofKobj (.cons n K .nil) dad) < 2 ^ 31 ∨
        ((z.nodesEnd 0 (blobNodes ofKobj (.cons n K .nil) dad) : ℕ) : ℤ).bmod (2 ^ 32) ≤ 0) := by
  generalize htotal : z.nodesEnd 0 (blobNodes ofKobj (.cons n K .nil) dad) = total
  generalize hblob : Forest.cons n K .nil = blob at htotal ⊢
  have hdry : (layDtNodes z.toSizes ofKobj blob 0 dad).result = some ((total : ℤ).bmod (2 ^ 32)) := by
    rw [layDtNodes_result, htotal, Nat.sub_zero]
  have hend : ∀ block, z.nodeAlign ∣ block → z.nodesEnd block (blobNodes ofKobj blob dad) = total + block := fun block h => by
    have hadd : z.nodesEnd (0 + block) (blobNodes ofKobj blob dad) = z.nodesEnd 0 (blobNodes ofKobj blob dad) + block :=
      nodesEnd_add h (z.propAlign_dvd.trans h)
    rwa [Nat.zero_add, htotal] at hadd
  have hrun : ∀ block, z.nodeAlign ∣ block →
      (layDtNodes z.toSizes ofKobj blob block dad).result = some ((total : ℤ).bmod (2 ^ 32)) := fun block h => by
    rw [layDtNodes_result, hend block h, Nat.add_sub_cancel]
  constructor
  · intro h
    have hblock := h z.nodeAlign z.nodeAlign_pos.ne' dvd_rfl
    refine ⟨(nps_lt_iff).mp hblock.dry_nps, or_iff_not_imp_left.mpr fun hlarge => not_lt.mp fun hpos => ?_⟩
    have hlt : (total : ℤ).bmod (2 ^ 32) < 2 ^ 31 := Int.bmod_lt (by decide)
    -- the last piece ends behind the bytes of the dry run
    have hlays := layNodes_lays z.toSizes ofKobj (z.nodeAlign = 0) (visits (initialDepth dad) blob) z.nodeAlign
    rw [show z.nodesEnd z.nodeAlign (madeNodes ofKobj (visits (initialDepth dad) blob)) = total + z.nodeAlign from
      hend z.nodeAlign dvd_rfl] at hlays
    obtain ⟨addr, size, hpiece, hlast⟩ := hlays.last (by simpa using z.nodeAlign_pos.ne') (by omega)
    have hwithin := (hblock.within _ hpos hdry addr size (mem_layDtNodes.mpr (.inr hpiece))).2
    omega
  · rintro ⟨hdepth, hsize⟩ block hne hdvd
    refine ⟨(nps_lt_iff).mpr hdepth, (nps_lt_iff).mpr hdepth, fun size _ hsize' => ?_, fun size hpos hsize' addr m hpiece => ?_⟩
    · rw [hrun block hdvd, ← hdry, hsize']
    · obtain rfl := Option.some.inj (hdry.symm.trans hsize')
      have hlt : total < 2 ^ 31 := hsize.resolve_right (not_le.mpr hpos)
      have hbmod : (total : ℤ).bmod (2 ^ 32) = total := Int.bmod_eq_of_le (by omega) (by omega)
      rw [mem_layDtNodes] at hpiece
      have hlays := layNodes_lays z.toSizes ofKobj (block = 0) (visits (initialDepth dad) blob) block
      rw [show z.nodesEnd block (madeNodes ofKobj (visits (initialDepth dad) blob)) = total + block from hend block hdvd] at hlays
      obtain ⟨hlo, hhi⟩ := hlays.within addr m (hpiece.resolve_left (by simp))
      rw [hbmod]
      omega

/-- Nodes one below the other. -/
def deepBlob : ℕ → Forest FlatNode
  | 0 => .nil
  | depth + 1 => .cons ⟨"bus", []⟩ (deepBlob depth) .nil

def wordLayout : NodeLayout where
  toSizes := wordSizes
  propAlign_dvd := dvd_rfl

/-- The last of 64 nodes is written behind the end of `nps`. -/
theorem deepBlob_leaves_nps : ¬ StaysInBlock wordLayout.toSizes true (deepBlob 64) none 8 := by
  intro h
  have hlast : 63 ∈ (blobNodes true (deepBlob 64) none).map Prod.fst := by decide
  obtain ⟨v, hv, hdepth⟩ := List.mem_map.mp hlast
  exact (nps_lt_iff).mp h.dry_nps v hv hdepth

/-! ### The same memory as in `Fdt` -/

theorem populateProperty_mem (dryrun : Bool) (ps : List FlatProp) (np : ℕ) (f : Filling) :
    (ps.foldl (populateProperty z dryrun np) f).mem = z.propsEnd f.mem ps ∧
      (ps.foldl (populateProperty z dryrun np) f).hasName = (f.hasName || ps.any fun p => p.name = "name") := by
  induction ps generalizing f with
  | nil => simp [Sizes.propsEnd]
  | cons p ps ih =>
    have hstep : (populateProperty z dryrun np f p).mem = (unflattenDtAlloc f.mem z.prop z.propAlign).2 ∧
        (populateProperty z dryrun np f p).hasName = (f.hasName || p.name = "name") := by
      unfold populateProperty
      cases dryrun <;> exact ⟨rfl, rfl⟩
    obtain ⟨hmem, hname⟩ := ih (populateProperty z dryrun np f p)
    rw [foldl_cons, hmem, hname, hstep.1, hstep.2]
    exact ⟨rfl, by simp [Bool.or_assoc]⟩

theorem populateProperties_mem (s : DevTree) (np : ℕ) : (populateProperties z dryrun s mem np n).2 = z.fieldsEnd mem n := by
  have hloop := populateProperty_mem (z := z) dryrun n.props np ⟨s, mem, .properties np, false⟩
  simp only [Bool.false_or] at hloop
  unfold populateProperties Sizes.fieldsEnd FlatNode.hasName
  simp only [hloop.2, ← nameProperty_length]
  split_ifs
  · exact hloop.1
  · rw [hloop.1]
  · rw [hloop.1]

theorem populateNode_mem {s s' : DevTree} {fuel np : ℕ} (h : populateNode z fuel dryrun s mem dad n = some (s', stop, np)) :
    stop = z.nodeEnd mem n := by
  unfold populateNode at h
  cases dryrun with
  | true =>
    simp only [if_true, Option.some.injEq, Prod.mk.injEq] at h
    rw [← h.2.1, populateProperties_mem]
    rfl
  | false =>
    simp only [Bool.false_eq_true, if_false] at h
    obtain ⟨name, -, h⟩ := Option.map_eq_some_iff.mp h
    simp only [Prod.mk.injEq] at h
    rw [← h.2.1, populateProperties_mem]
    rfl

theorem unflattenNode_mem {fuel : ℕ} {u u' : Unflattening} (h : vs.foldlM (unflattenNode z fuel dryrun) u = some u') :
    u'.mem = z.nodesEnd u.mem (madeNodes true vs) := by
  induction vs generalizing u with
  | nil =>
    obtain rfl := Option.some.inj h
    rfl
  | cons v vs ih =>
    obtain ⟨depth, n⟩ := v
    rw [foldlM_cons] at h
    obtain ⟨u₁, hstep, h⟩ := Option.bind_eq_some_iff.mp h
    rw [ih h]
    unfold unflattenNode at hstep
    simp only at hstep
    by_cases hdeep : fdtMaxDepth ≤ depth
    · rw [if_pos hdeep] at hstep
      obtain rfl := Option.some.inj hstep
      have hmade : madeNodes true ((depth, n) :: vs) = madeNodes true vs :=
        filter_cons_of_neg (by simp [Nat.not_lt.mpr hdeep])
      rw [hmade]
    · rw [if_neg hdeep] at hstep
      obtain ⟨⟨s, mem, np⟩, hnode, hu⟩ := Option.map_eq_some_iff.mp (Option.ite_none_left_eq_some.mp hstep).2
      have hmade : madeNodes true ((depth, n) :: vs) = (depth, n) :: madeNodes true vs :=
        filter_cons_of_pos (by simp [Nat.not_le.mp hdeep])
      rw [hmade, ← hu, populateNode_mem hnode]
      rfl

/-- Wherever `unflatten_dt_nodes` has a meaning, it returns the size that is found here. -/
theorem unflattenDtNodes_mem {s s' : DevTree} {fuel size : ℕ} {nodepp : Option ℕ}
    (h : unflattenDtNodes z fuel s blob mem dad = some (s', size, nodepp)) :
    (layDtNodes z true blob mem dad).result = some ((size : ℤ).bmod (2 ^ 32)) := by
  unfold unflattenDtNodes at h
  obtain ⟨u, hloop, h⟩ := Option.bind_eq_some_iff.mp h
  have hmem := unflattenNode_mem hloop
  have hsize : size = u.mem - mem := by
    split_ifs at h
    · simp only [Option.some.injEq, Prod.mk.injEq] at h
      exact h.2.1.symm
    · obtain ⟨root, -, h⟩ := Option.bind_eq_some_iff.mp h
      obtain ⟨s'', -, h⟩ := Option.map_eq_some_iff.mp h
      simp only [Prod.mk.injEq] at h
      exact h.2.1.symm
  rw [layDtNodes_result, hsize, hmem]
  rfl

end GfpDrivers.Of
