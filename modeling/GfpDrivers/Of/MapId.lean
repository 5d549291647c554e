import GfpDrivers.Of.TreeView

/-!
Translation of device IDs (`of_map_id`, `base.c`). A map is a list of windows of IDs, each with
a node and the first ID that it is mapped to. An ID is translated by the first window that holds
it and whose node is asked for.

The end of a window is computed with 32 bits: a window that ends at `2 ^ 32` ends at zero, and
no ID lies in it.
-/

namespace GfpDrivers.Of

open TreeView (ofPropertyReadU32)

/-- One entry of the map. -/
structure MapEntry where
  idBase : ℕ
  phandle : ℕ
  outBase : ℕ
  idLen : ℕ
deriving DecidableEq

/-- The entry at `map + 4 * i`. -/
def mapEntry (map : Bytes) (i : ℕ) : MapEntry where
  idBase := cells map (4 * i)
  phandle := cells map (4 * i + 1)
  outBase := cells map (4 * i + 2)
  idLen := cells map (4 * i + 3)

/-- The entries of a map of `mapLen` bytes. -/
def mapEntries (map : Bytes) (mapLen : ℕ) : List MapEntry := (List.range (mapLen / 16)).map (mapEntry map)

/-- The return value, `*target` and `*id_out` if the pointers are given, and the entry that
the last message reports. -/
structure Mapped where
  ret : ℤ
  target : Option (Option ℕ)
  idOut : Option ℕ
  used : Option MapEntry
deriving DecidableEq

/-- The loop over the entries. -/
def mapIdLoop (v : TreeView) (mapMask maskedId id : ℕ) (target : Option (Option ℕ)) (idOut : Option ℕ) :
    List MapEntry → Mapped
  | [] => ⟨0, target, idOut.map fun _ => id, none⟩
  | e :: es =>
      if e.idBase &&& (mapMask ^^^ 0xffffffff) ≠ 0 then ⟨-EFAULT, target, idOut, none⟩
      else if maskedId < e.idBase ∨ maskedId ≥ (e.idBase + e.idLen) % 2 ^ 32 then
        mapIdLoop v mapMask maskedId id target idOut es
      else
        match v.ofFindNodeByPhandle e.phandle with
        | none => ⟨-ENODEV, target, idOut, none⟩
        | some phandleNode =>
            let target := target.map fun t => t.or (some phandleNode)
            if target ≠ none ∧ target ≠ some (some phandleNode) then
              mapIdLoop v mapMask maskedId id target idOut es
            else ⟨0, target, idOut.map fun _ => (maskedId - e.idBase + e.outBase) % 2 ^ 32, some e⟩

/-- The mask of the map, or all bits if there is none. -/
def readMapMask (v : TreeView) (np : ℕ) (mapMaskName : Option String) : ℕ :=
  match mapMaskName with
  | none => 0xffffffff
  | some name =>
      match v.ofPropertyReadU32 np name with
      | .error _ => 0xffffffff
      | .ok mapMask => mapMask

/-- `of_map_id` -/
def ofMapId (v : TreeView) (np : Option ℕ) (id : ℕ) (mapName mapMaskName : Option String)
    (target : Option (Option ℕ)) (idOut : Option ℕ) : Mapped :=
  match np, mapName with
  | some np, some mapName =>
      if target = none ∧ idOut = none then ⟨-EINVAL, target, idOut, none⟩
      else
        match v.ofGetProperty np mapName with
        | none =>
            if target ≠ none then ⟨-ENODEV, target, idOut, none⟩
            else ⟨0, target, idOut.map fun _ => id, none⟩
        | some (map, mapLen) =>
            if mapLen = 0 ∨ mapLen % 16 ≠ 0 then ⟨-EINVAL, target, idOut, none⟩
            else
              let mapMask := readMapMask v np mapMaskName
              mapIdLoop v mapMask (mapMask &&& id) id target idOut (mapEntries map mapLen)
  | _, _ => ⟨-EINVAL, target, idOut, none⟩

/-! ### What the binding says -/

variable {v : TreeView} {np mapMask maskedId id mapLen : ℕ} {target : Option (Option ℕ)} {idOut : Option ℕ}
  {e : MapEntry} {es : List MapEntry} {map : Bytes}

/-- The window of an entry, over the integers. -/
def MapEntry.Covers (e : MapEntry) (maskedId : ℕ) : Prop := e.idBase ≤ maskedId ∧ maskedId < e.idBase + e.idLen

/-- The node of the entry is the one that is asked for, if one is. -/
def MapEntry.Targets (v : TreeView) (target : Option (Option ℕ)) (e : MapEntry) : Prop :=
  ∀ node, target = some (some node) → v.ofFindNodeByPhandle e.phandle = some node

instance : Decidable (e.Covers maskedId) := inferInstanceAs (Decidable (_ ∧ _))

instance : DecidablePred (MapEntry.Targets v target) := fun e =>
  match target with
  | some (some node) =>
      decidable_of_iff (v.ofFindNodeByPhandle e.phandle = some node)
        ⟨fun h _ heq => h.trans (Option.some.inj heq), fun h => h node rfl⟩
  | some none => isTrue fun _ heq => nomatch heq
  | none => isTrue fun _ heq => nomatch heq

/-- The first entry that holds the ID and has the right node. -/
def firstEntry (v : TreeView) (target : Option (Option ℕ)) (maskedId : ℕ) (es : List MapEntry) : Option MapEntry :=
  es.find? fun e => e.Covers maskedId ∧ e.Targets v target

/-- The translation by an entry, or none. -/
def mappedBy (v : TreeView) (maskedId id : ℕ) (target : Option (Option ℕ)) (idOut : Option ℕ) :
    Option MapEntry → Mapped
  | none => ⟨0, target, idOut.map fun _ => id, none⟩
  | some e =>
      ⟨0, target.map fun t => t.or (v.ofFindNodeByPhandle e.phandle),
        idOut.map fun _ => (maskedId - e.idBase + e.outBase) % 2 ^ 32, some e⟩

/-- The entries that the binding allows, with nodes for all phandles. -/
structure MapEntry.Ok (v : TreeView) (mapMask : ℕ) (e : MapEntry) : Prop where
  masked : e.idBase &&& (mapMask ^^^ 0xffffffff) = 0
  fits : e.idBase + e.idLen ≤ 2 ^ 32
  resolvable : ∃ node, v.ofFindNodeByPhandle e.phandle = some node

/-! ### The loop -/

/-- The entry is taken: its window does not end at `2 ^ 32`, and it is the right one. -/
def MapEntry.Taken (v : TreeView) (target : Option (Option ℕ)) (maskedId : ℕ) (e : MapEntry) : Prop :=
  e.idBase + e.idLen < 2 ^ 32 ∧ e.Covers maskedId ∧ e.Targets v target

instance : DecidablePred (MapEntry.Taken v target maskedId) := fun _ => inferInstanceAs (Decidable (_ ∧ _))

/-- The comparisons of the loop see a window that does not end at `2 ^ 32`. -/
theorem inWindow_iff (maskedId : ℕ) (hfits : e.idBase + e.idLen ≤ 2 ^ 32) :
    ¬ (maskedId < e.idBase ∨ maskedId ≥ (e.idBase + e.idLen) % 2 ^ 32) ↔
      e.idBase + e.idLen < 2 ^ 32 ∧ e.Covers maskedId := by
  unfold MapEntry.Covers
  rcases Nat.lt_or_eq_of_le hfits with hlt | heq
  · rw [Nat.mod_eq_of_lt hlt]
    omega
  · rw [heq, Nat.mod_self]
    omega

theorem mapIdLoop_cons (hok : e.Ok v mapMask) :
    mapIdLoop v mapMask maskedId id target idOut (e :: es) =
      if e.Taken v target maskedId then mappedBy v maskedId id target idOut (some e)
      else mapIdLoop v mapMask maskedId id target idOut es := by
  obtain ⟨node, hnode⟩ := hok.resolvable
  have hin := inWindow_iff maskedId hok.fits
  rw [mapIdLoop, if_neg (not_not.mpr hok.masked)]
  by_cases hwindow : e.idBase + e.idLen < 2 ^ 32 ∧ e.Covers maskedId
  · rw [if_neg (hin.mpr hwindow)]
    simp only [hnode, mappedBy]
    cases target with
    | none =>
      have htaken : e.Taken v none maskedId := ⟨hwindow.1, hwindow.2, fun _ h => nomatch h⟩
      simp [htaken]
    | some t =>
      cases t with
      | none =>
        have htaken : e.Taken v (some none) maskedId := ⟨hwindow.1, hwindow.2, fun _ h => nomatch h⟩
        simp [htaken]
      | some t =>
        by_cases heq : node = t
        · subst heq
          have htaken : e.Taken v (some (some node)) maskedId :=
            ⟨hwindow.1, hwindow.2, fun _ h => hnode.trans (Option.some.inj h)⟩
          simp [htaken]
        · have htaken : ¬ e.Taken v (some (some t)) maskedId := fun h =>
            heq (Option.some.inj (hnode.symm.trans (h.2.2 t rfl)))
          simp [htaken, Ne.symm heq]
  · have htaken : ¬ e.Taken v target maskedId := fun h => hwindow ⟨h.1, h.2.1⟩
    rw [if_pos (not_not.mp fun h => hwindow (hin.mp h)), if_neg htaken]

theorem mapIdLoop_eq (hok : ∀ e ∈ es, e.Ok v mapMask) :
    mapIdLoop v mapMask maskedId id target idOut es =
      mappedBy v maskedId id target idOut (es.find? fun e => e.Taken v target maskedId) := by
  induction es with
  | nil => rfl
  | cons e es ih =>
    obtain ⟨he, hes⟩ := List.forall_mem_cons.mp hok
    rw [mapIdLoop_cons he, List.find?_cons, ih hes]
    by_cases htaken : e.Taken v target maskedId <;> simp [htaken]

/-- The first element that satisfies more is the first one exactly if that satisfies it, too. -/
theorem find?_and_eq_iff {α : Type} (p q : α → Bool) (as : List α) :
    (as.find? fun a => q a && p a) = as.find? p ↔ ∀ a ∈ as.find? p, q a := by
  induction as with
  | nil => simp
  | cons a as ih =>
    rw [List.find?_cons, List.find?_cons]
    cases hp : p a with
    | false => simpa using ih
    | true =>
      cases hq : q a with
      | true => simp [hq]
      | false =>
        have hne : (as.find? fun a => q a && p a) ≠ some a := fun h => by
          simpa [hq] using List.find?_some h
        simp [hq, hne]

/-- `of_map_id` follows the binding exactly if the entry that it asks for does not end at
`2 ^ 32`: the translation is that by the first entry with the ID and the node. -/
theorem ofMapId_binding_iff (v : TreeView) (np id : ℕ) (mapName : String) (mapMaskName : Option String)
    (target : Option (Option ℕ)) (idOut : Option ℕ) (map : Bytes) (mapLen : ℕ)
    (hgiven : ¬ (target = none ∧ idOut = none)) (hmap : v.ofGetProperty np mapName = some (map, mapLen))
    (hlen : mapLen ≠ 0 ∧ mapLen % 16 = 0)
    (hok : ∀ e ∈ mapEntries map mapLen, e.Ok v (readMapMask v np mapMaskName)) :
    ofMapId v (some np) id (some mapName) mapMaskName target idOut =
        mappedBy v (readMapMask v np mapMaskName &&& id) id target idOut
          (firstEntry v target (readMapMask v np mapMaskName &&& id) (mapEntries map mapLen)) ↔
      ∀ e ∈ firstEntry v target (readMapMask v np mapMaskName &&& id) (mapEntries map mapLen),
        e.idBase + e.idLen ≠ 2 ^ 32 := by
  have hrun : ofMapId v (some np) id (some mapName) mapMaskName target idOut =
      mappedBy v (readMapMask v np mapMaskName &&& id) id target idOut ((mapEntries map mapLen).find?
        fun e => e.Taken v target (readMapMask v np mapMaskName &&& id)) := by
    rw [← mapIdLoop_eq hok]
    simp only [ofMapId, if_neg hgiven, hmap]
    rw [if_neg (by simp [hlen])]
  generalize readMapMask v np mapMaskName &&& id = maskedId at hrun ⊢
  have hused : ∀ f f' : Option MapEntry, mappedBy v maskedId id target idOut f = mappedBy v maskedId id target idOut f' ↔
      f = f' := by
    intro f f'
    refine ⟨fun h => ?_, fun h => h ▸ rfl⟩
    have hused := congrArg Mapped.used h
    cases f <;> cases f' <;> simp [mappedBy] at hused ⊢
    exact hused
  have hfind := find?_and_eq_iff (fun e : MapEntry => decide (e.Covers maskedId ∧ e.Targets v target))
    (fun e => decide (e.idBase + e.idLen < 2 ^ 32)) (mapEntries map mapLen)
  simp only [← Bool.decide_and] at hfind
  rw [hrun, hused]
  refine hfind.trans (forall₂_congr fun e he => ?_)
  have hfits := (hok e (List.mem_of_find?_eq_some he)).fits
  rw [decide_eq_true_eq]
  omega

/-- The node 0 has a map, and the phandle 1 is that of the node 1. -/
def mapTree (map : List ℕ) : TreeView where
  ofGetProperty np name := if np = 0 ∧ name = "iommu-map" then some (cellBytes map, 4 * map.length) else none
  fullName _ := ""
  ofGetParent _ := none
  ofFindNodeByPhandle handle := if handle = 1 then some 1 else none
  find_zero := rfl

theorem ofMapId_translates : ofMapId (mapTree [8, 1, 0x100, 8]) (some 0) 9 (some "iommu-map") none (some none) (some 0) =
    ⟨0, some (some 1), some 0x101, some ⟨8, 1, 0x100, 8⟩⟩ := by
  have hentries : mapEntries (cellBytes [8, 1, 0x100, 8]) 16 = [⟨8, 1, 0x100, 8⟩] := by decide
  have hiff := ofMapId_binding_iff (mapTree [8, 1, 0x100, 8]) 0 9 "iommu-map" none (some none) (some 0)
    (cellBytes [8, 1, 0x100, 8]) 16 (by simp) rfl (by decide)
    (by rw [hentries]; simpa using ⟨by decide, by decide, 1, rfl⟩)
  rw [hentries] at hiff
  have hrun := hiff.mpr (by decide)
  exact hrun.trans (by decide)

/-- The last window of the address space is not found. -/
theorem ofMapId_misses_last_window :
    (∀ e ∈ mapEntries (cellBytes [0xffffff00, 1, 0x100, 0x100]) 16, e.Ok (mapTree [0xffffff00, 1, 0x100, 0x100])
      (readMapMask (mapTree [0xffffff00, 1, 0x100, 0x100]) 0 none)) ∧
    ofMapId (mapTree [0xffffff00, 1, 0x100, 0x100]) (some 0) 0xffffffff (some "iommu-map") none none (some 0) =
      ⟨0, none, some 0xffffffff, none⟩ ∧
    mappedBy (mapTree [0xffffff00, 1, 0x100, 0x100]) 0xffffffff 0xffffffff none (some 0)
        (firstEntry (mapTree [0xffffff00, 1, 0x100, 0x100]) none 0xffffffff
          (mapEntries (cellBytes [0xffffff00, 1, 0x100, 0x100]) 16)) =
      ⟨0, none, some 0x1ff, some ⟨0xffffff00, 1, 0x100, 0x100⟩⟩ := by
  have hentries : mapEntries (cellBytes [0xffffff00, 1, 0x100, 0x100]) 16 = [⟨0xffffff00, 1, 0x100, 0x100⟩] := by
    decide
  refine ⟨?_, by decide, ?_⟩
  · rw [hentries]
    simpa using ⟨by decide, by decide, 1, rfl⟩
  · rw [hentries]
    decide

end GfpDrivers.Of
