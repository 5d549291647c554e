import GfpDrivers.Of.Fdt
import GfpDrivers.Of.PropLists

/-!
What unflattening makes of the properties of one node: they are listed in the
order of the blob, a `name` property is added when there is none, and the
phandle is taken from them.
-/

namespace GfpDrivers.Of

open Lib Function List

variable {s s₀ : DevTree} {z : Sizes} {np lo mem pp : ℕ} {p : FlatProp} {ps : List FlatProp}
  {slot : PropSlot} {as : List ℕ} {n : FlatNode}

/-! ### What is expected -/

/-- The name of a node without its path and without its unit address. -/
def unitName (cs : List UInt8) : List UInt8 :=
  let base := cs.rtakeWhile (· ≠ '/'.toUInt8)
  if '@'.toUInt8 ∈ base then (base.rdropWhile (· ≠ '@'.toUInt8)).dropLast else base

/-- The `name` property of a node that has none. -/
def nameProperty (n : FlatNode) : FlatProp where
  name := "name"
  length := (unitName (chars n.name)).length + 1
  value := fun i => (unitName (chars n.name)).getD i 0

def FlatNode.hasName (n : FlatNode) : Bool := n.props.any fun p => p.name = "name"

/-- The properties of the node that is made from `n`. -/
def FlatNode.fields (n : FlatNode) : List FlatProp :=
  n.props ++ if n.hasName then [] else [nameProperty n]

/-- The properties that may give a phandle, from the last `ibm,phandle` on if
there is one. -/
def phandleFields (ps : List FlatProp) : List FlatProp :=
  ((ps.rdropWhile fun p => p.name ≠ "ibm,phandle").getLast?.toList ++
      ps.rtakeWhile fun p => p.name ≠ "ibm,phandle").filter
    fun p => p.name = "phandle" ∨ p.name = "linux,phandle" ∨ p.name = "ibm,phandle"

/-- The first of them that is not zero is the phandle. -/
def flatPhandle (ps : List FlatProp) : ℕ :=
  (((phandleFields ps).map fun p => be32ToCpup p.value).find? (· ≠ 0)).getD 0

/-- The property at `pp` has the name, length and value of `p`. -/
structure PropIs (s : DevTree) (p : FlatProp) (pp : ℕ) : Prop where
  name : (s.prop pp).name = p.name
  length : (s.prop pp).length = p.length
  value : (s.prop pp).value = p.value

/-! ### The unit name -/

/-- What the loop over the name has found in the characters `cs`. -/
structure Scanned (cs : List UInt8) (t : NameScan) : Prop where
  here : t.p = cs.length
  start : t.ps ≤ cs.length
  base : cs.drop t.ps = cs.rtakeWhile (· ≠ '/'.toUInt8)
  pa_lt : ∀ a ∈ t.pa, a < cs.length
  no_unit : '@'.toUInt8 ∉ cs.drop t.ps → ∀ a ∈ t.pa, a < t.ps
  unit : '@'.toUInt8 ∈ cs.drop t.ps → ∃ a, t.pa = some a ∧ t.ps ≤ a ∧
    (cs.drop t.ps).take (a - t.ps) = ((cs.drop t.ps).rdropWhile (· ≠ '@'.toUInt8)).dropLast

namespace Scanned

variable {cs : List UInt8} {t : NameScan} {c : UInt8}

theorem at_sign (h : Scanned cs t) : Scanned (cs ++ ['@'.toUInt8]) (t.next '@'.toUInt8) := by
  have hdrop : (cs ++ ['@'.toUInt8]).drop t.ps = cs.drop t.ps ++ ['@'.toUInt8] :=
    drop_append_of_le_length h.start
  have hstart := h.start
  have hnext : t.next '@'.toUInt8 = ⟨t.p + 1, t.ps, some t.p⟩ := rfl
  rw [hnext]
  refine ⟨by simp [h.here], by simp; omega, ?_, by simp [h.here], ?_, ?_⟩
  · rw [hdrop, h.base, rtakeWhile_concat, if_pos (by decide)]
  · exact fun hno => absurd (by simp [hdrop]) hno
  · refine fun _ => ⟨t.p, rfl, h.here ▸ hstart, ?_⟩
    rw [hdrop, rdropWhile_concat, if_neg (by decide), dropLast_concat, h.here,
      ← length_drop, take_left]

theorem slash (h : Scanned cs t) : Scanned (cs ++ ['/'.toUInt8]) (t.next '/'.toUInt8) := by
  have hnil : (cs ++ ['/'.toUInt8]).drop (t.p + 1) = [] := by simp [h.here]
  have hnext : t.next '/'.toUInt8 = ⟨t.p + 1, t.p + 1, t.pa⟩ := rfl
  rw [hnext]
  refine ⟨by simp [h.here], by simp [h.here], ?_, ?_, ?_, ?_⟩
  · rw [hnil, rtakeWhile_concat, if_neg (by decide)]
  · intro a ha
    have := h.pa_lt a ha
    simp
    omega
  · intro _ a ha
    have := h.pa_lt a ha
    simp only [h.here]
    omega
  · simp [hnil]

theorem other (h : Scanned cs t) (hat : c ≠ '@'.toUInt8) (hslash : c ≠ '/'.toUInt8) :
    Scanned (cs ++ [c]) (t.next c) := by
  have hdrop : (cs ++ [c]).drop t.ps = cs.drop t.ps ++ [c] := drop_append_of_le_length h.start
  have hstart := h.start
  have hnext : t.next c = ⟨t.p + 1, t.ps, t.pa⟩ := by simp [NameScan.next, hat, hslash]
  have hmem : '@'.toUInt8 ∈ cs.drop t.ps ++ [c] ↔ '@'.toUInt8 ∈ cs.drop t.ps := by simp [hat.symm]
  rw [hnext]
  refine ⟨by simp [h.here], by simp; omega, ?_, ?_, ?_, ?_⟩
  · rw [hdrop, h.base, rtakeWhile_concat, if_pos (by simpa using hslash)]
  · intro a ha
    have := h.pa_lt a ha
    simp
    omega
  · rw [hdrop, hmem]
    exact h.no_unit
  · rw [hdrop, hmem]
    intro hunit
    obtain ⟨a, ha, hle, htake⟩ := h.unit hunit
    refine ⟨a, ha, hle, ?_⟩
    have hlt := h.pa_lt a ha
    rw [rdropWhile_concat, if_pos (by simpa using hat), ← htake]
    have hlen : a - t.ps ≤ (cs.drop t.ps).length := by
      rw [length_drop]
      omega
    exact take_append_of_le_length hlen

theorem run (cs : List UInt8) : Scanned cs (NameScan.run cs) := by
  induction cs using List.reverseRecOn with
  | nil => exact ⟨rfl, le_rfl, rfl, by simp [NameScan.run], by simp [NameScan.run], by simp⟩
  | append_singleton cs c ih =>
    have hrun : NameScan.run (cs ++ [c]) = (NameScan.run cs).next c := by simp [NameScan.run]
    rw [hrun]
    by_cases hat : c = '@'.toUInt8
    · exact hat ▸ ih.at_sign
    · by_cases hslash : c = '/'.toUInt8
      · exact hslash ▸ ih.slash
      · exact ih.other hat hslash

theorem unitName_eq (h : Scanned cs t) :
    unitName cs = (cs.drop t.ps).take (t.stop - t.ps) ∧ t.ps ≤ t.stop ∧ t.stop ≤ cs.length := by
  rw [unitName, ← h.base]
  have hall : (cs.drop t.ps).take (cs.length - t.ps) = cs.drop t.ps := by
    rw [← length_drop, take_length]
  by_cases hunit : '@'.toUInt8 ∈ cs.drop t.ps
  · obtain ⟨a, ha, hle, htake⟩ := h.unit hunit
    have hlt := h.pa_lt a ha
    have hstop : t.stop = a := by simp [NameScan.stop, ha, hle]
    rw [if_pos hunit, hstop]
    exact ⟨htake.symm, hle, hlt.le⟩
  · have hstop : t.stop = cs.length := by
      unfold NameScan.stop
      cases hpa : t.pa with
      | none => exact h.here
      | some a => simp [h.no_unit hunit a hpa, h.here]
    rw [if_neg hunit, hstop, hall]
    exact ⟨rfl, h.start, le_rfl⟩

end Scanned

/-- The bytes that are copied, and the zero behind them. -/
theorem nameProperty_value (n : FlatNode) :
    (fun i => if i < (NameScan.run (chars n.name)).stop - (NameScan.run (chars n.name)).ps + 1 - 1 then
      (chars n.name).getD ((NameScan.run (chars n.name)).ps + i) 0 else 0) = (nameProperty n).value := by
  obtain ⟨hunit, -, -⟩ := (Scanned.run (chars n.name)).unitName_eq
  funext i
  simp only [nameProperty, hunit, Nat.add_sub_cancel, getD_eq_getElem?_getD, List.getElem?_take]
  split
  · rw [List.getElem?_drop]
  · rfl

theorem nameProperty_length (n : FlatNode) :
    (NameScan.run (chars n.name)).stop - (NameScan.run (chars n.name)).ps + 1 =
      (nameProperty n).length := by
  obtain ⟨hunit, hle, hlen⟩ := (Scanned.run (chars n.name)).unitName_eq
  simp only [nameProperty, hunit, length_take, length_drop]
  omega

/-! ### The phandle -/

/-- From a phandle that is not zero, only `ibm,phandle` leads to another one. -/
theorem foldl_takePhandle {ph : ℕ} (hps : ∀ p ∈ ps, p.name ≠ "ibm,phandle") :
    ps.foldl takePhandle ph =
      ((ph :: (ps.filter fun p => p.name = "phandle" ∨ p.name = "linux,phandle" ∨
        p.name = "ibm,phandle").map fun p => be32ToCpup p.value).find? (· ≠ 0)).getD 0 := by
  induction ps generalizing ph with
  | nil => by_cases hph : ph = 0 <;> simp [hph]
  | cons p ps ih =>
    have hp : p.name ≠ "ibm,phandle" := hps p (by simp)
    rw [foldl_cons, ih fun q hq => hps q (mem_cons_of_mem p hq)]
    by_cases hname : p.name = "phandle" ∨ p.name = "linux,phandle"
    · by_cases hph : ph = 0
      · simp [takePhandle, hp, hname, hph]
      · simp [takePhandle, hp, hname, hph]
    · simp [takePhandle, hp, hname]

theorem takePhandle_eq (ps : List FlatProp) : ps.foldl takePhandle 0 = flatPhandle ps := by
  have hlate : ∀ p ∈ ps.rtakeWhile fun p => p.name ≠ "ibm,phandle", p.name ≠ "ibm,phandle" :=
    fun p hp => by simpa using mem_rtakeWhile_imp hp
  have hlast : ∀ hne : ps.rdropWhile (fun p => p.name ≠ "ibm,phandle") ≠ [],
      ((ps.rdropWhile fun p => p.name ≠ "ibm,phandle").getLast hne).name = "ibm,phandle" :=
    fun hne => by simpa using rdropWhile_last_not _ _ hne
  rw [flatPhandle, phandleFields]
  conv_lhs => rw [← rdropWhile_append_rtakeWhile (p := fun p => p.name ≠ "ibm,phandle") (l := ps)]
  generalize ps.rdropWhile (fun p => p.name ≠ "ibm,phandle") = early at hlast ⊢
  rw [foldl_append, foldl_takePhandle hlate]
  cases early using List.reverseRecOn with
  | nil =>
    rw [foldl_nil, List.getLast?_nil, Option.toList_none, nil_append,
      List.find?_cons_of_neg (by simp)]
  | append_singleton early p =>
    -- the last `ibm,phandle` sets the phandle, whatever it was before
    have hp : p.name = "ibm,phandle" := by
      have := hlast (by simp)
      rwa [getLast_concat] at this
    have htake : ∀ ph, takePhandle ph p = be32ToCpup p.value := fun ph => if_pos hp
    have hkept : [p].filter (fun p => p.name = "phandle" ∨ p.name = "linux,phandle" ∨
        p.name = "ibm,phandle") = [p] := by
      refine filter_eq_self.mpr fun q hq => ?_
      rw [mem_singleton.mp hq]
      exact decide_eq_true (.inr (.inr hp))
    rw [foldl_append, List.getLast?_concat, Option.toList_some, filter_append, hkept,
      foldl_cons, foldl_nil, htake, singleton_append, map_cons]

/-! ### The list -/

/-- The node `np` has got the properties `as` for `ps`, which lie between `lo`
and `mem`. Its list ends at `slot`; everything else is as in `s₀`. -/
structure Filled (s₀ : DevTree) (np lo : ℕ) (ps : List FlatProp) (s : DevTree) (mem : ℕ)
    (slot : PropSlot) (as : List ℕ) : Prop where
  chain : Chain .next s.link (.properties np) as
  last : slot = locAfter .next (.properties np) as
  nodup : as.Nodup
  le : lo ≤ mem
  within : ∀ a ∈ as, lo ≤ a ∧ a < mem
  content : List.Forall₂ (PropIs s) ps as
  outside : ∀ a, a < lo ∨ mem ≤ a → s.prop a = s₀.prop a
  others : ∀ m ≠ np, s.node m = s₀.node m
  self : s.node np = { s₀.node np with
    properties := as.head?
    phandle := ps.foldl takePhandle (s₀.node np).phandle }

theorem content_frame {s' : DevTree} (h : List.Forall₂ (PropIs s) ps as)
    (hs : ∀ a ∈ as, ∃ v, s'.prop a = { s.prop a with next := v }) :
    List.Forall₂ (PropIs s') ps as := by
  induction h with
  | nil => exact .nil
  | @cons p a ps as hp _ ih =>
    refine .cons ?_ (ih fun b hb => hs b (mem_cons_of_mem a hb))
    obtain ⟨v, hv⟩ := hs a (by simp)
    exact ⟨hv ▸ hp.name, hv ▸ hp.length, hv ▸ hp.value⟩

namespace Filled

theorem nil (h : (s.node np).properties = none) : Filled s np mem [] s mem (.properties np) [] where
  chain := h
  last := rfl
  nodup := nodup_nil
  le := le_rfl
  within := by simp
  content := .nil
  outside _ _ := rfl
  others _ _ := rfl
  self := by
    have hself : s.node np = { s.node np with properties := (s.node np).properties } := rfl
    rw [h] at hself
    exact hself

theorem slot_cases (h : Filled s₀ np lo ps s mem slot as) :
    slot = .properties np ∨ ∃ a ∈ as, slot = .next a := by
  have hmem : locAfter PropSlot.next (.properties np) as ∈ PropSlot.properties np :: as.map .next :=
    locAfter_mem
  rw [← h.last, mem_cons, mem_map] at hmem
  exact hmem.imp_right fun ⟨a, ha, heq⟩ => ⟨a, ha, heq.symm⟩

theorem slot_ne_next (h : Filled s₀ np lo ps s mem slot as) {a : ℕ} (ha : a < lo ∨ mem ≤ a) :
    PropSlot.next a ≠ slot := by
  rcases h.slot_cases with rfl | ⟨b, hb, rfl⟩
  · simp
  · have := h.within b hb
    simp only [ne_eq, PropSlot.next.injEq]
    omega

theorem put (h : Filled s₀ np lo ps s mem slot as) {mem' ph : ℕ} (hpp : mem ≤ pp) (hmem : pp < mem')
    (hnext : (s₀.prop pp).next = none) (hph : ph = takePhandle (s.node np).phandle p) :
    Filled s₀ np lo (ps ++ [p])
      (slot.write ((s.setNode np { s.node np with phandle := ph }).setProp pp
        { s.prop pp with name := p.name, length := p.length, value := p.value }) (some pp))
      mem' (.next pp) (as ++ [pp]) := by
  have hfresh : pp ∉ as := fun hmem => absurd (h.within pp hmem).2 (by omega)
  have hlink : ((s.setNode np { s.node np with phandle := ph }).setProp pp
      { s.prop pp with name := p.name, length := p.length, value := p.value }).link = s.link := by
    funext l
    cases l with
    | properties m =>
      by_cases hm : m = np
      · subst hm
        simp [DevTree.link, PropSlot.read, DevTree.setNode, DevTree.setProp]
      · simp [DevTree.link, PropSlot.read, DevTree.setNode, DevTree.setProp, hm]
    | deadprops m =>
      by_cases hm : m = np
      · subst hm
        simp [DevTree.link, PropSlot.read, DevTree.setNode, DevTree.setProp]
      · simp [DevTree.link, PropSlot.read, DevTree.setNode, DevTree.setProp, hm]
    | next a =>
      by_cases ha : a = pp
      · subst ha
        simp [DevTree.link, PropSlot.read, DevTree.setNode, DevTree.setProp]
      · simp [DevTree.link, PropSlot.read, DevTree.setNode, DevTree.setProp, ha]
  have hend : s.link (.next pp) = none := by
    rw [← prop_next, h.outside pp (.inr hpp), hnext]
  have hchain : Chain .next (update s.link slot (some pp)) (.properties np) (as ++ [pp]) := by
    have hold : Chain .next s.link (.properties np) (as ++ []) := by simpa using h.chain
    rw [h.last]
    exact hold.insert (Lists.nodup_slots (k := PropList.live np) propLayout h.nodup)
      (Lists.loc_ne_nxt (k := PropList.live np) propLayout hfresh) (by simp) hend
  have hdead : ∀ m, PropSlot.deadprops m ≠ slot := fun m => by
    rcases h.slot_cases with rfl | ⟨b, -, rfl⟩ <;> simp
  have hle := h.le
  rw [write_eq, hlink]
  refine ⟨by rwa [withLink_link], by simp, ?_, by omega, ?_, ?_, ?_, ?_, ?_⟩
  · refine nodup_append.mpr ⟨h.nodup, nodup_singleton pp, ?_⟩
    rintro a ha b hb rfl
    exact hfresh (mem_singleton.mp hb ▸ ha)
  · intro a ha
    rcases mem_append.mp ha with ha | ha
    · have := h.within a ha
      omega
    · rw [mem_singleton.mp ha]
      omega
  · refine rel_append (content_frame h.content fun a ha =>
      ⟨update s.link slot (some pp) (.next a), ?_⟩) (.cons ⟨?_, ?_, ?_⟩ .nil)
    · have hne : a ≠ pp := fun heq => hfresh (heq ▸ ha)
      simp only [DevTree.withLink, DevTree.setProp, DevTree.setNode, update_of_ne hne]
    all_goals simp [DevTree.withLink, DevTree.setProp]
  · intro a ha
    have hne : a ≠ pp := by omega
    have hslot : PropSlot.next a ≠ slot := h.slot_ne_next (by omega)
    simp only [DevTree.withLink, DevTree.setProp, DevTree.setNode, update_of_ne hne,
      update_of_ne hslot]
    exact h.outside a (by omega)
  · intro m hm
    have hprop : PropSlot.properties m ≠ slot := by
      rcases h.slot_cases with rfl | ⟨b, -, rfl⟩ <;> simp [hm]
    simp only [DevTree.withLink, DevTree.setProp, DevTree.setNode, update_of_ne hm,
      update_of_ne hprop, update_of_ne (hdead m)]
    exact h.others m hm
  · simp only [DevTree.withLink, DevTree.setProp, DevTree.setNode, update_self,
      update_of_ne (hdead np), hchain.first, ← node_deadprops, hph, h.self, foldl_append,
      foldl_cons, foldl_nil]

end Filled

/-! ### `populate_properties` -/

theorem le_ptrAlign {a : ℕ} (ha : 0 < a) : mem ≤ ptrAlign mem a := by
  have hmod := Nat.mod_lt (mem + (a - 1)) ha
  have hdiv := Nat.div_add_mod' (mem + (a - 1)) a
  unfold ptrAlign
  omega

/-- The memory behind the properties `ps`. -/
def Sizes.propsEnd (z : Sizes) (mem : ℕ) (ps : List FlatProp) : ℕ :=
  ps.foldl (fun mem _ => (unflattenDtAlloc mem z.prop z.propAlign).2) mem

/-- The memory behind all properties of the node. -/
def Sizes.fieldsEnd (z : Sizes) (mem : ℕ) (n : FlatNode) : ℕ :=
  if n.hasName then z.propsEnd mem n.props
  else (unflattenDtAlloc (z.propsEnd mem n.props) (z.prop + (nameProperty n).length) z.propAlign).2

theorem le_propsEnd : mem ≤ z.propsEnd mem ps := by
  induction ps using List.reverseRecOn with
  | nil => exact le_rfl
  | append_singleton ps p ih =>
    have hle : z.propsEnd mem ps ≤ ptrAlign (z.propsEnd mem ps) z.propAlign :=
      le_ptrAlign z.propAlign_pos
    simp only [Sizes.propsEnd, foldl_append, foldl_cons, foldl_nil,
      unflattenDtAlloc] at ih hle ⊢
    omega

theorem le_fieldsEnd : mem ≤ z.fieldsEnd mem n := by
  have hprops : mem ≤ z.propsEnd mem n.props := le_propsEnd
  have hle : z.propsEnd mem n.props ≤ ptrAlign (z.propsEnd mem n.props) z.propAlign :=
    le_ptrAlign z.propAlign_pos
  simp only [Sizes.fieldsEnd, unflattenDtAlloc]
  split <;> omega

theorem takePhandle_nameProperty (n : FlatNode) (ph : ℕ) : takePhandle ph (nameProperty n) = ph := by
  simp [takePhandle, nameProperty]

theorem foldl_fields (n : FlatNode) : n.fields.foldl takePhandle 0 = flatPhandle n.props := by
  rw [FlatNode.fields, foldl_append, takePhandle_eq]
  split
  · rfl
  · exact takePhandle_nameProperty n _

theorem setNode_self : s.setNode np (s.node np) = s := by
  rw [DevTree.setNode, update_eq_self]

theorem populateProperty_foldl (hprops : (s.node np).properties = none) (ps : List FlatProp)
    (hzero : ∀ a, mem ≤ a → a < z.propsEnd mem ps → (s.prop a).next = none) :
    ∃ f as, ps.foldl (populateProperty z false np) ⟨s, mem, .properties np, false⟩ = f ∧
      f.mem = z.propsEnd mem ps ∧ f.hasName = ps.any (fun p => p.name = "name") ∧
      Filled s np mem ps f.tree f.mem f.pprev as := by
  induction ps using List.reverseRecOn with
  | nil => exact ⟨_, [], rfl, rfl, rfl, .nil hprops⟩
  | append_singleton ps p ih =>
    have hend : z.propsEnd mem (ps ++ [p]) =
        (unflattenDtAlloc (z.propsEnd mem ps) z.prop z.propAlign).2 := by
      simp [Sizes.propsEnd]
    have hle : z.propsEnd mem ps ≤ ptrAlign (z.propsEnd mem ps) z.propAlign :=
      le_ptrAlign z.propAlign_pos
    have hlt : ptrAlign (z.propsEnd mem ps) z.propAlign <
        (unflattenDtAlloc (z.propsEnd mem ps) z.prop z.propAlign).2 := by
      have := z.prop_pos
      simp only [unflattenDtAlloc]
      omega
    rw [hend] at hzero ⊢
    obtain ⟨f, as, hf, hmem, hname, hfilled⟩ := ih fun a ha hlt' => hzero a ha (by omega)
    rw [← hmem] at hle hlt hzero ⊢
    rw [foldl_append, hf]
    refine ⟨_, as ++ [ptrAlign f.mem z.propAlign], rfl, rfl, ?_, ?_⟩
    · simp [populateProperty, hname]
    · exact hfilled.put hle hlt (hzero _ (hfilled.le.trans hle) hlt) rfl

/-- `populate_properties` gives the node its properties. -/
theorem populateProperties_eq (z : Sizes) (mem : ℕ) (n : FlatNode) (hprops : (s.node np).properties = none)
    (hzero : ∀ a, mem ≤ a → a < z.fieldsEnd mem n → (s.prop a).next = none) :
    ∃ s' slot as, populateProperties z false s mem np n = (s', z.fieldsEnd mem n) ∧
      Filled s np mem n.fields s' (z.fieldsEnd mem n) slot as := by
  cases hname : n.hasName with
  | true =>
    have hend : z.fieldsEnd mem n = z.propsEnd mem n.props := by simp [Sizes.fieldsEnd, hname]
    rw [hend] at hzero ⊢
    obtain ⟨f, as, hf, hmem, hhas, hfilled⟩ := populateProperty_foldl hprops n.props hzero
    have hfhas : f.hasName = true := hhas.trans hname
    refine ⟨f.tree, f.pprev, as, ?_, ?_⟩
    · simp [populateProperties, hf, hfhas, hmem]
    · simpa [FlatNode.fields, hname, hmem] using hfilled
  | false =>
    have hend : z.fieldsEnd mem n = (unflattenDtAlloc (z.propsEnd mem n.props)
        (z.prop + (nameProperty n).length) z.propAlign).2 := by simp [Sizes.fieldsEnd, hname]
    have hle : z.propsEnd mem n.props ≤ ptrAlign (z.propsEnd mem n.props) z.propAlign :=
      le_ptrAlign z.propAlign_pos
    have hlt : ptrAlign (z.propsEnd mem n.props) z.propAlign < z.fieldsEnd mem n := by
      have := z.prop_pos
      simp only [hend, unflattenDtAlloc]
      omega
    obtain ⟨f, as, hf, hmem, hhas, hfilled⟩ :=
      populateProperty_foldl (z := z) hprops n.props fun a ha hlt' => hzero a ha (by omega)
    have hfhas : f.hasName = false := hhas.trans hname
    have hput := hfilled.put (p := nameProperty n) (hmem ▸ hle) hlt
      (hzero _ (hfilled.le.trans (hmem ▸ hle)) hlt) (takePhandle_nameProperty n _).symm
    rw [setNode_self] at hput
    have hfields : n.fields = n.props ++ [nameProperty n] := by simp [FlatNode.fields, hname]
    rw [hfields]
    refine ⟨_, _, _, ?_, hput⟩
    simp only [populateProperties, hf, hfhas, Bool.false_eq_true, if_false, hend, ← hmem,
      nameProperty_length, ← nameProperty_value]
    rfl

end GfpDrivers.Of
