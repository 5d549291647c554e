import GfpDrivers.Of.Node

/-!
Changesets of the live tree (`dynamic.c`): a list of entries, each of them
recorded with the property it is going to replace, that are applied in order
and reverted in the reverse order.
-/

namespace GfpDrivers.Of

inductive ReconfigAction where
  | attachNode
  | detachNode
  | addProperty
  | removeProperty
  | updateProperty
deriving DecidableEq

/-- `struct of_changeset_entry` -/
structure ChangesetEntry where
  action : ReconfigAction
  np : ℕ
  prop : Option ℕ
  oldProp : Option ℕ
deriving DecidableEq

/-- `of_changeset_action`: the entry it adds to the changeset. -/
def ofChangesetAction (fuel : ℕ) (s : DevTree) (action : ReconfigAction) (np : ℕ)
    (prop : Option ℕ) : Option ChangesetEntry :=
  match action, prop with
  | .updateProperty, some p =>
      (ofFindProperty fuel s np (s.prop p).name).map fun old => ⟨action, np, prop, old⟩
  | _, _ => some ⟨action, np, prop, none⟩

/-- The calls of `of_changeset_action` that build a changeset. -/
def ofChangesetActions (fuel : ℕ) (s : DevTree) :
    List (ReconfigAction × ℕ × Option ℕ) → Option (List ChangesetEntry)
  | [] => some []
  | (action, np, prop) :: calls =>
      (ofChangesetAction fuel s action np prop).bind fun ce =>
        (ofChangesetActions fuel s calls).map (ce :: ·)

/-- `__of_changeset_entry_invert` -/
def ChangesetEntry.invert (ce : ChangesetEntry) : ChangesetEntry :=
  match ce.action with
  | .attachNode => { ce with action := .detachNode }
  | .detachNode => { ce with action := .attachNode }
  | .addProperty => { ce with action := .removeProperty }
  | .removeProperty => { ce with action := .addProperty }
  | .updateProperty =>
      match ce.oldProp with
      | some old => { ce with prop := some old, oldProp := ce.prop }
      | none => { ce with action := .removeProperty, oldProp := ce.prop }

/-- `__of_changeset_entry_apply` -/
def ofChangesetEntryApply (fuel : ℕ) (s : DevTree) (ce : ChangesetEntry) : Option (DevTree × ℤ) :=
  match ce.action with
  | .attachNode => (ofAttachNode fuel s ce.np).map (·, 0)
  | .detachNode => (ofDetachNode fuel s ce.np).map (·, 0)
  | .addProperty =>
      ce.prop.bind fun prop =>
        (takeDeadprop fuel s ce.np prop).bind fun s => ofAddProperty fuel s ce.np prop
  | .removeProperty => ce.prop.bind fun prop => ofRemoveProperty fuel s ce.np prop
  | .updateProperty =>
      ce.prop.bind fun prop =>
        (takeDeadprop fuel s ce.np prop).bind fun s => ofUpdateProperty fuel s ce.np prop

/-- `__of_changeset_entry_revert` -/
def ofChangesetEntryRevert (fuel : ℕ) (s : DevTree) (ce : ChangesetEntry) :
    Option (DevTree × ℤ) :=
  ofChangesetEntryApply fuel s ce.invert

/-- The loop that goes on after an error: each entry is tried, and the last
error is kept in `err`. -/
def replayEntries (entry : DevTree → ChangesetEntry → Option (DevTree × ℤ)) :
    DevTree → List ChangesetEntry → ℤ → Option (DevTree × ℤ)
  | s, [], err => some (s, err)
  | s, ce :: ces, err =>
      (entry s ce).bind fun (s, ret) =>
        replayEntries entry s ces (if ret ≠ 0 then ret else err)

/-- The loops of `__of_changeset_apply_entries` and
`__of_changeset_revert_entries`. The entries `done` were handled already, the
latest first; on an error they are taken back with `back`. The result is the
tree, the returned error and the error of the way back. -/
def runEntries (entry back : DevTree → ChangesetEntry → Option (DevTree × ℤ)) :
    DevTree → List ChangesetEntry → List ChangesetEntry → ℤ → Option (DevTree × ℤ × ℤ)
  | s, _, [], err => some (s, 0, err)
  | s, done, ce :: ces, err =>
      (entry s ce).bind fun (s, ret) =>
        if ret ≠ 0 then (replayEntries back s done err).map fun (s, err) => (s, ret, err)
        else runEntries entry back s (ce :: done) ces err

/-- `__of_changeset_apply_entries`, with `*ret_revert` before and after it. -/
def ofChangesetApplyEntries (fuel : ℕ) (s : DevTree) (entries : List ChangesetEntry)
    (retRevert : ℤ) : Option (DevTree × ℤ × ℤ) :=
  runEntries (ofChangesetEntryApply fuel) (ofChangesetEntryRevert fuel) s [] entries retRevert

/-- `__of_changeset_revert_entries`, with `*ret_apply` before and after it. -/
def ofChangesetRevertEntries (fuel : ℕ) (s : DevTree) (entries : List ChangesetEntry)
    (retApply : ℤ) : Option (DevTree × ℤ × ℤ) :=
  runEntries (ofChangesetEntryRevert fuel) (ofChangesetEntryApply fuel) s [] entries.reverse
    retApply

end GfpDrivers.Of
