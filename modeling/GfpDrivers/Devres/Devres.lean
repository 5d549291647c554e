import GfpDrivers.Basic
import GfpDrivers.Lib.LinkedList

/-!
Managed device resources (`devres.c`). The entries of one device hang in one
list, `devres_head`, in the order in which they were added; a group is
delimited in the same list by an opening and a closing marker. The lists are
kept by their links, as in the source: nodes are unlinked while a loop
walks over the list.

The loops have no bound of their own. Each function takes the number of
rounds its loops may make; `none` stands for a `BUG_ON`, or for a loop that
makes more rounds.
-/

namespace GfpDrivers.Devres

open Lib

/-- The nodes that can be linked: the list head of the device, the list head
`todo` of the call that releases, regular entries, and the two nodes of a
group. -/
inductive DevNode where
  | head
  | todo
  | reg (r : ℕ)
  | opn (g : ℕ)
  | cls (g : ℕ)
deriving DecidableEq

/-- The id of a group: its own address, or a pointer of the caller's choice. -/
inductive GroupId where
  | addr (g : ℕ)
  | ptr (p : ℕ)
deriving DecidableEq

/-- The regular entry a node belongs to. -/
def DevNode.entry? : DevNode → Option ℕ
  | .reg r => some r
  | _ => none

/-- The lists of one device, with the fields of the entries and groups, and
the nodes whose release function has been called so far. -/
structure Dev where
  links : Links DevNode
  /-- `node.release` of a regular entry. -/
  release : ℕ → ℕ
  /-- `id` and `color` of a group. -/
  id : ℕ → GroupId
  color : ℕ → ℤ
  calls : List DevNode

/-- A device after `INIT_LIST_HEAD(&dev->devres_head)`. -/
def deviceInit (d : Dev) : Dev := { d with links := d.links.init .head }

/-- `node_to_group`. It is never asked of a list head. -/
def nodeToGroup : DevNode → Option ℕ
  | .opn g => some g
  | .cls g => some g
  | _ => none

/-! ### Entries -/

/-- `alloc_dr`: a fresh entry is linked to itself. -/
def allocDr (d : Dev) (r release : ℕ) : Dev :=
  { d with
    links := d.links.init (.reg r)
    release := Function.update d.release r release }

/-- `add_dr` -/
def addDr (d : Dev) (node : DevNode) : Option Dev :=
  if d.links.isEmpty node then some { d with links := d.links.addTail node .head } else none

/-- `devres_add` -/
def devresAdd (d : Dev) (r : ℕ) : Option Dev := addDr d (.reg r)

/-- The test of `find_dr` on a node. The markers of groups have release functions
of their own, which no caller looks for. -/
def entryMatches (d : Dev) (release : ℕ) (matches' : ℕ → Bool) : DevNode → Option ℕ
  | .reg r => if d.release r = release ∧ matches' r = true then some r else none
  | _ => none

/-- `find_dr`: the latest entry with this release function that matches. -/
def findDr (fuel : ℕ) (d : Dev) (release : ℕ) (matches' : ℕ → Bool) : Option (Option ℕ) :=
  d.links.findBack .head (entryMatches d release matches') fuel (d.links.prev .head)

/-- `devres_remove` -/
def devresRemove (fuel : ℕ) (d : Dev) (release : ℕ) (matches' : ℕ → Bool) :
    Option (Dev × Option ℕ) :=
  (findDr fuel d release matches').map fun
    | some r => ({ d with links := d.links.delInit (.reg r) }, some r)
    | none => (d, none)

/-- `devres_free` of an entry. -/
def devresFree (d : Dev) (r : ℕ) : Option Dev :=
  if d.links.isEmpty (.reg r) then some d else none

/-- `devres_destroy`, with the entry it freed. -/
def devresDestroy (fuel : ℕ) (d : Dev) (release : ℕ) (matches' : ℕ → Bool) :
    Option (Dev × Option ℕ × ℤ) :=
  (devresRemove fuel d release matches').bind fun
    | (d, some r) => (devresFree d r).map (·, some r, 0)
    | (d, none) => some (d, none, -ENOENT)

/-- `devres_release`, with the entry it released. -/
def devresRelease (fuel : ℕ) (d : Dev) (release : ℕ) (matches' : ℕ → Bool) :
    Option (Dev × Option ℕ × ℤ) :=
  (devresRemove fuel d release matches').bind fun
    | (d, some r) => (devresFree { d with calls := d.calls ++ [.reg r] } r).map (·, some r, 0)
    | (d, none) => some (d, none, -ENOENT)

/-! ### Releasing many entries -/

/-- The first pass of `remove_nodes`: regular entries are moved to `todo`, the
colors of the groups met are cleared. `n` is the node after `node`; the
result has the new `first`, `cnt` and `nr_groups`. -/
def firstPass (last : DevNode) :
    ℕ → DevNode → DevNode → DevNode → ℕ → ℕ → Dev → Option (Dev × DevNode × ℕ × ℕ)
  | 0, _, _, _, _, _, _ => none
  | fuel + 1, node, n, first, cnt, nrGroups, d =>
      if node = last then some (d, first, cnt, nrGroups)
      else
        match nodeToGroup node with
        | some g =>
            let d := { d with color := Function.update d.color g 0 }
            firstPass last fuel n (d.links.next n) first cnt (nrGroups + 1) d
        | none =>
            let first := if node = first then d.links.next first else first
            let d := { d with links := d.links.moveTail node .todo }
            firstPass last fuel n (d.links.next n) first (cnt + 1) nrGroups d

/-- The second pass of `remove_nodes`: groups are colored, and those that get
the color two are removed. -/
def secondPass (last : DevNode) : ℕ → DevNode → DevNode → Dev → Option Dev
  | 0, _, _, _ => none
  | fuel + 1, node, n, d =>
      if node = last then some d
      else
        match nodeToGroup node with
        | none => none
        | some g =>
            if d.links.isEmpty (.opn g) then none
            else
              let color := d.color g + 1
              let color := if d.links.isEmpty (.cls g) then color + 1 else color
              let d := { d with color := Function.update d.color g color }
              if color ≤ 0 ∨ 2 < color then none
              else
                let d :=
                  if color = 2 then
                    { d with links := (d.links.moveTail (.opn g) .todo).delInit (.cls g) }
                  else d
                secondPass last fuel n (d.links.next n) d

/-- `remove_nodes` -/
def removeNodes (fuel : ℕ) (d : Dev) (first last : DevNode) : Option (Dev × ℕ) :=
  (firstPass last fuel first (d.links.next first) first 0 0 d).bind
    fun (d, first, cnt, nrGroups) =>
      if nrGroups = 0 then some (d, cnt)
      else (secondPass last fuel first (d.links.next first) d).map (·, cnt)

/-- The loop of `release_nodes`, backwards from `dr`. The nodes of groups are
released like entries; their release functions do nothing. -/
def releaseFrom (links : Links DevNode) :
    ℕ → DevNode → DevNode → List DevNode → Option (List DevNode)
  | 0, _, _, _ => none
  | fuel + 1, dr, tmp, calls =>
      if dr = .todo then some calls
      else releaseFrom links fuel tmp (links.prev tmp) (calls ++ [dr])

/-- `release_nodes` -/
def releaseNodes (fuel : ℕ) (d : Dev) : Option Dev :=
  let dr := d.links.prev .todo
  (releaseFrom d.links fuel dr (d.links.prev dr) d.calls).map fun calls => { d with calls := calls }

/-- `devres_release_all`. The head of the list has been initialised. -/
def devresReleaseAll (fuel : ℕ) (d : Dev) : Option (Dev × ℤ) :=
  let d := { d with links := d.links.init .todo }
  if d.links.isEmpty .head then some (d, 0)
  else
    (removeNodes fuel d (d.links.next .head) .head).bind fun (d, cnt) =>
      (releaseNodes fuel d).map (·, (cnt : ℤ))

/-! ### Groups -/

/-- `devres_open_group`, where `grp` is what `kmalloc` returns. -/
def devresOpenGroup (d : Dev) (id : Option GroupId) (grp : Option ℕ) :
    Option (Dev × Option GroupId) :=
  match grp with
  | none => some (d, none)
  | some g =>
      let gid := id.getD (.addr g)
      let d := { d with
        links := (d.links.init (.opn g)).init (.cls g)
        id := Function.update d.id g gid }
      (addDr d (.opn g)).map (·, some gid)

/-- The test of `find_group` on a node. -/
def groupMatches (d : Dev) (id : Option GroupId) : DevNode → Option ℕ
  | .opn g =>
      match id with
      | some id => if d.id g = id then some g else none
      | none => if d.links.isEmpty (.cls g) then some g else none
  | _ => none

/-- `find_group`: the latest group with this id, or the latest open one. -/
def findGroup (fuel : ℕ) (d : Dev) (id : Option GroupId) : Option (Option ℕ) :=
  d.links.findBack .head (groupMatches d id) fuel (d.links.prev .head)

/-- `devres_close_group` -/
def devresCloseGroup (fuel : ℕ) (d : Dev) (id : Option GroupId) : Option Dev :=
  (findGroup fuel d id).bind fun
    | some g => addDr d (.cls g)
    | none => some d

/-- `devres_remove_group`, with the group it freed. -/
def devresRemoveGroup (fuel : ℕ) (d : Dev) (id : Option GroupId) : Option (Dev × Option ℕ) :=
  (findGroup fuel d id).map fun
    | some g => ({ d with links := (d.links.delInit (.opn g)).delInit (.cls g) }, some g)
    | none => (d, none)

/-- `devres_release_group` -/
def devresReleaseGroup (fuel : ℕ) (d : Dev) (id : Option GroupId) : Option (Dev × ℤ) :=
  let d := { d with links := d.links.init .todo }
  (findGroup fuel d id).bind fun
    | some g =>
        let last := if d.links.isEmpty (.cls g) then .head else d.links.next (.cls g)
        (removeNodes fuel d (.opn g) last).bind fun (d, cnt) =>
          (releaseNodes fuel d).map (·, (cnt : ℤ))
    | none => some (d, 0)

end GfpDrivers.Devres
