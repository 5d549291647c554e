import GfpDrivers.Basic
import GfpDrivers.Lib.LinkedList
import Mathlib.Data.Fintype.Card

/-!
The search for a path in the interconnect (`core.c`). It goes through the graph level by level. A node has one entry for
a list, which is moved between three lists whose heads are on the stack, and nodes that are put on a list are marked.

The source is put on a list without being marked. A link back to it puts it on a second list, and the first one is then
not what it was. A list head that is taken for a node has no result here.
-/

namespace GfpDrivers.Interconnect.PathFind

open Lib

/-- The list heads of `path_find`. -/
inductive Head where
  | traverse
  | edge
  | visited
deriving DecidableEq

/-- What the links of a list lead to: `search_list` of a node, or a head. -/
inductive Loc (ν : Type) where
  | head (h : Head)
  | node (v : ν)
deriving DecidableEq

abbrev traverseList {ν : Type} : Loc ν := .head .traverse

abbrev edgeList {ν : Type} : Loc ν := .head .edge

abbrev visitedList {ν : Type} : Loc ν := .head .visited

/-- The fields `search_list`, `is_traversed` and `reverse` of all nodes, and the heads. -/
structure SearchState (ν : Type) where
  list : Links (Loc ν)
  isTraversed : ν → Bool
  reverse : ν → Option ν

variable {ν : Type} [DecidableEq ν]

namespace SearchState

/-- `tmp` is reached from `node`. -/
def addEdge (node tmp : ν) (s : SearchState ν) : SearchState ν where
  list := s.list.addTail (.node tmp) edgeList
  isTraversed := Function.update s.isTraversed tmp true
  reverse := Function.update s.reverse tmp (some node)

@[simp] theorem addEdge_isTraversed (node tmp v : ν) (s : SearchState ν) :
    (s.addEdge node tmp).isTraversed v = if v = tmp then true else s.isTraversed v := Function.update_apply ..

@[simp] theorem addEdge_reverse (node tmp v : ν) (s : SearchState ν) :
    (s.addEdge node tmp).reverse v = if v = tmp then some node else s.reverse v := Function.update_apply ..

/-- All nodes that were met are on the list of visited ones. -/
def collect (s : SearchState ν) : SearchState ν :=
  { s with list := (s.list.spliceInit edgeList visitedList).spliceInit traverseList visitedList }

/-- The end of a level. -/
def nextLevel (s : SearchState ν) : SearchState ν :=
  { s with list := (s.list.spliceInit traverseList visitedList).spliceInit edgeList traverseList }

/-- The mark of `v` is reset. -/
def unmark (v : ν) (s : SearchState ν) : SearchState ν := { s with isTraversed := Function.update s.isTraversed v false }

@[simp] theorem unmark_isTraversed (v w : ν) (s : SearchState ν) :
    (s.unmark v).isTraversed w = if w = v then false else s.isTraversed w := Function.update_apply ..

/-- The lists before the first level. -/
def start (src : ν) (s : SearchState ν) : SearchState ν where
  list := (((s.list.init traverseList).init edgeList).init visitedList).add (.node src) traverseList
  isTraversed := s.isTraversed
  reverse := Function.update s.reverse src none

end SearchState

/-- The loop over the links of a node, and whether it goes to `out`. -/
def scanLinks (node : ν) : List (Option ν) → SearchState ν → SearchState ν × Bool
  | [], s => (s, false)
  | none :: _, s => (s, true)
  | some tmp :: ls, s =>
      if s.isTraversed tmp then scanLinks node ls s else scanLinks node ls (s.addEdge node tmp)

/-- How a level ends: at `dst`, at a link that is `NULL`, or with its last node. -/
inductive Exit where
  | found
  | out
  | done
deriving DecidableEq

variable (links : ν → List (Option ν)) (src dst : ν)

/-- The loop over the nodes of a level. The next node is read before the links are looked at. -/
def traverseFrom : ℕ → Loc ν → SearchState ν → Option (SearchState ν × Exit)
  | 0, _, _ => none
  | _ + 1, .head .traverse, s => some (s, .done)
  | _ + 1, .head _, _ => none
  | fuel + 1, .node v, s =>
      if v = dst then some (s.collect, .found)
      else if (scanLinks v (links v) s).2 then some ((scanLinks v (links v) s).1, .out)
      else traverseFrom fuel (s.list.next (.node v)) (scanLinks v (links v) s).1

/-- The loop over the levels, with `depth`. -/
def searchLevels (rounds : ℕ) : ℕ → ℕ → SearchState ν → Option (SearchState ν × Exit × ℕ)
  | 0, _, _ => none
  | fuel + 1, depth, s =>
      (traverseFrom links dst rounds (s.list.next traverseList) s).bind fun r =>
        if r.2 ≠ .done then some (r.1, r.2, depth)
        else if r.1.nextLevel.list.isEmpty traverseList then some (r.1.nextLevel, .done, depth + 1)
        else searchLevels rounds fuel (depth + 1) r.1.nextLevel

/-- The loop that resets the marks. -/
def resetFrom : ℕ → Loc ν → SearchState ν → Option (SearchState ν)
  | 0, _, _ => none
  | _ + 1, .head .visited, s => some s
  | _ + 1, .head _, _ => none
  | fuel + 1, .node v, s => resetFrom fuel (s.list.prev (.node v)) (s.unmark v)

/-- The nodes of the path in `path_init`, from the last one on. A missing node has no result. -/
def pathNodes (reverse : ν → Option ν) : ℕ → Option ν → List ν → Option (List ν)
  | 0, _, path => some path
  | _ + 1, none, _ => none
  | n + 1, some v, path => pathNodes reverse n (reverse v) (v :: path)

/-- `path_init`, without what it does to the providers and the requests at the nodes. -/
def pathInit (alloc : Bool) (reverse : ν → Option ν) (numNodes : ℕ) : Option (Except ℤ (List ν)) :=
  if alloc then (pathNodes reverse numNodes (some dst) []).map .ok else some (.error (-ENOMEM))

/-- What `path_find` returns. -/
def pathResult (alloc : Bool) (reverse : ν → Option ν) (depth : ℕ) : Exit → Option (Except ℤ (List ν))
  | .found => pathInit dst alloc reverse depth
  | .out => some (.error (-ENOENT))
  | .done => some (.error (-EPROBE_DEFER))

/-- `path_find`. Memory for the path is there if `alloc`. -/
def pathFind (alloc : Bool) (fuel : ℕ) (s : SearchState ν) : Option (SearchState ν × Except ℤ (List ν)) :=
  (searchLevels links dst fuel fuel 1 (s.start src)).bind fun r =>
    (resetFrom fuel (r.1.list.prev visitedList) r.1).bind fun s' =>
      (pathResult dst alloc s'.reverse r.2.2 r.2.1).map fun path => (s', path)

/-! ### What the search is to do -/

/-- The nodes among `ls` that are not in `seen`, each where it is first met. -/
def discover (seen : Finset ν) : List (Option ν) → List ν
  | [] => []
  | none :: ls => discover seen ls
  | some v :: ls => if v ∈ seen then discover seen ls else v :: discover (insert v seen) ls

theorem discover_nil (seen : Finset ν) : discover seen [] = [] := rfl

theorem discover_none (seen : Finset ν) (ls : List (Option ν)) : discover seen (none :: ls) = discover seen ls := rfl

theorem discover_some (seen : Finset ν) (v : ν) (ls : List (Option ν)) : discover seen (some v :: ls) =
    if v ∈ seen then discover seen ls else v :: discover (insert v seen) ls := rfl

/-- The nodes of some levels, in order, starting with `level`. -/
def levelsFrom : ℕ → Finset ν → List ν → List ν
  | 0, _, _ => []
  | n + 1, seen, level =>
      level ++ levelsFrom n (seen ∪ (discover seen (level.flatMap links)).toFinset) (discover seen (level.flatMap links))

/-- The nodes that are looked at before `dst`. -/
def scanned [Fintype ν] : List ν := (levelsFrom links (Fintype.card ν) {src} [src]).takeWhile (· ≠ dst)

/-- A path from `src` to `dst`, of which every node is linked by the one before. -/
structure IsPath (path : List ν) : Prop where
  head : path.head? = some src
  last : path.getLast? = some dst
  chain : path.IsChain fun u v => some v ∈ links u

/-- A path with the least number of nodes. -/
def IsShortest (path : List ν) : Prop :=
  IsPath links src dst path ∧ ∀ path', IsPath links src dst path' → path.length ≤ path'.length

/-- A link that is looked at is `NULL`. -/
def NullMet [Fintype ν] : Prop := ∃ u ∈ scanned links src dst, none ∈ links u

/-- What is to be returned: an error if a link that is looked at is `NULL`, else a shortest path if there is a path and
memory for it. -/
inductive Answer [Fintype ν] (alloc : Bool) : Except ℤ (List ν) → Prop
  | null (h : NullMet links src dst) : Answer alloc (.error (-ENOENT))
  | path (path : List ν) (h : ¬NullMet links src dst) (hpath : IsShortest links src dst path) (halloc : alloc = true) :
      Answer alloc (.ok path)
  | noMemory (path : List ν) (h : ¬NullMet links src dst) (hpath : IsPath links src dst path) (halloc : alloc = false) :
      Answer alloc (.error (-ENOMEM))
  | unreachable (h : ¬NullMet links src dst) (hpath : ∀ path, ¬IsPath links src dst path) :
      Answer alloc (.error (-EPROBE_DEFER))

/-- From marks that are all off, the search ends with what is to be returned, and all marks are off again. -/
def SearchRight [Fintype ν] : Prop :=
  ∀ (alloc : Bool) (s : SearchState ν), (∀ v, s.isTraversed v = false) →
    ∃ rounds, ∀ fuel ≥ rounds, ∃ s' r, pathFind links src dst alloc fuel s = some (s', r) ∧
      (∀ v, s'.isTraversed v = false) ∧ Answer links src dst alloc r

/-- No link that is looked at is `NULL` or leads back to the source. -/
def Plain [Fintype ν] : Prop := ∀ u ∈ scanned links src dst, none ∉ links u ∧ some src ∉ links u

/-- The first link of the source is `NULL`. -/
def NullFirst : Prop := (links src).head? = some none

/-- The destination is linked by the source, and what is looked at before it links only to the source and to what the
source links. -/
def Beside [Fintype ν] : Prop :=
  some dst ∈ links src ∧ none ∉ links src ∧ some src ∉ links src ∧
    ∀ u ∈ scanned links src dst, u ≠ src → ∀ l ∈ links u, l = some src ∨ (l ≠ none ∧ l ∈ links src)

end GfpDrivers.Interconnect.PathFind
