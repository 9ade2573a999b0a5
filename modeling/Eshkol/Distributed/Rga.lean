import Eshkol.Base.Preorder
import Eshkol.Distributed.VectorClock
import Eshkol.Scheme.Datum

/-!
# The sequence

Entries with the identifier of the entry they were inserted after, in a list. The order of the
values is a walk over the entries: those inserted after one identifier come in the order of their
own identifiers, each followed by what was inserted after it.
-/

namespace Distributed

open Scheme (Text)

/-- Names that replicas may have: among them is `rga-root`, and `distributed-key` gives each a
text. -/
class NodeName (ν : Type) where
  rgaRoot : ν
  distributedKey : ν → Text

instance (δ : Type) [Scheme.DoubleText δ] : NodeName (Scheme.Datum δ) where
  rgaRoot := .symbol "rga-root".toList
  distributedKey := Scheme.Datum.canonicalString

/-- `(list node counter)`. -/
abbrev RgaId (ν : Type) := ν × ℕ

/-- `rga-make-entry`. -/
structure RgaEntry (ν α : Type) where
  id : RgaId ν
  prev : RgaId ν
  value : α
  deleted : Bool

/-- `#(rga entries clock)`. -/
structure Rga (ν α : Type) where
  entries : List (RgaEntry ν α)
  clock : Clock ν

variable {ν α β : Type}

/-- `rga-merge-entry`. -/
def RgaEntry.merge (a b : RgaEntry ν α) : RgaEntry ν α :=
  ⟨a.id, a.prev, a.value, a.deleted || b.deleted⟩

section ids

variable [DecidableEq ν]

/-- `rga-entry-ref`. -/
def rgaEntryRef : List (RgaEntry ν α) → RgaId ν → Option (RgaEntry ν α)
  | [], _ => none
  | e :: entries, id => if e.id = id then some e else rgaEntryRef entries id

/-- `rga-entry-set`. -/
@[grind =]
def rgaEntrySet : List (RgaEntry ν α) → RgaEntry ν α → List (RgaEntry ν α)
  | [], entry => [entry]
  | e :: entries, entry =>
    if e.id = entry.id then e.merge entry :: entries else e :: rgaEntrySet entries entry

/-- `rga-entry-delete`. -/
@[grind =]
def rgaEntryDelete : List (RgaEntry ν α) → RgaId ν → List (RgaEntry ν α)
  | [], _ => []
  | e :: entries, id =>
    if e.id = id then { e with deleted := true } :: entries else e :: rgaEntryDelete entries id

/-- `rga-merge-entries`. -/
def rgaMergeEntries : List (RgaEntry ν α) → List (RgaEntry ν α) → List (RgaEntry ν α)
  | [], acc => acc
  | e :: entries, acc => rgaMergeEntries entries (rgaEntrySet acc e)

/-- `rga-children`. -/
def rgaChildren : List (RgaEntry ν α) → RgaId ν → List (RgaEntry ν α)
  | [], _ => []
  | e :: entries, parent =>
    if e.prev = parent then e :: rgaChildren entries parent else rgaChildren entries parent

end ids

section order

variable [NodeName ν]

/-- `rga-root-id`. -/
def rgaRootId : RgaId ν := (NodeName.rgaRoot, 0)

/-- `rga-id<?`. -/
def rgaIdLt (a b : RgaId ν) : Bool :=
  if a.2 < b.2 then true
  else if b.2 < a.2 then false
  else decide (NodeName.distributedKey a.1 < NodeName.distributedKey b.1)

/-- `rga-insert-entry-sorted`. -/
def rgaInsertEntrySorted (entry : RgaEntry ν α) : List (RgaEntry ν α) → List (RgaEntry ν α)
  | [] => [entry]
  | e :: sorted =>
    if rgaIdLt entry.id e.id then entry :: e :: sorted
    else e :: rgaInsertEntrySorted entry sorted

/-- `rga-sort-entries`. -/
def rgaSortEntries : List (RgaEntry ν α) → List (RgaEntry ν α)
  | [] => []
  | e :: entries => rgaInsertEntrySorted e (rgaSortEntries entries)

variable [DecidableEq ν]

/-- The children of an identifier as the walks over the entries take them. -/
def rgaSortedChildren (entries : List (RgaEntry ν α)) (parent : RgaId ν) : List (RgaEntry ν α) :=
  rgaSortEntries (rgaChildren entries parent)

/-- The walk that `rga-values-from` and `rga-ids-from` share, reading something of every entry
that is not deleted. A walk that goes deeper than there are entries does not end. -/
def rgaReadFrom (read : RgaEntry ν α → β) (entries : List (RgaEntry ν α)) (parent : RgaId ν) :
    Option (List β) :=
  Preorder.walk RgaEntry.id (fun e => if e.deleted then [] else [read e])
    (rgaSortedChildren entries) (entries.length + 1) parent

/-- `rga-values-from`. -/
def rgaValuesFrom (entries : List (RgaEntry ν α)) (parent : RgaId ν) : Option (List α) :=
  rgaReadFrom RgaEntry.value entries parent

/-- `rga-ids-from`. -/
def rgaIdsFrom (entries : List (RgaEntry ν α)) (parent : RgaId ν) : Option (List (RgaId ν)) :=
  rgaReadFrom RgaEntry.id entries parent

namespace Rga

/-- `make-rga`. -/
def make : Rga ν α := ⟨[], []⟩

/-- The identifier that the next insertion of a node gets. -/
def nextId (rga : Rga ν α) (node : ν) : RgaId ν := (node, (rga.clock.tick node).ref node)

/-- `rga-insert-after`. -/
def insertAfter (rga : Rga ν α) (node : ν) (prev : RgaId ν) (value : α) : Rga ν α where
  entries := rgaEntrySet rga.entries ⟨rga.nextId node, prev, value, false⟩
  clock := rga.clock.tick node

/-- `rga-values`. -/
def values (rga : Rga ν α) : Option (List α) := rgaValuesFrom rga.entries rgaRootId

/-- The identifiers of the values. -/
def ids (rga : Rga ν α) : Option (List (RgaId ν)) := rgaIdsFrom rga.entries rgaRootId

/-- `rga-last-id`. -/
def lastId (rga : Rga ν α) : Option (RgaId ν) := rga.ids.map fun ids => ids.getLast?.getD rgaRootId

/-- `rga-append`. -/
def append (rga : Rga ν α) (node : ν) (value : α) : Option (Rga ν α) :=
  rga.lastId.map fun last => rga.insertAfter node last value

/-- `rga-delete`. -/
def delete (rga : Rga ν α) (id : RgaId ν) : Rga ν α where
  entries := rgaEntryDelete rga.entries id
  clock := rga.clock

/-- `rga-merge`. -/
def merge (a b : Rga ν α) : Rga ν α where
  entries := rgaMergeEntries b.entries a.entries
  clock := a.clock.merge b.clock

end Rga

end order

end Distributed
