import Eshkol.Distributed.RgaTheorems

/-!
# Where an insertion lands

Siblings come in ascending order of their identifiers, so an insertion comes after the elements of
older siblings, and what was inserted after its identifier beforehand comes with it. It lands
directly after its predecessor where no other element gets in between.
-/

namespace Distributed

open Replication
open Forest
open Scheme (Datum WrittenDouble)

variable {ν α : Type} [DecidableEq ν] [NodeName ν]

variable {entries nodes : List (RgaEntry ν α)} {e : RgaEntry ν α} {p : RgaId ν}

/-! ## The values -/

variable {log : RgaLog ν α} {s : Snapshot (Rga ν α)} {r : ν}

end Distributed
