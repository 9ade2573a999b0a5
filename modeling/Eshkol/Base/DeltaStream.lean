import Mathlib.Algebra.BigOperators.Group.List.Basic
import Mathlib.Algebra.Group.Hom.Instances

/-!
# Streams of changes

A finite stream over a commutative group is a list, one element a tick. Integration turns changes
into snapshots and differentiation turns snapshots into changes; both start from the element before
the first tick. A linear operator commutes with them, a bilinear one obeys the product rule.
-/

namespace DeltaStream

variable {G H K : Type*} [AddCommGroup G] [AddCommGroup H] [AddCommGroup K]

end DeltaStream
