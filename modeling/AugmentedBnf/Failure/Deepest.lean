import AugmentedBnf.Failure.Basic

/-!
# The Deepest Failure

A repetition that stops, or an alternation of which a later branch matches, recovers from a
failure. That failure is often the reason why a larger match ends early, so the deepest one is
kept and reported if the evaluation fails in the end.
-/

namespace AugmentedBnf

/-- The deepest failure recovered from so far, if there was one. -/
structure Deepest where
  failure : Option Failure
deriving DecidableEq, Repr

namespace Deepest

/-- Nothing was recovered from. -/
def empty : Deepest := ⟨none⟩

/-- Keeps a failure if it is deeper than the one kept so far. -/
def record (deepest : Deepest) (failure : Failure) : Deepest :=
  match deepest.failure with
  | some recorded => ⟨some (recorded.deeper failure)⟩
  | none => ⟨some failure⟩

/-- What to report when `failure` ends an evaluation: it, or a deeper one recovered from. -/
def merge (deepest : Deepest) (failure : Failure) : Failure :=
  match deepest.failure with
  | some recorded => failure.deeper recorded
  | none => failure

end Deepest

end AugmentedBnf
