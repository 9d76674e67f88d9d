import AugmentedBnf.Failure.Basic
import AugmentedBnf.Rule.Fault
import AugmentedBnf.Text.Slice

/-!
# Ends Without a Match

An evaluation that gives no match either fails or is abandoned. A failure says that the text
does not match. An evaluation is abandoned when there is no answer to give: a deferred rule that
cannot be built, a cursor that stands off the code points of its text, or a rule that keeps
deferring to rules without end.
-/

namespace AugmentedBnf

/-- Why an evaluation was abandoned. -/
inductive Abort where
  /-- A deferred rule was needed and cannot be built. -/
  | construction (fault : ConstructionFault)
  /-- The text cannot be read where the cursor stands. -/
  | slice (fault : SliceFault)
  /-- More deferred rules were entered within each other than the text allows for. -/
  | unfoldings
deriving DecidableEq, Repr

/-- Why an evaluation gives no match. -/
inductive Stop where
  | failure (failure : Failure)
  | abort (cause : Abort)
deriving DecidableEq, Repr

end AugmentedBnf
