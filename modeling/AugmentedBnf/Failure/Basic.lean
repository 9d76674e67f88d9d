import AugmentedBnf.Text.Location
import AugmentedBnf.Text.Quoted

/-!
# Failures

Why a rule does not match, and where. A failure is an expected outcome: alternatives and
repetitions recover from it. Of two failures the deeper one, at the greater offset, tells more
about what is wrong with the text.
-/

namespace AugmentedBnf

/-- Why a rule does not match. -/
inductive Failure where
  /-- A code point was needed and the text ends at the location. -/
  | unexpectedEnd (location : Location)
  /-- The rule named `rule` accepts what `expected` says, and `found` stands at the location. -/
  | mismatch (rule expected : String) (found : Char) (location : Location)
  /-- The text should end at the location and goes on. -/
  | unconsumed (location : Location)
deriving DecidableEq, Repr

namespace Failure

/-- Where the failure occurred. -/
def location : Failure → Location
  | .unexpectedEnd location => location
  | .mismatch _ _ _ location => location
  | .unconsumed location => location

/-- The offset at which the failure occurred. -/
def position (failure : Failure) : Nat := failure.location.offset

/-- The failure that got further into the text; at equal depth the first. -/
def deeper (first second : Failure) : Failure :=
  if first.position < second.position then second else first

/-- The failure in words, with the lines around it. -/
def message (failure : Failure) : Except CapacityFault String := do
  let report ← failure.location.report
  match failure with
  | .unexpectedEnd _ => return s!"unexpected end of input at {report}"
  | .mismatch rule expected found _ =>
    let found := Text.quoteChar found
    return s!"`{rule}` expected {expected}, found {found} at {report}"
  | .unconsumed _ => return s!"unconsumed input at {report}"

end Failure

end AugmentedBnf
