/-!
# Construction Faults

A rule that cannot be built: a concatenation or an alternation of nothing, or a repetition that
has to occur more often than it may.
-/

namespace AugmentedBnf

/-- Why a rule cannot be built. Each fault names the rule. -/
inductive ConstructionFault where
  | emptyConcatenation (name : String)
  | emptyAlternation (name : String)
  | reversedBounds (name : String) (min max : Nat)
deriving DecidableEq, Repr

/-- The fault in words. -/
def ConstructionFault.message : ConstructionFault → String
  | .emptyConcatenation name => s!"concatenation `{name}` needs at least one element"
  | .emptyAlternation name => s!"alternation `{name}` needs at least one alternative"
  | .reversedBounds name min max =>
    s!"repetition `{name}` has minimum {min} above maximum {max}"

end AugmentedBnf
