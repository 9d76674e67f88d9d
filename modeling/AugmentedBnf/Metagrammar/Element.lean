import AugmentedBnf.Grammar.Basic
import AugmentedBnf.Metagrammar.Blank
import AugmentedBnf.Metagrammar.Value

/-!
# Elements of a Rule

The right-hand side of a rule: alternatives of sequences of repeated elements. An element may be
a group or an option, which hold alternatives again. There the grammar defers, so the definitions
below follow one another and only `grammar` closes the circle.

The order of alternatives matters because the first match wins. `repeatCounts` tries the form with a
star first; a plain count would match the digits before the star and strand the rest.
-/

namespace AugmentedBnf.Metagrammar

open CoreRules

/-- The rules that rules of the grammar defer to. -/
inductive Deferral where
  | alternation
deriving DecidableEq, Repr

/-! ## §1 Names and counts -/

/-- `rulename = ALPHA *(ALPHA / DIGIT / "-")` -/
def rulename : Rule Deferral :=
  .concatenation "rulename" alpha [
    .many "*(ALPHA / DIGIT / \"-\")"
      (.alternation "ALPHA / DIGIT / \"-\"" alpha [digit, literal '-'])]

/-- `repeat = (*DIGIT "*" *DIGIT) / 1*DIGIT` -/
def repeatCounts : Rule Deferral :=
  .alternation "repeat"
    (.concatenation "*DIGIT \"*\" *DIGIT" (.many "*DIGIT" digit) [
      literal '*',
      .many "*DIGIT" digit])
    [.many1 "1*DIGIT" digit]

/-! ## §2 Elements -/

/-- `group = "(" *c-wsp alternation *c-wsp ")"` -/
def group : Rule Deferral :=
  .concatenation "group" (literal '(') [
    blanks,
    .deferred "alternation" .alternation,
    blanks,
    literal ')']

/-- `option = "[" *c-wsp alternation *c-wsp "]"` -/
def option : Rule Deferral :=
  .concatenation "option" (literal '[') [
    blanks,
    .deferred "alternation" .alternation,
    blanks,
    literal ']']

/-- `element = rulename / group / option / char-val / num-val / prose-val` -/
def element : Rule Deferral :=
  .alternation "element" rulename [group, option, charVal, numVal, proseVal]

/-! ## §3 Sequences and alternatives -/

/-- `repetition = [repeat] element` -/
def repetition : Rule Deferral :=
  .concatenation "repetition" (.optional "[repeat]" repeatCounts) [element]

/-- `concatenation = repetition *(1*c-wsp repetition)` -/
def concatenation : Rule Deferral :=
  .concatenation "concatenation" repetition [
    .many "*(1*c-wsp repetition)"
      (.concatenation "1*c-wsp repetition" blanks1 [repetition])]

/-- `alternation = concatenation *(*c-wsp "/" *c-wsp concatenation)` -/
def alternation : Rule Deferral :=
  .concatenation "alternation" concatenation [
    .many "*(*c-wsp \"/\" *c-wsp concatenation)"
      (.concatenation "*c-wsp \"/\" *c-wsp concatenation" blanks [
        literal '/',
        blanks,
        concatenation])]

/-! ## §4 The grammar -/

/-- The grammar of ABNF: what its deferred rules stand for. -/
def grammar : Grammar Deferral where
  keys := [.alternation]
  define
    | .alternation => .ok alternation

end AugmentedBnf.Metagrammar
