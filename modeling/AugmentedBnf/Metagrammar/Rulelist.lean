import AugmentedBnf.Metagrammar.Element

/-!
# Lists of Rules

Grammar text as a whole: rules and blank lines, each up to the end of a line. Matching `rulelist`
against a text recognises it as ABNF; its tree has a `rule` node for every rule of the text and a
`rulename` node for every name.
-/

namespace AugmentedBnf.Metagrammar

open CoreRules

/-- `elements = alternation *c-wsp` -/
def elements : Rule Deferral := .concatenation "elements" alternation [blanks]

/-- `defined-as = *c-wsp ("=/" / "=") *c-wsp`. The sign `=/` adds alternatives to a rule; it comes
    first because `=` would match its first half. -/
def definedAs : Rule Deferral :=
  .concatenation "defined-as" blanks [
    .alternation "\"=/\" / \"=\""
      (.concatenation "\"=/\"" (literal '=') [literal '/'])
      [literal '='],
    blanks]

/-- `rule = rulename defined-as elements c-nl` -/
def rule : Rule Deferral := .concatenation "rule" rulename [definedAs, elements, cNl]

/-- `rulelist = 1*( rule / (*c-wsp c-nl) )` -/
def rulelist : Rule Deferral :=
  .many1 "rulelist"
    (.alternation "rule / (*c-wsp c-nl)" rule [.concatenation "*c-wsp c-nl" blanks [cNl]])

end AugmentedBnf.Metagrammar
