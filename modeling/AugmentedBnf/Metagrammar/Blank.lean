import AugmentedBnf.Metagrammar.Literal

/-!
# Blanks and Comments of Grammar Text

Grammar text may be broken into lines and commented nearly everywhere, as long as each line that
goes on with a rule starts with a blank. A comment runs to the end of its line.
-/

namespace AugmentedBnf.Metagrammar

open CoreRules

variable {κ : Type}

/-- `comment = ";" *(WSP / VCHAR) CRLF` -/
def comment : Rule κ :=
  .concatenation "comment" (literal ';') [
    .many "*(WSP / VCHAR)" (.alternation "WSP / VCHAR" wsp [vchar]),
    crlf]

/-- `c-nl = comment / CRLF`, the end of a line with or without a comment. -/
def cNl : Rule κ := .alternation "c-nl" comment [crlf]

/-- `c-wsp = WSP / (c-nl WSP)`, a blank, perhaps on the next line. -/
def cWsp : Rule κ := .alternation "c-wsp" wsp [.concatenation "c-nl WSP" cNl [wsp]]

/-- `*c-wsp` -/
def blanks : Rule κ := .many "*c-wsp" cWsp

/-- `1*c-wsp` -/
def blanks1 : Rule κ := .many1 "1*c-wsp" cWsp

end AugmentedBnf.Metagrammar
