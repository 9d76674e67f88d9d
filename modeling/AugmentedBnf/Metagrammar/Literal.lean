import AugmentedBnf.CoreRules

/-!
# Literals

A character in double quotes, as ABNF's own grammar uses it. Letters in quotes match in either
case.
-/

namespace AugmentedBnf.Metagrammar

variable {κ : Type}

/-- A quoted character. The alternatives of a letter are its lower and its upper case. -/
def literal (c : Char) : Rule κ :=
  let name := "\"" ++ String.singleton c ++ "\""
  let letter (d : Char) : Rule κ := .character (String.singleton d) d
  if c.isAlpha then .alternation name (letter c.toLower) [letter c.toUpper]
  else .character name c

end AugmentedBnf.Metagrammar
