import AugmentedBnf.Grammar.Basic
import AugmentedBnf.Matching.Entry

/-!
# Parsing with a Grammar

The entry points for a rule of a grammar when no log is wanted.
-/

namespace AugmentedBnf.Grammar

variable {κ : Type}

/-- Evaluates a rule at a cursor, going on with the trail of earlier evaluations, and keeps no
    journal. -/
def evaluate (grammar : Grammar κ) (rule : Rule κ) : Matcher Unit Node := grammar.matcher rule

/-- Evaluates a rule at a cursor. A match comes with the cursor behind it. -/
def parseFrom (grammar : Grammar κ) (rule : Rule κ) (cursor : Cursor) :
    Except Stop (Node × Cursor) :=
  ((grammar.evaluate rule).parseFrom cursor ()).1

/-- Matches a text from its start. Text behind the match is ignored. -/
def parse (grammar : Grammar κ) (rule : Rule κ) (text : String) : Except Stop Node :=
  ((grammar.evaluate rule).parse rule.name text ()).1

/-- Matches all of a text. -/
def parseAll (grammar : Grammar κ) (rule : Rule κ) (text : String) : Except Stop Node :=
  ((grammar.evaluate rule).parseAll rule.name text ()).1

end AugmentedBnf.Grammar
