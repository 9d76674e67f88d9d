import AugmentedBnf.Grammar.Basic
import AugmentedBnf.Matching.Entry
import AugmentedBnf.Session.Basic

/-!
# Parsing in a Session

The entry points for a rule whose deferred parts are kept once they are built. Results are those
of the grammar alone; what a session adds is that each part is built at most once, and the log.
-/

namespace AugmentedBnf

variable {κ α : Type}

namespace Grammar

/-- What a deferring place matches in a session when at most `depth` of them may be entered within
    each other. If nothing was built for the place, its rule is built and kept; a rule that cannot
    be built leaves the place as it was. -/
def callKept (grammar : Grammar κ) : Nat → String → Occurrence κ → Matcher (Session κ) Node
  | 0, _, _ => fun _ trail => .aborted .unfoldings trail
  | depth + 1, name, occurrence => fun cursor trail =>
    match trail.journal.built occurrence.cell with
    | some rule => rule.matcher (grammar.callKept depth) cursor trail
    | none =>
      -- The event comes first: a rule that cannot be built is told of each time it is needed.
      let session := Journal.happened (.building name occurrence.cell cursor.position) trail.journal
      match grammar.define occurrence.key with
      | .ok rule =>
        -- The new rule's own deferring places get cells of their own.
        let (rule, session) := session.enrol rule
        let session := session.keep occurrence.cell rule
        rule.matcher (grammar.callKept depth) cursor { trail with journal := session }
      | .error fault => .aborted (.construction fault) { trail with journal := session }

/-- What a rule matches in a session. -/
def matcherKept (grammar : Grammar κ) (rule : Rule (Occurrence κ)) : Matcher (Session κ) Node :=
  fun cursor => rule.matcher (grammar.callKept (grammar.depth cursor.text)) cursor

end Grammar

namespace Session

/-- Starts a session for a rule. -/
def start (rule : Rule κ) : Rule (Occurrence κ) × Session κ := empty.enrol rule

/-- Evaluates a rule at a cursor. A match comes with the cursor behind it. -/
def parseFrom (grammar : Grammar κ) (rule : Rule (Occurrence κ)) (cursor : Cursor) :
    Session κ → Except Stop (Node × Cursor) × Session κ :=
  (grammar.matcherKept rule).parseFrom cursor

/-- Matches a text from its start. Text behind the match is ignored. -/
def parse (grammar : Grammar κ) (rule : Rule (Occurrence κ)) (text : String) :
    Session κ → Except Stop Node × Session κ :=
  (grammar.matcherKept rule).parse rule.name text

/-- Matches all of a text. -/
def parseAll (grammar : Grammar κ) (rule : Rule (Occurrence κ)) (text : String) :
    Session κ → Except Stop Node × Session κ :=
  (grammar.matcherKept rule).parseAll rule.name text

/-- An evaluation together with the events that it added to the log, in order. -/
def observe (evaluation : Session κ → α × Session κ) (session : Session κ) :
    (α × List Event) × Session κ :=
  let (result, session) := evaluation { session with events := [] }
  ((result, session.events.reverse), session)

end Session

end AugmentedBnf
