import AugmentedBnf.Matching.Matcher

/-!
# Entry Points

Three ways to put a question to a matcher. `parseFrom` evaluates at a cursor and says where the
match ends, `parse` matches a text from its start and ignores what is left over, and `parseAll`
also asks that nothing is left over. All three report the deepest failure met, recovered from or
not, since that is usually where the text stops making sense. The last two tell the journal how
the evaluation went.
-/

namespace AugmentedBnf.Matcher

variable {τ : Type}

/-- Evaluates at a cursor. A match comes with the cursor behind it. -/
def parseFrom (matcher : Matcher τ Node) (cursor : Cursor) (journal : τ) :
    Except Stop (Node × Cursor) × τ :=
  match matcher cursor (.fresh journal) with
  | .matched node next trail => (.ok (node, next), trail.journal)
  | .failed failure trail => (.error (.failure (trail.deepest.merge failure)), trail.journal)
  | .aborted cause trail => (.error (.abort cause), trail.journal)

/-- Matches a text from its start with the rule named `rule`. -/
def parse [Journal τ] (matcher : Matcher τ Node) (rule text : String) (journal : τ) :
    Except Stop Node × τ :=
  let journal := Journal.happened (.began text.utf8ByteSize rule) journal
  match matcher.parseFrom (.start text) journal with
  | (.ok (node, next), journal) =>
    (.ok node, Journal.happened (.matched rule next.position) journal)
  | (.error (.failure failure), journal) =>
    (.error (.failure failure), Journal.happened (.stopped rule failure.position) journal)
  | (.error (.abort cause), journal) => (.error (.abort cause), journal)

/-- Matches all of a text with the rule named `rule`. If text is left over, the failure is the
    deepest one recovered from, or that the text goes on where nothing got further than there. -/
def parseAll [Journal τ] (matcher : Matcher τ Node) (rule text : String) (journal : τ) :
    Except Stop Node × τ :=
  let journal := Journal.happened (.beganAll text.utf8ByteSize rule) journal
  match matcher (.start text) (.fresh journal) with
  | .matched node next trail =>
    if next.atEnd then
      -- A match of all the text adds no event to that of its beginning.
      (.ok node, trail.journal)
    else
      (.error (.failure (trail.deepest.merge (.unconsumed next.location))),
        Journal.happened (.leftOver rule next.position) trail.journal)
  | .failed failure trail =>
    let failure := trail.deepest.merge failure
    (.error (.failure failure),
      Journal.happened (.stopped rule failure.position) trail.journal)
  | .aborted cause trail => (.error (.abort cause), trail.journal)

end AugmentedBnf.Matcher
