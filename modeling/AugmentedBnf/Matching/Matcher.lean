import AugmentedBnf.Matching.Outcome
import AugmentedBnf.Node.Basic
import AugmentedBnf.Rule.Basic

/-!
# Matchers

A matcher is what a rule does with a text: from a cursor and the trail so far to an outcome. The
operations here are the meaning of the kinds of rules, without the rules: a single code point, the
end of the text, a sequence, an ordered choice, and a repetition.

A choice commits to the first matcher that succeeds, and a repetition never gives back what it
matched. Going back to an earlier cursor is all the backtracking there is.
-/

namespace AugmentedBnf

/-- From a cursor and the trail so far to an outcome. -/
abbrev Matcher (τ α : Type) := Cursor → Trail τ → Outcome τ α

namespace Matcher

variable {τ : Type}

/-! ## §1 Primitive matchers -/

/-- One code point that `accepts` holds of. The failure names the rule and what it expects. -/
def codePoint [Journal τ] (name expected : String) (accepts : Char → Bool) : Matcher τ Node :=
  fun cursor trail =>
    match cursor.value with
    | .ok found =>
      if accepts found then
        let next := cursor.skip found.utf8Size
        .matched (.leaf name (cursor.spanTo next)) next trail
      else
        let failure := .mismatch name expected found cursor.location
        .failed failure (trail.miss failure)
    | .error (.failure failure) => .failed failure (trail.miss failure)
    | .error (.abort cause) => .aborted cause trail

/-- The end of the text, which is a leaf without width. -/
def endOfText [Journal τ] (name : String) : Matcher τ Node :=
  fun cursor trail =>
    if cursor.atEnd then .matched (.leaf name (cursor.spanTo cursor)) cursor trail
    else
      let failure := .unconsumed cursor.location
      .failed failure (trail.miss failure)

/-! ## §2 Nodes -/

/-- Makes what was matched the children of a node. -/
def node (name : String) (children : Matcher τ (List Node)) : Matcher τ Node :=
  fun cursor trail =>
    match children cursor trail with
    | .matched nodes next trail => .matched ⟨name, cursor.spanTo next, nodes⟩ next trail
    | .failed failure trail => .failed failure trail
    | .aborted cause trail => .aborted cause trail

/-! ## §3 Sequence -/

/-- All matchers, each from where the one before it got to. The first failure is the failure of
    the sequence. -/
def sequence : List (Matcher τ Node) → Matcher τ (List Node)
  | [] => fun cursor trail => .matched [] cursor trail
  | first :: rest => fun cursor trail =>
    match first cursor trail with
    | .matched child next trail =>
      match sequence rest next trail with
      | .matched children last trail => .matched (child :: children) last trail
      | .failed failure trail => .failed failure trail
      | .aborted cause trail => .aborted cause trail
    | .failed failure trail => .failed failure trail
    | .aborted cause trail => .aborted cause trail

/-! ## §4 Ordered choice -/

/-- The first of the matchers that succeeds, after others failed with `failure` at the deepest. A
    success recovers from the failures before it; if all fail, the deepest failure remains. -/
def choiceAfter (failure : Failure) : List (Matcher τ Node) → Matcher τ (List Node)
  | [] => fun _ trail => .failed failure trail
  | first :: rest => fun cursor trail =>
    match first cursor trail with
    -- The failures of the earlier matchers are recovered from here, as one.
    | .matched child next trail => .matched [child] next (trail.recover failure)
    | .failed other trail => choiceAfter (failure.deeper other) rest cursor trail
    | .aborted cause trail => .aborted cause trail

/-- The first of the matchers that succeeds; what it matched is the only child. -/
def choice (first : Matcher τ Node) (rest : List (Matcher τ Node)) : Matcher τ (List Node) :=
  fun cursor trail =>
    match first cursor trail with
    | .matched child next trail => .matched [child] next trail
    | .failed failure trail => choiceAfter failure rest cursor trail
    | .aborted cause trail => .aborted cause trail

/-! ## §5 Repetition -/

/-- The element as often as it matches and `bounds` allow, after it has matched `count` times.
    A failure with fewer than `bounds.min` matches is the failure of the repetition; a later one
    is recovered from. A match that does not move the cursor on is the last one: a further one
    would be the same again, so it also stands for all those that `bounds.min` asks for. -/
def repeatFrom (bounds : Bounds) (element : Matcher τ Node) (count : Nat) :
    Matcher τ (List Node) :=
  fun cursor trail =>
    if bounds.allowsMore count then
      match element cursor trail with
      | .matched child next trail =>
        if next.remaining < cursor.remaining then
          match repeatFrom bounds element (count + 1) next trail with
          | .matched children last trail => .matched (child :: children) last trail
          | .failed failure trail => .failed failure trail
          | .aborted cause trail => .aborted cause trail
        else
          -- No progress: the same match would follow for ever.
          .matched [child] next trail
      | .failed failure trail =>
        if count < bounds.min then .failed failure trail
        else .matched [] cursor (trail.recover failure)
      | .aborted cause trail => .aborted cause trail
    else .matched [] cursor trail
termination_by cursor => cursor.remaining

/-- The element as often as it matches and `bounds` allow. -/
def repetition (bounds : Bounds) (element : Matcher τ Node) : Matcher τ (List Node) :=
  repeatFrom bounds element 0

end Matcher

end AugmentedBnf
