/-!
# Events

What the log tells about evaluations: how each began and ended, and when a deferred rule was
built. Beginnings and ends are told for debugging; building is a finer detail.
-/

namespace AugmentedBnf

/-- Something that the log tells. Rules are told by name, sizes and places in bytes. -/
inductive Event where
  /-- A rule is to match a text of `size` bytes, from its start. -/
  | began (size : Nat) (rule : String)
  /-- A rule is to match all of a text of `size` bytes. -/
  | beganAll (size : Nat) (rule : String)
  /-- The rule matched the text up to `position`. -/
  | matched (rule : String) (position : Nat)
  /-- The rule did not match; what failed is at `position`. -/
  | stopped (rule : String) (position : Nat)
  /-- The rule matched, but only up to `position`. -/
  | leftOver (rule : String) (position : Nat)
  /-- A deferred rule is built, to be kept in `cell`, because the evaluation needs it at
      `position`. -/
  | building (rule : String) (cell position : Nat)
deriving DecidableEq, Repr

namespace Event

/-- How fine a detail the event is. -/
def level : Event → String
  | .building _ _ _ => "TRACE"
  | _ => "DEBUG"

/-- The event in words. -/
def text : Event → String
  | .began size rule => s!"parsing {size} bytes with `{rule}`"
  | .beganAll size rule => s!"parsing all {size} bytes with `{rule}`"
  | .matched rule position => s!"`{rule}` matched {position} bytes"
  | .stopped rule position => s!"`{rule}` did not match, stopped at {position}"
  | .leftOver rule position => s!"`{rule}` left input unconsumed at {position}"
  | .building rule _ position => s!"building `{rule}` at {position}"

/-- The event as a line of the log. -/
def line (event : Event) : String := event.level ++ " " ++ event.text

end Event

end AugmentedBnf
