import AugmentedBnf.Text.Lines

/-!
# Locations

A location is an offset together with its text. People are told a location as a line number and
a byte offset within that line: byte offsets do not depend on tab width or on rendering, as
columns do. `context` shows the lines around it, with a pointer below the byte meant.

An offset may lie beyond its text or inside a code point. It then counts as standing after all
line feeds before it. Nothing bounds an offset beyond its text, and the blanks in front of the
pointer are as many as the offset is far into its line. A number of blanks that no buffer has room
for cannot be had, and then there is no display (`CapacityFault`).
-/

namespace AugmentedBnf

/-- An offset in a text. -/
structure Location where
  text : String
  offset : Nat
deriving DecidableEq, Repr

/-- A line, counted from one, and a number of bytes from the start of that line. -/
structure LinePosition where
  line : Nat
  byteOffset : Nat
deriving DecidableEq, Repr

/-- A text of `size` bytes was asked for, and no buffer has room for it. -/
structure CapacityFault where
  size : Nat
deriving DecidableEq, Repr

namespace Text

/-- The most bytes that a buffer holds on a machine with addresses of 64 bits: sizes are signed.
    A machine may well have less memory than that, which is not modelled. -/
def capacity : Nat := 0x7FFFFFFFFFFFFFFF

/-- That many blanks, if a buffer has room for them. -/
def blanks (count : Nat) : Except CapacityFault String :=
  if count ≤ capacity then .ok (.ofList (List.replicate count ' ')) else .error ⟨count⟩

end Text

namespace Location

/-- Where the location's line starts: after the last line feed before the offset. -/
def lineStart (location : Location) : Nat :=
  match ((Text.lineFeeds location.text).filter (· < location.offset)).getLast? with
  | none => 0
  | some lineFeed => lineFeed + 1

/-- The line and the byte offset in it. The line number is one more than the number of line feeds
    before the offset. -/
def linePosition (location : Location) : LinePosition where
  line := 1 + ((Text.lineFeeds location.text).filter (· < location.offset)).length
  byteOffset := location.offset - location.lineStart

/-! ## §1 Lines around a location -/

/-- What stands before a line in the display: its number, and a mark if it is the line meant. -/
def lineHead (marked : Bool) (number : Nat) : String :=
  (if marked then "  > " else "    ") ++ toString number ++ " | "

/-- The pointer line: `indent` blanks, then a caret. Sums are checked, so an indent that is not even
    a machine number is refused like any other that there is no room for. -/
def pointer (indent : Nat) : Except CapacityFault String := do
  let blanks ← Text.blanks indent
  return blanks ++ "^--- here"

/-- The display of lines of which the first has number `number`: those at most two away from
    `position.line`, and a pointer directly below the line meant. -/
def showLines (position : LinePosition) (number : Nat) :
    List String → Except CapacityFault (List String)
  | [] => return []
  | line :: rest =>
    if number + 2 < position.line ∨ position.line + 2 < number then
      showLines position (number + 1) rest
    else
      let head := lineHead (number = position.line) number
      let shown := head ++ Text.trimReturns line
      if number = position.line then do
        let below ← pointer (head.utf8ByteSize + position.byteOffset)
        let later ← showLines position (number + 1) rest
        return shown :: below :: later
      else do
        let later ← showLines position (number + 1) rest
        return shown :: later

/-- Up to two lines before and after the location's line, with a pointer below its byte. -/
def context (location : Location) : Except CapacityFault (List String) :=
  showLines location.linePosition 1 (Text.lines location.text)

/-! ## §2 Report -/

/-- The location in words, and the lines around it below. -/
def report (location : Location) : Except CapacityFault String := do
  let position := location.linePosition
  let context ← location.context
  let place := s!"line {position.line}, byte offset {position.byteOffset}"
  return s!"{place} (absolute position: {location.offset})\n\n"
    ++ String.join (context.map (· ++ "\n"))

end Location

end AugmentedBnf
