/-!
# Lines of a Text

A line feed ends a line, and the piece after the last line feed is a line too, even when it is
empty. A text therefore has one line more than it has line feeds. Carriage returns belong to
the lines they stand in; `trimReturns` drops those at the end of a line for display.
-/

namespace AugmentedBnf.Text

/-! ## §1 Line feeds -/

/-- The offsets of the line feeds among code points of which the first stands at `offset`. -/
def lineFeedsFrom (offset : Nat) : List Char → List Nat
  | [] => []
  | c :: rest =>
    if c = '\n' then offset :: lineFeedsFrom (offset + c.utf8Size) rest
    else lineFeedsFrom (offset + c.utf8Size) rest

/-- The offsets of a text's line feeds, in order. -/
def lineFeeds (text : String) : List Nat := lineFeedsFrom 0 text.toList

/-! ## §2 Pieces between line feeds -/

/-- The code points between line feeds, line by line. -/
def splitLines : List Char → List (List Char)
  | [] => [[]]
  | c :: rest =>
    if c = '\n' then [] :: splitLines rest
    else
      match splitLines rest with
      | [] => [[c]]
      | line :: lines => (c :: line) :: lines

/-- The lines of a text, without their line feeds. -/
def lines (text : String) : List String := (splitLines text.toList).map String.ofList

/-- A line without the carriage returns at its end. -/
def trimReturns (line : String) : String :=
  String.ofList (line.toList.reverse.dropWhile (· = '\r')).reverse

end AugmentedBnf.Text
