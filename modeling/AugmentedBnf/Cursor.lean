import AugmentedBnf.Failure.Stop
import AugmentedBnf.Text.Span

/-!
# Cursors

A cursor is a place in a text that moves one code point at a time. Moving gives a new cursor, so
going back is keeping the old one.

A cursor that has moved past the last code point is `ended`, and so is the cursor that starts an
empty text. A cursor within a text may be made for any offset; one that a start cursor reaches by
moving always stands on a code point.
-/

namespace AugmentedBnf

/-- A place in a text. -/
inductive Cursor where
  /-- At an offset of the text. -/
  | within (text : String) (offset : Nat)
  /-- Behind the last code point. -/
  | ended (text : String)
deriving DecidableEq, Repr

namespace Cursor

/-- The cursor at the first code point of a text. -/
def start (text : String) : Cursor :=
  if text.isEmpty then .ended text else .within text 0

/-- The text that the cursor moves in. -/
def text : Cursor → String
  | .within text _ => text
  | .ended text => text

/-- The cursor's offset; the text's length at the end. -/
def position : Cursor → Nat
  | .within _ offset => offset
  | .ended text => text.utf8ByteSize

/-- Whether the cursor has moved past the last code point. -/
def atEnd : Cursor → Bool
  | .within _ _ => false
  | .ended _ => true

/-- The number of bytes in front of the cursor. -/
def remaining (cursor : Cursor) : Nat :=
  cursor.text.utf8ByteSize - cursor.position

/-- The cursor's offset together with its text. -/
def location (cursor : Cursor) : Location := ⟨cursor.text, cursor.position⟩

/-- The span between two cursors of one text. -/
def spanTo (cursor next : Cursor) : Span := ⟨cursor.text, cursor.position, next.position⟩

/-! ## §1 Reading -/

/-- The code point at the cursor. At the end of the text there is none, which is a failure. -/
def value (cursor : Cursor) : Except Stop Char :=
  match cursor with
  | .within text offset =>
    match Text.charAt text offset with
    | .ok (some c) => .ok c
    | .ok none => .error (.failure (.unexpectedEnd cursor.location))
    | .error fault => .error (.abort (.slice fault))
  | .ended _ => .error (.failure (.unexpectedEnd cursor.location))

/-! ## §2 Moving -/

/-- The cursor `width` bytes further on, ended when that is the end of the text. -/
def skip (width : Nat) : Cursor → Cursor
  | .within text offset =>
    if text.utf8ByteSize ≤ offset + width then .ended text else .within text (offset + width)
  | .ended text => .ended text

/-- The cursor past the code point it stands on. An ended cursor stays; one that stands behind the
    last code point without having ended becomes ended. -/
def next : Cursor → Except SliceFault Cursor
  | .within text offset =>
    match Text.charAt text offset with
    | .ok (some c) => .ok ((within text offset).skip c.utf8Size)
    | .ok none => .ok ((within text offset).skip 1)
    | .error fault => .error fault
  | .ended text => .ok (.ended text)

/-- The cursor after `count` moves. -/
def advance : Nat → Cursor → Except SliceFault Cursor
  | 0, cursor => .ok cursor
  | count + 1, cursor =>
    match cursor.next with
    | .ok moved => moved.advance count
    | .error fault => .error fault

end Cursor

end AugmentedBnf
