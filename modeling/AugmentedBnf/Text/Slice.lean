/-!
# Offsets and Slices

A place in a text is an offset: a number of bytes of the text's UTF-8 form. Not every number is
a place. An offset beyond the text, or inside a code point, is refused with a `SliceFault`, and
so is a slice that ends before it starts.
-/

namespace AugmentedBnf

/-- Why a text cannot be cut as asked. -/
inductive SliceFault where
  /-- The offset lies beyond the text or inside one of its code points. -/
  | offBoundary (offset : Nat)
  /-- The slice ends before it starts. -/
  | reversed (start stop : Nat)
deriving DecidableEq, Repr

namespace Text

/-- The place at an offset, if the offset is a boundary between code points of the text. -/
def place (text : String) (offset : Nat) : Except SliceFault text.Pos :=
  if h : (⟨offset⟩ : String.Pos.Raw).IsValid text then .ok ⟨⟨offset⟩, h⟩
  else .error (.offBoundary offset)

/-- The code point that starts at an offset; none at the end of the text. -/
def charAt (text : String) (offset : Nat) : Except SliceFault (Option Char) :=
  (place text offset).map String.Pos.get?

/-- The text from one offset up to another. -/
def slice (text : String) (start stop : Nat) : Except SliceFault String := do
  let first ← place text start
  let last ← place text stop
  if first ≤ last then .ok (text.extract first last) else .error (.reversed start stop)

end Text

end AugmentedBnf
