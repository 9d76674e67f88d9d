import AugmentedBnf.Text.Slice

/-!
# Spans

A span is a stretch of a text, from the offset where it starts up to the offset where it stops.
-/

namespace AugmentedBnf

/-- The stretch of `text` from offset `start` up to offset `stop`. -/
structure Span where
  text : String
  start : Nat
  stop : Nat
deriving DecidableEq, Repr

namespace Span

/-- The number of bytes in the span. -/
def length (span : Span) : Nat := span.stop - span.start

/-- A span that stops where it starts. -/
def isEmpty (span : Span) : Bool := span.start = span.stop

/-- The text that the span covers. -/
def covered (span : Span) : Except SliceFault String :=
  Text.slice span.text span.start span.stop

end Span

end AugmentedBnf
