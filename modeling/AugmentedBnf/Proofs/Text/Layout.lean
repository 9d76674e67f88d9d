import AugmentedBnf.Proofs.Text.Pieces
import Mathlib.Algebra.GroupWithZero.Nat

/-!
# The Layout of Lines

The lines of a text are laid out one behind the other, each but the last with a line feed behind it.
So a line position stands for an offset (`LinePosition.offsetIn`): the bytes of the earlier lines
and of their line feeds, and then the bytes in front of it in its own line.

A location is told by the line position that stands for its offset. Since that can be undone, no
two offsets are told alike, and an offset further on is told by a later line position.

**Main statement**: `linePosition_inverts_layout`.
-/

namespace AugmentedBnf

/-! ## §1 Offsets of line positions -/

namespace LinePosition

/-- The offset that the line position stands for in a text of these lines. Each of the earlier lines
    takes one byte more than it has, for its line feed. -/
def offsetIn (lines : List String) (position : LinePosition) : Nat :=
  ((lines.take (position.line - 1)).map (·.utf8ByteSize + 1)).sum + position.byteOffset

/-- The line position is a place in one of these lines: there is a line of its number, and that line
    is long enough for its byte offset. -/
structure LiesIn (lines : List String) (position : LinePosition) : Prop where
  one_le : 1 ≤ position.line
  le_length : position.line ≤ lines.length
  le_size : ∀ line ∈ lines[position.line - 1]?, position.byteOffset ≤ line.utf8ByteSize

/-- The line position is in an earlier line, or nearer to the start of the same line. -/
def Before (position other : LinePosition) : Prop :=
  position.line < other.line ∨
    position.line = other.line ∧ position.byteOffset < other.byteOffset

/-- If its line is no later, a line position that stands for a smaller offset is before the
    other. -/
theorem before_of_offsetIn_lt {lines : List String} {position other : LinePosition}
    (hline : position.line ≤ other.line) (h : position.offsetIn lines < other.offsetIn lines) :
    position.Before other := by
  rcases Nat.lt_or_eq_of_le hline with hlt | heq
  · exact .inl hlt
  · -- In one line both stand behind the same earlier lines.
    unfold offsetIn at h
    rw [heq] at h
    exact .inr ⟨heq, Nat.lt_of_add_lt_add_left h⟩

/-- The earlier lines, each with the line feed that ends it, lie in front of the position's line. -/
theorem offsetIn_map_ofList (pieces : List (List Char)) (position : LinePosition) :
    position.offsetIn (pieces.map .ofList)
      = Text.width (Text.ended (pieces.take (position.line - 1))) + position.byteOffset := by
  rw [offsetIn, ← List.map_take]
  congr 1
  generalize pieces.take (position.line - 1) = earlier
  induction earlier with
  | nil => rfl
  | cons piece earlier ih =>
    rw [List.map_cons, List.map_cons, List.sum_cons, ih, Text.utf8ByteSize_ofList,
      Text.width_ended_cons]

end LinePosition

/-! ## §2 Line positions of offsets -/

namespace Location

open Text (ended further width)

variable {location : Location} {before after : List (List Char)} {line : List Char}

/-- A location's line starts no further on than the location is. -/
theorem lineStart_le (location : Location) : location.lineStart ≤ location.offset := by
  unfold lineStart
  split
  case h_1 => exact Nat.zero_le _
  case h_2 lineFeed hlast =>
    -- The line feed in front of the line is one of those before the offset.
    have hmem := List.mem_of_getLast? hlast
    exact of_decide_eq_true (List.mem_filter.mp hmem).2

/-- The number of a location's line does not fall as the offset rises. -/
theorem line_linePosition_mono (text : String) {offset offset' : Nat} (h : offset ≤ offset') :
    (Location.mk text offset).linePosition.line ≤ (Location.mk text offset').linePosition.line := by
  apply Nat.add_le_add_left
  rw [← List.countP_eq_length_filter, ← List.countP_eq_length_filter]
  apply List.countP_mono_left
  intro lineFeed _ hbefore
  rw [decide_eq_true_eq] at hbefore ⊢
  exact Nat.lt_of_lt_of_le hbefore h

namespace StandsIn

/-- The lines of the location's text. -/
theorem map_splitOn (h : location.StandsIn before line after) :
    (location.text.toList.splitOn '\n').map String.ofList
      = (before ++ line :: after).map .ofList := by
  rw [← Text.splitLines_eq_splitOn, h.lines]

/-- **The location's line position stands for its offset.** -/
theorem offsetIn_linePosition (h : location.StandsIn before line after) :
    location.linePosition.offsetIn ((before ++ line :: after).map .ofList) = location.offset := by
  rw [LinePosition.offsetIn_map_ofList, h.linePosition, Nat.add_sub_cancel, List.take_left]
  exact Nat.add_sub_of_le h.start

theorem utf8ByteSize_text (h : location.StandsIn before line after) :
    location.text.utf8ByteSize = width (ended before) + (width line + width (further after)) := by
  rw [Text.utf8ByteSize_eq_width, h.toList_text, Text.width_append, Text.width_append]

/-- An offset of the text is not behind the end of its line. -/
theorem offset_le (h : location.StandsIn before line after)
    (hoffset : location.offset ≤ location.text.utf8ByteSize) :
    location.offset ≤ width (ended before) + width line := by
  rcases h.stop with rfl | hle
  · rwa [h.utf8ByteSize_text] at hoffset
  · exact hle

/-- An offset beyond the text falls behind its last line. -/
theorem eq_nil_of_lt (h : location.StandsIn before line after)
    (hoffset : location.text.utf8ByteSize < location.offset) : after = [] := by
  rcases h.stop with hnone | hle
  · exact hnone
  · rw [h.utf8ByteSize_text] at hoffset
    omega

/-- The location's line position is in its line. -/
theorem liesIn (h : location.StandsIn before line after)
    (hoffset : location.offset ≤ location.text.utf8ByteSize) :
    location.linePosition.LiesIn ((before ++ line :: after).map .ofList) := by
  have hle := h.offset_le hoffset
  rw [h.linePosition]
  constructor
  case one_le => exact Nat.succ_pos _
  case le_length => simp
  case le_size =>
    have hmember : ((before ++ line :: after).map String.ofList)[before.length]?
        = some (.ofList line) := by
      simp
    rw [Nat.add_sub_cancel, hmember]
    rintro _ ⟨⟩
    rw [Text.utf8ByteSize_ofList]
    exact Nat.sub_le_of_le_add (Nat.add_comm _ _ ▸ hle)

end StandsIn

/-- **A line position within the text's lines stands for an offset of the text**, and the location
    there is told by it. -/
theorem linePosition_offsetIn {text : String} {position : LinePosition}
    (h : position.LiesIn ((text.toList.splitOn '\n').map .ofList)) :
    let offset := position.offsetIn ((text.toList.splitOn '\n').map .ofList)
    offset ≤ text.utf8ByteSize ∧ (Location.mk text offset).linePosition = position := by
  obtain ⟨hone, hlength, hsize⟩ := h
  rw [← Text.splitLines_eq_splitOn] at hlength hsize ⊢
  rw [List.length_map] at hlength
  have hlt : position.line - 1 < (Text.splitLines text.toList).length := by omega
  rw [List.getElem?_map, List.getElem?_eq_getElem hlt] at hsize
  have hle := hsize _ rfl
  rw [Text.utf8ByteSize_ofList] at hle
  -- The offset is as far behind the start of the line with this number as the position says.
  rw [LinePosition.offsetIn_map_ofList]
  intro offset
  have hstands : (Location.mk text offset).StandsIn
      ((Text.splitLines text.toList).take (position.line - 1))
      (Text.splitLines text.toList)[position.line - 1]
      ((Text.splitLines text.toList).drop (position.line - 1 + 1)) := by
    constructor
    case lines => rw [List.getElem_cons_drop, List.take_append_drop]
    case start => exact Nat.le_add_right _ _
    case stop => exact .inr (Nat.add_le_add_left hle _)
  constructor
  · have htext : text.utf8ByteSize = _ := hstands.utf8ByteSize_text
    rw [htext]
    exact Nat.add_le_add_left (Nat.le_trans hle (Nat.le_add_right _ _)) _
  · rw [hstands.linePosition, List.length_take_of_le (Nat.le_of_lt hlt), Nat.sub_add_cancel hone,
      Nat.add_sub_cancel_left]

/-- **Line positions undo the layout of the lines.** For every offset, what the subtraction takes
    away is not more than there is, and the line position stands for the offset. Offsets of the text
    are told by a line of the text and a byte offset that the line is long enough for, and offsets
    beyond it by its last line. Conversely, every such line and byte offset stand for an offset of
    the text that is told by them. An offset further on is told by a later line position, so no two
    offsets are told alike. -/
theorem linePosition_inverts_layout (text : String) :
    let lines := (text.toList.splitOn '\n').map String.ofList
    let position (offset : Nat) : LinePosition := (Location.mk text offset).linePosition
    (∀ offset, (Location.mk text offset).lineStart ≤ offset ∧
      (position offset).offsetIn lines = offset) ∧
    (∀ offset ≤ text.utf8ByteSize, (position offset).LiesIn lines) ∧
    (∀ offset, text.utf8ByteSize < offset → (position offset).line = lines.length) ∧
    (∀ other : LinePosition, other.LiesIn lines →
      other.offsetIn lines ≤ text.utf8ByteSize ∧ position (other.offsetIn lines) = other) ∧
    (∀ offset offset', offset < offset' → (position offset).Before (position offset')) ∧
    (∀ offset offset', offset ≠ offset' → position offset ≠ position offset') := by
  intro lines position
  have hoffset : ∀ offset, (position offset).offsetIn lines = offset := by
    intro offset
    obtain ⟨before, line, after, hstands⟩ := (Location.mk text offset).exists_standsIn
    simp only [lines, position, hstands.map_splitOn]
    exact hstands.offsetIn_linePosition
  refine ⟨fun offset => ⟨lineStart_le _, hoffset offset⟩, ?_, ?_,
    fun other => linePosition_offsetIn, ?_, ?_⟩
  · intro offset hle
    obtain ⟨before, line, after, hstands⟩ := (Location.mk text offset).exists_standsIn
    simp only [lines, position, hstands.map_splitOn]
    exact hstands.liesIn hle
  · intro offset hlt
    obtain ⟨before, line, after, hstands⟩ := (Location.mk text offset).exists_standsIn
    simp only [lines, position, hstands.map_splitOn]
    rw [hstands.eq_nil_of_lt hlt, hstands.linePosition]
    simp
  · intro offset offset' hlt
    have hline := line_linePosition_mono text (Nat.le_of_lt hlt)
    rw [← hoffset offset, ← hoffset offset'] at hlt
    exact LinePosition.before_of_offsetIn_lt hline hlt
  · intro offset offset' hne heq
    apply hne
    rw [← hoffset offset, heq, hoffset]

/-- An empty line behind one with an accented letter, and an offset beyond the text. -/
theorem accent_linePosition_inverts_layout :
    let lines := ["é", "", "x"]
    let position (offset : Nat) : LinePosition := (Location.mk "é\n\nx" offset).linePosition
    position 3 = ⟨2, 0⟩ ∧ LinePosition.LiesIn lines ⟨2, 0⟩ ∧
      LinePosition.offsetIn lines ⟨2, 0⟩ = 3 ∧ position 7 = ⟨3, 3⟩ ∧ (position 7).line = 3 ∧
      LinePosition.Before ⟨2, 0⟩ ⟨3, 3⟩ ∧ position 3 ≠ position 7 := by
  intro lines position
  obtain ⟨hoffset, hinside, hbeyond, hconverse, hlater, hapart⟩ :=
    linePosition_inverts_layout "é\n\nx"
  have hseven : position 7 = ⟨3, 3⟩ := by decide
  have hlies : LinePosition.LiesIn lines ⟨2, 0⟩ := hinside 3 (by decide)
  exact ⟨(hconverse _ hlies).2, hlies, (hoffset 3).2, hseven, hbeyond 7 (by decide),
    hlater 3 7 (by decide), hapart 3 7 (by decide)⟩

end Location

end AugmentedBnf
