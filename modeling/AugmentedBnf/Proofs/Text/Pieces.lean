import AugmentedBnf.Proofs.Text.Lines
import AugmentedBnf.Text.Location

/-!
# Lines as Pieces

The lines of a text are the pieces that remain when it is split at its line feeds
(`splitLines_eq_splitOn`). Put together again, the lines before one of them each end in a line feed,
and those after it each follow one.

An offset falls into one of these lines (`Location.StandsIn`): it is not before the line's start,
and not behind its end unless there is no further line. A location finds the same line without
splitting the text, by looking for the line feeds before the offset (`StandsIn.linePosition`).
-/

namespace AugmentedBnf

namespace Text

variable {chars line : List Char} {before after lines : List (List Char)}

/-! ## §1 Splitting at line feeds -/

theorem splitLines_eq_splitOn (chars : List Char) : splitLines chars = chars.splitOn '\n' := by
  induction chars with
  | nil => rfl
  | cons c rest ih =>
    rw [splitLines, List.splitOn_cons_eq_if_modifyHead, ih]
    by_cases hc : c = '\n'
    · simp only [hc, beq_self_eq_true, if_true]
    · simp only [hc, if_false, beq_eq_false_iff_ne.mpr hc, Bool.false_eq_true]
      -- There is a first line that the code point stands in.
      cases hlines : rest.splitOn '\n' with
      | nil => exact absurd hlines (List.splitOn_ne_nil _ _)
      | cons line lines => rfl

theorem splitLines_ne_nil (chars : List Char) : splitLines chars ≠ [] := by
  rw [splitLines_eq_splitOn]
  exact List.splitOn_ne_nil _ _

theorem not_mem_of_mem_splitLines (h : line ∈ splitLines chars) : '\n' ∉ line := by
  induction chars generalizing line with
  | nil =>
    obtain rfl := List.mem_singleton.mp h
    exact List.not_mem_nil
  | cons c rest ih =>
    rw [splitLines] at h
    by_cases hc : c = '\n'
    · rw [if_pos hc] at h
      rcases List.mem_cons.mp h with rfl | h
      · exact List.not_mem_nil
      · exact ih h
    · rw [if_neg hc] at h
      cases hlines : splitLines rest with
      | nil => exact absurd hlines (splitLines_ne_nil rest)
      | cons first lines =>
        rw [hlines] at h
        rcases List.mem_cons.mp h with rfl | h
        · have hfirst := ih (hlines ▸ List.mem_cons_self)
          exact fun hmem => (List.mem_cons.mp hmem).elim (fun h => hc h.symm) hfirst
        · exact ih (hlines ▸ List.mem_cons_of_mem _ h)

/-! ## §2 Lines put together -/

/-- Lines, each with the line feed that ends it. -/
def ended (lines : List (List Char)) : List Char := lines.flatMap (· ++ ['\n'])

/-- Lines, each behind the line feed that ends the one before it. -/
def further (lines : List (List Char)) : List Char := lines.flatMap ('\n' :: ·)

theorem intercalate_lines (before : List (List Char)) (line : List Char)
    (after : List (List Char)) :
    ['\n'].intercalate (before ++ line :: after) = ended before ++ (line ++ further after) := by
  induction before with
  | nil =>
    induction after generalizing line with
    | nil => simp [ended, further]
    | cons next after ih =>
      simp only [ended, further, List.nil_append, List.intercalate_cons_cons, List.flatMap_cons,
        List.flatMap_nil, List.append_assoc, List.cons_append] at ih ⊢
      rw [ih]
  | cons first before ih =>
    rw [List.cons_append, List.intercalate_cons_of_ne_nil (by simp), ih]
    simp only [ended, List.flatMap_cons, List.append_assoc]

/-- A text is made of the lines that it is split into. -/
theorem eq_of_splitLines (h : splitLines chars = before ++ line :: after) :
    chars = ended before ++ (line ++ further after) := by
  rw [← intercalate_lines, ← h, splitLines_eq_splitOn, List.intercalate_splitOn]

/-- A line takes its width and a byte for its line feed. -/
theorem width_ended_cons (line : List Char) (lines : List (List Char)) :
    width (ended (line :: lines)) = width line + 1 + width (ended lines) := by
  have hsize : '\n'.utf8Size = 1 := rfl
  simp only [ended, List.flatMap_cons, width_append, width_cons, width_nil, hsize]

theorem ended_eq_nil_or (lines : List (List Char)) :
    ended lines = [] ∨ ∃ front, ended lines = front ++ ['\n'] := by
  rcases lines.eq_nil_or_concat with rfl | ⟨lines, last, rfl⟩
  · exact .inl rfl
  · refine .inr ⟨ended lines ++ last, ?_⟩
    simp [ended]

/-- There is one line feed for each line. -/
theorem count_ended (h : ∀ line ∈ lines, '\n' ∉ line) : (ended lines).count '\n' = lines.length := by
  induction lines with
  | nil => rfl
  | cons line lines ih =>
    obtain ⟨hline, hlines⟩ := List.forall_mem_cons.mp h
    have hcount := ih hlines
    simp only [ended, List.flatMap_cons, List.count_append, List.count_singleton_self,
      List.count_eq_zero_of_not_mem hline, List.length_cons] at hcount ⊢
    omega

/-- An offset falls into one of some lines, or behind the last one. -/
theorem exists_line_at (hne : lines ≠ []) (offset : Nat) :
    ∃ before line after, lines = before ++ line :: after ∧ width (ended before) ≤ offset ∧
      (after = [] ∨ offset ≤ width (ended before) + width line) := by
  induction lines generalizing offset with
  | nil => exact absurd rfl hne
  | cons line rest ih =>
    by_cases hhere : rest = [] ∨ offset ≤ width line
    · refine ⟨[], line, rest, rfl, Nat.zero_le _, hhere.imp_right fun hle => ?_⟩
      exact Nat.le_trans hle (Nat.le_add_left _ _)
    · obtain ⟨hrest, hlt⟩ := not_or.mp hhere
      obtain ⟨before, next, after, rfl, hstart, hstop⟩ := ih hrest (offset - (width line + 1))
      -- The line and its line feed lie before the offset.
      have hwidth := width_ended_cons line before
      refine ⟨line :: before, next, after, rfl, ?_, hstop.imp_right fun hle => ?_⟩
      · rw [hwidth]
        omega
      · rw [hwidth]
        omega

end Text

/-! ## §3 The line of a location -/

namespace Location

open Text (ended further lineFeedsFrom width)

variable {earlier line later : List Char} {offset : Nat}

/-- The line feeds before an offset in a line are those of what is before the line. -/
theorem filter_lineFeeds (hline : '\n' ∉ line) (hstart : width earlier ≤ offset)
    (hstop : later = [] ∨ offset ≤ width earlier + width line) :
    (Text.lineFeeds (.ofList (earlier ++ (line ++ later)))).filter (· < offset)
      = lineFeedsFrom 0 earlier := by
  rw [Text.lineFeeds, String.toList_ofList, Text.lineFeedsFrom_append, Text.lineFeedsFrom_append,
    Text.lineFeedsFrom_eq_nil _ hline, List.nil_append, List.filter_append,
    List.filter_eq_self.mpr, List.filter_eq_nil_iff.mpr, List.append_nil]
  · intro lineFeed hmem
    obtain ⟨front, back, rfl, rfl⟩ := Text.mem_lineFeedsFrom_iff.mp hmem
    rcases hstop with hnone | hle
    · simp at hnone
    · rw [decide_eq_true_eq, Nat.not_lt]
      omega
  · intro lineFeed hmem
    obtain ⟨front, back, rfl, rfl⟩ := Text.mem_lineFeedsFrom_iff.mp hmem
    have hc := '\n'.utf8Size_pos
    rw [Text.width_append, Text.width_cons] at hstart
    rw [decide_eq_true_eq]
    omega

/-- An offset in a line is told by the number of line feeds before the line and by its distance
    from the line's start. -/
theorem linePosition_line (hearlier : earlier = [] ∨ ∃ front, earlier = front ++ ['\n'])
    (hline : '\n' ∉ line) (hstart : width earlier ≤ offset)
    (hstop : later = [] ∨ offset ≤ width earlier + width line) :
    (Location.mk (.ofList (earlier ++ (line ++ later))) offset).linePosition
      = ⟨1 + earlier.count '\n', offset - width earlier⟩ := by
  have hfilter := filter_lineFeeds hline hstart hstop
  have hlineStart : (Location.mk (.ofList (earlier ++ (line ++ later))) offset).lineStart
      = width earlier := by
    unfold lineStart
    simp only [hfilter]
    rcases hearlier with rfl | ⟨front, rfl⟩
    · rfl
    · -- The line starts behind the last line feed.
      rw [Text.lineFeedsFrom_append, Text.lineFeedsFrom_singleton, List.getLast?_concat]
      simp [show '\n'.utf8Size = 1 from rfl]
  unfold linePosition
  simp only [hfilter, hlineStart, Text.length_lineFeedsFrom]

/-- The location's text has the line `line` between other lines, and the offset falls into it, or
    behind it if it is the last one. -/
structure StandsIn (location : Location) (before : List (List Char)) (line : List Char)
    (after : List (List Char)) : Prop where
  lines : Text.splitLines location.text.toList = before ++ line :: after
  start : width (ended before) ≤ location.offset
  stop : after = [] ∨ location.offset ≤ width (ended before) + width line

/-- **Every offset falls into a line.** -/
theorem exists_standsIn (location : Location) :
    ∃ before line after, location.StandsIn before line after := by
  obtain ⟨before, line, after, hlines, hstart, hstop⟩ :=
    Text.exists_line_at (Text.splitLines_ne_nil location.text.toList) location.offset
  exact ⟨before, line, after, hlines, hstart, hstop⟩

namespace StandsIn

variable {location : Location} {before after : List (List Char)}

theorem toList_text (h : location.StandsIn before line after) :
    location.text.toList = ended before ++ (line ++ further after) :=
  Text.eq_of_splitLines h.lines

theorem not_mem (h : location.StandsIn before line after) :
    ∀ other ∈ before ++ line :: after, '\n' ∉ other :=
  fun _ hmem => Text.not_mem_of_mem_splitLines (h.lines ▸ hmem)

/-- A location tells the line that its offset falls into, and the distance from its start. -/
theorem linePosition (h : location.StandsIn before line after) :
    location.linePosition = ⟨before.length + 1, location.offset - width (ended before)⟩ := by
  obtain ⟨hbefore, hline, -⟩ := List.forall_mem_append.mp h.not_mem |>.imp_right
    List.forall_mem_cons.mp
  have htext : location.text = .ofList (ended before ++ (line ++ further after)) := by
    rw [← h.toList_text, String.ofList_toList]
  have hstop : further after = [] ∨ location.offset ≤ width (ended before) + width line :=
    h.stop.imp_left fun hnone => by rw [hnone]; rfl
  have hposition := linePosition_line (Text.ended_eq_nil_or before) hline h.start hstop
  rw [← htext, Text.count_ended hbefore, Nat.add_comm 1] at hposition
  exact hposition

end StandsIn

end Location

end AugmentedBnf
