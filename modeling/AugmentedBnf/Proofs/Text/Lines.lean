import AugmentedBnf.Proofs.Text.Width
import AugmentedBnf.Text.Lines

/-!
# Line Feeds as Places

The line feeds of a text are told by offset. Among code points they are where the code points are
cut in front of a line feed (`mem_lineFeedsFrom_iff`), and those of two pieces are those of the one
and then those of the other (`lineFeedsFrom_append`). A line starts at the beginning of the text or
behind a line feed.
-/

namespace AugmentedBnf.Text

variable {offset lineFeed : Nat} {chars : List Char}

/-! ## §1 Line feeds -/

/-- The line feeds of a piece come before those of the next one. -/
theorem lineFeedsFrom_append (offset : Nat) (front back : List Char) :
    lineFeedsFrom offset (front ++ back)
      = lineFeedsFrom offset front ++ lineFeedsFrom (offset + width front) back := by
  induction front generalizing offset with
  | nil => rfl
  | cons c rest ih =>
    rw [List.cons_append, lineFeedsFrom, lineFeedsFrom, ih, width_cons, ← Nat.add_assoc]
    split <;> rfl

theorem lineFeedsFrom_singleton (offset : Nat) : lineFeedsFrom offset ['\n'] = [offset] := rfl

/-- A line feed is where the code points are cut in front of one. -/
theorem mem_lineFeedsFrom_iff : lineFeed ∈ lineFeedsFrom offset chars ↔
    ∃ front back, chars = front ++ '\n' :: back ∧ lineFeed = offset + width front := by
  induction chars generalizing offset with
  | nil => simp [lineFeedsFrom]
  | cons c rest ih =>
    have hlater : lineFeed ∈ lineFeedsFrom (offset + c.utf8Size) rest ↔
        ∃ front back, rest = front ++ '\n' :: back ∧
          lineFeed = offset + width (c :: front) := by
      rw [ih]
      simp only [width_cons, Nat.add_assoc]
    -- The first code point is the line feed, or it is in front of it.
    have hcut : (∃ front back, c :: rest = front ++ '\n' :: back ∧
        lineFeed = offset + width front) ↔ (c = '\n' ∧ lineFeed = offset) ∨
          ∃ front back, rest = front ++ '\n' :: back ∧ lineFeed = offset + width (c :: front) := by
      constructor
      · rintro ⟨front, back, hchars, rfl⟩
        cases front with
        | nil => exact .inl ⟨(List.cons.inj hchars).1, rfl⟩
        | cons d front =>
          obtain ⟨rfl, hrest⟩ := List.cons.inj hchars
          exact .inr ⟨front, back, hrest, rfl⟩
      · rintro (⟨rfl, rfl⟩ | ⟨front, back, rfl, rfl⟩)
        · exact ⟨[], rest, rfl, rfl⟩
        · exact ⟨c :: front, back, rfl, rfl⟩
    rw [hcut, ← hlater, lineFeedsFrom]
    by_cases hc : c = '\n'
    · rw [if_pos hc, List.mem_cons]
      simp only [hc, true_and]
    · rw [if_neg hc]
      simp only [hc, false_and, false_or]

theorem lineFeedsFrom_eq_nil (offset : Nat) (h : '\n' ∉ chars) :
    lineFeedsFrom offset chars = [] := by
  rw [List.eq_nil_iff_forall_not_mem]
  intro lineFeed hmem
  obtain ⟨front, back, rfl, -⟩ := mem_lineFeedsFrom_iff.mp hmem
  exact h List.mem_append_cons_self

theorem length_lineFeedsFrom (offset : Nat) (chars : List Char) :
    (lineFeedsFrom offset chars).length = chars.count '\n' := by
  induction chars generalizing offset with
  | nil => rfl
  | cons c rest ih =>
    rw [lineFeedsFrom, List.count_cons]
    by_cases hc : c = '\n'
    · rw [if_pos hc, List.length_cons, ih, hc]
      rfl
    · rw [if_neg hc, ih, if_neg (by simpa using hc), Nat.add_zero]

theorem pairwise_lineFeedsFrom (offset : Nat) (chars : List Char) :
    (lineFeedsFrom offset chars).Pairwise (· < ·) := by
  induction chars generalizing offset with
  | nil => exact .nil
  | cons c rest ih =>
    rw [lineFeedsFrom]
    split
    · refine .cons (fun later hlater => ?_) (ih _)
      obtain ⟨front, back, -, rfl⟩ := mem_lineFeedsFrom_iff.mp hlater
      have hc := c.utf8Size_pos
      omega
    · exact ih _

/-! ## §2 Starts of lines -/

/-- Where lines start among code points of which the first stands at `offset` and starts a line. -/
def lineStartsFrom (offset : Nat) (chars : List Char) : List Nat :=
  offset :: (lineFeedsFrom offset chars).map (· + 1)

/-- The offsets at which the lines of a text start: its beginning, and behind each line feed. -/
def lineStarts (text : String) : List Nat := lineStartsFrom 0 text.toList

/-- A line starts at the beginning of the text or behind a line feed. -/
theorem mem_lineStarts_iff {text : String} {start : Nat} : start ∈ lineStarts text ↔
    start = 0 ∨ ∃ lineFeed, charAt text lineFeed = .ok (some '\n') ∧ start = lineFeed + 1 := by
  have hlineFeed : ∀ lineFeed, lineFeed ∈ lineFeedsFrom 0 text.toList ↔
      charAt text lineFeed = .ok (some '\n') := by
    intro lineFeed
    rw [mem_lineFeedsFrom_iff, charAt_eq_some_iff]
    simp only [Nat.zero_add, String.ext_iff, String.toList_ofList]
  unfold lineStarts lineStartsFrom
  simp only [List.mem_cons, List.mem_map, hlineFeed, eq_comm]

/-- **Lines start one after the other.** -/
theorem pairwise_lineStartsFrom (offset : Nat) (chars : List Char) :
    (lineStartsFrom offset chars).Pairwise (· < ·) := by
  refine .cons (fun start hstart => ?_) ?_
  · obtain ⟨lineFeed, hlineFeed, rfl⟩ := List.mem_map.mp hstart
    obtain ⟨front, back, -, rfl⟩ := mem_lineFeedsFrom_iff.mp hlineFeed
    omega
  · exact (pairwise_lineFeedsFrom offset chars).map _ fun _ _ => Nat.succ_lt_succ

theorem le_of_mem_lineStartsFrom {start : Nat} (h : start ∈ lineStartsFrom offset chars) :
    offset ≤ start := by
  rcases List.mem_cons.mp h with rfl | h
  · exact Nat.le_refl _
  · exact Nat.le_of_lt (List.rel_of_pairwise_cons (pairwise_lineStartsFrom offset chars) h)

/-- A line feed ends a line, and another one starts behind it. -/
theorem lineStartsFrom_line (offset : Nat) (front back : List Char) :
    lineStartsFrom offset (front ++ '\n' :: back)
      = lineStartsFrom offset front
        ++ lineStartsFrom (offset + width (front ++ ['\n'])) back := by
  have hchars : front ++ '\n' :: back = front ++ (['\n'] ++ back) := rfl
  rw [hchars, lineStartsFrom, lineFeedsFrom_append, lineFeedsFrom_append, lineFeedsFrom_singleton]
  simp only [lineStartsFrom, List.map_append, List.cons_append, List.map_cons,
    List.nil_append, width_append, Nat.add_assoc]
  rfl

end AugmentedBnf.Text
