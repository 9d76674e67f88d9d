import AugmentedBnf.Proofs.Text.Pieces

/-!
# Other Line Endings

A text whose lines end in line feeds can be spelt with a carriage return in front of each of them.
Offsets move apart from line to line then, but places are still told alike, since a line number and
an offset within a line do not count what ends the lines before (`linePosition_respell`).
-/

namespace AugmentedBnf

open Text (lineFeedsFrom width)

variable {front back line passed rest chars : List Char}

/-! ## §1 Places told by the code points before them -/

namespace Text

/-- Code points are one line so far, or they have a last line feed. -/
theorem exists_last_line (chars : List Char) :
    '\n' ∉ chars ∨ ∃ front line, chars = front ++ '\n' :: line ∧ '\n' ∉ line := by
  induction chars with
  | nil => exact .inl List.not_mem_nil
  | cons c rest ih =>
    rcases ih with hnone | ⟨front, line, rfl, hline⟩
    · by_cases hc : c = '\n'
      · exact .inr ⟨[], rest, by rw [hc, List.nil_append], hnone⟩
      · exact .inl fun hmem => (List.mem_cons.mp hmem).elim (fun h => hc h.symm) hnone
    · exact .inr ⟨c :: front, line, rfl, hline⟩

end Text

namespace Location

/-- In the first line the offset is the width of what is before the place. -/
theorem linePosition_first (h : '\n' ∉ passed) (rest : List Char) :
    (Location.mk (.ofList (passed ++ rest)) (width passed)).linePosition = ⟨1, width passed⟩ := by
  have hposition := @linePosition_line [] passed rest (width passed) (.inl rfl) h
    (Nat.zero_le _) (.inr (Nat.le_add_left _ _))
  rwa [List.nil_append, List.count_nil, Text.width_nil, Nat.sub_zero] at hposition

/-- In a further line it is the width of what is between the last line feed and the place. -/
theorem linePosition_further (front rest : List Char) (h : '\n' ∉ line) :
    (Location.mk (.ofList ((front ++ '\n' :: line) ++ rest))
      (width (front ++ '\n' :: line))).linePosition = ⟨2 + front.count '\n', width line⟩ := by
  have hpassed : front ++ '\n' :: line = (front ++ ['\n']) ++ line := by
    rw [List.append_assoc, List.singleton_append]
  have hposition := @linePosition_line (front ++ ['\n']) line rest
    (width (front ++ ['\n']) + width line) (.inr ⟨front, rfl⟩) h (Nat.le_add_right _ _)
    (.inr (Nat.le_refl _))
  rw [hpassed, List.append_assoc _ line, Text.width_append _ line, hposition, List.count_append,
    List.count_singleton_self, Nat.add_sub_cancel_left, Nat.add_left_comm, Nat.add_comm]

end Location

/-! ## §2 Carriage returns before line feeds -/

namespace Text

/-- The code points with a carriage return in front of each line feed. -/
def respell (chars : List Char) : List Char :=
  chars.flatMap fun c => if c = '\n' then ['\r', '\n'] else [c]

/-- The text with lines that end in carriage return and line feed instead of line feed alone. -/
def withReturns (text : String) : String := .ofList (respell text.toList)

@[simp] theorem respell_nil : respell [] = [] := rfl

@[simp] theorem respell_lineFeed (rest : List Char) :
    respell ('\n' :: rest) = '\r' :: '\n' :: respell rest := rfl

theorem respell_cons {c : Char} (hc : c ≠ '\n') (rest : List Char) :
    respell (c :: rest) = c :: respell rest := by
  unfold respell
  rw [List.flatMap_cons, if_neg hc, List.singleton_append]

@[simp] theorem respell_append (front back : List Char) :
    respell (front ++ back) = respell front ++ respell back := List.flatMap_append

/-- Within a line nothing is spelt in another way. -/
theorem respell_eq_self (h : '\n' ∉ chars) : respell chars = chars := by
  induction chars with
  | nil => rfl
  | cons c rest ih =>
    obtain ⟨hc, hrest⟩ := not_or.mp (mt List.mem_cons.mpr h)
    rw [respell_cons (Ne.symm hc), ih hrest]

@[simp] theorem respell_eq_nil_iff : respell chars = [] ↔ chars = [] := by
  cases chars with
  | nil => simp
  | cons c rest =>
    by_cases hc : c = '\n'
    · simp [hc]
    · simp [respell_cons hc]

/-- There are as many line feeds as before. -/
theorem count_respell (chars : List Char) : (respell chars).count '\n' = chars.count '\n' := by
  induction chars with
  | nil => rfl
  | cons c rest ih =>
    by_cases hc : c = '\n'
    · rw [hc, respell_lineFeed, List.count_cons_of_ne (by decide), List.count_cons_self,
        List.count_cons_self, ih]
    · rw [respell_cons hc, List.count_cons_of_ne hc, List.count_cons_of_ne hc, ih]

end Text

/-- **Places are told alike**, whichever way the lines before them end. -/
theorem Location.linePosition_respell (passed rest rest' : List Char) :
    (Location.mk (.ofList (Text.respell passed ++ rest'))
        (width (Text.respell passed))).linePosition
      = (Location.mk (.ofList (passed ++ rest)) (width passed)).linePosition := by
  rcases Text.exists_last_line passed with hnone | ⟨front, line, rfl, hline⟩
  · rw [Text.respell_eq_self hnone, linePosition_first hnone, linePosition_first hnone]
  · have hspelt : Text.respell (front ++ '\n' :: line)
        = (Text.respell front ++ ['\r']) ++ '\n' :: line := by
      rw [Text.respell_append, Text.respell_lineFeed, Text.respell_eq_self hline,
        List.append_assoc, List.singleton_append]
    have hreturn : ['\r'].count '\n' = 0 := by decide
    rw [hspelt, linePosition_further _ _ hline, linePosition_further _ _ hline, List.count_append,
      Text.count_respell, hreturn, Nat.add_zero]

/-! ## §3 Spellings of lines -/

namespace Text

/-- Code points with line feeds alone, and another spelling of them, in which any of the line feeds
    may have a carriage return in front of it. -/
inductive Spelling : List Char → List Char → Prop where
  | nil : Spelling [] []
  | within {c : Char} (hreturn : c ≠ '\r') (hfeed : c ≠ '\n') {chars spelt : List Char}
      (h : Spelling chars spelt) : Spelling (c :: chars) (c :: spelt)
  | lineFeed {chars spelt : List Char} (h : Spelling chars spelt) :
      Spelling ('\n' :: chars) ('\n' :: spelt)
  | returned {chars spelt : List Char} (h : Spelling chars spelt) :
      Spelling ('\n' :: chars) ('\r' :: '\n' :: spelt)

variable {spelt more : List Char}

theorem Spelling.not_mem (h : Spelling chars spelt) : '\r' ∉ chars := by
  induction h with
  | nil => exact List.not_mem_nil
  | within hreturn _ _ ih => exact not_or.mpr ⟨hreturn.symm, ih⟩ ∘ List.mem_cons.mp
  | lineFeed _ ih => exact not_or.mpr ⟨by decide, ih⟩ ∘ List.mem_cons.mp
  | returned _ ih => exact not_or.mpr ⟨by decide, ih⟩ ∘ List.mem_cons.mp

/-- Both ways to spell all lines alike are spellings. -/
theorem spelling_self_respell (h : '\r' ∉ chars) :
    Spelling chars chars ∧ Spelling chars (respell chars) := by
  induction chars with
  | nil => exact ⟨.nil, .nil⟩
  | cons c rest ih =>
    obtain ⟨hreturn, hrest⟩ := not_or.mp (mt List.mem_cons.mpr h)
    obtain ⟨hself, hrespell⟩ := ih hrest
    by_cases hfeed : c = '\n'
    · subst hfeed
      exact ⟨.lineFeed hself, .returned hrespell⟩
    · rw [respell_cons hfeed]
      exact ⟨.within (Ne.symm hreturn) hfeed hself, .within (Ne.symm hreturn) hfeed hrespell⟩

theorem Spelling.self (h : Spelling chars spelt) : Spelling chars chars :=
  (spelling_self_respell h.not_mem).1

theorem Spelling.append {spelt' : List Char} (h : Spelling front spelt)
    (h' : Spelling back spelt') : Spelling (front ++ back) (spelt ++ spelt') := by
  induction h with
  | nil => exact h'
  | within hreturn hfeed _ ih => exact .within hreturn hfeed ih
  | lineFeed _ ih => exact .lineFeed ih
  | returned _ ih => exact .returned ih

/-- A spelling of two pieces is one of the first and one of the second. -/
theorem Spelling.split (h : Spelling (front ++ back) spelt) :
    ∃ spelt₁ spelt₂, spelt = spelt₁ ++ spelt₂ ∧ Spelling front spelt₁ ∧ Spelling back spelt₂ := by
  induction front generalizing spelt with
  | nil => exact ⟨[], spelt, rfl, .nil, h⟩
  | cons c front ih =>
    cases h with
    | within hreturn hfeed h =>
      obtain ⟨spelt₁, spelt₂, rfl, hfront, hback⟩ := ih h
      exact ⟨c :: spelt₁, spelt₂, rfl, .within hreturn hfeed hfront, hback⟩
    | lineFeed h =>
      obtain ⟨spelt₁, spelt₂, rfl, hfront, hback⟩ := ih h
      exact ⟨'\n' :: spelt₁, spelt₂, rfl, .lineFeed hfront, hback⟩
    | returned h =>
      obtain ⟨spelt₁, spelt₂, rfl, hfront, hback⟩ := ih h
      exact ⟨'\r' :: '\n' :: spelt₁, spelt₂, rfl, .returned hfront, hback⟩

/-- A code point that ends no line is spelt as itself. -/
theorem Spelling.exists_within {c : Char} (hreturn : c ≠ '\r') (hfeed : c ≠ '\n')
    (h : Spelling chars (c :: more)) : ∃ back, chars = c :: back ∧ Spelling back more := by
  cases h with
  | within _ _ h => exact ⟨_, rfl, h⟩
  | lineFeed _ => exact absurd rfl hfeed
  | returned _ => exact absurd rfl hreturn

/-- What begins with a spelling is one of what begins so. -/
theorem Spelling.exists_append (hfront : Spelling front spelt)
    (h : Spelling chars (spelt ++ more)) : ∃ back, chars = front ++ back ∧ Spelling back more := by
  induction hfront generalizing chars with
  | nil => exact ⟨chars, rfl, h⟩
  | within hreturn hfeed _ ih =>
    obtain ⟨later, rfl, hlater⟩ := h.exists_within hreturn hfeed
    obtain ⟨back, rfl, hback⟩ := ih hlater
    exact ⟨back, rfl, hback⟩
  | lineFeed _ ih =>
    cases h with
    | within _ hne _ => exact absurd rfl hne
    | lineFeed h =>
      obtain ⟨back, rfl, hback⟩ := ih h
      exact ⟨back, rfl, hback⟩
  | returned _ ih =>
    cases h with
    | within hne _ _ => exact absurd rfl hne
    | returned h =>
      obtain ⟨back, rfl, hback⟩ := ih h
      exact ⟨back, rfl, hback⟩

/-- A code point is told from how its spelling begins. -/
theorem Spelling.exists_cons {c d : Char} {rest later : List Char} (hc : c ≠ '\r')
    (hd : respell (c :: rest) = d :: later) (h : Spelling chars (d :: more)) :
    ∃ back, chars = c :: back := by
  by_cases hfeed : c = '\n'
  · subst hfeed
    obtain ⟨rfl, -⟩ := List.cons.inj hd
    cases h with
    | within hne _ _ => exact absurd rfl hne
    | returned h => exact ⟨_, rfl⟩
  · rw [respell_cons hfeed] at hd
    obtain ⟨rfl, -⟩ := List.cons.inj hd
    obtain ⟨back, hback, -⟩ := h.exists_within hc hfeed
    exact ⟨back, hback⟩

end Text

end AugmentedBnf
