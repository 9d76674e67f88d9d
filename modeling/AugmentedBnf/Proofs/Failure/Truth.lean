import AugmentedBnf.Proofs.Failure.Locality
import AugmentedBnf.Proofs.Matching.Entry
import AugmentedBnf.Proofs.Text.Context
import AugmentedBnf.Proofs.Text.Quotation

/-!
# Failures Tell the Truth

A failure says of a text that something is wrong with it at a place. It may have been met in a
branch that was given up long ago, and may since have been recovered from, recorded and merged, but
what it says is true: the place is one of the text, not before the cursor where the evaluation
began, and what is there is what the failure says (`Failure.Applies`). A code point that was found
is the one at the place, and a character or a range that occurs in the rule does not accept it. What
that part accepts can be told from what the failure says was expected (`Rejects.accepts_iff`). A
failure can also be put in words, unless its text is as large as a machine can hold
(`Truthful.exists_message`).

All this is a property of the failures that a rule may miss, so it is shown by induction on these
(`Misses.truthful`). What is returned, recorded or reported is one of them.

**Main statement**: `failures_truthful`.
-/

namespace AugmentedBnf

variable {κ τ : Type}

open Text (width)
open Cursor (between)

/-! ## §1 What a failure says -/

/-- `part.Rejects name expected found`: the rule `part` is a character or a range named `name`,
    `expected` says what it accepts, and it does not accept `found`. -/
inductive Rule.Rejects : Rule κ → String → String → Char → Prop where
  | character (name : String) {expected found : Char} (hfound : found ≠ expected) :
      Rejects (.character name expected) name (Text.quoteChar expected) found
  | range (name : String) {low high found : Char} (hfound : ¬ (low ≤ found ∧ found ≤ high)) :
      Rejects (.range name low high) name (Text.codePoint low ++ "..=" ++ Text.codePoint high) found

/-- What a character or a range accepts. -/
def Rule.Accepts : Rule κ → Char → Prop
  | .character _ expected, c => c = expected
  | .range _ low high, c => low ≤ c ∧ c ≤ high
  | _, _ => False

section Rejects

variable {part part' : Rule κ} {name name' expected : String} {found found' : Char}

theorem Rule.Rejects.not_accepts (h : part.Rejects name expected found) : ¬ part.Accepts found := by
  cases h with
  | character name hfound => exact hfound
  | range name hfound => exact hfound

/-- **What is expected tells what is accepted**: parts that expect the same accept the same. -/
theorem Rule.Rejects.accepts_iff (h : part.Rejects name expected found)
    (h' : part'.Rejects name' expected found') (c : Char) : part.Accepts c ↔ part'.Accepts c := by
  -- A quoted character begins with an apostrophe, and a range with the letter of its numbers.
  have hapart : ∀ quoted low high : Char,
      Text.quoteChar quoted ≠ Text.codePoint low ++ "..=" ++ Text.codePoint high := by
    intro quoted low high hsame
    have hchars := congrArg String.toList hsame
    simp [Text.quoteChar, Text.codePoint] at hchars
  cases h with
  | @character _ quoted _ _ =>
    generalize hexpected : Text.quoteChar quoted = expected at h'
    cases h' with
    | character name' _ =>
      rw [Text.quoteChar_injective hexpected]
      rfl
    | range name' _ => exact absurd hexpected (hapart _ _ _)
  | @range _ low high _ _ =>
    generalize hexpected : Text.codePoint low ++ "..=" ++ Text.codePoint high = expected at h'
    cases h' with
    | character name' _ => exact absurd hexpected.symm (hapart _ _ _)
    | range name' _ =>
      obtain ⟨rfl, rfl⟩ := Text.codePointRange_injective hexpected
      rfl

end Rejects

namespace Failure

/-- At the failure's place is what it says: the end of the text, or a code point where the text
    should end, or the code point found, which some part of the rule does not accept. -/
def Applies (grammar : Grammar κ) (rule : Rule κ) : Failure → Prop
  | .unexpectedEnd location => location.offset = location.text.utf8ByteSize
  | .unconsumed location => location.offset < location.text.utf8ByteSize
  | .mismatch name expected found location =>
    location.offset < location.text.utf8ByteSize ∧
      Text.charAt location.text location.offset = .ok (some found) ∧
      ∃ part, grammar.Contains rule part ∧ part.Rejects name expected found

/-- The failure is about the text, at a place not before `start`, and what it says is true. -/
structure Truthful (grammar : Grammar κ) (rule : Rule κ) (text : String) (start : Nat)
    (failure : Failure) : Prop where
  text_eq : failure.location.text = text
  start_le : start ≤ failure.position
  le_size : failure.position ≤ text.utf8ByteSize
  valid : (⟨failure.position⟩ : String.Pos.Raw).IsValid text
  applies : failure.Applies grammar rule

variable {grammar : Grammar κ} {rule member : Rule κ} {failure : Failure}

/-- A failure that is about a text which a machine can hold has a message. -/
theorem Truthful.exists_message {text : String} {start : Nat}
    (h : failure.Truthful grammar rule text start)
    (hsize : text.utf8ByteSize + 26 < 0x8000000000000000) :
    ∃ message, failure.message = .ok message := by
  have hle := h.le_size
  have hoffset : failure.location.offset + 26 < 0x8000000000000000 := by
    rw [position] at hle
    omega
  obtain ⟨report, hreport⟩ := Location.exists_report hoffset
  rw [message, hreport]
  cases failure <;> exact ⟨_, rfl⟩

/-- What applies to a part of a rule applies to the rule. -/
theorem Applies.of_part (h : failure.Applies grammar member)
    (hmember : ∀ part, grammar.Contains member part → grammar.Contains rule part) :
    failure.Applies grammar rule := by
  cases failure with
  | unexpectedEnd location => exact h
  | unconsumed location => exact h
  | mismatch name expected found location =>
    obtain ⟨hlt, hfound, part, hpart, hrejects⟩ := h
    exact ⟨hlt, hfound, part, hmember part hpart, hrejects⟩

/-- A place in front of a code point is not the end of the text. -/
theorem width_lt_utf8ByteSize (before rest : List Char) (c : Char) :
    width before < (String.ofList (before ++ c :: rest)).utf8ByteSize := by
  have hc := c.utf8Size_pos
  rw [Text.utf8ByteSize_ofList, Text.width_append, Text.width_cons]
  omega

/-- A found code point is truthful about where it was found. -/
theorem applies_mismatch {part : Rule κ} {name expected : String} {found : Char}
    (hrejects : part.Rejects name expected found) (before rest : List Char) :
    (Failure.mismatch name expected found
      ⟨.ofList (before ++ found :: rest), width before⟩).Applies grammar part := by
  refine ⟨width_lt_utf8ByteSize before rest found, ?_, part, .refl part, hrejects⟩
  rw [Text.charAt_width, List.head?_cons]

end Failure

/-! ## §2 Missed failures -/

namespace Grammar

variable {grammar : Grammar κ} {rule : Rule κ} {before chars : List Char} {failure : Failure}

theorem Misses.applies (h : grammar.Misses rule before chars failure) :
    failure.Applies grammar rule := by
  induction h with
  | character_end name expected before => exact (Text.utf8ByteSize_ofList before).symm
  | character_mismatch name hc before rest =>
    exact Failure.applies_mismatch (.character name hc) before rest
  | range_end name low high before => exact (Text.utf8ByteSize_ofList before).symm
  | range_mismatch name hc before rest =>
    exact Failure.applies_mismatch (.range name hc) before rest
  | endOfText name c before rest => exact Failure.width_lt_utf8ByteSize before rest c
  | @concatenation name first member rest earlier later _ _ _ _ _ hmembers hparts hmember ih =>
    have hmem : member ∈ first :: rest := by
      rw [hmembers]
      exact List.mem_append_cons_self
    exact ih.of_part fun part hpart => .concatenation hmem hpart
  | @alternation name first member rest earlier later _ _ _ hmembers hearlier hmember ih =>
    have hmem : member ∈ first :: rest := by
      rw [hmembers]
      exact List.mem_append_cons_self
    exact ih.of_part fun part hpart => .alternation hmem hpart
  | repetition hparts hroom hadvance helement ih =>
    exact ih.of_part fun part hpart => .repetition hpart
  | deferred hdefine hrule ih => exact ih.of_part fun part hpart => .deferred hdefine hpart

/-- What stands ahead is at a place of the text, so only its reason has to be checked. -/
theorem truthful_of_standsAhead (h : failure.StandsAhead before chars)
    (happlies : failure.Applies grammar rule) :
    failure.Truthful grammar rule (.ofList (before ++ chars)) (width before) := by
  obtain ⟨passed, rest, rfl, hlocation⟩ := h
  have hposition : failure.position = width (before ++ passed) := by
    rw [Failure.position, hlocation]
  constructor
  case text_eq => rw [hlocation]
  case start_le =>
    rw [hposition, Text.width_append]
    exact Nat.le_add_right _ _
  case le_size =>
    rw [hposition, ← List.append_assoc, Text.utf8ByteSize_ofList, Text.width_append _ rest]
    exact Nat.le_add_right _ _
  case valid =>
    rw [hposition, ← List.append_assoc]
    exact Text.isValid_width (before ++ passed) rest
  case applies => exact happlies

/-- **What a rule misses is true of the text.** -/
theorem Misses.truthful (h : grammar.Misses rule before chars failure) :
    failure.Truthful grammar rule (.ofList (before ++ chars)) (width before) :=
  truthful_of_standsAhead h.standsAhead h.applies

theorem truthful_of_mem_missed {depth : Nat}
    (h : failure ∈ grammar.missed depth rule (between before chars)) :
    failure.Truthful grammar rule (.ofList (before ++ chars)) (width before) :=
  (misses_of_mem_missed h).truthful

/-- What there is to say against a text being matched as a whole is true of it. -/
theorem truthful_of_mem_missedInAll {text : String}
    (h : failure ∈ grammar.missedInAll rule text) : failure.Truthful grammar rule text 0 := by
  have htext : String.ofList ([] ++ text.toList) = text := by
    rw [List.nil_append, String.ofList_toList]
  rw [← htext]
  rcases misses_of_mem_missedInAll h with hmisses | ⟨tree, c, rest, htree, rfl⟩
  · exact hmisses.truthful
  · -- The text goes on where a match ends.
    have hchars := htree.chars_eq
    refine truthful_of_standsAhead ⟨tree.chars, c :: rest, hchars, ?_⟩ ?_
    · rw [htext]
      rfl
    · have hlt := Failure.width_lt_utf8ByteSize tree.chars rest c
      rwa [← hchars, String.ofList_toList] at hlt

/-! ## §3 Returned, recorded and reported failures -/

/-- What an evaluation returns it returns whatever was recorded before. -/
theorem exists_failed_fresh [Journal τ] {depth : Nat} {cursor : Cursor} {trail trail' : Trail τ}
    (h : rule.matcher (grammar.call depth) cursor trail = .failed failure trail') :
    ∃ trail'' : Trail τ, rule.matcher (grammar.call depth) cursor (.fresh trail.journal)
      = .failed failure trail'' :=
  failsWith_of_failed (Nat.le_refl depth) h (.fresh trail.journal)

/-- **Every failure tells the truth about the text.** Let an evaluation begin at a cursor that a
    start cursor reaches. What it returns, and what it leaves recorded if nothing was recorded
    before, is about the text, at a place of it that is not before the cursor. An unexpected end is
    at the end of the text and leftover text is before it. A mismatch has found the code point at
    its place, and a character or range that occurs in the rule has its name, accepts what it says
    and does not accept that code point. The same is true of what is reported from the cursor, of a
    text from its start and of a text as a whole. -/
theorem failures_truthful [Journal τ] (grammar : Grammar κ) (rule : Rule κ) {text : String}
    {count : Nat} {cursor : Cursor} (hcursor : (Cursor.start text).advance count = .ok cursor) :
    (∀ depth (trail trail' : Trail τ) failure,
      rule.matcher (grammar.call depth) cursor trail = .failed failure trail' →
      failure.Truthful grammar rule text cursor.position) ∧
    (∀ depth (journal : τ) failure trail',
      rule.matcher (grammar.call depth) cursor (.fresh journal) = .failed failure trail' →
      ∀ recorded ∈ trail'.deepest.failure,
        recorded.Truthful grammar rule text cursor.position) ∧
    (∀ depth (journal : τ) node next trail',
      rule.matcher (grammar.call depth) cursor (.fresh journal) = .matched node next trail' →
      ∀ recorded ∈ trail'.deepest.failure,
        recorded.Truthful grammar rule text cursor.position) ∧
    (∀ failure, grammar.parseFrom rule cursor = .error (.failure failure) →
      failure.Truthful grammar rule text cursor.position) ∧
    (∀ failure, grammar.parse rule text = .error (.failure failure) →
      failure.Truthful grammar rule text 0) ∧
    (∀ failure, grammar.parseAll rule text = .error (.failure failure) →
      failure.Truthful grammar rule text 0) := by
  have hmissed : ∀ {depth failure}, failure ∈ grammar.missed depth rule cursor →
      failure.Truthful grammar rule text cursor.position := by
    intro depth failure hmem
    rw [Cursor.start_eq_between, Cursor.advance_between, Except.ok.injEq] at hcursor
    subst hcursor
    have htruthful := truthful_of_mem_missed hmem
    rw [Cursor.position_between]
    rwa [List.nil_append, List.take_append_drop, String.ofList_toList] at htruthful
  refine ⟨?_, ?_, ?_, ?_, ?_, ?_⟩
  · intro depth trail trail' failure h
    obtain ⟨trail'', hfresh⟩ := exists_failed_fresh h
    exact hmissed (summarise_missed_of_failed hfresh).1
  · intro depth journal failure trail' h recorded hrecorded
    have hkept : recorded ∈ failure :: trail'.deepest.kept :=
      List.mem_cons_of_mem failure (Option.mem_toList.mpr hrecorded)
    exact hmissed ((summarise_missed_of_failed h).2.subset hkept)
  · intro depth journal node next trail' h recorded hrecorded
    exact hmissed ((summarise_missed_of_matched h).subset (Option.mem_toList.mpr hrecorded))
  · exact fun failure h => hmissed (parseFrom_isDeepest h).1
  · -- Matching from the start is one part of matching the whole text.
    intro failure h
    exact truthful_of_mem_missedInAll
      (parseAll_isDeepest (parseAll_error_of_parse_error h)).1
  · exact fun failure h => truthful_of_mem_missedInAll (parseAll_isDeepest h).1

/-- A bracket is missed behind one that was passed, although the choice within it was recovered
    from before. -/
theorem parentheses_failures_truthful :
    let missed : Failure := .mismatch "close" "')'" '!' ⟨"é(x!", 4⟩
    (Cursor.start "é(x!").advance 1 = .ok (.within "é(x!" 2) ∧
      parentheses.parseFrom (.deferred "outer" ()) (.within "é(x!" 2)
        = .error (.failure missed) ∧
      missed.Truthful parentheses (.deferred "outer" ()) "é(x!" 2 := by
  intro missed
  have hcursor : (Cursor.start "é(x!").advance 1 = .ok (.within "é(x!" 2) := by decide
  obtain ⟨-, -, -, hreported, -, -⟩ :=
    failures_truthful (τ := Unit) parentheses (.deferred "outer" ()) hcursor
  exact ⟨hcursor, rfl, hreported missed rfl⟩

end Grammar

end AugmentedBnf
