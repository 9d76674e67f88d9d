import AugmentedBnf.Proofs.Derivation.Predictive
import AugmentedBnf.Proofs.Metagrammar.Production

/-!
# Blanks Are Taken Whole

A blank is a single code point, or a line end that a single one follows, and a line end is a line
break, perhaps with a comment before it. Each of these is settled by the code points that it begins
with, so blanks are matched as they are written wherever they stand (`takes_blanks`).

What is not settled is where blanks end, since a line end that follows them begins as another blank
does. At the end of a rule there may be blank lines, which may begin with a blank, and then the line
end before belongs to the blanks. `exists_lineEnd` cuts a text in front of the last line end that no
blank follows, and there the blanks end.
-/

namespace AugmentedBnf

open Computability

namespace Metagrammar

open CoreRules Rule
open AugmentedBnf.Grammar (TakesEach TakesRounds fails_of_avoids takes_of_forall_predictive
  takesRounds_of_pending)

variable {grammar : Grammar Deferral} {chars left : List Char}

/-! ## §1 Line ends and blanks -/

/-- What blanks begin with. -/
def blankStart : List (Char × Char) := (cWsp : Rule Deferral).first

theorem takes_cNl (h : chars ∈ Production.cNl) (left : List Char) :
    grammar.Takes cNl chars left := by
  rw [← language_cNl fun _ : Deferral => 0] at h
  exact takes_of_forall_predictive (fun _ => rfl) h left

theorem takes_cWsp (h : chars ∈ Production.cWsp) (left : List Char) :
    grammar.Takes cWsp chars left := by
  rw [← language_cWsp fun _ : Deferral => 0] at h
  exact takes_of_forall_predictive (fun _ => rfl) h left

theorem ne_nil_of_mem_cWsp (h : chars ∈ Production.cWsp) : chars ≠ [] := by
  rw [← language_cWsp (fun _ : Deferral => 0)] at h
  exact ne_nil_of_mem_language rfl rfl h

theorem ne_nil_of_mem_cNl (h : chars ∈ Production.cNl) : chars ≠ [] := by
  rw [← language_cNl (fun _ : Deferral => 0)] at h
  exact ne_nil_of_mem_language rfl rfl h

theorem ahead_of_mem_cNl (h : chars ∈ Production.cNl) (left : List Char) :
    Ahead (cNl : Rule Deferral).first (chars ++ left) := by
  rw [← language_cNl fun _ : Deferral => 0] at h
  exact ahead_of_mem_language rfl rfl h left

/-- Before a blank there is what blanks begin with, and before none there is what follows. -/
theorem ahead_of_mem_blanks {ranges : List (Char × Char)} (h : chars ∈ Production.cWsp∗)
    (hleft : Ahead ranges left) : Ahead (blankStart ++ ranges) (chars ++ left) := by
  rcases eq_nil_or_append_of_mem_kstar h with rfl | ⟨front, hfront, -, back, -, rfl⟩
  · exact fun c hc => covers_append.mpr (.inr (hleft c hc))
  · rw [← language_cWsp fun _ : Deferral => 0] at hfront
    have hahead := ahead_of_mem_language rfl rfl hfront (back ++ left)
    rw [← List.append_assoc] at hahead
    exact fun c hc => covers_append.mpr (.inl (hahead c hc))

/-- Blanks are matched up to where none begins. -/
theorem takesRounds_blanks {bounds : Bounds} {count : Nat} (hopen : bounds.max = none)
    (hcount : bounds.min ≤ count) (h : chars ∈ Production.cWsp∗)
    (hfails : grammar.Fails cWsp left) :
    grammar.TakesRounds bounds cWsp count chars left := by
  -- What is pending before each round are blanks again.
  refine takesRounds_of_pending (· ∈ Production.cWsp∗) hopen ?_ hcount h
  intro chars hchars
  rcases eq_nil_or_append_of_mem_kstar hchars with rfl | ⟨front, hfront, hne, back, hback, rfl⟩
  · exact .inl ⟨rfl, hfails⟩
  · exact .inr ⟨front, back, rfl, hne, hback, takes_cWsp hfront (back ++ left)⟩

theorem takes_blanks (h : chars ∈ Production.cWsp∗) (hfails : grammar.Fails cWsp left) :
    grammar.Takes blanks chars left :=
  (takesRounds_blanks rfl (Nat.zero_le 0) h hfails).repetition

theorem takes_blanks1 (h : chars ∈ Production.oneOrMore Production.cWsp)
    (hfails : grammar.Fails cWsp left) : grammar.Takes blanks1 chars left := by
  obtain ⟨front, hfront, back, hback, rfl⟩ := h
  have hrest : grammar.TakesRounds (.atLeast 1) cWsp 1 back left :=
    takesRounds_blanks rfl (Nat.le_refl 1) hback hfails
  exact (TakesRounds.cons (takes_cWsp hfront (back ++ left)) (ne_nil_of_mem_cWsp hfront)
    hrest).repetition

/-- No blank begins at a line end that no blank follows. -/
theorem cWsp_fails_of_lineEnd (h : chars ∈ Production.cNl)
    (hleft : NotAhead (wsp : Rule Deferral).first left) :
    grammar.Fails cWsp (chars ++ left) := by
  apply Grammar.Fails.alternation
  refine List.forall_mem_cons.mpr ⟨?_, List.forall_mem_singleton.mpr ?_⟩
  · exact fails_of_avoids rfl (ahead_of_mem_cNl h left)
  · -- The line end itself matches, and then the blank behind it is missing.
    have hwsp : grammar.Fails wsp left := (Grammar.skips_or_fails rfl hleft).2 rfl
    exact (TakesEach.singleton (takes_cNl h left)).fails rfl hwsp

/-! ## §2 Line ends behind blanks -/

/-- The lines that may follow a line end. -/
def lines : Language Char := (Production.rule + Production.cWsp∗ * Production.cNl)∗

/-- A line that begins with a single blank is a blank line, and goes on as one. -/
theorem exists_wsp_of_mem_lines (h : chars ∈ lines)
    (hahead : ¬ NotAhead (wsp : Rule Deferral).first chars) :
    ∃ blank ∈ Production.wsp, ∃ front ∈ Production.cWsp∗, ∃ lineEnd ∈ Production.cNl,
      ∃ rest ∈ lines, chars = blank ++ (front ++ (lineEnd ++ rest)) := by
  rcases eq_nil_or_append_of_mem_kstar h with rfl | ⟨line, hline, -, rest, hrest, rfl⟩
  · exact absurd (fun c hc => by cases hc) hahead
  -- Anything else that a line begins with is no single blank.
  have hother : ∀ {ranges}, Ahead ranges (line ++ rest) →
      apart (wsp : Rule Deferral).first ranges → False :=
    fun hranges hapart => hahead (hranges.notAhead hapart)
  rcases hline with hrule | ⟨front, hfront, lineEnd, hlineEnd, rfl⟩
  · rw [← language_rule] at hrule
    exact (hother (ahead_of_mem_language rfl rfl hrule rest) rfl).elim
  · rcases eq_nil_or_append_of_mem_kstar hfront with rfl | ⟨blank, hblank, -, more, hmore, rfl⟩
    · exact (hother (ahead_of_mem_cNl hlineEnd rest) rfl).elim
    · -- A blank of two parts begins with a line end, not with a single blank.
      rcases hblank with hblank | ⟨earlier, hearlier, last, -, rfl⟩
      · refine ⟨blank, hblank, more, hmore, lineEnd, hlineEnd, rest, hrest, ?_⟩
        simp only [List.append_assoc]
      · have hranges := ahead_of_mem_cNl hearlier (last ++ (more ++ (lineEnd ++ rest)))
        simp only [← List.append_assoc] at hranges
        exact (hother hranges rfl).elim

/-- **Where blanks end.** A text of blanks, a line end and lines has a line end that no blank
    follows, with nothing but blanks before it and lines behind it. -/
theorem exists_lineEnd {front lineEnd rest : List Char} (hfront : front ∈ Production.cWsp∗)
    (hlineEnd : lineEnd ∈ Production.cNl) (hrest : rest ∈ lines) :
    ∃ front' ∈ Production.cWsp∗, ∃ lineEnd' ∈ Production.cNl, ∃ rest' ∈ lines,
      front ++ (lineEnd ++ rest) = front' ++ (lineEnd' ++ rest') ∧
        NotAhead (wsp : Rule Deferral).first rest' := by
  induction hlength : rest.length using Nat.strongRecOn generalizing front lineEnd rest with
  | ind length ih =>
    by_cases hahead : NotAhead (wsp : Rule Deferral).first rest
    · exact ⟨front, hfront, lineEnd, hlineEnd, rest, hrest, rfl, hahead⟩
    · obtain ⟨blank, hblank, more, hmore, lineEnd', hlineEnd', rest', hrest', rfl⟩ :=
        exists_wsp_of_mem_lines hrest hahead
      -- The line end and the blank behind it are one more blank.
      have hfold : lineEnd ++ blank ∈ Production.cWsp :=
        .inr (Language.append_mem_mul hlineEnd hblank)
      have hblanks : front ++ ((lineEnd ++ blank) ++ more) ∈ Production.cWsp∗ := by
        rw [← kstar_mul_kstar]
        exact Language.append_mem_mul hfront (append_mem_kstar hfold hmore)
      have hshorter : rest'.length < length := by
        have hpos := List.length_pos_iff.mpr (ne_nil_of_mem_cNl hlineEnd')
        rw [← hlength]
        simp only [List.length_append]
        omega
      obtain ⟨last, hlast, lastEnd, hlastEnd, final, hfinal, heq, hnone⟩ :=
        ih rest'.length hshorter hblanks hlineEnd' hrest' rfl
      refine ⟨last, hlast, lastEnd, hlastEnd, final, hfinal, ?_, hnone⟩
      rw [← heq]
      simp only [List.append_assoc]

end Metagrammar

end AugmentedBnf
