import AugmentedBnf.Proofs.Metagrammar.Element

/-!
# Alternations Are Taken Whole

Elements make up repetitions, these make up concatenations, and these make up alternations. After a
repetition there are blanks in all cases: before another repetition, before a slash, or before
whatever closes the alternation. Both loops try the blanks and give up where something else comes
behind them, so nothing that is needed later is lost.

**Main statement**: `takes_alternation`, by induction on how deep groups are nested, which is what
the least language of the production gives.
-/

namespace AugmentedBnf.Metagrammar

open Computability
open CoreRules Rule
open AugmentedBnf.Grammar (TakesEach TakesRounds fails_of_avoids takes_of_predictive
  takesRounds_of_pending)

variable {inner : Language Char} {chars left : List Char}

/-! ## §1 Repetitions -/

/-- Counts are matched before an element. The first alternative takes the digits and then looks for
    a star, so a single count is left to the second one. -/
theorem takes_repeatCounts (h : chars ∈ Production.repeatCounts) (hleft : Ahead elementStart left) :
    grammar.Takes repeatCounts chars left := by
  rw [Production.repeatCounts, Language.mem_add] at h
  rcases h with h | h
  · have hword : chars ∈ (Rule.concatenation "*DIGIT \"*\" *DIGIT" (.many "*DIGIT" digit)
        [literal '*', .many "*DIGIT" digit]).language (fun _ : Deferral => 0) := by
      simpa [mul_assoc] using h
    exact (takes_of_predictive rfl hword hleft).alternation [] _ rfl (by simp)
  · have hdigits : chars ∈ (Rule.many "*DIGIT" digit).language (fun _ : Deferral => 0) := by
      obtain ⟨front, hfront, back, hback, rfl⟩ := h
      rw [language_many, language_digit]
      exact append_mem_kstar hfront hback
    have hcount : chars ∈ (Rule.many1 "1*DIGIT" digit).language (fun _ : Deferral => 0) := by
      rw [language_many1]
      exact h
    -- The digits are taken, and the star that should come is an element.
    have hstar : grammar.Fails (literal '*') left := fails_of_avoids rfl hleft
    have hdouble : grammar.Fails (.concatenation "*DIGIT \"*\" *DIGIT" (.many "*DIGIT" digit)
        [literal '*', .many "*DIGIT" digit]) (chars ++ left) :=
      (TakesEach.singleton (takes_of_predictive rfl hdigits hleft)).fails rfl hstar
    exact (takes_of_predictive rfl hcount hleft).alternation [_] [] rfl
      (List.forall_mem_singleton.mpr hdouble)

/-- What repetitions begin with. -/
def repetitionStart : List (Char × Char) := repetition.first

theorem ahead_of_mem_repetition (h : chars ∈ Production.repetition inner) (left : List Char) :
    Ahead repetitionStart (chars ++ left) := by
  rw [← language_repetition fun _ => inner] at h
  exact ahead_of_mem_language rfl rfl h left

/-- Counts before an element are matched. They are left out where an element begins, since that is
    no digit and no star. -/
theorem takes_maybe_repeatCounts {chars' : List Char}
    (h : chars ∈ Production.maybe Production.repeatCounts) (h' : chars' ∈ Production.element inner)
    (left : List Char) :
    grammar.Takes (.optional "[repeat]" repeatCounts) chars (chars' ++ left) := by
  rw [← language_element fun _ => inner] at h'
  have hstart : Ahead elementStart (chars' ++ left) := ahead_of_mem_language rfl rfl h' left
  rcases h with rfl | h
  · exact .optional_nil (fails_of_avoids rfl hstart)
  · have hne := h
    rw [← language_repeatCounts fun _ => 0] at hne
    exact (takes_repeatCounts h hstart).optional (ne_nil_of_mem_language rfl rfl hne)

theorem takes_repetition (hnests : Nests inner) (h : chars ∈ Production.repetition inner)
    (hleft : Ahead delimiters left) : grammar.Takes repetition chars left := by
  obtain ⟨count, hcount, item, hitem, rfl⟩ := h
  exact (TakesEach.cons (takes_maybe_repeatCounts hcount hitem left)
    (.singleton (takes_element hnests hitem hleft))).concatenation

/-! ## §2 Concatenations -/

theorem ahead_of_mem_concatenation (h : chars ∈ Production.concatenation inner)
    (left : List Char) : Ahead repetitionStart (chars ++ left) := by
  obtain ⟨first, hfirst, rest, -, rfl⟩ := h
  rw [List.append_assoc]
  exact ahead_of_mem_repetition hfirst _

/-- The loop of a concatenation ends before a separator. -/
theorem further_repetition_fails (hleft : Behind separators left) :
    grammar.Fails (.concatenation "1*c-wsp repetition" blanks1 [repetition]) left := by
  obtain ⟨front, back, rfl, hfront, hfails, hback⟩ := hleft
  rcases eq_nil_or_append_of_mem_kstar hfront with rfl | ⟨blank, hblank, -, more, hmore, rfl⟩
  · -- Without blanks the loop has nothing to begin with.
    apply (TakesEach.nil _).fails rfl
    exact Grammar.fails_repetition_iff.mpr ⟨[], back, .ended Nat.one_pos hfails⟩
  · -- The blanks are taken, and then a repetition is missing.
    have hblanks := takes_blanks1 (Language.append_mem_mul hblank hmore) hfails
    exact (TakesEach.singleton hblanks).fails rfl (fails_of_avoids rfl hback)

/-- The blanks before a repetition are taken up to it. -/
theorem takes_blanks_before_repetition {chars' : List Char}
    (h : chars ∈ Production.oneOrMore Production.cWsp) (h' : chars' ∈ Production.repetition inner)
    (left : List Char) : grammar.Takes blanks1 chars (chars' ++ left) :=
  takes_blanks1 h (fails_of_avoids rfl (ahead_of_mem_repetition h' left))

/-- Before a separator there may be further repetitions, each behind blanks. -/
theorem ahead_of_mem_further (h : chars ∈ (Production.oneOrMore Production.cWsp
    * Production.repetition inner)∗) (hleft : chars = [] → Behind separators left) :
    Ahead delimiters (chars ++ left) := by
  rcases eq_nil_or_append_of_mem_kstar h with rfl | ⟨_, ⟨blanks, hblanks, item, -, rfl⟩, -, more, -,
    rfl⟩
  · exact (hleft rfl).ahead
  · rw [← language_blanks1 fun _ : Deferral => 0] at hblanks
    have hahead := ahead_of_mem_language rfl rfl hblanks (item ++ (more ++ left))
    simp only [← List.append_assoc] at hahead
    exact hahead.mono (List.subset_append_left _ _)

theorem takes_further_repetition (hnests : Nests inner)
    (h : chars ∈ Production.oneOrMore Production.cWsp * Production.repetition inner)
    (hleft : Ahead delimiters left) :
    grammar.Takes (.concatenation "1*c-wsp repetition" blanks1 [repetition]) chars left := by
  obtain ⟨front, hfront, item, hitem, rfl⟩ := h
  apply TakesEach.concatenation
  exact .cons (takes_blanks_before_repetition hfront hitem left)
    (.singleton (takes_repetition hnests hitem hleft))

theorem takes_concatenation (hnests : Nests inner) (h : chars ∈ Production.concatenation inner)
    (hleft : Behind separators left) : grammar.Takes concatenation chars left := by
  obtain ⟨first, hfirst, rest, hrest, rfl⟩ := h
  apply TakesEach.concatenation
  refine .cons (takes_repetition hnests hfirst (ahead_of_mem_further hrest fun _ => hleft))
    (.singleton ?_)
  -- What is pending before each round are further repetitions.
  apply TakesRounds.repetition
  refine takesRounds_of_pending (· ∈ (Production.oneOrMore Production.cWsp
    * Production.repetition inner)∗) rfl ?_ (Nat.zero_le 0) hrest
  intro chars hchars
  rcases eq_nil_or_append_of_mem_kstar hchars with rfl | ⟨front, hfront, hne, back, hback, rfl⟩
  · exact .inl ⟨rfl, further_repetition_fails hleft⟩
  · exact .inr ⟨front, back, rfl, hne, hback, takes_further_repetition hnests hfront
      (ahead_of_mem_further hback fun _ => hleft)⟩

/-! ## §3 Alternations -/

/-- The loop of an alternation ends before what closes it. -/
theorem further_concatenation_fails (hleft : Behind closers left) :
    grammar.Fails (.concatenation "*c-wsp \"/\" *c-wsp concatenation" blanks
      [literal '/', blanks, concatenation]) left := by
  obtain ⟨front, back, rfl, hfront, hfails, hback⟩ := hleft
  exact (TakesEach.singleton (takes_blanks hfront hfails)).fails rfl (fails_of_avoids rfl hback)

/-- Before what closes an alternation there may be further concatenations, each behind a slash. -/
theorem behind_of_mem_further (h : chars ∈ (Production.cWsp∗ * Production.quoted '/'
    * Production.cWsp∗ * Production.concatenation inner)∗)
    (hleft : chars = [] → Behind closers left) : Behind separators (chars ++ left) := by
  rcases eq_nil_or_append_of_mem_kstar h with rfl | ⟨_, ⟨_, ⟨_, ⟨front, hfront, slash, hslash, rfl⟩,
    blanks, -, rfl⟩, item, -, rfl⟩, -, more, -, rfl⟩
  · exact (hleft rfl).separators
  · obtain rfl := eq_of_mem_quoted rfl rfl hslash
    have hahead := ahead_cons '/' (blanks ++ (item ++ (more ++ left)))
    refine ⟨front, '/' :: (blanks ++ (item ++ (more ++ left))), by simp, hfront, ?_, ?_⟩
    · exact fails_of_avoids rfl hahead
    · exact hahead.mono (List.subset_append_left _ _)

/-- The slash before a concatenation is taken with the blanks around it. -/
theorem takesEach_slash {chars' : List Char}
    (h : chars ∈ Production.cWsp∗ * Production.quoted '/' * Production.cWsp∗)
    (h' : chars' ∈ Production.concatenation inner) (left : List Char) :
    grammar.TakesEach [blanks, literal '/', blanks] chars (chars' ++ left) := by
  obtain ⟨_, ⟨before, hbefore, slash, hslash, rfl⟩, after, hafter, rfl⟩ := h
  obtain rfl := eq_of_mem_quoted rfl rfl hslash
  have hend : grammar.Fails cWsp (chars' ++ left) :=
    fails_of_avoids rfl (ahead_of_mem_concatenation h' left)
  have hstart : grammar.Fails cWsp (['/'] ++ after ++ (chars' ++ left)) :=
    fails_of_avoids rfl (ahead_cons '/' _)
  simp only [List.append_assoc before]
  apply TakesEach.cons (takes_blanks hbefore hstart)
  exact .cons (takes_literal (fun _ => rfl) hslash _) (.singleton (takes_blanks hafter hend))

theorem takes_further_concatenation (hnests : Nests inner)
    (h : chars ∈ Production.cWsp∗ * Production.quoted '/' * Production.cWsp∗
      * Production.concatenation inner) (hleft : Behind separators left) :
    grammar.Takes (.concatenation "*c-wsp \"/\" *c-wsp concatenation" blanks
      [literal '/', blanks, concatenation]) chars left := by
  obtain ⟨front, hfront, item, hitem, rfl⟩ := h
  have hitem' := TakesEach.singleton (takes_concatenation hnests hitem hleft)
  exact ((takesEach_slash hfront hitem left).append hitem').concatenation

theorem takes_alternation_of_nests (hnests : Nests inner)
    (h : chars ∈ Production.alternationOver inner) (hleft : Behind closers left) :
    grammar.Takes alternation chars left := by
  obtain ⟨first, hfirst, rest, hrest, rfl⟩ := h
  apply TakesEach.concatenation
  refine .cons (takes_concatenation hnests hfirst (behind_of_mem_further hrest fun _ => hleft))
    (.singleton ?_)
  -- What is pending before each round are further concatenations.
  apply TakesRounds.repetition
  refine takesRounds_of_pending (· ∈ (Production.cWsp∗ * Production.quoted '/' * Production.cWsp∗
    * Production.concatenation inner)∗) rfl ?_ (Nat.zero_le 0) hrest
  intro chars hchars
  rcases eq_nil_or_append_of_mem_kstar hchars with rfl | ⟨front, hfront, hne, back, hback, rfl⟩
  · exact .inl ⟨rfl, further_concatenation_fails hleft⟩
  · exact .inr ⟨front, back, rfl, hne, hback, takes_further_concatenation hnests hfront
      (behind_of_mem_further hback fun _ => hleft)⟩

/-- Alternations are matched, since those that are nested in them are. -/
theorem nests_alternation : Nests Production.alternation := by
  have hahead : ∀ {chars}, chars ∈ Production.alternation → ∀ left,
      Ahead alternation.first (chars ++ left) := by
    intro chars hchars left
    have hword : chars ∈ alternation.language deferred := by
      rw [language_alternation, deferred, Production.alternation_eq]
      exact hchars
    exact ahead_of_mem_language rfl rfl hword left
  refine ⟨hahead, fun {chars left} hchars hleft => ?_⟩
  -- The alternations that are matched have all alternations of them, so these are all.
  let taken : Language Char :=
    {chars : List Char | chars ∈ Production.alternation ∧
      ∀ left, Behind closers left → grammar.Takes alternation chars left}
  have htaken : Production.alternationOver taken ≤ taken := by
    intro chars hchars
    have hnests : Nests taken :=
      ⟨fun hnested => hahead hnested.1, fun hnested hleft => hnested.2 _ hleft⟩
    refine ⟨?_, fun left hleft => takes_alternation_of_nests hnests hchars hleft⟩
    exact Production.alternationOver_le
      (Production.alternationOver_mono (fun _ hnested => hnested.1) hchars)
  exact (Production.alternation_le htaken hchars).2 left hleft

end AugmentedBnf.Metagrammar
