import AugmentedBnf.Proofs.Metagrammar.Blank

/-!
# Elements Are Taken Whole

The elements of a rule are matched as they are written, up to what may stand behind an element: a
blank, a slash, a closing bracket or a line end. Most of them are predictive. Three are not. A
string with a prefix begins as a number does, and only the letter after the percent sign tells them
apart. A count may turn out to be the first of two, and a group holds alternations again.

The alternations within groups are those of a language `inner`, of which it is assumed that they
are matched (`Nests`). The module about rules closes the circle.
-/

namespace AugmentedBnf.Metagrammar

open Computability
open Rule
open AugmentedBnf.Grammar (TakesEach fails_of_avoids skips_or_fails takes_of_forall_predictive
  takes_of_predictive)

variable {chars left : List Char}

/-! ## §1 What may stand behind an element -/

/-- What closes an alternation: a bracket or a line end. -/
def closers : List (Char × Char) :=
  [(')', ')'), (']', ']'), (';', ';'), ('\r', '\r'), ('\n', '\n')]

/-- What ends a concatenation: a slash or what closes an alternation. -/
def separators : List (Char × Char) := [('/', '/')] ++ closers

/-- What ends an element. -/
def delimiters : List (Char × Char) := blankStart ++ separators

/-- Blanks are ahead, and behind them something from the ranges and no further blank. -/
def Behind (ranges : List (Char × Char)) (left : List Char) : Prop :=
  ∃ front back, left = front ++ back ∧ front ∈ Production.cWsp∗ ∧ grammar.Fails cWsp back ∧
    Ahead ranges back

/-- Where blanks and a separator are ahead, an element has ended. -/
theorem Behind.ahead (h : Behind separators left) : Ahead delimiters left := by
  obtain ⟨front, back, rfl, hfront, -, hback⟩ := h
  exact ahead_of_mem_blanks hfront hback

theorem Behind.separators (h : Behind closers left) : Behind separators left := by
  obtain ⟨front, back, hleft, hfront, hfails, hback⟩ := h
  exact ⟨front, back, hleft, hfront, hfails, hback.mono (List.subset_append_right _ _)⟩

/-- A quoted character is matched in either case. -/
theorem takes_literal {c : Char}
    (hpredictive : ∀ follow, (literal c : Rule Deferral).predictive follow)
    (h : chars ∈ Production.quoted c) (left : List Char) :
    grammar.Takes (literal c) chars left := by
  rw [← language_literal (fun _ : Deferral => 0)] at h
  exact takes_of_forall_predictive hpredictive h left

/-- A character that is no letter is quoted in one way. -/
theorem eq_of_mem_quoted {c : Char} (hlower : c.toLower = c) (hupper : c.toUpper = c)
    (h : chars ∈ Production.quoted c) : chars = [c] := by
  unfold Production.quoted at h
  rw [hlower, hupper] at h
  exact h.elim id id

/-! ## §2 Strings and numbers -/

section Values

variable {rest : List Char}

theorem takes_percent (rest : List Char) : grammar.Takes (literal '%') ['%'] rest :=
  takes_literal (fun _ => rfl) (.inl rfl) rest

/-- A string with another prefix is no case-insensitive one. -/
theorem caseInsensitiveString_fails (h : NotAhead (literal 'i' : Rule Deferral).first rest) :
    grammar.Fails caseInsensitiveString ('%' :: rest) := by
  have hletter : grammar.Fails (literal 'i') rest := (skips_or_fails rfl h).2 rfl
  -- Without the prefix the string has to begin with a quote.
  have hprefix : grammar.Takes (.optional "[ \"%i\" ]"
      (.concatenation "\"%i\"" (literal '%') [literal 'i'])) [] ('%' :: rest) :=
    .optional_nil ((TakesEach.singleton (takes_percent rest)).fails rfl hletter)
  have hquote : grammar.Fails quotedString ('%' :: rest) :=
    fails_of_avoids rfl (ahead_cons '%' rest)
  exact (TakesEach.singleton hprefix).fails rfl hquote

/-- A string with another prefix is no case-sensitive one. -/
theorem caseSensitiveString_fails (h : NotAhead (literal 's' : Rule Deferral).first rest) :
    grammar.Fails caseSensitiveString ('%' :: rest) := by
  have hletter : grammar.Fails (literal 's') rest := (skips_or_fails rfl h).2 rfl
  have hprefix : grammar.Fails (.concatenation "\"%s\"" (literal '%') [literal 's'])
      ('%' :: rest) :=
    (TakesEach.singleton (takes_percent rest)).fails rfl hletter
  exact (TakesEach.nil _).fails rfl hprefix

theorem takes_charVal (h : chars ∈ Production.charVal) (left : List Char) :
    grammar.Takes charVal chars left := by
  rcases h with h | h
  · rw [← language_caseInsensitiveString (fun _ : Deferral => 0)] at h
    exact (takes_of_forall_predictive (fun _ => rfl) h left).alternation [] _ rfl (by simp)
  · have hword := h
    rw [← language_caseSensitiveString (fun _ : Deferral => 0)] at hword
    have htakes : grammar.Takes caseSensitiveString chars left :=
      takes_of_forall_predictive (fun _ => rfl) hword left
    -- The letter behind the percent sign is not the one that the first alternative looks for.
    obtain ⟨_, ⟨percent, hpercent, letter, hletter, rfl⟩, quoted, -, rfl⟩ := h
    obtain rfl := eq_of_mem_quoted rfl rfl hpercent
    rw [← language_literal (fun _ : Deferral => 0)] at hletter
    have hahead := ahead_of_mem_language rfl rfl hletter (quoted ++ left)
    refine htakes.alternation [caseInsensitiveString] [] rfl (List.forall_mem_singleton.mpr ?_)
    rw [List.append_assoc, List.append_assoc]
    exact caseInsensitiveString_fails (hahead.notAhead rfl)

/-- Numbers begin as strings with a prefix do, and go on with another letter. -/
theorem charVal_fails (h : chars ∈ Production.numVal) (left : List Char) :
    grammar.Fails charVal (chars ++ left) := by
  obtain ⟨percent, hpercent, number, hnumber, rfl⟩ := h
  obtain rfl := eq_of_mem_quoted rfl rfl hpercent
  rw [← language_numbers (fun _ : Deferral => 0) ""] at hnumber
  have hahead := ahead_of_mem_language rfl rfl hnumber left
  apply Grammar.Fails.alternation
  refine List.forall_mem_cons.mpr ⟨?_, List.forall_mem_singleton.mpr ?_⟩
  · exact caseInsensitiveString_fails (hahead.notAhead rfl)
  · exact caseSensitiveString_fails (hahead.notAhead rfl)

end Values

/-! ## §3 Elements -/

/-- The alternations of the language are matched where something closes them. -/
structure Nests (inner : Language Char) : Prop where
  ahead : ∀ {chars}, chars ∈ inner → ∀ left, Ahead alternation.first (chars ++ left)
  takes : ∀ {chars left}, chars ∈ inner → Behind closers left → grammar.Takes alternation chars left

/-- Groups and options differ in name and brackets only. -/
theorem takes_brackets {inner : Language Char} (hnests : Nests inner) {name : String}
    {opening closing : Char}
    (hbrackets : opening = '(' ∧ closing = ')' ∨ opening = '[' ∧ closing = ']')
    (h : chars ∈ Production.quoted opening * Production.cWsp∗ * inner * Production.cWsp∗
      * Production.quoted closing) (left : List Char) :
    grammar.Takes (.concatenation name (literal opening)
      [blanks, .deferred "alternation" .alternation, blanks, literal closing]) chars left := by
  obtain ⟨_, ⟨_, ⟨_, ⟨front, hfront, before, hbefore, rfl⟩, nested, hnested, rfl⟩, after, hafter,
    rfl⟩, back, hback, rfl⟩ := h
  have hopening : ∀ left, grammar.Takes (literal opening) front left := by
    rcases hbrackets with ⟨rfl, -⟩ | ⟨rfl, -⟩
    · exact takes_literal (fun _ => rfl) hfront
    · exact takes_literal (fun _ => rfl) hfront
  have hclosing : grammar.Takes (literal closing) back left ∧ Ahead closers (back ++ left) ∧
      grammar.Fails cWsp (back ++ left) := by
    have hword := hback
    rw [← language_literal (fun _ : Deferral => 0)] at hword
    rcases hbrackets with ⟨-, rfl⟩ | ⟨-, rfl⟩
    · have hahead := ahead_of_mem_language rfl rfl hword left
      exact ⟨takes_literal (fun _ => rfl) hback left, hahead.mono (by decide),
        fails_of_avoids rfl hahead⟩
    · have hahead := ahead_of_mem_language rfl rfl hword left
      exact ⟨takes_literal (fun _ => rfl) hback left, hahead.mono (by decide),
        fails_of_avoids rfl hahead⟩
  obtain ⟨htakes, hahead, hfails⟩ := hclosing
  -- The closing bracket is what closes the alternation within.
  have hnested' : grammar.Takes (.deferred "alternation" .alternation) nested
      (after ++ (back ++ left)) :=
    (hnests.takes hnested ⟨after, back ++ left, rfl, hafter, hfails, hahead⟩).deferred rfl
  have hstart : grammar.Fails cWsp (nested ++ (after ++ (back ++ left))) :=
    fails_of_avoids rfl (hnests.ahead hnested _)
  simp only [List.append_assoc]
  apply TakesEach.concatenation
  apply TakesEach.cons (hopening _)
  apply TakesEach.cons
  · simp only [List.append_assoc]
    exact takes_blanks hbefore hstart
  apply TakesEach.cons
  · simp only [List.append_assoc]
    exact hnested'
  exact .cons (takes_blanks hafter hfails) (.singleton htakes)

/-- What elements begin with. -/
def elementStart : List (Char × Char) := element.first

/-- A word of an element is one of an alternative that the earlier ones leave it to. The next code
    point tells, but for numbers, which begin as strings with a prefix do. -/
theorem exists_alternative_of_mem_element {inner : Language Char}
    (h : chars ∈ Production.element inner) (left : List Char) :
    ∃ earlier member later, [rulename, group, option, charVal, numVal, proseVal]
        = earlier ++ member :: later ∧
      (∀ other ∈ earlier, grammar.Fails other (chars ++ left)) ∧
      (member = group ∧ chars ∈ Production.group inner ∨
        member = option ∧ chars ∈ Production.option inner ∨
        member = charVal ∧ chars ∈ Production.charVal ∨
        member.predictive delimiters ∧ chars ∈ member.language fun _ => inner) := by
  have havoids : ∀ (earlier : List (Rule Deferral)) {ranges}, Ahead ranges (chars ++ left) →
      earlier.all (avoids ranges) → ∀ other ∈ earlier, grammar.Fails other (chars ++ left) :=
    fun _ _ hahead hall other hother =>
      fails_of_avoids (List.all_eq_true.mp hall other hother) hahead
  rcases h with ((((h | h) | h) | h) | h) | h
  · rw [← language_rulename fun _ => inner] at h
    exact ⟨[], rulename, _, rfl, by simp, .inr (.inr (.inr ⟨rfl, h⟩))⟩
  · have hword := h
    rw [← language_group fun _ => inner] at hword
    have hearlier := havoids [rulename] (ahead_of_mem_language rfl rfl hword left) rfl
    exact ⟨[rulename], group, _, rfl, hearlier, .inl ⟨rfl, h⟩⟩
  · have hword := h
    rw [← language_option fun _ => inner] at hword
    have hearlier := havoids [rulename, group]
      (ahead_of_mem_language rfl rfl hword left) rfl
    exact ⟨[rulename, group], option, _, rfl, hearlier, .inr (.inl ⟨rfl, h⟩)⟩
  · have hword := h
    rw [← language_charVal fun _ : Deferral => inner] at hword
    have hearlier := havoids [rulename, group, option]
      (ahead_of_mem_language rfl rfl hword left) rfl
    exact ⟨[rulename, group, option], charVal, _, rfl, hearlier, .inr (.inr (.inl ⟨rfl, h⟩))⟩
  · have hword := h
    rw [← language_numVal fun _ : Deferral => inner] at hword
    have hearlier := havoids [rulename, group, option]
      (ahead_of_mem_language rfl rfl hword left) rfl
    exact ⟨[rulename, group, option] ++ [charVal], numVal, _, rfl, List.forall_mem_append.mpr
      ⟨hearlier, List.forall_mem_singleton.mpr (charVal_fails h left)⟩,
      .inr (.inr (.inr ⟨rfl, hword⟩))⟩
  · rw [← language_proseVal fun _ : Deferral => inner] at h
    have hearlier := havoids [rulename, group, option, charVal, numVal]
      (ahead_of_mem_language rfl rfl h left) rfl
    exact ⟨_, proseVal, [], rfl, hearlier, .inr (.inr (.inr ⟨rfl, h⟩))⟩

/-- An element is matched where it is followed by what may end it. -/
theorem takes_element {inner : Language Char} (hnests : Nests inner)
    (h : chars ∈ Production.element inner) (hleft : Ahead delimiters left) :
    grammar.Takes element chars left := by
  obtain ⟨earlier, member, later, hmembers, hearlier, hmember⟩ :=
    exists_alternative_of_mem_element h left
  refine Grammar.Takes.alternation ?_ earlier later hmembers hearlier
  rcases hmember with ⟨rfl, h⟩ | ⟨rfl, h⟩ | ⟨rfl, h⟩ | ⟨hpredictive, h⟩
  · exact takes_brackets hnests (.inl ⟨rfl, rfl⟩) h left
  · exact takes_brackets hnests (.inr ⟨rfl, rfl⟩) h left
  · exact takes_charVal h left
  · exact takes_of_predictive hpredictive h hleft

end AugmentedBnf.Metagrammar
