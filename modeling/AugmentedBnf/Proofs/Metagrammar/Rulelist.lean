import AugmentedBnf.Proofs.Derivation.Adequacy
import AugmentedBnf.Proofs.Grammar.Reach
import AugmentedBnf.Proofs.Metagrammar.Alternation

/-!
# Grammar Text Is Recognised

A text is recognised as a list of rules exactly if the productions of ABNF say that it is one
(`parseAll_rulelist_iff`), although alternatives are tried in order and repetitions give nothing
back.

The lines that an evaluation sees are not always those of the productions. A blank line that begins
with a blank is taken for a part of the line before it, which then ends where the blank line does.
So the lines of a text are found one after the other (`exists_takes_line`), and each time the text
behind is again one of lines.
-/

namespace AugmentedBnf.Metagrammar

open Computability
open CoreRules Rule
open AugmentedBnf.Grammar (Takes TakesEach TakesRounds fails_of_avoids takes_of_predictive
  takesRounds_of_pending)

variable {chars left : List Char}

/-! ## §1 Rules -/

/-- The sign of a definition. -/
def definitionSign : Rule Deferral :=
  .alternation "\"=/\" / \"=\"" (.concatenation "\"=/\"" (literal '=') [literal '/']) [literal '=']

theorem language_definitionSign (calls : Deferral → Language Char) :
    definitionSign.language calls
      = Production.quoted '=' * Production.quoted '/' + Production.quoted '=' := by
  simp [definitionSign]

/-- The sign is matched as it is written, if no slash comes behind a mere equals sign. -/
theorem takes_definitionSign
    (h : chars ∈ Production.quoted '=' * Production.quoted '/' + Production.quoted '=')
    (hleft : chars = ['='] → grammar.Fails (literal '/') left) :
    grammar.Takes definitionSign chars left := by
  have hequals : ∀ left, grammar.Takes (literal '=') ['='] left :=
    takes_literal (fun _ => rfl) (.inl rfl)
  rcases h with ⟨equals, hmem, slash, hslash, rfl⟩ | hmem
  · obtain rfl := eq_of_mem_quoted rfl rfl hmem
    have hboth := TakesEach.cons (hequals _)
      (.singleton (takes_literal (fun _ => rfl) hslash left))
    exact hboth.concatenation.alternation [] _ rfl (by simp)
  · obtain rfl := eq_of_mem_quoted rfl rfl hmem
    have hmissing : grammar.Fails (.concatenation "\"=/\"" (literal '=') [literal '/'])
        (['='] ++ left) :=
      (TakesEach.singleton (hequals left)).fails rfl (hleft rfl)
    exact (hequals left).alternation [_] [] rfl (List.forall_mem_singleton.mpr hmissing)

/-- No blank begins where a sign does. -/
theorem cWsp_fails_of_definitionSign
    (h : chars ∈ Production.quoted '=' * Production.quoted '/' + Production.quoted '=')
    (left : List Char) : grammar.Fails cWsp (chars ++ left) := by
  rw [← language_definitionSign fun _ => 0] at h
  exact fails_of_avoids rfl (ahead_of_mem_language rfl rfl h left)

/-- The sign of a definition is matched before the definition. A slash behind it belongs to it,
    since no definition begins with one. -/
theorem takes_definedAs (h : chars ∈ Production.definedAs) (hleft : Ahead repetitionStart left) :
    grammar.Takes definedAs chars left := by
  obtain ⟨_, ⟨before, hbefore, sign, hsign, rfl⟩, after, hafter, rfl⟩ := h
  have hend : grammar.Fails cWsp left := fails_of_avoids rfl hleft
  have hslash : grammar.Fails (literal '/') (after ++ left) :=
    fails_of_avoids rfl (ahead_of_mem_blanks hafter hleft)
  simp only [List.append_assoc]
  apply TakesEach.concatenation
  apply TakesEach.cons
  · simp only [List.append_assoc]
    exact takes_blanks hbefore (cWsp_fails_of_definitionSign hsign (after ++ left))
  · exact .cons (takes_definitionSign hsign fun _ => hslash)
      (.singleton (takes_blanks hafter hend))

section Lines

variable {blank lineEnd rest : List Char}

/-- Blanks and a line end close an alternation, if no blank follows. -/
theorem behind_of_lineEnd (hblank : blank ∈ Production.cWsp∗) (hlineEnd : lineEnd ∈ Production.cNl)
    (hrest : NotAhead (wsp : Rule Deferral).first rest) :
    Behind closers (blank ++ (lineEnd ++ rest)) :=
  ⟨blank, lineEnd ++ rest, rfl, hblank, cWsp_fails_of_lineEnd hlineEnd hrest,
    (ahead_of_mem_cNl hlineEnd rest).mono (by decide)⟩

/-- Blanks and a line end are matched, if no blank follows. -/
theorem takes_lineEnd (hblank : blank ∈ Production.cWsp∗) (hlineEnd : lineEnd ∈ Production.cNl)
    (hrest : NotAhead (wsp : Rule Deferral).first rest) :
    grammar.TakesEach [blanks, cNl] (blank ++ lineEnd) rest :=
  .cons (takes_blanks hblank (cWsp_fails_of_lineEnd hlineEnd hrest))
    (.singleton (takes_cNl hlineEnd rest))

theorem takes_rule {name sign body : List Char} (hname : name ∈ Production.rulename)
    (hsign : sign ∈ Production.definedAs) (hbody : body ∈ Production.alternation)
    (hblank : blank ∈ Production.cWsp∗) (hlineEnd : lineEnd ∈ Production.cNl)
    (hrest : NotAhead (wsp : Rule Deferral).first rest) :
    grammar.Takes rule (name ++ (sign ++ ((body ++ blank) ++ lineEnd))) rest := by
  have hclosed := behind_of_lineEnd hblank hlineEnd hrest
  have hbody' : grammar.Takes alternation body (blank ++ (lineEnd ++ rest)) :=
    nests_alternation.takes hbody hclosed
  have hblank' : grammar.Takes blanks blank (lineEnd ++ rest) :=
    takes_blanks hblank (cWsp_fails_of_lineEnd hlineEnd hrest)
  have helements : grammar.Takes elements (body ++ blank) (lineEnd ++ rest) :=
    (TakesEach.cons hbody' (.singleton hblank')).concatenation
  have hsign' : grammar.Takes definedAs sign (((body ++ blank) ++ lineEnd) ++ rest) := by
    refine takes_definedAs hsign ?_
    simp only [List.append_assoc]
    exact nests_alternation.ahead hbody _
  have hname' : grammar.Takes rulename name ((sign ++ ((body ++ blank) ++ lineEnd)) ++ rest) := by
    rw [← language_rulename fun _ => 0] at hname
    rw [← language_definedAs fun _ => 0] at hsign
    rw [List.append_assoc]
    exact takes_of_predictive rfl hname (ahead_of_mem_language rfl rfl hsign _)
  apply TakesEach.concatenation
  exact .cons hname' (.cons hsign' (.cons helements (.singleton (takes_cNl hlineEnd rest))))

end Lines

/-! ## §2 Lists of rules -/

/-- **A line is matched** at the beginning of any text of lines, and lines are left. -/
theorem exists_takes_line (h : chars ∈ lines) : chars = [] ∨ ∃ front back, chars = front ++ back ∧
    front ≠ [] ∧ back ∈ lines ∧ grammar.Takes (.alternation "rule / (*c-wsp c-nl)" rule
      [.concatenation "*c-wsp c-nl" blanks [cNl]]) front back := by
  rcases eq_nil_or_append_of_mem_kstar h with rfl | ⟨line, hline, -, more, hmore, rfl⟩
  · exact .inl rfl
  right
  rcases hline with ⟨_, ⟨_, ⟨name, hname, sign, hsign, rfl⟩, _, ⟨body, hbody, blank, hblank, rfl⟩,
    rfl⟩, lineEnd, hlineEnd, rfl⟩ | ⟨blank, hblank, lineEnd, hlineEnd, rfl⟩
  · -- A rule, with all the blank lines behind it that begin with a blank.
    obtain ⟨blank', hblank', lineEnd', hlineEnd', rest, hrest, heq, hnone⟩ :=
      exists_lineEnd hblank hlineEnd hmore
    refine ⟨name ++ (sign ++ ((body ++ blank') ++ lineEnd')), rest, ?_, ?_, hrest, ?_⟩
    · simp only [List.append_assoc, heq]
    · intro hempty
      exact ne_nil_of_mem_cNl hlineEnd' (by simp_all)
    · exact (takes_rule hname hsign hbody hblank' hlineEnd' hnone).alternation [] _ rfl (by simp)
  · -- A blank line and such lines behind it. No name begins one, so it is no rule.
    obtain ⟨blank', hblank', lineEnd', hlineEnd', rest, hrest, heq, hnone⟩ :=
      exists_lineEnd hblank hlineEnd hmore
    refine ⟨blank' ++ lineEnd', rest, ?_, ?_, hrest, ?_⟩
    · simp only [List.append_assoc, heq]
    · intro hempty
      exact ne_nil_of_mem_cNl hlineEnd' (List.append_eq_nil_iff.mp hempty).2
    · have hahead := ahead_of_mem_blanks hblank' (ahead_of_mem_cNl hlineEnd' rest)
      rw [← List.append_assoc] at hahead
      exact (takes_lineEnd hblank' hlineEnd' hnone).concatenation.alternation_of_avoids [rule] []
        rfl rfl hahead

/-- Lists of rules are matched up to the end of the text. -/
theorem takes_rulelist (h : chars ∈ Production.rulelist) : grammar.Takes rulelist chars [] := by
  have hlines : chars ∈ lines := by
    obtain ⟨line, hline, more, hmore, rfl⟩ := h
    exact append_mem_kstar hline hmore
  have hne : chars ≠ [] := by
    rw [← language_rulelist] at h
    exact ne_nil_of_mem_language rfl rfl h
  have hround : ∀ {chars}, chars ∈ lines → chars = [] ∨ ∃ front back, chars = front ++ back ∧
      front ≠ [] ∧ back ∈ lines ∧ grammar.Takes (.alternation "rule / (*c-wsp c-nl)" rule
        [.concatenation "*c-wsp c-nl" blanks [cNl]]) front (back ++ []) := by
    intro chars hchars
    simpa only [List.append_nil] using exists_takes_line hchars
  rcases hround hlines with rfl | ⟨line, more, rfl, hline, hmore, htakes⟩
  · exact absurd rfl hne
  -- The first line counts, and after it there may be any number of lines.
  apply TakesRounds.repetition
  apply TakesRounds.cons htakes hline
  refine takesRounds_of_pending (· ∈ lines) rfl (fun chars hchars => ?_) (Nat.le_refl 1) hmore
  refine (hround hchars).imp_left fun hempty => ⟨hempty, ?_⟩
  exact (Grammar.skips_or_fails rfl (fun c hc => by cases hc)).2 rfl

/-! ## §3 Recognition -/

/-- The grammar defines nothing but alternations. -/
theorem eq_alternation_of_define {key : Deferral} {rule : Rule Deferral}
    (hdefine : grammar.define key = .ok rule) : rule = alternation := by
  cases key
  exact (Except.ok.inj hdefine).symm

/-- The least language of the production has the words of the rule that is deferred to. -/
theorem language_le_deferred (key : Deferral) (rule : Rule Deferral)
    (hdefine : grammar.define key = .ok rule) : rule.language deferred ≤ deferred key := by
  rw [eq_alternation_of_define hdefine, language_alternation]
  exact Production.alternationOver_le

/-- A check of alternations is one of all that the grammar defines. -/
theorem all_of_define {check : Rule Deferral → Bool} (h : alternation.all check) (key : Deferral)
    (rule : Rule Deferral) (hdefine : grammar.define key = .ok rule) : rule.all check := by
  rwa [eq_alternation_of_define hdefine]

/-- There is one key, and the grammar lists it. -/
theorem keys_subset (rule : Rule Deferral) : rule.keys ⊆ grammar.keys := by
  rintro ⟨⟩ -
  exact List.mem_singleton.mpr rfl

theorem closed_grammar : grammar.Closed :=
  fun _ _ rule _ => keys_subset rule

theorem listsKeys (rule : Rule Deferral) : grammar.ListsKeys rule :=
  ⟨closed_grammar, keys_subset rule⟩

/-- **Grammar text is recognised** exactly if the productions of ABNF derive it. -/
theorem parseAll_rulelist_iff (text : String) :
    (∃ node, grammar.parseAll rulelist text = .ok node) ↔ text.toList ∈ Production.rulelist := by
  rw [Grammar.parseAll_ok_iff (listsKeys rulelist)]
  constructor
  · -- What is matched is derived, whatever is chosen.
    rintro ⟨tree, htree⟩
    have hword := htree.mem_language language_le_deferred
    rw [language_rulelist] at hword
    rwa [htree.chars_eq, List.append_nil]
  · -- What is derived is matched, although choices are not taken back.
    intro hword
    have htakes := takes_rulelist hword
    unfold Takes at htakes
    rwa [List.append_nil] at htakes

end AugmentedBnf.Metagrammar
