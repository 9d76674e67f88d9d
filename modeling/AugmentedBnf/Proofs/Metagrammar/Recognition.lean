import AugmentedBnf.Proofs.Failure.Viable
import AugmentedBnf.Proofs.Metagrammar.Longest

/-!
# Every Rule Recognises Its Language

Not only lists of rules are recognised. Each rule of the grammar matches a text as a whole exactly
if its production derives the text (`parseAll_iff_mem_language`). So where a text is rejected can be
told from the language alone: the failure is where a word could go on, but not as the text does
(`exists_stopsAt_of_parseAll`).
-/

namespace AugmentedBnf.Metagrammar

open CoreRules
open AugmentedBnf.Grammar (AtLeast takes_of_predictive)
open Text (width)

variable {rule : Rule Deferral} {language : Language Char} {word : List Char} {text : String}
  {failure : Failure}

/-! ## §1 Answers -/

section Answers

variable (rule : Rule Deferral) (text : String)

theorem terminates_start : grammar.Terminates rule (.start text) (.fresh ()) :=
  Grammar.terminates_of_not_leftRecursive (listsKeys rule) buildable_grammar
    not_leftRecursive_grammar ⟨text, 0, rfl⟩ (.fresh ())

/-- A beginning of a text is matched as it is derived, or a failure is reported. -/
theorem parse_answers :
    (∃ tree left, grammar.Matches rule text.toList tree left ∧
      grammar.parse rule text = .ok (tree.place text 0)) ∨
    grammar.Fails rule text.toList ∧
      ∃ failure, grammar.parse rule text = .error (.failure failure) := by
  rcases decides rule text.toList with ⟨tree, left, htree⟩ | hfails
  · exact .inl ⟨tree, left, htree, Grammar.parse_of_matches (listsKeys rule) htree⟩
  · refine .inr ⟨hfails, ?_⟩
    cases hparse : grammar.parse rule text with
    | ok node =>
      obtain ⟨tree, left, htree, -⟩ := Grammar.exists_tree_of_parse hparse
      exact absurd hfails htree.not_fails
    | error stop =>
      cases stop with
      | failure failure => exact ⟨failure, rfl⟩
      | abort cause => exact absurd hparse ((terminates_start rule text).parse_ne_abort cause)

/-- A whole text is matched as it is derived, or a failure is reported. -/
theorem parseAll_answers :
    (∃ tree, grammar.Matches rule text.toList tree [] ∧
      grammar.parseAll rule text = .ok (tree.place text 0)) ∨
    (∀ tree, ¬ grammar.Matches rule text.toList tree []) ∧
      ∃ failure, grammar.parseAll rule text = .error (.failure failure) := by
  by_cases h : ∃ tree, grammar.Matches rule text.toList tree []
  · obtain ⟨tree, htree⟩ := h
    exact .inl ⟨tree, htree, Grammar.parseAll_of_matches (listsKeys rule) htree⟩
  · refine .inr ⟨not_exists.mp h, ?_⟩
    cases hparse : grammar.parseAll rule text with
    | ok node =>
      obtain ⟨tree, htree, -⟩ := Grammar.exists_tree_of_parseAll hparse
      exact absurd ⟨tree, htree⟩ h
    | error stop =>
      cases stop with
      | failure failure => exact ⟨failure, rfl⟩
      | abort cause => exact absurd hparse ((terminates_start rule text).parseAll_ne_abort cause)

end Answers

/-! ## §2 Words as whole texts -/

/-- The rule matches each of its words where nothing is behind it. -/
def Recognises (rule : Rule Deferral) : Prop :=
  ∀ word ∈ rule.language deferred, grammar.Takes rule word []

theorem ahead_nil (ranges : List (Char × Char)) : Ahead ranges [] := by
  intro c hc
  cases hc

theorem recognises_of_predictive (h : rule.predictive []) : Recognises rule :=
  fun _ hword => takes_of_predictive h hword (ahead_nil [])

theorem recognises_of_takes (hlanguage : rule.language deferred = language)
    (h : ∀ word ∈ language, grammar.Takes rule word []) : Recognises rule := by
  intro word hword
  rw [hlanguage] at hword
  exact h word hword

theorem recognises_of_atLeast (hlanguage : rule.language deferred = language)
    (h : ∀ word ∈ language, ∀ rest, AtLeast (grammar.Takes rule) word rest) :
    Recognises rule :=
  recognises_of_takes hlanguage fun word hword => (h word hword []).exact_nil

/-- The rules of the grammar that have a production. -/
def definitions : List (Rule Deferral) := [
  rulelist, Metagrammar.rule, rulename, definedAs, elements, cWsp, cNl, comment, alternation,
  concatenation, repetition, repeatCounts, element, group, option, charVal, caseInsensitiveString,
  caseSensitiveString, quotedString, numVal, binVal, decVal, hexVal, proseVal]

theorem rulelist_mem : rulelist ∈ definitions :=
  List.mem_cons_self

theorem recognises_rule : Recognises Metagrammar.rule := by
  refine recognises_of_takes language_rule ?_
  rintro word ⟨_, ⟨_, ⟨name, hname, sign, hsign, rfl⟩, _, ⟨body, hbody, blank, hblank, rfl⟩, rfl⟩,
    lineEnd, hlineEnd, rfl⟩
  have hrest : NotAhead (wsp : Rule Deferral).first [] := fun c hc => by cases hc
  simpa only [List.append_assoc] using takes_rule hname hsign hbody hblank hlineEnd hrest

/-- **Every word is matched as a whole** by the rule whose production derives it. -/
theorem recognises_of_mem (h : rule ∈ definitions) : Recognises rule := by
  have hall : ∀ rule ∈ definitions, Recognises rule := by
    unfold definitions
    simp only [List.forall_mem_cons]
    refine ⟨?rulelist, recognises_rule, ?rulename, ?definedAs, ?elements, ?cWsp, ?cNl, ?comment,
      ?alternation, ?concatenation, ?repetition, ?repeatCounts, ?element, ?group, ?option, ?charVal,
      ?caseInsensitiveString, ?caseSensitiveString, ?quotedString, ?numVal, ?binVal, ?decVal,
      ?hexVal, ?proseVal, List.forall_mem_nil _⟩
    case rulelist => exact recognises_of_takes language_rulelist fun _ => takes_rulelist
    case definedAs =>
      exact recognises_of_takes (language_definedAs _) fun _ h => takes_definedAs h (ahead_nil _)
    case elements => exact recognises_of_atLeast language_elements fun _ => takes_atLeast_elements
    case alternation =>
      exact recognises_of_atLeast language_alternation_deferred fun _ => takes_atLeast_alternation
    case concatenation =>
      exact recognises_of_atLeast (language_concatenation _) fun _ => takes_atLeast_concatenation
    case repetition =>
      exact recognises_of_atLeast (language_repetition _) fun _ => takes_atLeast_repetition
    case repeatCounts =>
      exact recognises_of_atLeast (language_repeatCounts _) fun _ => takes_atLeast_repeatCounts
    case element => exact recognises_of_atLeast (language_element _) fun _ => takes_atLeast_element
    case group => exact recognises_of_takes (language_group _) fun _ h => takes_group h []
    case option => exact recognises_of_takes (language_option _) fun _ h => takes_option h []
    case charVal => exact recognises_of_takes (language_charVal _) fun _ h => takes_charVal h []
    -- What is left ends where the next code point tells.
    all_goals exact recognises_of_predictive rfl
  exact hall rule h

/-- **A text is recognised** exactly if the production of the rule derives it. -/
theorem parseAll_iff_mem_language (hrule : rule ∈ definitions) :
    (∃ node, grammar.parseAll rule text = .ok node) ↔ text.toList ∈ rule.language deferred := by
  rw [Grammar.parseAll_ok_iff (listsKeys rule)]
  constructor
  · rintro ⟨tree, htree⟩
    have hword := htree.mem_language language_le_deferred
    rwa [htree.chars_eq, List.append_nil]
  · exact fun hword => Grammar.takes_nil_iff.mp (recognises_of_mem hrule _ hword)

/-! ## §3 Where texts are rejected -/

/-- Some word begins with what is passed, and none goes on as the text does. -/
structure StopsAt (language : Language Char) (passed rest : List Char) : Prop where
  viable : ∃ more, passed ++ more ∈ language
  blocked : ∀ c ∈ rest.head?, ∀ more, passed ++ c :: more ∉ language

/-- The least language of the production is not empty: a name is an alternation. -/
theorem exists_mem_deferred (key : Deferral) : ∃ word, word ∈ deferred key := by
  refine ⟨['a'], fun inner halternations => halternations ?_⟩
  have hname : ['a'] ∈ Production.rulename :=
    ⟨['a'], .inr ⟨'a', by decide, rfl⟩, [], Language.nil_mem_kstar _, rfl⟩
  have helement : ['a'] ∈ Production.element inner := .inl (.inl (.inl (.inl (.inl hname))))
  have hrepetition : ['a'] ∈ Production.repetition inner := ⟨[], .inl rfl, ['a'], helement, rfl⟩
  have hconcatenation : ['a'] ∈ Production.concatenation inner :=
    ⟨['a'], hrepetition, [], Language.nil_mem_kstar _, rfl⟩
  exact ⟨['a'], hconcatenation, [], Language.nil_mem_kstar _, rfl⟩

/-- No range in the rules of the grammar ends before it starts. -/
theorem isInhabited_of_mem (hrule : rule ∈ definitions) : rule.all Rule.isInhabited := by
  have hchecks : ∀ rule ∈ definitions, rule.all Rule.isInhabited := by decide
  exact hchecks rule hrule

/-- None of the rules of the grammar asks for the end of the text. -/
theorem not_contains_endOfText_of_mem (hrule : rule ∈ definitions) (name : String) :
    ¬ grammar.Contains rule (.endOfText name) := by
  have hchecks : ∀ rule ∈ definitions, rule.all Rule.isNoEnd := by decide
  exact Grammar.not_contains_endOfText (all_of_define (by decide)) (hchecks rule hrule) name

/-- **A rejected text stops at the failure**: what is before it is the beginning of a word, and with
    the code point at it no more. -/
theorem exists_stopsAt_of_parseAll (hrule : rule ∈ definitions)
    (h : grammar.parseAll rule text = .error (.failure failure)) :
    ∃ passed rest, text = .ofList (passed ++ rest) ∧ failure.location = ⟨text, width passed⟩ ∧
      StopsAt (rule.language deferred) passed rest := by
  obtain ⟨passed, rest, more, hchars, hposition, hword⟩ :=
    Grammar.viable_of_mem_missedInAll language_le_deferred exists_mem_deferred
      (all_of_define (by decide)) (Grammar.parseAll_isDeepest h).1
      (isInhabited_of_mem hrule)
  have htext : text = .ofList (passed ++ rest) := by
    rw [← hchars, String.ofList_toList]
  have hlocation : failure.location = ⟨text, width passed⟩ := by
    obtain ⟨ahead, later, -, hstands⟩ := Grammar.standsAhead_of_boundedParseAll h
    have hhere : failure.location = ⟨text, failure.location.offset⟩ := by
      rw [hstands, List.nil_append, String.ofList_toList]
    exact hhere.trans (congrArg (Location.mk text) hposition)
  refine ⟨passed, rest, htext, hlocation, ⟨more, hword⟩, fun c hc later hlater => ?_⟩
  obtain ⟨behind, rfl⟩ := List.head?_eq_some_iff.mp hc
  rw [htext] at h
  obtain ⟨failure', hrejected⟩ := Grammar.parseAll_failed_of_next (listsKeys rule)
    (not_contains_endOfText_of_mem hrule) h hposition later
  -- The text with the word in it is rejected just as well.
  rw [← String.toList_ofList (l := passed ++ c :: later)] at hlater
  obtain ⟨node, hnode⟩ := (parseAll_iff_mem_language hrule).mpr hlater
  rw [hrejected] at hnode
  cases hnode

end AugmentedBnf.Metagrammar
