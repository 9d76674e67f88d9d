import AugmentedBnf.Proofs.Derivation.LineEnding
import AugmentedBnf.Proofs.Matching.Entry
import AugmentedBnf.Proofs.Metagrammar.Recognition

/-!
# Grammar Text with Other Line Endings

Grammar text may have carriage returns in front of its line feeds. A rule that matches a text
matches it in that spelling too, as the same tree but for the line ends, and a text that is rejected
is rejected at the same line and offset.

For the second half it does not help to compare the two evaluations, since they fail at other places
on their way. A line feed alone is a failure of the first alternative of `CRLF`, and a carriage
return is one of whatever asks for a line feed. But a text is rejected where it stops being the
beginning of a word, whatever has been tried (`exists_stopsAt_of_parseAll`). Beginnings of words
correspond to each other in the two spellings. A beginning that ends between a carriage return and
its line feed corresponds to none, but no text stops there: a word that has a carriage return has
the line feed behind it.

**Main statement**: `answers_alike_withReturns`.
-/

namespace AugmentedBnf.Metagrammar

open Text (Spelling respell width withReturns)

variable {rule : Rule Deferral} {language : Language Char} {text : String}

/-! ## §1 Words -/

/-- None of the rules asks for a carriage return or a line feed but as a part of `CRLF`. -/
theorem seesLines_of_mem (hrule : rule ∈ definitions) : rule.seesLines := by
  have hchecks : ∀ rule ∈ definitions, rule.seesLines := by decide
  exact hchecks rule hrule

theorem seesLines_of_define (key : Deferral) (rule : Rule Deferral)
    (hdefine : grammar.define key = .ok rule) : rule.seesLines := by
  rw [eq_alternation_of_define hdefine]
  decide

/-- Lines may end in either way within alternations. -/
theorem speltFreely_deferred (key : Deferral) : SpeltFreely (deferred key) (deferred key) := by
  -- What spells lines of which all spellings are alternations has all alternations of it.
  let free : Language Char := {word : List Char | ∃ chars, Spelling chars word ∧
    ∀ word', Spelling chars word' → word' ∈ Production.alternation}
  have hfree : Production.alternationOver free ≤ free := by
    have hspelt : SpeltFreely (alternation.language fun _ => free)
        (alternation.language deferred) :=
      Rule.speltFreely_language (fun _ _ hword => hword) (by decide)
    rw [language_alternation, language_alternation_deferred] at hspelt
    exact hspelt
  exact fun word hword => Production.alternation_le hfree hword

/-- **Lines may end in either way within the words of a rule.** -/
theorem speltFreely_of_mem (hrule : rule ∈ definitions) :
    SpeltFreely (rule.language deferred) (rule.language deferred) :=
  Rule.speltFreely_language speltFreely_deferred (seesLines_of_mem hrule)

/-! ## §2 Places -/

section Places

variable {passed rest passed' rest' more : List Char} (hfree : SpeltFreely language language)

include hfree

/-- The other spelling of the beginning of a word is the beginning of a word. -/
theorem exists_respell_append_mem (hreturn : '\r' ∉ passed) (hword : passed ++ more ∈ language) :
    ∃ later, respell passed ++ later ∈ language := by
  obtain ⟨chars, hspelling, hall⟩ := hfree _ hword
  obtain ⟨hself, hrespell⟩ := Text.spelling_self_respell hreturn
  obtain ⟨back, rfl, hback⟩ := hself.exists_append hspelling
  exact ⟨back, hall _ (hrespell.append hback.self)⟩

/-- A word that goes on as the other spelling does is one that goes on as the text does, also where
    the other spelling goes on with a carriage return. -/
theorem exists_append_cons_mem {c d : Char} {later : List Char} (hreturn : '\r' ∉ passed)
    (hc : c ≠ '\r') (hnext : respell (c :: rest) = d :: later)
    (hword : respell passed ++ d :: more ∈ language) :
    ∃ more', passed ++ c :: more' ∈ language := by
  obtain ⟨chars, hspelling, hall⟩ := hfree _ hword
  obtain ⟨back, rfl, hback⟩ := (Text.spelling_self_respell hreturn).2.exists_append hspelling
  obtain ⟨more', rfl⟩ := hback.exists_cons hc hnext
  exact ⟨more', hall _ hspelling.self⟩

/-- **Texts in the two spellings stop at the same place**, if lines may end in either way. -/
theorem eq_respell_of_stopsAt (hreturn : '\r' ∉ passed ++ rest)
    (hspelt : respell (passed ++ rest) = passed' ++ rest') (hstops : StopsAt language passed rest)
    (hstops' : StopsAt language passed' rest') : passed' = respell passed := by
  obtain ⟨hpassed, hrest⟩ := not_or.mp (mt List.mem_append.mpr hreturn)
  rw [Text.respell_append] at hspelt
  rcases List.append_eq_append_iff.mp hspelt with ⟨ahead, hahead, hrest'⟩ | ⟨ahead, hahead, hrest'⟩
  · cases ahead with
    | nil => rw [hahead, List.append_nil]
    | cons d ahead =>
      -- Then the first text could go on.
      obtain ⟨more, hword⟩ := hstops'.viable
      rw [hahead, List.append_assoc, List.cons_append] at hword
      cases rest with
      | nil => cases hrest'
      | cons c rest =>
        have hc : c ≠ '\r' := fun hc => hrest (hc ▸ List.mem_cons_self)
        obtain ⟨later, hlater⟩ := exists_append_cons_mem hfree hpassed hc hrest' hword
        exact absurd hlater (hstops.blocked c rfl later)
  · cases ahead with
    | nil => rw [hahead, List.append_nil]
    | cons d ahead =>
      -- Then the second text could go on.
      obtain ⟨more, hword⟩ := hstops.viable
      obtain ⟨later, hlater⟩ := exists_respell_append_mem hfree hpassed hword
      rw [hahead, List.append_assoc, List.cons_append] at hlater
      exact absurd hlater (hstops'.blocked d (by rw [hrest']; rfl) _)

end Places

/-- **A text is rejected at the same line and offset** in the two spellings. -/
theorem linePosition_eq_of_rejected {failure failure' : Failure} (hrule : rule ∈ definitions)
    (hreturn : '\r' ∉ text.toList) (h : grammar.parseAll rule text = .error (.failure failure))
    (h' : grammar.parseAll rule (withReturns text) = .error (.failure failure')) :
    failure'.location.linePosition = failure.location.linePosition := by
  obtain ⟨passed, rest, rfl, hlocation, hstops⟩ := exists_stopsAt_of_parseAll hrule h
  obtain ⟨passed', rest', htext', hlocation', hstops'⟩ := exists_stopsAt_of_parseAll hrule h'
  rw [String.toList_ofList] at hreturn
  have hspelt : respell (passed ++ rest) = passed' ++ rest' := by
    have hchars := congrArg String.toList htext'
    rwa [withReturns, String.toList_ofList, String.toList_ofList, String.toList_ofList] at hchars
  obtain rfl := eq_respell_of_stopsAt (speltFreely_of_mem hrule) hreturn hspelt hstops hstops'
  rw [hlocation, hlocation', htext']
  exact Location.linePosition_respell passed rest rest'

/-! ## §3 Answers -/

/-- Answers on the two spellings of a text: production trees in the two spellings, or failures at
    the same line and offset. -/
inductive SameAnswer : Except Stop Node → Except Stop Node → Prop where
  | matched {node node' : Node} (h : node.Respelt node') : SameAnswer (.ok node) (.ok node')
  | rejected {failure failure' : Failure}
      (h : failure'.location.linePosition = failure.location.linePosition) :
      SameAnswer (.error (.failure failure)) (.error (.failure failure'))

section Spellings

variable {tree : Tree} {chars left : List Char}

theorem toList_withReturns (text : String) : (withReturns text).toList = respell text.toList :=
  String.toList_ofList

/-- What is matched is matched in the other spelling, and the production trees correspond. -/
theorem exists_respelt_of_matches (hrule : rule ∈ definitions) (hreturn : '\r' ∉ text.toList)
    (h : grammar.Matches rule text.toList tree left) :
    ∃ tree', grammar.Matches rule (withReturns text).toList tree' (respell left) ∧
      (tree.place text 0).Respelt (tree'.place (withReturns text) 0) := by
  obtain ⟨tree', htree', hrespelt⟩ := h.respelt seesLines_of_define (seesLines_of_mem hrule) hreturn
  refine ⟨tree', (toList_withReturns text).symm ▸ htree', ?_⟩
  have htext : text = .ofList ([] ++ (tree.chars ++ left)) := by
    rw [List.nil_append, ← h.chars_eq, String.ofList_toList]
  have htext' : withReturns text = .ofList ([] ++ (tree'.chars ++ respell left)) := by
    rw [List.nil_append, ← htree'.chars_eq]
    rfl
  exact hrespelt.place htext htext'

theorem fails_withReturns (hrule : rule ∈ definitions) (hreturn : '\r' ∉ text.toList)
    (h : grammar.Fails rule text.toList) : grammar.Fails rule (withReturns text).toList := by
  rw [toList_withReturns]
  exact h.respelt seesLines_of_define (seesLines_of_mem hrule) hreturn

/-- A text of which something is left is not matched as a whole in the other spelling either. -/
theorem not_matches_withReturns (hrule : rule ∈ definitions) (hreturn : '\r' ∉ text.toList)
    (h : ∀ tree, ¬ grammar.Matches rule text.toList tree []) (tree' : Tree) :
    ¬ grammar.Matches rule (withReturns text).toList tree' [] := by
  intro htree'
  rcases decides rule text.toList with ⟨tree, left, htree⟩ | hfails
  · obtain ⟨_, hrespelt, -⟩ := exists_respelt_of_matches hrule hreturn htree
    obtain ⟨-, hleft⟩ := hrespelt.unique htree'
    rw [Text.respell_eq_nil_iff] at hleft
    exact h tree (hleft ▸ htree)
  · exact htree'.not_fails (fails_withReturns hrule hreturn hfails)

end Spellings

/-! ## §4 Both spellings -/

/-- **It does not matter how lines end.** Let a text have no carriage returns, and let its other
    spelling have one in front of each line feed. Each rule of the grammar matches both spellings or
    neither, from the start of the text and as a whole. If it matches, then the production trees are
    the same, with node texts in the other spelling, except that the child of a `CRLF` node is
    `CR LF` instead of `LF`. If it does not, the failures are at the same line and byte offset. -/
theorem answers_alike_withReturns (hrule : rule ∈ definitions) (hreturn : '\r' ∉ text.toList) :
    SameAnswer (grammar.parse rule text) (grammar.parse rule (withReturns text)) ∧
      SameAnswer (grammar.parseAll rule text) (grammar.parseAll rule (withReturns text)) := by
  constructor
  · rcases parse_answers rule text with ⟨tree, left, htree, hparse⟩ | ⟨hfails, failure, hparse⟩
    · obtain ⟨tree', htree', hrespelt⟩ := exists_respelt_of_matches hrule hreturn htree
      rw [hparse, Grammar.parse_of_matches (listsKeys rule) htree']
      exact .matched hrespelt
    · have hfails' := fails_withReturns hrule hreturn hfails
      rcases parse_answers rule (withReturns text) with ⟨tree', left', htree', -⟩ |
        ⟨-, failure', hparse'⟩
      · exact absurd hfails' htree'.not_fails
      · -- The failures are those of the whole texts.
        rw [hparse, hparse']
        exact .rejected (linePosition_eq_of_rejected hrule hreturn
          (Grammar.parseAll_error_of_parse_error hparse)
          (Grammar.parseAll_error_of_parse_error hparse'))
  · rcases parseAll_answers rule text with ⟨tree, htree, hparse⟩ | ⟨hnone, failure, hparse⟩
    · obtain ⟨tree', htree', hrespelt⟩ := exists_respelt_of_matches hrule hreturn htree
      rw [hparse, Grammar.parseAll_of_matches (listsKeys rule) htree']
      exact .matched hrespelt
    · rcases parseAll_answers rule (withReturns text) with ⟨tree', htree', -⟩ |
        ⟨-, failure', hparse'⟩
      · exact absurd htree' (not_matches_withReturns hrule hreturn hnone tree')
      · rw [hparse, hparse']
        exact .rejected (linePosition_eq_of_rejected hrule hreturn hparse hparse')

/-- A group that is not closed is rejected at the same place of the second line. -/
theorem unclosed_answers_alike :
    let text := "a=(b\n c!\n"
    let text' := "a=(b\r\n c!\r\n"
    rulelist ∈ definitions ∧ '\r' ∉ text.toList ∧ withReturns text = text' ∧
      SameAnswer (grammar.parseAll rulelist text) (grammar.parseAll rulelist text') ∧
      grammar.parseAll rulelist text
        = .error (.failure (.mismatch "\")\"" "')'" '!' ⟨text, 7⟩)) ∧
      grammar.parseAll rulelist text'
        = .error (.failure (.mismatch "\")\"" "')'" '!' ⟨text', 8⟩)) ∧
      (Location.mk text 7).linePosition = ⟨2, 2⟩ ∧ (Location.mk text' 8).linePosition = ⟨2, 2⟩ := by
  intro text text'
  have hreturn : '\r' ∉ text.toList := by decide +kernel
  have hspelt : withReturns text = text' := by decide +kernel
  have hanswers := (answers_alike_withReturns rulelist_mem hreturn).2
  rw [hspelt] at hanswers
  exact ⟨rulelist_mem, hreturn, hspelt, hanswers, by decide +kernel, by decide +kernel,
    by decide +kernel, by decide +kernel⟩

end AugmentedBnf.Metagrammar
