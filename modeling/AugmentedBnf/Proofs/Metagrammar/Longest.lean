import AugmentedBnf.Proofs.Metagrammar.Pattern

/-!
# Elements and Alternations Are Taken at Their Longest

From where an element, a sequence or a choice of these begins, the longest one that the productions
derive is matched. Within a word everything is told where to end by what comes next, as it is where
the word is followed by something that closes it. Behind the last element of the word anything may
come. There the element may go on, and so may the loops, each of which gives back the blanks that it
took if nothing follows them.

Only the blanks at the end of a right-hand side have to be looked at again. The alternation before
them might go on into them and stop halfway. It does not: a word of an alternation that ends within
blanks would be one that ends at the end of a text, and there the blanks are left whole
(`eq_nil_of_mem_blanks`).

**Main statement**: `elements_matchLongest`.
-/

namespace AugmentedBnf.Metagrammar

open Computability
open CoreRules Rule
open AugmentedBnf.Grammar (AtLeast TakesEach TakesRounds takes_atLeast_of_predictive
  takesEach_atLeast_nil takesRounds_atLeast_nil takes_of_predictive)

variable {word rest : List Char}

/-! ## §1 Elements and repetitions -/

theorem takes_group (h : word ∈ Production.group Production.alternation) (rest : List Char) :
    grammar.Takes group word rest :=
  takes_brackets nests_alternation (.inl ⟨rfl, rfl⟩) h rest

theorem takes_option (h : word ∈ Production.option Production.alternation) (rest : List Char) :
    grammar.Takes option word rest :=
  takes_brackets nests_alternation (.inr ⟨rfl, rfl⟩) h rest

theorem takes_atLeast_element (h : word ∈ Production.element Production.alternation)
    (rest : List Char) : AtLeast (grammar.Takes element) word rest := by
  obtain ⟨earlier, member, later, hmembers, hearlier, hmember⟩ :=
    exists_alternative_of_mem_element h rest
  refine AtLeast.alternation ?_ earlier later hmembers hearlier
  rcases hmember with ⟨rfl, h⟩ | ⟨rfl, h⟩ | ⟨rfl, h⟩ | ⟨hpredictive, h⟩
  · exact .of_exact (takes_group h rest)
  · exact .of_exact (takes_option h rest)
  · exact .of_exact (takes_charVal h rest)
  · exact takes_atLeast_of_predictive decides hpredictive h rest

theorem takes_atLeast_repetition (h : word ∈ Production.repetition Production.alternation)
    (rest : List Char) : AtLeast (grammar.Takes repetition) word rest := by
  obtain ⟨count, hcount, item, hitem, rfl⟩ := h
  exact (AtLeast.cons (takes_maybe_repeatCounts hcount hitem rest)
    (takes_atLeast_element hitem rest).singleton).concatenation

/-! ## §2 Loops -/

/-- A loop whose rounds may go on, but not into a further round of the word, takes at least the
    word. -/
theorem takes_atLeast_many {name : String} {element : Rule Deferral} {language : Language Char}
    (h : ∀ front ∈ language, ∀ back ∈ language∗, back ≠ [] → ∀ rest,
      grammar.Takes element front (back ++ rest))
    (hlast : ∀ front ∈ language, ∀ rest, AtLeast (grammar.Takes element) front rest)
    (hword : word ∈ language∗) (rest : List Char) :
    AtLeast (grammar.Takes (.many name element)) word rest := by
  have hrounds : ∀ count, AtLeast (grammar.TakesRounds (.atLeast 0) element count) word rest := by
    induction hlength : word.length using Nat.strongRecOn generalizing word with
    | ind length ih =>
      intro count
      have hnil : ∀ left, AtLeast (grammar.TakesRounds (.atLeast 0) element (count + 1)) [] left :=
        takesRounds_atLeast_nil decides (Nat.zero_le _) (by simp [Bounds.atLeast])
      rcases eq_nil_or_append_of_mem_kstar hword with rfl | ⟨front, hfront, hne, back, hback, rfl⟩
      · exact takesRounds_atLeast_nil decides (Nat.zero_le _) (by simp [Bounds.atLeast]) rest
      · by_cases hempty : back = []
        · subst hempty
          rw [List.append_nil]
          exact (hlast front hfront rest).round_nil hne hnil
        · have hshorter : back.length < length := by
            have hpos := List.length_pos_iff.mpr hne
            rw [← hlength, List.length_append]
            omega
          exact .round (h front hfront back hback hempty rest) hne
            (ih back.length hshorter hback rfl (count + 1))
  exact (hrounds 0).repetition

theorem takes_atLeast_further_repetition (h : word ∈ Production.oneOrMore Production.cWsp
    * Production.repetition Production.alternation) (rest : List Char) :
    AtLeast (grammar.Takes (.concatenation "1*c-wsp repetition" blanks1 [repetition])) word
      rest := by
  obtain ⟨front, hfront, item, hitem, rfl⟩ := h
  exact (AtLeast.cons (takes_blanks_before_repetition hfront hitem rest)
    (takes_atLeast_repetition hitem rest).singleton).concatenation

/-- Whether more of the word follows tells if the first repetition may go on. -/
theorem takes_atLeast_concatenation (h : word ∈ Production.concatenation Production.alternation)
    (rest : List Char) : AtLeast (grammar.Takes concatenation) word rest := by
  obtain ⟨first, hfirst, further, hfurther, rfl⟩ := h
  apply AtLeast.concatenation
  by_cases hempty : further = []
  · subst hempty
    simp only [List.append_nil]
    exact (takes_atLeast_repetition hfirst rest).cons_nil (takesEach_atLeast_nil decides rfl rfl)
  · have hahead : Ahead delimiters (further ++ rest) :=
      ahead_of_mem_further hfurther fun hnil => absurd hnil hempty
    refine .cons (takes_repetition nests_alternation hfirst hahead) (.singleton ?_)
    exact takes_atLeast_many (fun front hfront back hback hne rest =>
      takes_further_repetition nests_alternation hfront
        (ahead_of_mem_further hback fun hnil => absurd hnil hne))
      (fun front hfront => takes_atLeast_further_repetition hfront) hfurther rest

theorem takes_atLeast_further_concatenation (h : word ∈ Production.cWsp∗ * Production.quoted '/'
    * Production.cWsp∗ * Production.concatenation Production.alternation) (rest : List Char) :
    AtLeast (grammar.Takes (.concatenation "*c-wsp \"/\" *c-wsp concatenation" blanks
      [literal '/', blanks, concatenation])) word rest := by
  obtain ⟨front, hfront, item, hitem, rfl⟩ := h
  exact (AtLeast.append (takesEach_slash hfront hitem rest)
    (takes_atLeast_concatenation hitem rest).singleton).concatenation

theorem takes_atLeast_alternation (h : word ∈ Production.alternation) (rest : List Char) :
    AtLeast (grammar.Takes alternation) word rest := by
  rw [← Production.alternation_eq] at h
  obtain ⟨first, hfirst, further, hfurther, rfl⟩ := h
  apply AtLeast.concatenation
  by_cases hempty : further = []
  · subst hempty
    simp only [List.append_nil]
    exact (takes_atLeast_concatenation hfirst rest).cons_nil (takesEach_atLeast_nil decides rfl rfl)
  · have hbehind : Behind separators (further ++ rest) :=
      behind_of_mem_further hfurther fun hnil => absurd hnil hempty
    refine .cons (takes_concatenation nests_alternation hfirst hbehind) (.singleton ?_)
    exact takes_atLeast_many (fun front hfront back hback hne rest =>
      takes_further_concatenation nests_alternation hfront
        (behind_of_mem_further hback fun hnil => absurd hnil hne))
      (fun front hfront => takes_atLeast_further_concatenation hfront) hfurther rest

/-! ## §3 Blanks at the end -/

theorem language_alternation_deferred : alternation.language deferred = Production.alternation := by
  rw [language_alternation, deferred, Production.alternation_eq]

/-- **An alternation does not go on into blanks** and end there: with nothing but the blanks behind
    it, it is matched without them. -/
theorem eq_nil_of_mem_blanks {more further : List Char} (h : word ∈ Production.alternation)
    (h' : word ++ more ∈ Production.alternation) (hblanks : more ++ further ∈ Production.cWsp∗) :
    more = [] := by
  have hend : grammar.Fails cWsp [] := (Grammar.skips_or_fails rfl fun c hc => by cases hc).2 rfl
  have hbehind : Behind closers (more ++ further) :=
    ⟨more ++ further, [], (List.append_nil _).symm, hblanks, hend, fun c hc => by cases hc⟩
  obtain ⟨tree, htree⟩ := nests_alternation.takes h hbehind
  obtain ⟨more', left, rfl, tree', htree'⟩ := takes_atLeast_alternation h' further
  have hchars : tree.chars = word := Grammar.chars_of_matches htree
  have hchars' : tree'.chars = word ++ more ++ more' := Grammar.chars_of_matches htree'
  simp only [List.append_assoc] at htree htree' hchars'
  obtain ⟨rfl, -⟩ := htree.unique htree'
  have hempty : more ++ more' = [] := List.append_right_eq_self.mp (hchars' ▸ hchars)
  exact (List.append_eq_nil_iff.mp hempty).1

theorem takes_atLeast_elements (h : word ∈ Production.elements) (rest : List Char) :
    AtLeast (grammar.Takes elements) word rest := by
  obtain ⟨body, hbody, blank, hblank, rfl⟩ := h
  obtain ⟨more, left, hrest, htakes⟩ := takes_atLeast_alternation hbody (blank ++ rest)
  apply AtLeast.concatenation
  rcases List.append_eq_append_iff.mp hrest with ⟨further, rfl, rfl⟩ | ⟨further, rfl, rfl⟩
  · -- The alternation goes on over all the blanks.
    have hall : AtLeast (grammar.Takes alternation) (body ++ blank) (further ++ left) := by
      refine ⟨further, left, rfl, ?_⟩
      rwa [List.append_assoc]
    exact hall.cons_nil (takesEach_atLeast_nil decides rfl rfl)
  · -- It ends within them, so it has left them.
    have hbody' : body ++ more ∈ Production.alternation := by
      obtain ⟨tree, htree⟩ := htakes
      have hword := htree.mem_language language_le_deferred
      rwa [Grammar.chars_of_matches htree, language_alternation_deferred] at hword
    obtain rfl := eq_nil_of_mem_blanks hbody hbody' hblank
    rw [List.append_nil] at htakes
    have hblank' : further ∈ (blanks : Rule Deferral).language deferred := by
      rw [language_blanks]
      exact hblank
    exact .cons htakes (takes_atLeast_of_ends rfl hblank' rest).singleton

/-! ## §4 Longest matches -/

/-- **Elements and what is made of them are matched at their longest.** Each of these rules matches
    at the start of a text if the text begins with a word that the productions derive, and then the
    longest such word is matched, however deep groups and options are nested. -/
theorem elements_matchLongest (text : String) :
    grammar.MatchesLongest element (Production.element Production.alternation) text ∧
    grammar.MatchesLongest group (Production.group Production.alternation) text ∧
    grammar.MatchesLongest option (Production.option Production.alternation) text ∧
    grammar.MatchesLongest repetition (Production.repetition Production.alternation) text ∧
    grammar.MatchesLongest concatenation (Production.concatenation Production.alternation) text ∧
    grammar.MatchesLongest alternation Production.alternation text ∧
    grammar.MatchesLongest elements Production.elements text := by
  exact ⟨matchesLongest (language_element _) (fun _ => takes_atLeast_element) text,
    matchesLongest (language_group _) (fun _ h rest => .of_exact (takes_group h rest)) text,
    matchesLongest (language_option _) (fun _ h rest => .of_exact (takes_option h rest)) text,
    matchesLongest (language_repetition _) (fun _ => takes_atLeast_repetition) text,
    matchesLongest (language_concatenation _) (fun _ => takes_atLeast_concatenation) text,
    matchesLongest language_alternation_deferred (fun _ => takes_atLeast_alternation) text,
    matchesLongest language_elements (fun _ => takes_atLeast_elements) text⟩

end AugmentedBnf.Metagrammar
