import AugmentedBnf.Proofs.Derivation.Classes
import AugmentedBnf.Proofs.Derivation.Longest
import AugmentedBnf.Proofs.Metagrammar.Alternation
import AugmentedBnf.Proofs.Metagrammar.Termination

/-!
# Names, Counts and Values as Patterns

The rules of the grammar that do not nest are known by regular expressions, with classes of code
points instead of the productions for letters and digits. A text is matched by the longest beginning
of the pattern, although the rules never give back what they took: digits before a star that is
missing are a count, a dot that no digit follows is left, and a string with a prefix is told from a
number by the letter.

**Main statement**: `patterns_matchLongest`.
-/

namespace AugmentedBnf

open Computability

namespace Pattern

open Production (oneOrMore maybe)

/-! ## §1 Patterns -/

/-- `[a-z…]`, one code point in one of the ranges. -/
def oneOf (ranges : List (Char × Char)) : Language Char :=
  {word : List Char | ∃ c, Covers ranges c ∧ word = [c]}

/-- `[A-Za-z][A-Za-z0-9-]*` -/
def rulename : Language Char :=
  oneOf [('A', 'Z'), ('a', 'z')] * (oneOf [('A', 'Z'), ('a', 'z'), ('0', '9'), ('-', '-')])∗

/-- `[0-9]*\*[0-9]*|[0-9]+` -/
def repeatCounts : Language Char :=
  (oneOf [('0', '9')])∗ * {['*']} * (oneOf [('0', '9')])∗ + oneOrMore (oneOf [('0', '9')])

/-- `"[ !#-~]*"` -/
def quotedString : Language Char :=
  {['\x22']} * (oneOf [(' ', ' '), ('!', '!'), ('#', '~')])∗ * {['\x22']}

/-- `(%[iI])?"[ !#-~]*"` -/
def caseInsensitiveString : Language Char :=
  maybe ({['%']} * oneOf [('i', 'i'), ('I', 'I')]) * quotedString

/-- `%[sS]"[ !#-~]*"` -/
def caseSensitiveString : Language Char :=
  {['%']} * oneOf [('s', 's'), ('S', 'S')] * quotedString

/-- `(%[iIsS])?"[ !#-~]*"` -/
def charVal : Language Char :=
  maybe ({['%']} * oneOf [('i', 'i'), ('I', 'I'), ('s', 's'), ('S', 'S')]) * quotedString

/-- `[bB]D+((\.D+)+|-D+)?`, with the base letter in either case and the digits of the base. -/
def baseVal (letters digits : List (Char × Char)) : Language Char :=
  oneOf letters * oneOrMore (oneOf digits)
    * maybe (oneOrMore ({['.']} * oneOrMore (oneOf digits)) + {['-']} * oneOrMore (oneOf digits))

/-- `[bB][01]+((\.[01]+)+|-[01]+)?` -/
def binVal : Language Char := baseVal [('b', 'b'), ('B', 'B')] [('0', '0'), ('1', '1')]

/-- `[dD][0-9]+((\.[0-9]+)+|-[0-9]+)?` -/
def decVal : Language Char := baseVal [('d', 'd'), ('D', 'D')] [('0', '9')]

/-- `[xX][0-9A-F]+((\.[0-9A-F]+)+|-[0-9A-F]+)?` -/
def hexVal : Language Char := baseVal [('x', 'x'), ('X', 'X')] [('0', '9'), ('A', 'F')]

/-- `%` and a number to one of the bases. -/
def numVal : Language Char := {['%']} * (binVal + decVal + hexVal)

/-- `<[ -=?-~]*>` -/
def proseVal : Language Char :=
  {['<']} * (oneOf [(' ', '='), ('?', '~')])∗ * {['>']}

/-! ## §2 Classes of code points -/

theorem oneOf_append (ranges ranges' : List (Char × Char)) :
    oneOf (ranges ++ ranges') = oneOf ranges + oneOf ranges' := by
  ext word
  constructor
  · rintro ⟨c, hc, rfl⟩
    exact (covers_append.mp hc).imp (fun hc => ⟨c, hc, rfl⟩) fun hc => ⟨c, hc, rfl⟩
  · rintro (⟨c, hc, rfl⟩ | ⟨c, hc, rfl⟩)
    · exact ⟨c, covers_append.mpr (.inl hc), rfl⟩
    · exact ⟨c, covers_append.mpr (.inr hc), rfl⟩

/-- Classes with the same code points are equal. -/
theorem oneOf_congr {ranges ranges' : List (Char × Char)}
    (h : ∀ c, Covers ranges c ↔ Covers ranges' c) : oneOf ranges = oneOf ranges' := by
  ext word
  exact exists_congr fun c => and_congr_left' (h c)

theorem range_eq_oneOf (low high : Char) : Production.range low high = oneOf [(low, high)] := by
  ext word
  simp [Production.range, oneOf, Covers]

theorem singleton_eq_oneOf (c : Char) : ({[c]} : Language Char) = oneOf [(c, c)] := by
  ext word
  constructor
  · rintro rfl
    exact ⟨c, ⟨(c, c), List.mem_singleton.mpr rfl, Char.le_refl c, Char.le_refl c⟩, rfl⟩
  · rintro ⟨d, ⟨range, hrange, hlow, hhigh⟩, rfl⟩
    obtain rfl := List.mem_singleton.mp hrange
    obtain rfl := Char.le_antisymm hlow hhigh
    rfl

/-- A quoted character is a class of its two cases. -/
theorem quoted_eq_oneOf (c : Char) :
    Production.quoted c = oneOf [(c.toLower, c.toLower), (c.toUpper, c.toUpper)] := by
  rw [Production.quoted, singleton_eq_oneOf, singleton_eq_oneOf, ← oneOf_append,
    List.singleton_append]

/-- A quoted character that is no letter stands for itself. -/
theorem quoted_eq_singleton {c : Char} (hlower : c.toLower = c) (hupper : c.toUpper = c) :
    Production.quoted c = {[c]} := by
  rw [Production.quoted, hlower, hupper, add_idem]

/-- The digits to base sixteen, of which the production names the letters one by one. -/
theorem hexdig_eq : Production.hexdig = oneOf [('0', '9'), ('A', 'F')] := by
  unfold Production.hexdig Production.digit
  simp only [range_eq_oneOf, singleton_eq_oneOf, ← oneOf_append]
  apply oneOf_congr
  intro c
  simp only [Covers, List.mem_append, List.mem_cons, List.not_mem_nil, or_false, or_assoc,
    exists_eq_or_imp, exists_eq_left, Char.le_def, UInt32.le_iff_toNat_le]
  have hvals : 'A'.val.toNat = 65 ∧ 'B'.val.toNat = 66 ∧ 'C'.val.toNat = 67 ∧
      'D'.val.toNat = 68 ∧ 'E'.val.toNat = 69 ∧ 'F'.val.toNat = 70 := by decide
  omega

/-! ## §3 Patterns and productions -/

theorem rulename_eq : Production.rulename = rulename := by
  unfold Production.rulename Production.alpha Production.digit
  rw [quoted_eq_singleton rfl rfl, singleton_eq_oneOf]
  simp only [range_eq_oneOf, ← oneOf_append]
  rfl

theorem repeatCounts_eq : Production.repeatCounts = repeatCounts := by
  unfold Production.repeatCounts Production.digit
  rw [quoted_eq_singleton rfl rfl, range_eq_oneOf]
  rfl

theorem quotedString_eq : Production.quotedString = quotedString := by
  unfold Production.quotedString Production.dquote quotedString
  have hclass : oneOf [(' ', ' '), ('!', '!'), ('#', '~')] = oneOf [(' ', '!'), ('#', '~')] := by
    apply oneOf_congr
    intro c
    simp only [Covers, List.mem_cons, List.not_mem_nil, or_false, exists_eq_or_imp,
      exists_eq_left, Char.le_def, UInt32.le_iff_toNat_le]
    have hvals : ' '.val.toNat = 32 ∧ '!'.val.toNat = 33 := by decide
    omega
  rw [hclass, range_eq_oneOf, range_eq_oneOf, ← oneOf_append]
  rfl

theorem caseInsensitiveString_eq : Production.caseInsensitiveString = caseInsensitiveString := by
  unfold Production.caseInsensitiveString
  rw [quoted_eq_singleton (c := '%') rfl rfl, quoted_eq_oneOf, quotedString_eq]
  rfl

theorem caseSensitiveString_eq : Production.caseSensitiveString = caseSensitiveString := by
  unfold Production.caseSensitiveString
  rw [quoted_eq_singleton (c := '%') rfl rfl, quoted_eq_oneOf, quotedString_eq]
  rfl

/-- The letters of the two kinds of strings together are those of the pattern. -/
theorem charVal_eq : Production.charVal = charVal := by
  unfold Production.charVal charVal
  rw [caseInsensitiveString_eq, caseSensitiveString_eq, caseInsensitiveString,
    caseSensitiveString, ← add_mul, maybe, maybe, add_assoc, ← mul_add, ← oneOf_append]
  rfl

/-- The base letter is quoted, and the digits are a class. -/
theorem baseVal_eq {base : Char} {digit : Language Char} {letters digits : List (Char × Char)}
    (hletters : Production.quoted base = oneOf letters) (hdigits : digit = oneOf digits) :
    Production.baseVal base digit = baseVal letters digits := by
  unfold Production.baseVal baseVal
  rw [hletters, hdigits, quoted_eq_singleton (c := '.') rfl rfl,
    quoted_eq_singleton (c := '-') rfl rfl]

theorem binVal_eq : Production.binVal = binVal := by
  refine baseVal_eq (quoted_eq_oneOf 'b') ?_
  rw [Production.bit, singleton_eq_oneOf, singleton_eq_oneOf, ← oneOf_append,
    List.singleton_append]

theorem decVal_eq : Production.decVal = decVal :=
  baseVal_eq (quoted_eq_oneOf 'd') (range_eq_oneOf '0' '9')

theorem hexVal_eq : Production.hexVal = hexVal :=
  baseVal_eq (quoted_eq_oneOf 'x') hexdig_eq

theorem numVal_eq : Production.numVal = numVal := by
  unfold Production.numVal
  rw [quoted_eq_singleton rfl rfl, binVal_eq, decVal_eq, hexVal_eq]
  rfl

theorem proseVal_eq : Production.proseVal = proseVal := by
  unfold Production.proseVal
  rw [quoted_eq_singleton (c := '<') rfl rfl, quoted_eq_singleton (c := '>') rfl rfl,
    range_eq_oneOf, range_eq_oneOf, ← oneOf_append]
  rfl

end Pattern

/-! ## §4 Matching -/

namespace Metagrammar

open CoreRules Rule
open AugmentedBnf.Grammar (AtLeast TakesEach fails_of_avoids takes_atLeast_of_predictive
  takes_of_predictive matchesLongest_of_atLeast)

variable {rule : Rule Deferral} {language : Language Char} {word : List Char}

/-- A rule of the grammar that takes at least each word matches the longest one. -/
theorem matchesLongest (hlanguage : rule.language deferred = language)
    (h : ∀ word ∈ language, ∀ rest, AtLeast (grammar.Takes rule) word rest) (text : String) :
    grammar.MatchesLongest rule language text :=
  matchesLongest_of_atLeast (listsKeys rule) language_le_deferred hlanguage h text

/-- A rule that ends words is told where to end by nothing, so only its own choices matter. -/
theorem takes_atLeast_of_ends (hpredictive : rule.predictive [])
    (hword : word ∈ rule.language deferred) (rest : List Char) :
    AtLeast (grammar.Takes rule) word rest :=
  takes_atLeast_of_predictive decides hpredictive hword rest

theorem matchesLongest_of_predictive (hpredictive : rule.predictive [])
    (hlanguage : rule.language deferred = language) (text : String) :
    grammar.MatchesLongest rule language text :=
  matchesLongest hlanguage
    (fun _ hword => takes_atLeast_of_ends hpredictive (hlanguage ▸ hword)) text

/-- Two counts with a star between them. -/
def countRange : Rule Deferral :=
  .concatenation "*DIGIT \"*\" *DIGIT" (.many "*DIGIT" digit)
    [literal '*', .many "*DIGIT" digit]

/-- A single count may have a star behind it. Then the first alternative takes the digits with the
    star and what follows, which is more. -/
theorem takes_atLeast_repeatCounts (h : word ∈ Production.repeatCounts) (rest : List Char) :
    AtLeast (grammar.Takes repeatCounts) word rest := by
  have hrange : ∀ {chars}, chars ∈ countRange.language deferred ↔
      chars ∈ Production.digit∗ * Production.quoted '*' * Production.digit∗ := by
    simp [countRange, mul_assoc]
  rcases h with h | h
  · have htakes : AtLeast (grammar.Takes countRange) word rest :=
      takes_atLeast_of_ends rfl (hrange.mpr h) rest
    exact htakes.alternation [] _ rfl (by simp)
  · have hcount : word ∈ (Rule.many1 "1*DIGIT" digit).language deferred := by
      rw [language_many1]
      exact h
    rcases decides countRange (word ++ rest) with ⟨tree, left, htree⟩ | hfails
    · refine AtLeast.alternation ?_ [] _ rfl (by simp)
      rcases List.append_eq_append_iff.mp htree.chars_eq with ⟨more, hmore, hrest⟩ |
        ⟨more, hmore, -⟩
      · refine ⟨more, left, hrest, tree, ?_⟩
        rwa [List.append_assoc, ← hrest]
      · -- Otherwise there would be a star among the digits.
        obtain ⟨_, ⟨front, -, star, hstar, rfl⟩, back, -, hchars⟩ :=
          hrange.mp (htree.mem_language language_le_deferred)
        obtain rfl := eq_of_mem_quoted rfl rfl hstar
        have hmem : '*' ∈ word := by
          rw [hmore, ← hchars]
          simp
        have hdigits : word ∈ within [('0', '9')] := language_le_within rfl hcount
        exact absurd (hdigits '*' hmem) (by decide)
    · exact (takes_atLeast_of_ends rfl hcount rest).alternation [countRange] [] rfl
        (List.forall_mem_singleton.mpr hfails)

/-- **Names, counts and values are matched by the longest beginning of their patterns.** Matching
    succeeds if the text begins with a word of the pattern, and then the longest one is matched. The
    text as a whole is matched if it is a word of the pattern. -/
theorem patterns_matchLongest (text : String) :
    grammar.MatchesLongest rulename Pattern.rulename text ∧
    grammar.MatchesLongest repeatCounts Pattern.repeatCounts text ∧
    grammar.MatchesLongest quotedString Pattern.quotedString text ∧
    grammar.MatchesLongest caseInsensitiveString Pattern.caseInsensitiveString text ∧
    grammar.MatchesLongest caseSensitiveString Pattern.caseSensitiveString text ∧
    grammar.MatchesLongest charVal Pattern.charVal text ∧
    grammar.MatchesLongest binVal Pattern.binVal text ∧
    grammar.MatchesLongest decVal Pattern.decVal text ∧
    grammar.MatchesLongest hexVal Pattern.hexVal text ∧
    grammar.MatchesLongest numVal Pattern.numVal text ∧
    grammar.MatchesLongest proseVal Pattern.proseVal text := by
  refine ⟨matchesLongest_of_predictive rfl ?_ text, ?_, matchesLongest_of_predictive rfl ?_ text,
    matchesLongest_of_predictive rfl ?_ text, matchesLongest_of_predictive rfl ?_ text, ?_,
    matchesLongest_of_predictive rfl ?_ text, matchesLongest_of_predictive rfl ?_ text,
    matchesLongest_of_predictive rfl ?_ text, matchesLongest_of_predictive rfl ?_ text,
    matchesLongest_of_predictive rfl ?_ text⟩
  · rw [language_rulename, Pattern.rulename_eq]
  · rw [← Pattern.repeatCounts_eq]
    exact matchesLongest (language_repeatCounts _) (fun _ => takes_atLeast_repeatCounts) text
  · rw [language_quotedString, Pattern.quotedString_eq]
  · rw [language_caseInsensitiveString, Pattern.caseInsensitiveString_eq]
  · rw [language_caseSensitiveString, Pattern.caseSensitiveString_eq]
  · -- A string is matched whatever comes behind it.
    rw [← Pattern.charVal_eq]
    exact matchesLongest (language_charVal _)
      (fun _ hword rest => .of_exact (takes_charVal hword rest)) text
  · rw [binVal, language_baseVal, language_bit, ← Production.binVal, Pattern.binVal_eq]
  · rw [decVal, language_baseVal, language_digit, ← Production.decVal, Pattern.decVal_eq]
  · rw [hexVal, language_baseVal, language_hexdig, ← Production.hexVal, Pattern.hexVal_eq]
  · rw [language_numVal, Pattern.numVal_eq]
  · rw [language_proseVal, Pattern.proseVal_eq]

end Metagrammar

end AugmentedBnf
