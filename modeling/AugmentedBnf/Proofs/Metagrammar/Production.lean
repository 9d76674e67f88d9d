import AugmentedBnf.Metagrammar.Rulelist
import AugmentedBnf.Proofs.Derivation.Language

/-!
# Productions of ABNF

ABNF's own grammar as it is written down: each production defines a language from others, where `/`
is a union, a star means any number of times, and brackets mean that something may be left out. No
order is implied. Productions refer to each other in a circle through groups and options, so
`alternation` is the least language that its production allows.

The rules of the grammar have these languages (`language_rulelist` and the equations before it), if
deferred rules are given that of `alternation`.
-/

namespace AugmentedBnf

open Computability

namespace Production

/-! ## §1 Notation -/

/-- `%xlow-high`, one code point in a range. -/
def range (low high : Char) : Language Char :=
  {chars : List Char | ∃ c, (low ≤ c ∧ c ≤ high) ∧ chars = [c]}

/-- `"c"`, a quoted character, which is a letter in either case or the character itself. -/
def quoted (c : Char) : Language Char := {[c.toLower]} + {[c.toUpper]}

/-- `1*x`, once or more. -/
def oneOrMore (language : Language Char) : Language Char := language * language∗

/-- `[x]`, once or not at all. -/
def maybe (language : Language Char) : Language Char := 1 + language

/-! ## §2 Core productions -/

/-- `ALPHA = %x41-5A / %x61-7A` -/
def alpha : Language Char := range 'A' 'Z' + range 'a' 'z'

/-- `BIT = "0" / "1"` -/
def bit : Language Char := {['0']} + {['1']}

/-- `DIGIT = %x30-39` -/
def digit : Language Char := range '0' '9'

/-- `HEXDIG = DIGIT / "A" / "B" / "C" / "D" / "E" / "F"`, in upper case only. -/
def hexdig : Language Char :=
  digit + {['A']} + {['B']} + {['C']} + {['D']} + {['E']} + {['F']}

/-- `DQUOTE = %x22` -/
def dquote : Language Char := {['\x22']}

/-- `VCHAR = %x21-7E` -/
def vchar : Language Char := range '\x21' '\x7e'

/-- `WSP = SP / HTAB` -/
def wsp : Language Char := {[' ']} + {['\t']}

/-- `CRLF = CR LF / LF` -/
def crlf : Language Char := {['\r']} * {['\n']} + {['\n']}

/-- `LWSP = *(WSP / CRLF WSP)` -/
def lwsp : Language Char := (wsp + crlf * wsp)∗

/-! ## §3 Blanks and comments -/

/-- `comment = ";" *(WSP / VCHAR) CRLF` -/
def comment : Language Char := quoted ';' * (wsp + vchar)∗ * crlf

/-- `c-nl = comment / CRLF` -/
def cNl : Language Char := comment + crlf

/-- `c-wsp = WSP / (c-nl WSP)` -/
def cWsp : Language Char := wsp + cNl * wsp

/-! ## §4 Terminal values -/

/-- `quoted-string = DQUOTE *(%x20-21 / %x23-7E) DQUOTE` -/
def quotedString : Language Char := dquote * (range '\x20' '\x21' + range '\x23' '\x7e')∗ * dquote

/-- `case-insensitive-string = [ "%i" ] quoted-string` -/
def caseInsensitiveString : Language Char := maybe (quoted '%' * quoted 'i') * quotedString

/-- `case-sensitive-string = "%s" quoted-string` -/
def caseSensitiveString : Language Char := quoted '%' * quoted 's' * quotedString

/-- `char-val = case-insensitive-string / case-sensitive-string` -/
def charVal : Language Char := caseInsensitiveString + caseSensitiveString

/-- `"base" 1*digit [ 1*("." 1*digit) / ("-" 1*digit) ]` -/
def baseVal (base : Char) (digit : Language Char) : Language Char :=
  quoted base * oneOrMore digit
    * maybe (oneOrMore (quoted '.' * oneOrMore digit) + quoted '-' * oneOrMore digit)

/-- `bin-val = "b" 1*BIT [ 1*("." 1*BIT) / ("-" 1*BIT) ]` -/
def binVal : Language Char := baseVal 'b' bit

/-- `dec-val = "d" 1*DIGIT [ 1*("." 1*DIGIT) / ("-" 1*DIGIT) ]` -/
def decVal : Language Char := baseVal 'd' digit

/-- `hex-val = "x" 1*HEXDIG [ 1*("." 1*HEXDIG) / ("-" 1*HEXDIG) ]` -/
def hexVal : Language Char := baseVal 'x' hexdig

/-- `num-val = "%" (bin-val / dec-val / hex-val)` -/
def numVal : Language Char := quoted '%' * (binVal + decVal + hexVal)

/-- `prose-val = "<" *(%x20-3D / %x3F-7E) ">"` -/
def proseVal : Language Char :=
  quoted '<' * (range '\x20' '\x3d' + range '\x3f' '\x7e')∗ * quoted '>'

/-! ## §5 Elements -/

/-- `rulename = ALPHA *(ALPHA / DIGIT / "-")` -/
def rulename : Language Char := alpha * (alpha + digit + quoted '-')∗

/-- `repeat = (*DIGIT "*" *DIGIT) / 1*DIGIT` -/
def repeatCounts : Language Char := digit∗ * quoted '*' * digit∗ + oneOrMore digit

section Nesting

-- The language of the alternations within groups and options.
variable (inner : Language Char)

/-- `group = "(" *c-wsp alternation *c-wsp ")"` -/
def group : Language Char := quoted '(' * cWsp∗ * inner * cWsp∗ * quoted ')'

/-- `option = "[" *c-wsp alternation *c-wsp "]"` -/
def option : Language Char := quoted '[' * cWsp∗ * inner * cWsp∗ * quoted ']'

/-- `element = rulename / group / option / char-val / num-val / prose-val` -/
def element : Language Char :=
  rulename + group inner + option inner + charVal + numVal + proseVal

/-- `repetition = [repeat] element` -/
def repetition : Language Char := maybe repeatCounts * element inner

/-- `concatenation = repetition *(1*c-wsp repetition)` -/
def concatenation : Language Char := repetition inner * (oneOrMore cWsp * repetition inner)∗

/-- `alternation = concatenation *(*c-wsp "/" *c-wsp concatenation)` -/
def alternationOver : Language Char :=
  concatenation inner * (cWsp∗ * quoted '/' * cWsp∗ * concatenation inner)∗

end Nesting

/-- The least language that has all alternations of alternations from it. -/
def alternation : Language Char :=
  {chars : List Char | ∀ inner, alternationOver inner ≤ inner → chars ∈ inner}

/-! ## §6 Lists of rules -/

/-- `elements = alternation *c-wsp` -/
def elements : Language Char := alternation * cWsp∗

/-- `defined-as = *c-wsp ("=/" / "=") *c-wsp` -/
def definedAs : Language Char := cWsp∗ * (quoted '=' * quoted '/' + quoted '=') * cWsp∗

/-- `rule = rulename defined-as elements c-nl` -/
def rule : Language Char := rulename * definedAs * elements * cNl

/-- `rulelist = 1*( rule / (*c-wsp c-nl) )` -/
def rulelist : Language Char := oneOrMore (rule + cWsp∗ * cNl)

/-! ## §7 The circle -/

theorem alternationOver_mono : Monotone alternationOver := by
  intro inner inner' hle
  unfold alternationOver concatenation repetition element group option
  gcongr

/-- What has all alternations of alternations from it has all alternations. -/
theorem alternation_le {inner : Language Char} (h : alternationOver inner ≤ inner) :
    alternation ≤ inner :=
  fun _ hchars => hchars inner h

/-- Alternations of alternations are alternations. -/
theorem alternationOver_le : alternationOver alternation ≤ alternation := by
  -- Each language that is closed under the production has all of `alternation`, so it has this.
  intro chars hchars inner hinner
  exact hinner (alternationOver_mono (alternation_le hinner) hchars)

/-- `alternation = concatenation *(*c-wsp "/" *c-wsp concatenation)` -/
theorem alternation_eq : alternationOver alternation = alternation :=
  le_antisymm alternationOver_le (alternation_le (alternationOver_mono alternationOver_le))

end Production

/-! ## §8 Rules and productions -/

namespace Metagrammar

open CoreRules Rule

section Values

variable {κ : Type} (calls : κ → Language Char)

@[simp] theorem language_range (name : String) (low high : Char) :
    (Rule.range name low high).language calls = Production.range low high := rfl

/-- A letter is quoted in either case, and any other character stands for itself. -/
@[simp] theorem language_literal (c : Char) :
    (literal c).language calls = Production.quoted c := by
  unfold literal Production.quoted
  by_cases hc : c.isAlpha
  · simp [hc]
  · -- Neither case differs from a character that is no letter.
    have hlower : c.toLower = c := by
      unfold Char.isAlpha Char.isUpper Char.isLower at hc
      unfold Char.toLower
      grind
    have hupper : c.toUpper = c := by
      unfold Char.isAlpha Char.isUpper Char.isLower at hc
      unfold Char.toUpper
      grind
    simp [hc, hlower, hupper]

@[simp] theorem language_alpha : alpha.language calls = Production.alpha := by
  simp [alpha, Production.alpha]

@[simp] theorem language_bit : bit.language calls = Production.bit := by
  simp [bit, Production.bit]

@[simp] theorem language_digit : digit.language calls = Production.digit := rfl

@[simp] theorem language_hexdig : hexdig.language calls = Production.hexdig := by
  simp [hexdig, Production.hexdig, sup_assoc]

@[simp] theorem language_wsp : wsp.language calls = Production.wsp := by
  simp [wsp, sp, htab, Production.wsp]

@[simp] theorem language_crlf : crlf.language calls = Production.crlf := by
  simp [crlf, cr, lf, Production.crlf]

@[simp] theorem language_lwsp : lwsp.language calls = Production.lwsp := by
  simp [lwsp, Production.lwsp]

@[simp] theorem language_comment : comment.language calls = Production.comment := by
  simp [comment, vchar, Production.comment, Production.vchar, mul_assoc]

@[simp] theorem language_cNl : cNl.language calls = Production.cNl := by
  simp [cNl, Production.cNl]

@[simp] theorem language_cWsp : cWsp.language calls = Production.cWsp := by
  simp [cWsp, Production.cWsp]

@[simp] theorem language_blanks : blanks.language calls = Production.cWsp∗ := by
  simp [blanks]

@[simp] theorem language_blanks1 :
    blanks1.language calls = Production.oneOrMore Production.cWsp := by
  simp [blanks1, Production.oneOrMore]

@[simp] theorem language_quotedString :
    quotedString.language calls = Production.quotedString := by
  simp [quotedString, dquote, Production.quotedString, Production.dquote, mul_assoc]

@[simp] theorem language_caseInsensitiveString :
    caseInsensitiveString.language calls = Production.caseInsensitiveString := by
  simp [caseInsensitiveString, Production.caseInsensitiveString, Production.maybe]

@[simp] theorem language_caseSensitiveString :
    caseSensitiveString.language calls = Production.caseSensitiveString := by
  simp [caseSensitiveString, Production.caseSensitiveString]

@[simp] theorem language_charVal : charVal.language calls = Production.charVal := by
  simp [charVal, Production.charVal]

/-- The three notations of numbers differ in base letter and digits only. -/
theorem language_baseVal (name : String) (base : Char) (digitName : String) (digit : Rule κ) :
    (baseVal name base digitName digit).language calls
      = Production.baseVal base (digit.language calls) := by
  simp [baseVal, Production.baseVal, Production.oneOrMore, Production.maybe, mul_assoc]

theorem language_numbers (name : String) :
    (Rule.alternation name binVal [decVal, hexVal]).language calls
      = Production.binVal + Production.decVal + Production.hexVal := by
  simp [binVal, decVal, hexVal, language_baseVal, Production.binVal, Production.decVal,
    Production.hexVal, sup_assoc]

@[simp] theorem language_numVal : numVal.language calls = Production.numVal := by
  rw [numVal, Rule.language_concatenation, product_cons, product_cons, product_nil, mul_one,
    language_literal, language_numbers, Production.numVal]

@[simp] theorem language_proseVal : proseVal.language calls = Production.proseVal := by
  simp [proseVal, Production.proseVal, mul_assoc]

end Values

section Elements

variable (calls : Deferral → Language Char)

@[simp] theorem language_rulename : rulename.language calls = Production.rulename := by
  simp [rulename, Production.rulename, sup_assoc]

@[simp] theorem language_repeatCounts :
    repeatCounts.language calls = Production.repeatCounts := by
  simp [repeatCounts, Production.repeatCounts, Production.oneOrMore, mul_assoc]

@[simp] theorem language_group : group.language calls = Production.group (calls .alternation) := by
  simp [group, Production.group, mul_assoc]

@[simp] theorem language_option :
    option.language calls = Production.option (calls .alternation) := by
  simp [option, Production.option, mul_assoc]

@[simp] theorem language_element :
    element.language calls = Production.element (calls .alternation) := by
  simp [element, Production.element, sup_assoc]

@[simp] theorem language_repetition :
    repetition.language calls = Production.repetition (calls .alternation) := by
  simp [repetition, Production.repetition, Production.maybe]

@[simp] theorem language_concatenation :
    concatenation.language calls = Production.concatenation (calls .alternation) := by
  simp [concatenation, Production.concatenation]

@[simp] theorem language_alternation :
    alternation.language calls = Production.alternationOver (calls .alternation) := by
  simp [alternation, Production.alternationOver, mul_assoc]

@[simp] theorem language_definedAs : definedAs.language calls = Production.definedAs := by
  simp [definedAs, Production.definedAs, mul_assoc]

end Elements

section Lists

/-- A deferred alternation has the language of alternations. -/
def deferred : Deferral → Language Char := fun _ => Production.alternation

@[simp] theorem language_elements : elements.language deferred = Production.elements := by
  simp [elements, Production.elements, deferred, Production.alternation_eq]

@[simp] theorem language_rule : rule.language deferred = Production.rule := by
  simp [rule, Production.rule, mul_assoc]

theorem language_rulelist : rulelist.language deferred = Production.rulelist := by
  simp [rulelist, Production.rulelist, Production.oneOrMore]

end Lists

end Metagrammar

end AugmentedBnf
