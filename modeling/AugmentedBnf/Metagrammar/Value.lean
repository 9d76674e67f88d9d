import AugmentedBnf.Metagrammar.Literal

/-!
# Terminal Values

The notations for what a rule finally matches: strings in double quotes, with a prefix that says
whether case matters; numbers of code points, to base two, ten or sixteen, in a series or as a
range; and prose between angle brackets.
-/

namespace AugmentedBnf.Metagrammar

open CoreRules

variable {κ : Type}

/-! ## §1 Strings -/

/-- `quoted-string = DQUOTE *(%x20-21 / %x23-7E) DQUOTE`, printable ASCII without the quote. -/
def quotedString : Rule κ :=
  .concatenation "quoted-string" dquote [
    .many "*(%x20-21 / %x23-7E)"
      (.alternation "%x20-21 / %x23-7E"
        (.range "%x20-21" ' ' '!') [.range "%x23-7E" '#' '~']),
    dquote]

/-- `case-insensitive-string = [ "%i" ] quoted-string` -/
def caseInsensitiveString : Rule κ :=
  .concatenation "case-insensitive-string"
    (.optional "[ \"%i\" ]" (.concatenation "\"%i\"" (literal '%') [literal 'i']))
    [quotedString]

/-- `case-sensitive-string = "%s" quoted-string` -/
def caseSensitiveString : Rule κ :=
  .concatenation "case-sensitive-string"
    (.concatenation "\"%s\"" (literal '%') [literal 's'])
    [quotedString]

/-- `char-val = case-insensitive-string / case-sensitive-string` -/
def charVal : Rule κ := .alternation "char-val" caseInsensitiveString [caseSensitiveString]

/-! ## §2 Numbers -/

/-- The notation of numbers with the base letter `base` and digits `digit`, of which the name is
    `digitName`: one number, a series of numbers with dots between them, or a range of two. -/
def baseVal (name : String) (base : Char) (digitName : String) (digit : Rule κ) : Rule κ :=
  let digits : Rule κ := .many1 s!"1*{digitName}" digit
  let series := s!"1*(\".\" 1*{digitName})"
  let range := s!"(\"-\" 1*{digitName})"
  .concatenation name (literal base) [
    digits,
    .optional s!"[ {series} / {range} ]"
      (.alternation s!"{series} / {range}"
        (.many1 series (.concatenation s!"\".\" 1*{digitName}" (literal '.') [digits]))
        [.concatenation range (literal '-') [digits]])]

/-- `bin-val = "b" 1*BIT [ 1*("." 1*BIT) / ("-" 1*BIT) ]` -/
def binVal : Rule κ := baseVal "bin-val" 'b' "BIT" bit

/-- `dec-val = "d" 1*DIGIT [ 1*("." 1*DIGIT) / ("-" 1*DIGIT) ]` -/
def decVal : Rule κ := baseVal "dec-val" 'd' "DIGIT" digit

/-- `hex-val = "x" 1*HEXDIG [ 1*("." 1*HEXDIG) / ("-" 1*HEXDIG) ]`. The base letter may have either
    case, the digits may not. -/
def hexVal : Rule κ := baseVal "hex-val" 'x' "HEXDIG" hexdig

/-- `num-val = "%" (bin-val / dec-val / hex-val)` -/
def numVal : Rule κ :=
  .concatenation "num-val" (literal '%') [
    .alternation "bin-val / dec-val / hex-val" binVal [decVal, hexVal]]

/-! ## §3 Prose -/

/-- `prose-val = "<" *(%x20-3D / %x3F-7E) ">"`, for what ABNF cannot say. -/
def proseVal : Rule κ :=
  .concatenation "prose-val" (literal '<') [
    .many "*(%x20-3D / %x3F-7E)"
      (.alternation "%x20-3D / %x3F-7E"
        (.range "%x20-3D" ' ' '=') [.range "%x3F-7E" '?' '~']),
    literal '>']

end AugmentedBnf.Metagrammar
