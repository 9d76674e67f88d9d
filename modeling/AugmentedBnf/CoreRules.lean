import AugmentedBnf.Rule.Basic

/-!
# Core Rules

The core rules of ABNF: letters, digits, blanks, line ends and the other character classes that
grammars share. Two of them are deliberately not the standard's: a line feed alone also ends a
line, and `OCTET` means the code points up to `U+00FF`.
-/

namespace AugmentedBnf.CoreRules

variable {κ : Type}

/-! ## §1 Letters, digits and other single characters -/

/-- `ALPHA = %x41-5A / %x61-7A`, the letters A to Z in either case. -/
def alpha : Rule κ :=
  .alternation "ALPHA" (.range "%x41-5A" 'A' 'Z') [.range "%x61-7A" 'a' 'z']

/-- `BIT = "0" / "1"` -/
def bit : Rule κ := .alternation "BIT" (.character "0" '0') [.character "1" '1']

/-- `CHAR = %x01-7F`, ASCII without NUL. -/
def char : Rule κ := .range "CHAR" '\x01' '\x7f'

/-- `CTL = %x00-1F / %x7F`, the controls. -/
def ctl : Rule κ :=
  .alternation "CTL" (.range "%x00-1F" '\x00' '\x1f') [.character "%x7F" '\x7f']

/-- `DIGIT = %x30-39` -/
def digit : Rule κ := .range "DIGIT" '0' '9'

/-- `DQUOTE = %x22` -/
def dquote : Rule κ := .character "DQUOTE" '\x22'

/-- `HEXDIG = DIGIT / "A" / "B" / "C" / "D" / "E" / "F"`, the letters in upper case only. -/
def hexdig : Rule κ :=
  .alternation "HEXDIG" digit [
    .character "A" 'A',
    .character "B" 'B',
    .character "C" 'C',
    .character "D" 'D',
    .character "E" 'E',
    .character "F" 'F']

/-- `OCTET = %x00-FF`, a code point of eight bits. -/
def octet : Rule κ := .range "OCTET" '\x00' '\xff'

/-- `VCHAR = %x21-7E`, the visible characters of ASCII. -/
def vchar : Rule κ := .range "VCHAR" '\x21' '\x7e'

/-! ## §2 Blanks and line ends -/

/-- `SP = %x20` -/
def sp : Rule κ := .character "SP" ' '

/-- `HTAB = %x09` -/
def htab : Rule κ := .character "HTAB" '\t'

/-- `WSP = SP / HTAB` -/
def wsp : Rule κ := .alternation "WSP" sp [htab]

/-- `CR = %x0D` -/
def cr : Rule κ := .character "CR" '\r'

/-- `LF = %x0A` -/
def lf : Rule κ := .character "LF" '\n'

/-- `CRLF = CR LF / LF`. A line feed may stand alone and a carriage return may not. -/
def crlf : Rule κ := .alternation "CRLF" (.concatenation "CR LF" cr [lf]) [lf]

/-- `LWSP = *(WSP / CRLF WSP)`, blanks that may run over lines as long as each further line starts
    with a blank. -/
def lwsp : Rule κ :=
  .many "LWSP" (.alternation "WSP / CRLF WSP" wsp [.concatenation "CRLF WSP" crlf [wsp]])

end AugmentedBnf.CoreRules
