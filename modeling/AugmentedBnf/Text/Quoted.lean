import AugmentedBnf.Text.Printable

/-!
# Quotation

How messages name characters and strings: between quotes, with the quote, the backslash and
everything that would be unreadable escaped. A character stands between apostrophes and a string
between double quotes; each escapes only its own quote. Code points are also named by number, as
in `U+0041`.
-/

namespace AugmentedBnf.Text

/-- The digits of a number to base sixteen, in lower case. -/
def hexDigits (n : Nat) : List Char := Nat.toDigits 16 n

/-- A code point as it stands between two `quote`s. -/
def escape (quote c : Char) : String :=
  if c = '\x00' then "\\0"
  else if c = '\t' then "\\t"
  else if c = '\r' then "\\r"
  else if c = '\n' then "\\n"
  else if c = '\\' ∨ c = quote then String.ofList ['\\', c]
  else if isPrintable c then String.singleton c
  else "\\u\x7b" ++ String.ofList (hexDigits c.toNat) ++ "\x7d"

/-- A character between apostrophes. -/
def quoteChar (c : Char) : String :=
  "'" ++ escape '\x27' c ++ "'"

/-- A string between double quotes. -/
def quoteString (s : String) : String :=
  "\"" ++ String.join (s.toList.map (escape '\x22')) ++ "\""

/-- A code point by number, in upper case and with at least four digits. -/
def codePoint (c : Char) : String :=
  let digits := (hexDigits c.toNat).map Char.toUpper
  "U+" ++ String.ofList (List.replicate (4 - digits.length) '0' ++ digits)

end AugmentedBnf.Text
