import AugmentedBnf.Proofs.Text.Width
import AugmentedBnf.Text.Quoted

/-!
# What Quotations Tell

A quoted character and a code point named by number can be read back. `readEscape` and `readNumber`
find what was written, so different characters are written differently. A message that says in these
ways which code points a rule accepts leaves no doubt about it.

**Main statements**: `quoteChar_injective` and `codePoint_injective`, and `codePointRange_injective`
for the two ends of a range.
-/

namespace AugmentedBnf.Text

/-! ## §1 Hexadecimal digits -/

/-- The value of a hexadecimal digit, in either case. -/
def digitValue (digit : Char) : Nat :=
  if digit.isDigit then digit.toNat - '0'.toNat else 10 + (digit.toLower.toNat - 'a'.toNat)

/-- The number that hexadecimal digits stand for. -/
def readNumber (digits : List Char) : Nat :=
  digits.foldl (fun number digit => 16 * number + digitValue digit) 0

/-- The last digit of a number, and those before it. -/
theorem hexDigits_eq (n : Nat) : hexDigits n
    = if n < 16 then [n.digitChar] else hexDigits (n / 16) ++ [(n % 16).digitChar] :=
  Nat.toDigits_eq_if (by decide)

theorem mem_hexDigits {n : Nat} {c : Char} (h : c ∈ hexDigits n) :
    ∃ digit < 16, c = Nat.digitChar digit := by
  induction n using Nat.strongRecOn with
  | ind n ih =>
    rw [hexDigits_eq] at h
    split at h
    next hlt => exact ⟨n, hlt, List.mem_singleton.mp h⟩
    next hlt =>
      rcases List.mem_append.mp h with h | h
      · exact ih (n / 16) (by omega) h
      · exact ⟨n % 16, by omega, List.mem_singleton.mp h⟩

/-- A number is read back from its digits, also if they are written in another way that keeps their
    values. -/
theorem readNumber_map_hexDigits (write : Char → Char)
    (hwrite : ∀ digit < 16, digitValue (write (Nat.digitChar digit)) = digit) (n : Nat) :
    readNumber ((hexDigits n).map write) = n := by
  induction n using Nat.strongRecOn with
  | ind n ih =>
    rw [hexDigits_eq]
    split
    next hlt => simpa [readNumber] using hwrite n hlt
    next hlt =>
      -- What was read before the last digit is the number without it.
      have hfront := ih (n / 16) (by omega)
      have hlast := hwrite (n % 16) (by omega)
      rw [List.map_append, readNumber, List.foldl_append]
      rw [readNumber] at hfront
      simp only [hfront, List.map_cons, List.map_nil, List.foldl_cons, List.foldl_nil, hlast]
      omega

theorem readNumber_zeros (count : Nat) (digits : List Char) :
    readNumber (List.replicate count '0' ++ digits) = readNumber digits := by
  induction count with
  | zero => rfl
  | succ count ih => exact ih

/-! ## §2 Code points by number -/

/-- The digits that name a code point. -/
def codePointDigits (c : Char) : List Char :=
  let digits := (hexDigits c.toNat).map Char.toUpper
  List.replicate (4 - digits.length) '0' ++ digits

theorem toList_codePoint (c : Char) : (codePoint c).toList = 'U' :: '+' :: codePointDigits c := by
  simp [codePoint, codePointDigits]

theorem readNumber_codePointDigits (c : Char) : readNumber (codePointDigits c) = c.toNat := by
  rw [codePointDigits, readNumber_zeros]
  exact readNumber_map_hexDigits Char.toUpper (by decide) c.toNat

theorem codePointDigits_injective : Function.Injective codePointDigits := by
  intro c d h
  have hnumber := congrArg readNumber h
  rw [readNumber_codePointDigits, readNumber_codePointDigits] at hnumber
  exact Char.toNat_inj.mp hnumber

/-- **A code point is told by its number.** -/
theorem codePoint_injective : Function.Injective codePoint := by
  intro c d h
  have hdigits := congrArg String.toList h
  simp only [toList_codePoint, List.cons.injEq, true_and] at hdigits
  exact codePointDigits_injective hdigits

/-- There is no dot in the digits. -/
theorem dot_not_mem_codePointDigits (c : Char) : '.' ∉ codePointDigits c := by
  intro hdot
  rcases List.mem_append.mp hdot with hdot | hdot
  · exact absurd (List.eq_of_mem_replicate hdot) (by decide)
  · obtain ⟨digit, hdigit, hupper⟩ := List.mem_map.mp hdot
    obtain ⟨value, hvalue, rfl⟩ := mem_hexDigits hdigit
    have hdigits : ∀ value < 16, (Nat.digitChar value).toUpper ≠ '.' := by decide
    exact hdigits value hvalue hupper

/-- **A range of code points is told by the numbers of its ends.** -/
theorem codePointRange_injective {low high low' high' : Char}
    (h : codePoint low ++ "..=" ++ codePoint high = codePoint low' ++ "..=" ++ codePoint high') :
    low = low' ∧ high = high' := by
  have hchars := congrArg String.toList h
  have hdots : "..=".toList = ['.', '.', '='] := rfl
  simp only [String.toList_append, toList_codePoint, hdots, List.cons_append, List.nil_append,
    List.append_assoc, List.cons.injEq, true_and] at hchars
  -- The first dot is behind the number of the first end.
  obtain ⟨hlow, hrest⟩ := eq_of_cut (dot_not_mem_codePointDigits low)
    (dot_not_mem_codePointDigits low') hchars
  simp only [List.cons.injEq, true_and] at hrest
  exact ⟨codePointDigits_injective hlow, codePointDigits_injective hrest⟩

/-! ## §3 Quoted characters -/

/-- The character that an escape stands for. -/
def readEscape : List Char → Char
  | [] => '\x00'
  | [c] => c
  | [_, c] =>
    if c = '0' then '\x00'
    else if c = 't' then '\t'
    else if c = 'r' then '\r'
    else if c = 'n' then '\n'
    else c
  | _ :: _ :: _ :: digits => Char.ofNat (readNumber digits.dropLast)

theorem readEscape_escape (c : Char) : readEscape (escape '\x27' c).toList = c := by
  unfold escape
  -- The four characters whose escapes have a letter or a digit of their own.
  split
  next h => exact h ▸ rfl
  split
  next h => exact h ▸ rfl
  split
  next h => exact h ▸ rfl
  split
  next h => exact h ▸ rfl
  -- A backslash or the quotation mark, then what is shown as it is, and numbers for all else.
  split
  next h => rcases h with rfl | rfl <;> rfl
  split
  next h => simp [readEscape]
  next h =>
    have hread := readNumber_map_hexDigits id (by decide) c.toNat
    rw [List.map_id] at hread
    simp [readEscape, hread]

/-- **A character is told by its quotation.** -/
theorem quoteChar_injective : Function.Injective quoteChar := by
  intro c d h
  have hescape : escape '\x27' c = escape '\x27' d := by
    simpa [quoteChar] using h
  rw [← readEscape_escape c, hescape, readEscape_escape]

end AugmentedBnf.Text
