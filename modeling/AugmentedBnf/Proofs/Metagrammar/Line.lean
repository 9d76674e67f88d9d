import AugmentedBnf.Proofs.Derivation.Classes
import AugmentedBnf.Proofs.Metagrammar.Rulelist
import AugmentedBnf.Proofs.Text.Lines

/-!
# Lines of Grammar Text

Grammar text is broken into lines nearly everywhere, and each line that goes on with a rule starts
with a blank. So within a rule every line feed is followed by a blank (`unbroken`), and only the
last one is not. A line that starts with a letter is therefore the first line of a rule, whatever
comments, groups and quoted texts the rules before it have.

**Main statements**: `alternation_le_unbroken`, `exists_unbroken_of_mem_line` and
`definitionStarts_line`.
-/

namespace AugmentedBnf

open Computability
open Text (width)

variable {κ : Type}

/-! ## §1 Words without line feeds -/

/-- ASCII without the line feed. -/
def lineRanges : List (Char × Char) := [('\x00', '\t'), ('\x0b', '\x7f')]

/-- **Rules without line feeds** have words without line feeds. -/
theorem Rule.not_mem_of_mem_language {calls : κ → Language Char} {rule : Rule κ}
    (h : rule.all (isWithin lineRanges)) {word : List Char} (hword : word ∈ rule.language calls) :
    '\n' ∉ word := by
  intro hmem
  have hnot : ¬ Covers lineRanges '\n' := by
    decide
  exact hnot (language_le_within h hword '\n' hmem)

/-! ## §2 Words whose lines go on -/

/-- Every line feed is followed by a blank. -/
def unbroken : Language Char :=
  {chars : List Char | ∀ front back, chars = front ++ '\n' :: back →
    ∃ c ∈ back.head?, c = ' ' ∨ c = '\t'}

section Unbroken

variable {front back word : List Char} {language language' : Language Char}

theorem mem_unbroken_of_not_mem (h : '\n' ∉ word) : word ∈ unbroken := by
  rintro front back rfl
  exact absurd List.mem_append_cons_self h

theorem append_mem_unbroken (hfront : front ∈ unbroken) (hback : back ∈ unbroken) :
    front ++ back ∈ unbroken := by
  intro before after hsplit
  rcases List.append_eq_append_iff.mp hsplit with ⟨middle, -, hafter⟩ | ⟨middle, hmiddle, hafter⟩
  · exact hback middle after hafter
  · cases middle with
    | nil => exact hback [] after hafter.symm
    | cons c middle =>
      -- The line feed is in the word in front, and so is the blank behind it.
      have hbehind : after = middle ++ back := (List.cons.inj hafter).2
      obtain rfl : '\n' = c := (List.cons.inj hafter).1
      obtain ⟨d, hd, hblank⟩ := hfront before middle hmiddle
      refine ⟨d, ?_, hblank⟩
      rw [Option.mem_def] at hd ⊢
      rw [hbehind, List.head?_append, hd, Option.some_or]

/-- A line feed may stand in front of a blank. -/
theorem cons_mem_unbroken {c : Char} (hblank : c = ' ' ∨ c = '\t') (h : c :: word ∈ unbroken) :
    '\n' :: c :: word ∈ unbroken := by
  intro before after hsplit
  cases before with
  | nil =>
    obtain ⟨-, rfl⟩ := List.cons.inj hsplit
    exact ⟨c, rfl, hblank⟩
  | cons d before =>
    obtain ⟨-, hsplit⟩ := List.cons.inj hsplit
    exact h before after hsplit

theorem one_le_unbroken : 1 ≤ unbroken := by
  rintro word rfl
  exact mem_unbroken_of_not_mem List.not_mem_nil

theorem mul_le_unbroken (h : language ≤ unbroken) (h' : language' ≤ unbroken) :
    language * language' ≤ unbroken := by
  rintro word ⟨front, hfront, back, hback, rfl⟩
  exact append_mem_unbroken (h hfront) (h' hback)

theorem kstar_le_unbroken (h : language ≤ unbroken) : language∗ ≤ unbroken :=
  kstar_le_of_closed one_le_unbroken (mul_le_unbroken le_rfl le_rfl) h

theorem add_le_unbroken (h : language ≤ unbroken) (h' : language' ≤ unbroken) :
    language + language' ≤ unbroken := by
  rintro word (hword | hword)
  · exact h hword
  · exact h' hword

end Unbroken

/-! ## §3 Productions -/

namespace Metagrammar

open CoreRules Rule

variable {chars : List Char}

/-- The productions without line ends. -/
theorem language_le_unbroken {rule : Rule Deferral} (h : rule.all (isWithin lineRanges)) :
    rule.language (fun _ => 0) ≤ unbroken :=
  fun _ hword => mem_unbroken_of_not_mem (not_mem_of_mem_language h hword)

/-- A line end is some code points and a line feed. -/
theorem exists_of_mem_cNl (h : chars ∈ Production.cNl) :
    ∃ front, '\n' ∉ front ∧ chars = front ++ ['\n'] := by
  have hcrlf : ∀ {chars : List Char}, chars ∈ Production.crlf →
      ∃ front, '\n' ∉ front ∧ chars = front ++ ['\n'] := by
    rintro _ (⟨_, rfl, _, rfl, rfl⟩ | rfl)
    · exact ⟨['\r'], by decide, rfl⟩
    · exact ⟨[], by decide, rfl⟩
  rcases h with ⟨comment, hcomment, lineEnd, hlineEnd, rfl⟩ | hlineEnd
  · have hcontent : comment ∈ (Rule.concatenation "" (literal ';')
        [.many "*(WSP / VCHAR)" (.alternation "WSP / VCHAR" wsp [vchar])]).language
          (fun _ : Deferral => 0) := by
      rw [Rule.language_concatenation, product_cons, product_cons, product_nil, mul_one,
        language_many, Rule.language_alternation, sum_cons, sum_cons, sum_nil, add_zero,
        language_wsp, language_literal]
      exact hcomment
    obtain ⟨front, hfront, rfl⟩ := hcrlf hlineEnd
    refine ⟨comment ++ front, ?_, (List.append_assoc _ _ _).symm⟩
    rw [List.mem_append, not_or]
    exact ⟨not_mem_of_mem_language rfl hcontent, hfront⟩
  · exact hcrlf hlineEnd

/-- The line feed in a blank is followed by a blank. -/
theorem cWsp_le_unbroken : Production.cWsp ≤ unbroken := by
  rintro chars (hblank | ⟨lineEnd, hlineEnd, blank, hblank, rfl⟩)
  · rcases hblank with rfl | rfl
    · exact mem_unbroken_of_not_mem (by decide)
    · exact mem_unbroken_of_not_mem (by decide)
  · obtain ⟨front, hfront, rfl⟩ := exists_of_mem_cNl hlineEnd
    show (front ++ ['\n']) ++ blank ∈ unbroken
    rw [List.append_assoc]
    apply append_mem_unbroken (mem_unbroken_of_not_mem hfront)
    rcases hblank with rfl | rfl
    · exact cons_mem_unbroken (.inl rfl) (mem_unbroken_of_not_mem (by decide))
    · exact cons_mem_unbroken (.inr rfl) (mem_unbroken_of_not_mem (by decide))

theorem blanks_le_unbroken : Production.cWsp∗ ≤ unbroken := kstar_le_unbroken cWsp_le_unbroken

theorem quoted_le_unbroken {c : Char} (hc : c ∈ ['(', ')', '[', ']', '/', '=']) :
    Production.quoted c ≤ unbroken := by
  rw [← language_literal fun _ : Deferral => 0]
  apply language_le_unbroken
  simp only [List.mem_cons, List.not_mem_nil, or_false] at hc
  rcases hc with rfl | rfl | rfl | rfl | rfl | rfl <;> rfl

theorem rulename_le_unbroken : Production.rulename ≤ unbroken := by
  rw [← language_rulename fun _ => 0]
  exact language_le_unbroken rfl

section Nesting

variable {inner opening closing : Language Char} (hinner : inner ≤ unbroken)

include hinner

theorem brackets_le_unbroken (hopening : opening ≤ unbroken) (hclosing : closing ≤ unbroken) :
    opening * Production.cWsp∗ * inner * Production.cWsp∗ * closing ≤ unbroken := by
  apply mul_le_unbroken _ hclosing
  apply mul_le_unbroken _ blanks_le_unbroken
  apply mul_le_unbroken _ hinner
  exact mul_le_unbroken hopening blanks_le_unbroken

/-- Most elements have no line feeds at all, and brackets hold what goes on. -/
theorem element_le_unbroken : Production.element inner ≤ unbroken := by
  have hstring : Production.charVal ≤ unbroken := by
    rw [← language_charVal fun _ : Deferral => 0]
    exact language_le_unbroken rfl
  have hnumber : Production.numVal ≤ unbroken := by
    rw [← language_numVal fun _ : Deferral => 0]
    exact language_le_unbroken rfl
  have hprose : Production.proseVal ≤ unbroken := by
    rw [← language_proseVal fun _ : Deferral => 0]
    exact language_le_unbroken rfl
  have hgroup : Production.group inner ≤ unbroken :=
    brackets_le_unbroken hinner (quoted_le_unbroken (by decide)) (quoted_le_unbroken (by decide))
  have hoption : Production.option inner ≤ unbroken :=
    brackets_le_unbroken hinner (quoted_le_unbroken (by decide)) (quoted_le_unbroken (by decide))
  apply add_le_unbroken _ hprose
  apply add_le_unbroken _ hnumber
  apply add_le_unbroken _ hstring
  apply add_le_unbroken _ hoption
  exact add_le_unbroken rulename_le_unbroken hgroup

theorem concatenation_le_unbroken : Production.concatenation inner ≤ unbroken := by
  have hcounts : Production.repeatCounts ≤ unbroken := by
    rw [← language_repeatCounts fun _ => 0]
    exact language_le_unbroken rfl
  have hrepetition : Production.repetition inner ≤ unbroken :=
    mul_le_unbroken (add_le_unbroken one_le_unbroken hcounts) (element_le_unbroken hinner)
  apply mul_le_unbroken hrepetition
  apply kstar_le_unbroken
  apply mul_le_unbroken _ hrepetition
  exact mul_le_unbroken cWsp_le_unbroken blanks_le_unbroken

end Nesting

/-- **Lines go on within an alternation**: whatever it holds, line feeds are followed by blanks. -/
theorem alternation_le_unbroken : Production.alternation ≤ unbroken := by
  have hconcatenation := concatenation_le_unbroken le_rfl
  apply Production.alternation_le
  apply mul_le_unbroken hconcatenation
  apply kstar_le_unbroken
  apply mul_le_unbroken _ hconcatenation
  apply mul_le_unbroken _ blanks_le_unbroken
  exact mul_le_unbroken blanks_le_unbroken (quoted_le_unbroken (by decide))

theorem definedAs_le_unbroken : Production.definedAs ≤ unbroken := by
  have hequals : Production.quoted '=' ≤ unbroken := quoted_le_unbroken (by decide)
  apply mul_le_unbroken _ blanks_le_unbroken
  apply mul_le_unbroken blanks_le_unbroken
  apply add_le_unbroken _ hequals
  exact mul_le_unbroken hequals (quoted_le_unbroken (by decide))

theorem exists_unbroken_of_mem_mul {language : Language Char} (hlanguage : language ≤ unbroken)
    (h : chars ∈ language * Production.cNl) : ∃ front ∈ unbroken, chars = front ++ ['\n'] := by
  obtain ⟨body, hbody, lineEnd, hlineEnd, rfl⟩ := h
  obtain ⟨front, hfront, rfl⟩ := exists_of_mem_cNl hlineEnd
  refine ⟨body ++ front, ?_, (List.append_assoc _ _ _).symm⟩
  exact append_mem_unbroken (hlanguage hbody) (mem_unbroken_of_not_mem hfront)

/-- **A line of grammar text ends in a line feed**, and before that its lines go on: it is a rule or
    a blank line, each perhaps with comments in it. -/
theorem exists_unbroken_of_mem_line
    (h : chars ∈ Production.rule + Production.cWsp∗ * Production.cNl) :
    ∃ front ∈ unbroken, chars = front ++ ['\n'] := by
  have helements : Production.elements ≤ unbroken :=
    mul_le_unbroken alternation_le_unbroken blanks_le_unbroken
  have hrule : Production.rulename * Production.definedAs * Production.elements ≤ unbroken :=
    mul_le_unbroken (mul_le_unbroken rulename_le_unbroken definedAs_le_unbroken) helements
  rcases h with h | h
  · exact exists_unbroken_of_mem_mul hrule h
  · exact exists_unbroken_of_mem_mul blanks_le_unbroken h

/-! ## §4 Starts of definitions -/

/-- An ASCII letter stands at the offset. -/
def isLetterAt (text : String) (offset : Nat) : Bool :=
  match Text.charAt text offset with
  | .ok (some c) => c.isAlpha
  | _ => false

/-- The offsets of a text's definitions: the starts of those lines that start with a letter. -/
def definitionStarts (text : String) : List Nat :=
  (Text.lineStarts text).filter (isLetterAt text)

theorem isLetterAt_iff {text : String} {offset : Nat} : isLetterAt text offset ↔
    ∃ c, Text.charAt text offset = .ok (some c) ∧ c.isAlpha := by
  unfold isLetterAt
  rcases Text.charAt text offset with fault | _ | c <;> simp

/-- A definition starts at the beginning of the text or behind a line feed, and with a letter. -/
theorem mem_definitionStarts_iff {text : String} {offset : Nat} :
    offset ∈ definitionStarts text ↔
      (offset = 0 ∨ ∃ lineFeed, Text.charAt text lineFeed = .ok (some '\n') ∧
        offset = lineFeed + 1) ∧
      ∃ c, Text.charAt text offset = .ok (some c) ∧ c.isAlpha := by
  rw [definitionStarts, List.mem_filter, Text.mem_lineStarts_iff, isLetterAt_iff]

theorem isLetterAt_width (before after : List Char) :
    isLetterAt (.ofList (before ++ after)) (width before) = after.head?.any Char.isAlpha := by
  unfold isLetterAt
  rw [Text.charAt_width]
  cases after <;> rfl

/-- **Only the start of a line of grammar text can be that of a definition**, not the starts of
    lines that go on with it. -/
theorem definitionStarts_line {text : String} {before front back : List Char}
    (htext : text = .ofList (before ++ (front ++ '\n' :: back))) (hfront : front ∈ unbroken) :
    (Text.lineStartsFrom (width before) (front ++ '\n' :: back)).filter (isLetterAt text)
      = [width before].filter (isLetterAt text)
        ++ (Text.lineStartsFrom (width (before ++ (front ++ ['\n']))) back).filter
          (isLetterAt text) := by
  have hwithin : ((Text.lineFeedsFrom (width before) front).map (· + 1)).filter (isLetterAt text)
      = [] := by
    rw [List.filter_eq_nil_iff]
    intro offset hoffset
    obtain ⟨lineFeed, hlineFeed, rfl⟩ := List.mem_map.mp hoffset
    obtain ⟨passed, rest, hsplit, rfl⟩ := Text.mem_lineFeedsFrom_iff.mp hlineFeed
    obtain ⟨c, hc, hblank⟩ := hfront passed rest hsplit
    -- Behind the line feed stands a blank, which is no letter.
    obtain ⟨rest, rfl⟩ : ∃ more, rest = c :: more := by
      cases rest with
      | nil => cases hc
      | cons d more => exact ⟨more, by simpa using hc⟩
    have hbehind : text
        = .ofList ((before ++ (passed ++ ['\n'])) ++ (c :: rest ++ '\n' :: back)) := by
      rw [htext, hsplit]
      simp
    have hoffset : width before + width passed + 1 = width (before ++ (passed ++ ['\n'])) := by
      simp only [Text.width_append, Nat.add_assoc]
      rfl
    rw [hoffset, hbehind, isLetterAt_width]
    rcases hblank with rfl | rfl <;> simp
  have hfirst : Text.lineStartsFrom (width before) front
      = [width before] ++ (Text.lineFeedsFrom (width before) front).map (· + 1) := rfl
  rw [Text.lineStartsFrom_line, List.filter_append, hfirst, List.filter_append, hwithin,
    List.append_nil, Text.width_append before]

end Metagrammar

end AugmentedBnf
