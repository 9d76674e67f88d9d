import AugmentedBnf.Proofs.Metagrammar.Recognition
import Mathlib.Order.Bounds.Basic

/-!
# Where Grammar Text Stops Making Sense

A text that is not grammar text is rejected with a failure at a place. What is before that place can
be completed to grammar text, and together with the code point at the place it cannot. So the place
is the end of the longest beginning that there is any hope for, and that is what to tell people.

Both halves hold although alternatives are tried in order and repetitions give nothing back. What
has been passed is viable in the unordered grammar, and whatever that grammar derives is matched.
And no evaluation has looked behind the reported failure, so all texts that begin alike are rejected
alike.

**Main statement**: `rejected_at_longest_extendable`.
-/

namespace AugmentedBnf

open Text (width)

/-! ## §1 Beginnings of accepted texts -/

/-- The text is the beginning of one that is matched as a whole. -/
def Grammar.Extendable {κ : Type} (grammar : Grammar κ) (rule : Rule κ) (front : String) : Prop :=
  ∃ rest node, grammar.parseAll rule (front ++ rest) = .ok node

namespace Metagrammar

/-! ## §2 Both halves -/

variable {text : String} {failure : Failure}

/-- **What is before the failure can be completed.** -/
theorem exists_extendable_of_rejected
    (h : grammar.parseAll rulelist text = .error (.failure failure)) :
    ∃ passed rest, text = .ofList (passed ++ rest) ∧ failure.position = width passed ∧
      grammar.Extendable rulelist (.ofList passed) := by
  obtain ⟨passed, rest, htext, hlocation, hstops⟩ := exists_stopsAt_of_parseAll rulelist_mem h
  obtain ⟨more, hword⟩ := hstops.viable
  rw [← String.toList_ofList (l := passed ++ more)] at hword
  obtain ⟨node, hnode⟩ := (parseAll_iff_mem_language rulelist_mem).mpr hword
  rw [String.ofList_append] at hnode
  exact ⟨passed, rest, htext, congrArg Location.offset hlocation, .ofList more, node, hnode⟩

/-- **What includes the code point at the failure cannot.** -/
theorem not_extendable_of_rejected {passed more rest : List Char} {c : Char}
    (h : grammar.parseAll rulelist (.ofList (passed ++ c :: rest)) = .error (.failure failure))
    (hposition : failure.position = width passed) :
    ¬ grammar.Extendable rulelist (.ofList (passed ++ c :: more)) := by
  rintro ⟨further, node, hnode⟩
  obtain ⟨failure', hrejected⟩ := Grammar.parseAll_failed_of_next (listsKeys rulelist)
    (not_contains_endOfText_of_mem rulelist_mem) h hposition
    (more ++ further.toList)
  have htext : String.ofList (passed ++ c :: (more ++ further.toList))
      = .ofList (passed ++ c :: more) ++ further := by
    rw [← String.ofList_toList (s := further), ← String.ofList_append]
    simp
  rw [htext, hnode] at hrejected
  cases hrejected

/-- **A longer beginning cannot be completed**, since it includes that code point. -/
theorem le_position_of_extendable {passed rest : List Char} {front back : String}
    (h : grammar.parseAll rulelist (.ofList (passed ++ rest)) = .error (.failure failure))
    (hposition : failure.position = width passed)
    (htext : String.ofList (passed ++ rest) = front ++ back)
    (hfront : grammar.Extendable rulelist front) : front.utf8ByteSize ≤ failure.position := by
  by_contra hle
  rw [Nat.not_le, hposition, Text.utf8ByteSize_eq_width] at hle
  have hchars : passed ++ rest = front.toList ++ back.toList := by
    rw [← String.toList_ofList (l := passed ++ rest), htext, String.toList_append]
  obtain ⟨more, hmore, hrest⟩ : ∃ more, front.toList = passed ++ more ∧
      rest = more ++ back.toList := by
    rcases List.append_eq_append_iff.mp hchars with ⟨more, hmore, hrest⟩ | ⟨more, hmore, -⟩
    · exact ⟨more, hmore, hrest⟩
    · rw [hmore, Text.width_append] at hle
      omega
  cases more with
  | nil =>
    rw [hmore, List.append_nil] at hle
    exact absurd hle (Nat.lt_irrefl _)
  | cons c more =>
    rw [hrest, List.cons_append] at h
    rw [← String.ofList_toList (s := front), hmore] at hfront
    exact not_extendable_of_rejected h hposition hfront

/-! ## §3 The longest extendable beginning -/

/-- **A rejected text stops being grammar text at the failure.** What is before the failure can be
    extended to an accepted text. If the failure is not at the end of the text, then no text that
    goes on with the code point at the failure is accepted. So the failure is as far into the text
    as the longest beginning reaches that can be extended to an accepted text. -/
theorem rejected_at_longest_extendable
    (h : grammar.parseAll rulelist text = .error (.failure failure)) :
    (∃ front back, text = front ++ back ∧ front.utf8ByteSize = failure.position ∧
      grammar.Extendable rulelist front) ∧
    (failure.position < text.utf8ByteSize →
      ∃ front c back, text = front ++ String.singleton c ++ back ∧
        front.utf8ByteSize = failure.position ∧
        ¬ grammar.Extendable rulelist (front ++ String.singleton c)) ∧
    IsGreatest {length | ∃ front back, text = front ++ back ∧ front.utf8ByteSize = length ∧
      grammar.Extendable rulelist front} failure.position := by
  obtain ⟨passed, rest, rfl, hposition, hextendable⟩ := exists_extendable_of_rejected h
  have hfront : ∃ front back, String.ofList (passed ++ rest) = front ++ back ∧
      front.utf8ByteSize = failure.position ∧ grammar.Extendable rulelist front :=
    ⟨.ofList passed, .ofList rest, String.ofList_append,
      by rw [Text.utf8ByteSize_ofList, hposition], hextendable⟩
  refine ⟨hfront, fun hlt => ?_, hfront, ?_⟩
  · cases rest with
    | nil =>
      rw [List.append_nil, Text.utf8ByteSize_ofList, hposition] at hlt
      exact absurd hlt (Nat.lt_irrefl _)
    | cons c rest =>
      have hc : String.ofList (passed ++ [c]) = .ofList passed ++ String.singleton c := by
        rw [String.ofList_append, String.singleton_eq_ofList]
      refine ⟨.ofList passed, c, .ofList rest, ?_, ?_, ?_⟩
      · rw [← hc, ← String.ofList_append, List.append_assoc, List.singleton_append]
      · rw [Text.utf8ByteSize_ofList, hposition]
      · rw [← hc]
        exact not_extendable_of_rejected h hposition
  · intro length ⟨front, back, htext, hlength, hfront⟩
    rw [← hlength]
    exact le_position_of_extendable h hposition htext hfront

/-- A group that is not closed is rejected at the code point where a bracket is missed. -/
theorem unclosed_rejected_at_longest_extendable :
    let missed : Failure := .mismatch "\")\"" "')'" '!' ⟨"a=(b!", 4⟩
    grammar.parseAll rulelist "a=(b!" = .error (.failure missed) ∧
      IsGreatest {length | ∃ front back, "a=(b!" = front ++ back ∧ front.utf8ByteSize = length ∧
        grammar.Extendable rulelist front} 4 := by
  intro missed
  have hrejected : grammar.parseAll rulelist "a=(b!" = .error (.failure missed) := by
    decide +kernel
  exact ⟨hrejected, (rejected_at_longest_extendable hrejected).2.2⟩

end Metagrammar

end AugmentedBnf
