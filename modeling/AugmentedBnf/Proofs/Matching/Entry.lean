import AugmentedBnf.Proofs.Derivation.Adequacy
import AugmentedBnf.Proofs.Matching.Answer

/-!
# Entry Points Agree

Matching a text from its start, matching all of it, and matching the rule with the end of the text
behind it are three evaluations that combine the same things in different ways: the failure that is
returned, the deepest one that was recovered from, and the failure that text is left over. They
agree on what is matched and on every failure.

**Main statement**: `entries_agree`.
-/

namespace AugmentedBnf

variable {κ : Type}

open Text (width)

/-! ## §1 A rule with the end of the text behind it -/

/-- The answer of a rule, from a cursor, with the end of the text asked for behind it. -/
def Answer.closed (name endName : String) (cursor : Cursor) (answer : Answer) : Answer :=
  match answer.result with
  | .ok (node, next) =>
    if next.atEnd then
      ⟨.ok (⟨name, cursor.spanTo next, [node, .leaf endName (next.spanTo next)]⟩, next),
        answer.deepest⟩
    else ⟨.error (.unconsumed next.location), answer.deepest⟩
  | .error _ => answer

/-- The rule, and behind it the end of the text. -/
def Rule.closed (name endName : String) (rule : Rule κ) : Rule κ :=
  .concatenation name rule [.endOfText endName]

namespace Grammar

section Closed

variable (grammar : Grammar κ) (rule : Rule κ) (name endName : String)

/-- A rule is evaluated first, and then the end of the text is asked for. -/
theorem evaluate_closed (cursor : Cursor) :
    grammar.evaluate (rule.closed name endName) cursor
      = Matcher.node name (.sequence [grammar.evaluate rule, .endOfText endName]) cursor := by
  funext trail
  unfold evaluate matcher Rule.closed
  rw [Rule.matcher_concatenation]
  rfl

theorem answer_closed (cursor : Cursor) (trail : Trail Unit) :
    (grammar.evaluate (rule.closed name endName) cursor trail).answer
      = (grammar.evaluate rule cursor trail).answer.map (Answer.closed name endName cursor) := by
  rw [evaluate_closed]
  simp only [Matcher.node, Matcher.sequence, Matcher.endOfText]
  cases grammar.evaluate rule cursor trail with
  | matched node next trail =>
    cases hend : next.atEnd with
    | true => simp only [Outcome.answer, Answer.closed, Except.map, hend, if_true]
    | false =>
      simp only [Outcome.answer, Answer.closed, Except.map, hend, if_false, Bool.false_eq_true]
      rfl
  | failed failure trail => rfl
  | aborted cause trail => rfl

end Closed

/-! ## §2 Answers from the start of a text -/

section Entry

variable (grammar : Grammar κ) (rule : Rule κ) (text : String)

/-- The answer of a rule from the start of a text. -/
def answerAtStart : Except Abort Answer :=
  (grammar.evaluate rule (.start text) (.fresh ())).answer

theorem parse_eq_returned : grammar.parse rule text
    = Answer.returned (fun answer => answer.reported.map Prod.fst)
      (grammar.answerAtStart rule text) :=
  Matcher.parse_fst _ _ _ _

theorem parseAll_eq_returned : grammar.parseAll rule text
    = Answer.returned Answer.whole (grammar.answerAtStart rule text) :=
  Matcher.parseAll_fst _ _ _ _

end Entry

variable {grammar : Grammar κ} {rule : Rule κ} {text : String} {node : Node} {next : Cursor}
  {deepest : Deepest}

/-- A match from the start of a text ends where its node stops, and that is within the text. -/
theorem next_of_answerAtStart
    (h : grammar.answerAtStart rule text = .ok ⟨.ok (node, next), deepest⟩) :
    (Cursor.start text).spanTo next = node.span ∧ next.location = ⟨text, node.stop⟩ ∧
      node.stop ≤ text.utf8ByteSize ∧ (next.atEnd = true ↔ node.stop = text.utf8ByteSize) := by
  unfold answerAtStart at h
  cases houtcome : grammar.evaluate rule (.start text) (.fresh ()) with
  | failed failure trail =>
    rw [houtcome] at h
    cases h
  | aborted cause trail =>
    rw [houtcome] at h
    cases h
  | matched _ _ trail =>
    rw [houtcome] at h
    cases h
    obtain ⟨tree, left, htree, rfl, rfl⟩ := exists_tree_of_matched houtcome
    -- The text is what the tree has matched and what is left.
    have htext : .ofList (tree.chars ++ left) = text := by
      rw [← htree.chars_eq, String.ofList_toList]
    have hsize : text.utf8ByteSize = width tree.chars + width left := by
      rw [← htext, Text.utf8ByteSize_ofList, Text.width_append]
    have hspan : (tree.place text 0).span = ⟨text, 0, width tree.chars⟩ := by
      rw [Tree.span_place, Nat.zero_add]
    have hstop : (tree.place text 0).stop = width tree.chars := by
      rw [Node.stop, hspan]
    rw [hspan, hstop, hsize]
    refine ⟨?_, ?_, Nat.le_add_right _ _, ?_⟩
    · rw [Cursor.start_eq_between, htree.chars_eq]
      simp [Cursor.spanTo, htext]
    · rw [Cursor.location_between, htext]
    · rw [Cursor.atEnd_between, List.isEmpty_iff, ← Text.width_eq_zero_iff]
      omega

/-! ## §3 Three ways to ask -/

/-- A rule that matches with text left over is refused, with the deepest failure recovered from if
    that is behind the match. -/
theorem parseAll_of_answerAtStart
    (h : grammar.answerAtStart rule text = .ok ⟨.ok (node, next), deepest⟩) :
    grammar.parseAll rule text =
      if node.stop = text.utf8ByteSize then .ok node
      else .error (.failure (deepest.merge (.unconsumed ⟨text, node.stop⟩))) := by
  obtain ⟨-, hlocation, -, hend⟩ := next_of_answerAtStart h
  rw [parseAll_eq_returned, h]
  simp only [Answer.returned, Answer.whole, hend, hlocation]
  by_cases hstop : node.stop = text.utf8ByteSize
  · simp only [hstop, if_true]
  · simp only [hstop, if_false]

theorem parse_ok_iff : grammar.parse rule text = .ok node ↔
    ∃ next deepest, grammar.answerAtStart rule text = .ok ⟨.ok (node, next), deepest⟩ := by
  rw [parse_eq_returned]
  rcases grammar.answerAtStart rule text with cause | ⟨failure | ⟨found, next⟩, deepest⟩
  · simp [Answer.returned]
  · simp [Answer.returned, Answer.reported, Except.map]
  · simp [Answer.returned, Answer.reported, Except.map]

/-- Where a rule does not match, it does not match all of the text either, for the same reason. -/
theorem parseAll_error_of_parse_error {stop : Stop} (h : grammar.parse rule text = .error stop) :
    grammar.parseAll rule text = .error stop := by
  rw [parse_eq_returned] at h
  rw [parseAll_eq_returned]
  generalize grammar.answerAtStart rule text = answer at h ⊢
  rcases answer with cause | ⟨failure | ⟨found, next⟩, deepest⟩
  · exact h
  · exact h
  · cases h

theorem parse_closed (name endName : String) :
    grammar.parse (rule.closed name endName) text
      = (grammar.parseAll rule text).map fun node =>
        ⟨name, node.span, [node, .leaf endName ⟨text, node.stop, node.stop⟩]⟩ := by
  rw [parse_eq_returned, answerAtStart, answer_closed, ← answerAtStart, parseAll_eq_returned]
  rcases hanswer : grammar.answerAtStart rule text with cause | ⟨failure | ⟨node, next⟩, deepest⟩
  · rfl
  · rfl
  · obtain ⟨hspan, hlocation, -, -⟩ := next_of_answerAtStart hanswer
    -- The end of the text is a leaf without width where the node stops.
    have hleaf : next.spanTo next = ⟨text, node.stop, node.stop⟩ := by
      rw [Cursor.location, Location.mk.injEq] at hlocation
      rw [Cursor.spanTo, hlocation.1, hlocation.2]
    cases hend : next.atEnd with
    | true => simp [Answer.closed, Answer.returned, Answer.reported, Answer.whole, Except.map,
        hend, hspan, hleaf]
    | false => simp [Answer.closed, Answer.returned, Answer.reported, Answer.whole, Except.map,
        hend]

/-- **The entry points agree.** All of a text is matched exactly where a match from its start stops
    at its end, with the same node. A failure from the start is the failure of the whole text. If
    text is left over, the failure is the one recorded by that match if it is strictly behind the
    match, and otherwise that the text goes on where the match stops. Asking for the end of the text
    by a rule comes to the same as matching all of the text, with the node as the first child, and
    fails in the same way. -/
theorem entries_agree (grammar : Grammar κ) (rule : Rule κ) (text : String) :
    (∀ node, grammar.parseAll rule text = .ok node ↔
      grammar.parse rule text = .ok node ∧ node.stop = text.utf8ByteSize) ∧
    (∀ stop, grammar.parse rule text = .error stop → grammar.parseAll rule text = .error stop) ∧
    (∀ node, grammar.parse rule text = .ok node → ∃ next deepest,
      grammar.answerAtStart rule text = .ok ⟨.ok (node, next), deepest⟩ ∧
      node.stop ≤ text.utf8ByteSize ∧
      (node.stop < text.utf8ByteSize →
        (∀ failure ∈ deepest.failure, node.stop < failure.position →
          grammar.parseAll rule text = .error (.failure failure)) ∧
        ((∀ failure ∈ deepest.failure, failure.position ≤ node.stop) →
          grammar.parseAll rule text = .error (.failure (.unconsumed ⟨text, node.stop⟩))))) ∧
    (∀ name endName, grammar.parse (rule.closed name endName) text
      = (grammar.parseAll rule text).map fun node =>
        ⟨name, node.span, [node, .leaf endName ⟨text, node.stop, node.stop⟩]⟩) := by
  refine ⟨fun node => ⟨fun h => ?_, ?_⟩, fun stop => parseAll_error_of_parse_error, ?_,
    fun name endName => parse_closed name endName⟩
  · -- What is matched as a whole is matched from the start, or else both would have failed.
    cases hparse : grammar.parse rule text with
    | error stop =>
      rw [parseAll_error_of_parse_error hparse] at h
      cases h
    | ok found =>
      obtain ⟨next, deepest, hanswer⟩ := parse_ok_iff.mp hparse
      rw [parseAll_of_answerAtStart hanswer] at h
      split at h
      case isTrue hstop =>
        cases h
        exact ⟨rfl, hstop⟩
      case isFalse => cases h
  · rintro ⟨hparse, hstop⟩
    obtain ⟨next, deepest, hanswer⟩ := parse_ok_iff.mp hparse
    rw [parseAll_of_answerAtStart hanswer, if_pos hstop]
  · intro node hparse
    obtain ⟨next, deepest, hanswer⟩ := parse_ok_iff.mp hparse
    obtain ⟨-, -, hle, -⟩ := next_of_answerAtStart hanswer
    refine ⟨next, deepest, hanswer, hle, fun hlt => ?_⟩
    rw [parseAll_of_answerAtStart hanswer, if_neg (Nat.ne_of_lt hlt)]
    rcases deepest with ⟨_ | recorded⟩
    · simp [Deepest.merge]
    · -- Of the two failures the recorded one is reported only if it is strictly deeper.
      have hposition : (Failure.unconsumed ⟨text, node.stop⟩).position = node.stop := rfl
      simp only [Deepest.merge, Failure.deeper, hposition, Option.mem_def, Option.some.injEq,
        forall_eq']
      refine ⟨fun hdeeper => ?_, fun hshallow => ?_⟩
      · rw [if_pos hdeeper]
      · rw [if_neg (Nat.not_lt.mpr hshallow)]

/-- `abc`, or else an `a` alone. -/
def longOrShort : Rule Empty :=
  .alternation "either"
    (.concatenation "long" (.character "a" 'a') [.character "b" 'b', .character "c" 'c'])
    [.character "short" 'a']

theorem longOrShort_entries_agree :
    let grammar : Grammar Empty := ⟨[], nofun⟩
    let short (text : String) : Node := ⟨"either", ⟨text, 0, 1⟩, [.leaf "short" ⟨text, 0, 1⟩]⟩
    let refused : Stop := .failure (.mismatch "a" "'a'" 'b' ⟨"b", 0⟩)
    grammar.parse longOrShort "a" = .ok (short "a") ∧
      grammar.parseAll longOrShort "a" = .ok (short "a") ∧
      grammar.parse longOrShort "b" = .error refused ∧
      grammar.parseAll longOrShort "b" = .error refused ∧
      grammar.parse longOrShort "abx" = .ok (short "abx") ∧
      grammar.parseAll longOrShort "abx"
        = .error (.failure (.mismatch "c" "'c'" 'x' ⟨"abx", 2⟩)) ∧
      grammar.parse longOrShort "ax" = .ok (short "ax") ∧
      grammar.parseAll longOrShort "ax" = .error (.failure (.unconsumed ⟨"ax", 1⟩)) := by
  intro grammar short refused
  obtain ⟨hwhole, -, -, -⟩ := entries_agree grammar longOrShort "a"
  obtain ⟨-, hrefused, -, -⟩ := entries_agree grammar longOrShort "b"
  obtain ⟨-, -, hdeep, -⟩ := entries_agree grammar longOrShort "abx"
  obtain ⟨-, -, hlevel, -⟩ := entries_agree grammar longOrShort "ax"
  obtain ⟨_, _, hanswer, -, hleft⟩ := hdeep (short "abx") rfl
  obtain ⟨_, _, hanswer', -, hleft'⟩ := hlevel (short "ax") rfl
  -- The long form got to the `x` at offset 2 of the one text, and at offset 1 of the other.
  cases hanswer
  cases hanswer'
  refine ⟨rfl, (hwhole _).mpr ⟨rfl, rfl⟩, rfl, hrefused _ rfl, rfl, ?_, rfl, ?_⟩
  · exact (hleft (by decide)).1 _ rfl (by decide)
  · refine (hleft' (by decide)).2 ?_
    rintro failure ⟨⟩
    decide

end Grammar

end AugmentedBnf
