import AugmentedBnf.Grammar.Parse
import AugmentedBnf.Proofs.Grammar.Unfolding

/-!
# What Comes Back from an Evaluation

An evaluation that is not abandoned gives back a result and the deepest failure that it recovered
from. That is all that its caller can see of it, so two evaluations may be compared by their answers
even where they keep different journals. The entry points look at nothing else: each of them reads
its own result off the answer (`Matcher.parseFrom_fst`, `Matcher.parse_fst`,
`Matcher.parseAll_fst`).
-/

namespace AugmentedBnf

variable {κ τ β : Type}

/-! ## §1 Answers -/

/-- What an evaluation gives back: a node with the cursor behind it, or the failure that ended it,
    and beside that the deepest failure that it leaves recorded. -/
structure Answer where
  result : Except Failure (Node × Cursor)
  deepest : Deepest

/-- The answer of an evaluation. From one that was abandoned nothing but the cause comes back. -/
def Outcome.answer : Outcome τ Node → Except Abort Answer
  | .matched node next trail => .ok ⟨.ok (node, next), trail.deepest⟩
  | .failed failure trail => .ok ⟨.error failure, trail.deepest⟩
  | .aborted cause _ => .error cause

/-- Of an evaluation that ran out of unfoldings just that comes back. -/
theorem Outcome.answer_of_isExhausted {outcome : Outcome τ Node} (h : outcome.isExhausted) :
    outcome.answer = .error .unfoldings := by
  cases outcome with
  | matched => cases h
  | failed => cases h
  | aborted cause trail =>
    cases cause with
    | unfoldings => rfl
    | construction => cases h
    | slice => cases h

namespace Answer

/-- The result as it is reported: a failure gives way to a deeper one that was recovered from. -/
def reported (answer : Answer) : Except Failure (Node × Cursor) :=
  match answer.result with
  | .ok found => .ok found
  | .error failure => .error (answer.deepest.merge failure)

/-- The result as it is reported of a whole text: that the text goes on is a failure too. -/
def whole (answer : Answer) : Except Failure Node :=
  match answer.result with
  | .ok (node, next) =>
    if next.atEnd then .ok node else .error (answer.deepest.merge (.unconsumed next.location))
  | .error failure => .error (answer.deepest.merge failure)

/-- What an entry point returns that reads its result off the answer with `read`. -/
def returned (read : Answer → Except Failure β) : Except Abort Answer → Except Stop β
  | .ok answer =>
    match read answer with
    | .ok value => .ok value
    | .error failure => .error (.failure failure)
  | .error cause => .error (.abort cause)

end Answer

/-! ## §2 Entry points -/

namespace Matcher

variable (matcher : Matcher τ Node) (rule text : String) (journal : τ)

theorem parseFrom_fst (cursor : Cursor) : (matcher.parseFrom cursor journal).1
    = Answer.returned Answer.reported (matcher cursor (.fresh journal)).answer := by
  unfold parseFrom
  cases matcher cursor (.fresh journal) <;> rfl

variable [Journal τ]

theorem parse_fst : (matcher.parse rule text journal).1
    = Answer.returned (fun answer => answer.reported.map Prod.fst)
      (matcher (.start text)
        (.fresh (Journal.happened (.began text.utf8ByteSize rule) journal))).answer := by
  simp only [parse, parseFrom]
  cases matcher (.start text)
    (.fresh (Journal.happened (.began text.utf8ByteSize rule) journal)) <;> rfl

theorem parseAll_fst : (matcher.parseAll rule text journal).1
    = Answer.returned Answer.whole
      (matcher (.start text)
        (.fresh (Journal.happened (.beganAll text.utf8ByteSize rule) journal))).answer := by
  simp only [parseAll]
  cases matcher (.start text)
    (.fresh (Journal.happened (.beganAll text.utf8ByteSize rule) journal)) with
  | matched node next trail =>
    cases hend : next.atEnd <;> simp [Outcome.answer, Answer.returned, Answer.whole, hend]
  | failed failure trail => rfl
  | aborted cause trail => rfl

end Matcher

end AugmentedBnf
