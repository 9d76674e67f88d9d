import AugmentedBnf.Proofs.Matching.Answer

/-!
# What Was Recorded Before

An evaluation begins with the deepest failure recorded so far. It never looks at it, so it gives the
same result as one that begins with nothing recorded, and what it leaves is what it records on its
own, put behind what was there before (`Deepest.after`). An evaluation records before, between and
behind others that it is made of; that this comes to the same rests on `after_record`, by which
records are put behind each other in any grouping.

**Main statement**: `record_write_only`.
-/

namespace AugmentedBnf

variable {κ τ ι : Type}

/-! ## §1 One record behind another -/

/-- Of three failures the first of the deepest ones is kept, in either grouping. -/
theorem Failure.deeper_assoc (first second third : Failure) :
    (first.deeper second).deeper third = first.deeper (second.deeper third) := by
  by_cases hsecond : first.position < second.position <;>
    by_cases hthird : second.position < third.position
  · have hfirst : first.position < third.position := Nat.lt_trans hsecond hthird
    simp only [deeper, hsecond, hthird, hfirst, if_true]
  · simp only [deeper, hsecond, hthird, if_true, if_false]
  · simp only [deeper, hsecond, hthird, if_true, if_false]
  · have hfirst : ¬ first.position < third.position := by omega
    simp only [deeper, hsecond, hthird, hfirst, if_false]

theorem Failure.deeper_self (failure : Failure) : failure.deeper failure = failure := by
  unfold deeper
  exact ite_self failure

namespace Deepest

/-- What is recorded when `later` is recorded behind `earlier`. The earlier failure is kept unless
    there was none or the later one is strictly deeper. -/
def after (earlier later : Deepest) : Deepest :=
  match earlier.failure, later.failure with
  | none, _ => later
  | some _, none => earlier
  | some recorded, some failure => ⟨some (recorded.deeper failure)⟩

theorem after_empty (earlier : Deepest) : earlier.after .empty = earlier := by
  rcases earlier with ⟨_ | recorded⟩ <;> rfl

/-- A failure recorded last is recorded behind all that was recorded before. -/
theorem after_record (earlier later : Deepest) (failure : Failure) :
    earlier.after (later.record failure) = (earlier.after later).record failure := by
  rcases earlier with ⟨_ | first⟩
  · rfl
  · rcases later with ⟨_ | second⟩
    · rfl
    · simp only [after, record, Failure.deeper_assoc]

end Deepest

/-- The same result, with what was recorded put behind an earlier record. -/
def Answer.after (earlier : Deepest) (answer : Answer) : Answer :=
  ⟨answer.result, earlier.after answer.deepest⟩

/-! ## §2 Single evaluations -/

/-- Evaluations that approximate each other give the same result, and their records are related as
    their trails are. -/
theorem Outcome.Approximates.answer_eq {C C' : Cursor → Prop} {R : Trail τ → Trail ι → Prop}
    {R' : Trail ι → Trail τ → Prop} {outcome : Outcome τ Node} {outcome' : Outcome ι Node}
    (h : outcome.Approximates C R outcome') (hback : outcome'.Approximates C' R' outcome)
    {earlier : Deepest}
    (hrecord : ∀ {trail trail'}, R trail trail' → trail.deepest = earlier.after trail'.deepest) :
    outcome.answer = outcome'.answer.map (Answer.after earlier) := by
  cases h with
  | matched _ htrail => simp only [answer, Except.map, Answer.after, hrecord htrail]
  | failed htrail => simp only [answer, Except.map, Answer.after, hrecord htrail]
  | aborted _ => rfl
  | exhausted =>
    -- The other evaluation approximates one that ran out of unfoldings, so it has run out as well.
    have hexhausted : outcome'.isExhausted := hback.isExhausted rfl
    rw [answer_of_isExhausted hexhausted]
    rfl

/-- Two trails of which the first has recorded the same behind an earlier record. -/
def Trail.Behind (earlier : Deepest) (trail : Trail τ) (trail' : Trail ι) : Prop :=
  trail.deepest = earlier.after trail'.deepest

section Behind

variable [Journal τ] [Journal ι]

theorem Trail.kept_behind (earlier : Deepest) :
    Kept (fun _ => True) (Trail.Behind earlier : Trail τ → Trail ι → Prop) where
  skip := fun _ _ => trivial
  recover := by
    intro trail trail' failure htrail
    exact (congrArg (·.record failure) htrail).trans (Deepest.after_record _ _ _).symm
  miss := fun _ htrail => htrail

/-- **What was recorded before makes no difference**: the result is the same, and the evaluation's
    own record is put behind what was there. -/
theorem Grammar.answer_after (grammar : Grammar κ) (depth : Nat) (rule : Rule κ) (cursor : Cursor)
    (earlier : Deepest) (journal : τ) (journal' : ι) :
    (rule.matcher (grammar.call depth) cursor ⟨earlier, journal⟩).answer
      = (rule.matcher (grammar.call depth) cursor (.fresh journal')).answer.map
        (Answer.after earlier) := by
  have hbehind : Trail.Behind earlier ⟨earlier, journal⟩ (.fresh journal') :=
    earlier.after_empty.symm
  have hforth := grammar.matcher_approximates (Trail.kept_behind earlier) (Nat.le_refl depth) rule
    cursor ⟨earlier, journal⟩ (.fresh journal') trivial hbehind
  have hback := grammar.matcher_approximates (Trail.kept_behind earlier).flip (Nat.le_refl depth)
    rule cursor (.fresh journal') ⟨earlier, journal⟩ trivial hbehind
  exact hforth.answer_eq hback id

end Behind

/-! ## §3 Evaluations that share a record -/

namespace Grammar

/-- The answer of an evaluation that begins with a record. -/
def answerFrom (grammar : Grammar κ) (depth : Nat) (recorded : Deepest)
    (call : Rule κ × Cursor) : Except Abort Answer :=
  (call.1.matcher (grammar.call depth) call.2 ⟨recorded, ()⟩).answer

/-- Evaluations one after the other, each going on with the record that the one before it left:
    their results and the final record. One that is abandoned ends them all. -/
def share (grammar : Grammar κ) (depth : Nat) :
    List (Rule κ × Cursor) → Deepest →
      Except Abort (List (Except Failure (Node × Cursor)) × Deepest)
  | [], recorded => .ok ([], recorded)
  | call :: calls, recorded => do
    let answer ← grammar.answerFrom depth recorded call
    let (results, last) ← share grammar depth calls answer.deepest
    .ok (answer.result :: results, last)

/-- The results of evaluations that each begin with nothing recorded, and their records put one
    behind the other. -/
def collect (recorded : Deepest) (answers : List Answer) :
    List (Except Failure (Node × Cursor)) × Deepest :=
  (answers.map Answer.result, (answers.map Answer.deepest).foldl Deepest.after recorded)

theorem share_eq_collect (grammar : Grammar κ) (depth : Nat) (calls : List (Rule κ × Cursor))
    (recorded : Deepest) :
    grammar.share depth calls recorded
      = (calls.mapM (grammar.answerFrom depth .empty)).map (collect recorded) := by
  induction calls generalizing recorded with
  | nil => rfl
  | cons call calls ih =>
    have hcall : grammar.answerFrom depth recorded call
        = (grammar.answerFrom depth .empty call).map (Answer.after recorded) :=
      grammar.answer_after depth call.1 call.2 recorded () ()
    rw [share, hcall, List.mapM_cons]
    cases grammar.answerFrom depth .empty call with
    | error cause => rfl
    | ok answer =>
      -- The others go on with the record of the first one behind what was there.
      show (grammar.share depth calls (recorded.after answer.deepest) >>= _) = _
      rw [ih]
      cases calls.mapM (grammar.answerFrom depth .empty) <;> rfl

/-- **The record is only written to.** Whatever was recorded before, an evaluation gives the same
    result as one that begins with nothing recorded. What it leaves recorded is what that one
    leaves, if there was nothing before or this is strictly deeper, and otherwise what there was. So
    evaluations that share a record give the results that each gives on its own, and the final
    record comes from what each records on its own, taken in order in the same way. -/
theorem record_write_only [Journal τ] (grammar : Grammar κ) (depth : Nat) :
    let after (earlier later : Deepest) : Deepest :=
      match earlier.failure, later.failure with
      | none, _ => later
      | some _, none => earlier
      | some recorded, some failure =>
        if recorded.position < failure.position then later else earlier
    (∀ (rule : Rule κ) (cursor : Cursor) (recorded : Deepest) (journal : τ),
      (rule.matcher (grammar.call depth) cursor ⟨recorded, journal⟩).answer
        = (rule.matcher (grammar.call depth) cursor (.fresh journal)).answer.map fun answer =>
          ⟨answer.result, after recorded answer.deepest⟩) ∧
    (∀ (calls : List (Rule κ × Cursor)) (recorded : Deepest),
      grammar.share depth calls recorded
        = (calls.mapM (grammar.answerFrom depth .empty)).map fun answers =>
          (answers.map Answer.result, (answers.map Answer.deepest).foldl after recorded)) := by
  intro after
  have hafter : after = Deepest.after := by
    funext ⟨earlier⟩ ⟨later⟩
    cases earlier with
    | none => rfl
    | some recorded =>
      cases later with
      | none => rfl
      | some failure =>
        simp only [after, Deepest.after, Failure.deeper]
        split <;> rfl
  rw [hafter]
  exact ⟨fun rule cursor recorded journal =>
    grammar.answer_after depth rule cursor recorded journal journal,
    grammar.share_eq_collect depth⟩

end Grammar

end AugmentedBnf
