import AugmentedBnf.Matching.Matcher

/-!
# What Follows an Outcome

Each operation on matchers evaluates one of them and then goes on, in one way from a match and in
another from a failure; an abandoned evaluation is left as it is. `Outcome.andThen` is that pattern.
The equations here write the operations with it, so what can be said of all evaluations that go on
from an outcome has to be said once and not for each operation. `Outcome.map` goes on with another
value for a match and nothing else.
-/

namespace AugmentedBnf

variable {τ α β γ : Type}

/-! ## §1 Going on from an outcome -/

/-- Goes on from a match with `onMatch` and from a failure with `onFail`. -/
def Outcome.andThen (outcome : Outcome τ α) (onMatch : α → Cursor → Trail τ → Outcome τ β)
    (onFail : Failure → Trail τ → Outcome τ β) : Outcome τ β :=
  match outcome with
  | .matched value next trail => onMatch value next trail
  | .failed failure trail => onFail failure trail
  | .aborted cause trail => .aborted cause trail

section AndThen

variable (onMatch : α → Cursor → Trail τ → Outcome τ β) (onFail : Failure → Trail τ → Outcome τ β)

@[simp] theorem Outcome.andThen_matched (value : α) (next : Cursor) (trail : Trail τ) :
    (Outcome.matched value next trail).andThen onMatch onFail = onMatch value next trail := rfl

@[simp] theorem Outcome.andThen_failed (failure : Failure) (trail : Trail τ) :
    (Outcome.failed failure trail).andThen onMatch onFail = onFail failure trail := rfl

@[simp] theorem Outcome.andThen_aborted (cause : Abort) (trail : Trail τ) :
    (Outcome.aborted cause trail).andThen onMatch onFail = .aborted cause trail := rfl

end AndThen

/-- Whatever is made of a match, what is left behind is the same. -/
theorem Outcome.trail_andThen_matched (outcome : Outcome τ α) (value : α → Cursor → β) :
    (outcome.andThen (fun found next => .matched (value found next) next) .failed).trail
      = outcome.trail := by
  cases outcome <;> rfl

/-- The same outcome, with another value for a match. -/
def Outcome.map (f : α → β) (outcome : Outcome τ α) : Outcome τ β :=
  outcome.andThen (fun value => .matched (f value)) .failed

section Map

variable (f : β → γ) (outcome : Outcome τ α)

@[simp] theorem Outcome.map_matched (f : α → β) (value : α) (next : Cursor) (trail : Trail τ) :
    (Outcome.matched value next trail).map f = .matched (f value) next trail := rfl

@[simp] theorem Outcome.map_failed (f : α → β) (failure : Failure) (trail : Trail τ) :
    (Outcome.failed failure trail).map f = .failed failure trail := rfl

@[simp] theorem Outcome.map_aborted (f : α → β) (cause : Abort) (trail : Trail τ) :
    (Outcome.aborted cause trail).map f = .aborted cause trail := rfl

/-- A value is changed where an outcome comes to its end. -/
theorem Outcome.map_andThen (onMatch : α → Cursor → Trail τ → Outcome τ β)
    (onFail : Failure → Trail τ → Outcome τ β) :
    (outcome.andThen onMatch onFail).map f
      = outcome.andThen (fun value next trail => (onMatch value next trail).map f)
        (fun failure trail => (onFail failure trail).map f) := by
  cases outcome <;> rfl

/-- What goes on from a changed value could have changed it. -/
theorem Outcome.andThen_map (g : α → β) (onMatch : β → Cursor → Trail τ → Outcome τ γ)
    (onFail : Failure → Trail τ → Outcome τ γ) :
    (outcome.map g).andThen onMatch onFail
      = outcome.andThen (fun value => onMatch (g value)) onFail := by
  cases outcome <;> rfl

end Map

/-! ## §2 Operations on matchers -/

namespace Matcher

variable (first : Matcher τ Node) (rest : List (Matcher τ Node)) (cursor : Cursor)

theorem node_andThen (name : String) (children : Matcher τ (List Node)) :
    node name children cursor = fun trail => (children cursor trail).andThen
      (fun nodes next => .matched ⟨name, cursor.spanTo next, nodes⟩ next) .failed := by
  funext trail
  simp only [node, Outcome.andThen]
  cases children cursor trail <;> rfl

theorem sequence_andThen :
    sequence (first :: rest) cursor = fun trail => (first cursor trail).andThen
      (fun child next trail => (sequence rest next trail).andThen
        (fun children => .matched (child :: children)) .failed) .failed := by
  funext trail
  simp only [sequence, Outcome.andThen]
  cases first cursor trail with
  | matched child next trail =>
    simp only
    cases sequence rest next trail <;> rfl
  | failed failure trail => rfl
  | aborted cause trail => rfl

theorem choiceAfter_andThen (failure : Failure) :
    choiceAfter failure (first :: rest) cursor = fun trail => (first cursor trail).andThen
      (fun child next trail => .matched [child] next (trail.recover failure))
      (fun other => choiceAfter (failure.deeper other) rest cursor) := by
  funext trail
  simp only [choiceAfter, Outcome.andThen]
  cases first cursor trail <;> rfl

theorem choice_andThen :
    choice first rest cursor = fun trail => (first cursor trail).andThen
      (fun child => .matched [child]) (fun failure => choiceAfter failure rest cursor) := by
  funext trail
  simp only [choice, Outcome.andThen]
  cases first cursor trail <;> rfl

theorem repeatFrom_andThen (bounds : Bounds) (element : Matcher τ Node) (count : Nat) :
    repeatFrom bounds element count cursor = fun trail =>
      if bounds.allowsMore count then
        (element cursor trail).andThen
          (fun child next trail =>
            if next.remaining < cursor.remaining then
              (repeatFrom bounds element (count + 1) next trail).andThen
                (fun children => .matched (child :: children)) .failed
            else .matched [child] next trail)
          (fun failure trail =>
            if count < bounds.min then .failed failure trail
            else .matched [] cursor (trail.recover failure))
      else .matched [] cursor trail := by
  funext trail
  rw [repeatFrom]
  congr 1
  cases element cursor trail with
  | matched child next trail =>
    simp only [Outcome.andThen]
    congr 1
    cases repeatFrom bounds element (count + 1) next trail <;> rfl
  | failed failure trail => rfl
  | aborted cause trail => rfl

end Matcher

end AugmentedBnf
