import AugmentedBnf.Proofs.Matching.Continuation
import AugmentedBnf.Proofs.Rule.Induction

/-!
# How Far an Evaluation Gets

An evaluation gets beyond a limit if its match ends behind the limit, or if a failure at the limit
or behind it is returned or recorded. Once it has got there, it cannot come back unnoticed: a cursor
behind the limit either becomes the end of a match or a failure is met there, and a failure that is
recovered from is recorded unless a deeper one is (`Grammar.matcher_escapes`).

So an evaluation that did not get beyond a limit has not looked at any code point behind it.
-/

namespace AugmentedBnf

variable {κ τ α β : Type}

/-! ## §1 Failures at a limit -/

namespace Failure

/-- Of two failures the deeper one is at a limit if one of them is. -/
theorem le_position_deeper {limit : Nat} {first second : Failure} :
    limit ≤ (first.deeper second).position ↔
      limit ≤ first.position ∨ limit ≤ second.position := by
  unfold deeper
  split <;> omega

end Failure

namespace Deepest

/-- A failure at the offset or behind it was recovered from. -/
def Reaches (deepest : Deepest) (offset : Nat) : Prop :=
  ∃ failure ∈ deepest.failure, offset ≤ failure.position

variable {deepest : Deepest} {failure : Failure} {limit : Nat}

theorem reaches_record :
    (deepest.record failure).Reaches limit ↔ deepest.Reaches limit ∨ limit ≤ failure.position := by
  rcases deepest with ⟨_ | recorded⟩
  · simp [Reaches, record]
  · simp [Reaches, record, Failure.le_position_deeper]

theorem le_position_merge :
    limit ≤ (deepest.merge failure).position ↔
      limit ≤ failure.position ∨ deepest.Reaches limit := by
  rcases deepest with ⟨_ | recorded⟩
  · simp [Reaches, merge]
  · simp [Reaches, merge, Failure.le_position_deeper]

end Deepest

/-! ## §2 Escapes -/

/-- An evaluation with this cursor and trail has got beyond the limit. -/
def Cursor.Escaped (limit : Nat) (cursor : Cursor) (trail : Trail τ) : Prop :=
  limit < cursor.position ∨ trail.deepest.Reaches limit

/-- An evaluation with this outcome has got beyond the limit. Of one that was abandoned nothing is
    known, so it counts as one that has. -/
def Outcome.Escapes (limit : Nat) : Outcome τ α → Prop
  | .matched _ next trail => next.Escaped limit trail
  | .failed failure trail => limit ≤ failure.position ∨ trail.deepest.Reaches limit
  | .aborted _ _ => True

/-- What has got beyond the limit stays there, if nothing that it goes on with comes back. -/
theorem Outcome.Escapes.andThen {limit : Nat} {outcome : Outcome τ α}
    {onMatch : α → Cursor → Trail τ → Outcome τ β} {onFail : Failure → Trail τ → Outcome τ β}
    (h : outcome.Escapes limit)
    (hmatch : ∀ value next trail, next.Escaped limit trail →
      (onMatch value next trail).Escapes limit)
    (hfail : ∀ failure trail, (Outcome.failed failure trail : Outcome τ α).Escapes limit →
      (onFail failure trail).Escapes limit) : (outcome.andThen onMatch onFail).Escapes limit := by
  cases outcome with
  | matched value next trail => exact hmatch value next trail h
  | failed failure trail => exact hfail failure trail h
  | aborted cause trail => trivial

/-- From beyond the limit the matcher does not come back. -/
def Matcher.Escapes (limit : Nat) (m : Matcher τ α) : Prop :=
  ∀ cursor trail, cursor.Escaped limit trail → (m cursor trail).Escapes limit

/-- Recovering from a failure does not lead back. -/
theorem Cursor.Escaped.recover {limit : Nat} {cursor : Cursor} {trail : Trail τ}
    (h : cursor.Escaped limit trail) (failure : Failure) :
    cursor.Escaped limit (trail.recover failure) :=
  h.imp_right fun hreaches => Deepest.reaches_record.mpr (.inl hreaches)

/-! ## §3 Operations on matchers -/

namespace Cursor

/-- Moving past the code point that is read does not go back. -/
theorem position_le_skip {cursor : Cursor} {c : Char} (hvalue : cursor.value = .ok c) :
    cursor.position ≤ (cursor.skip c.utf8Size).position := by
  cases cursor with
  | ended text => exact Nat.le_refl _
  | within text offset =>
    -- What is read stands at a place of the text, so the offset is not beyond it.
    have hle : offset ≤ text.utf8ByteSize := by
      by_cases hvalid : (⟨offset⟩ : String.Pos.Raw).IsValid text
      · exact hvalid.le_utf8ByteSize
      · simp [value, Text.charAt, Text.place, hvalid, Except.map] at hvalue
    simp only [skip]
    split
    · exact hle
    · exact Nat.le_add_right offset c.utf8Size

/-- Where nothing can be read, that is the failure. -/
theorem position_of_value_eq_failure {cursor : Cursor} {failure : Failure}
    (hvalue : cursor.value = .error (.failure failure)) : failure.position = cursor.position := by
  unfold value at hvalue
  split at hvalue
  · split at hvalue <;> cases hvalue
    rfl
  · cases hvalue
    rfl

end Cursor

namespace Matcher

variable {limit : Nat}

section Primitive

variable [Journal τ]

/-- A failure at the cursor is beyond the limit if the cursor is or what was recorded before. -/
theorem escapes_of_missed {cursor : Cursor} {trail : Trail τ} {failure : Failure}
    (h : cursor.Escaped limit trail) (hposition : failure.position = cursor.position) :
    (Outcome.failed failure (trail.miss failure) : Outcome τ α).Escapes limit := by
  rcases h with hlt | hreaches
  · exact .inl (hposition ▸ Nat.le_of_lt hlt)
  · exact .inr hreaches

theorem codePoint_escapes (name expected : String) (accepts : Char → Bool) :
    (codePoint name expected accepts : Matcher τ Node).Escapes limit := by
  intro cursor trail hescaped
  unfold codePoint
  rcases hvalue : cursor.value with (failure | cause) | found
  · exact escapes_of_missed hescaped (Cursor.position_of_value_eq_failure hvalue)
  · trivial
  · by_cases hfound : accepts found
    · simp only [hfound, if_true]
      have hle := Cursor.position_le_skip hvalue
      exact hescaped.imp_left fun hlt => Nat.lt_of_lt_of_le hlt hle
    · simp only [hfound, if_false, Bool.false_eq_true]
      exact escapes_of_missed hescaped rfl

theorem endOfText_escapes (name : String) :
    (endOfText name : Matcher τ Node).Escapes limit := by
  intro cursor trail hescaped
  unfold endOfText
  cases cursor.atEnd with
  | true => exact hescaped
  | false => exact escapes_of_missed hescaped rfl

end Primitive

variable {m : Matcher τ Node} {ms : List (Matcher τ Node)}

/-! ### What follows an outcome that has got beyond the limit -/

section After

variable {cursor : Cursor} {trail : Trail τ} {bounds : Bounds} {count : Nat}

theorem node_escapes_of {m : Matcher τ (List Node)} (h : (m cursor trail).Escapes limit)
    (name : String) : (node name m cursor trail).Escapes limit := by
  rw [node_andThen]
  exact h.andThen (fun _ _ _ hnext => hnext) (fun _ _ hfailed => hfailed)

theorem sequence_escapes_of (h : (m cursor trail).Escapes limit)
    (hrest : (sequence ms).Escapes limit) : (sequence (m :: ms) cursor trail).Escapes limit := by
  rw [sequence_andThen]
  refine h.andThen (fun child next trail hnext => ?_) (fun _ _ hfailed => hfailed)
  exact (hrest next trail hnext).andThen (fun _ _ _ hlast => hlast) (fun _ _ hfailed => hfailed)

/-- A choice goes on with a failure in flight that a member has got beyond the limit with. -/
theorem choiceAfter_escapes_of (h : (m cursor trail).Escapes limit)
    (hrest : ∀ {failure : Failure} {trail : Trail τ},
      (Outcome.failed failure trail : Outcome τ Node).Escapes limit →
      (choiceAfter failure ms cursor trail).Escapes limit) (failure : Failure) :
    (choiceAfter failure (m :: ms) cursor trail).Escapes limit := by
  rw [choiceAfter_andThen]
  refine h.andThen (fun child next trail hnext => ?_) (fun other trail hother => ?_)
  · exact Cursor.Escaped.recover hnext failure
  · exact hrest (hother.imp_left fun hdeep => Failure.le_position_deeper.mpr (.inr hdeep))

/-- A failure in flight that is beyond the limit is returned or recorded, unless a deeper one is. -/
theorem choiceAfter_escapes (h : ∀ m ∈ ms, m.Escapes limit) {failure : Failure} {trail : Trail τ}
    (hinflight : (Outcome.failed failure trail : Outcome τ Node).Escapes limit) (cursor : Cursor) :
    (choiceAfter failure ms cursor trail).Escapes limit := by
  induction ms generalizing failure trail with
  | nil => exact hinflight
  | cons m ms ih =>
    obtain ⟨hfirst, hrest⟩ := List.forall_mem_cons.mp h
    rcases hinflight with hdeep | hreaches
    · -- Whatever the member does, the failure in flight goes on or is recorded.
      simp only [choiceAfter]
      cases m cursor trail with
      | matched child next trail => exact .inr (Deepest.reaches_record.mpr (.inr hdeep))
      | failed other trail => exact ih hrest (.inl (Failure.le_position_deeper.mpr (.inl hdeep)))
      | aborted cause trail => trivial
    · exact choiceAfter_escapes_of (hfirst cursor trail (.inr hreaches)) (ih hrest) failure

theorem choice_escapes_of (h : (m cursor trail).Escapes limit)
    (hrest : ∀ m ∈ ms, m.Escapes limit) : (choice m ms cursor trail).Escapes limit := by
  rw [choice_andThen]
  exact h.andThen (fun _ _ _ hnext => hnext) (fun _ _ hfailed => choiceAfter_escapes hrest hfailed _)

/-- A round that has got beyond the limit is followed by rounds that do not come back, or by none,
    and then a failure that ends the repetition is recorded. -/
theorem repeatFrom_escapes_of (h : (m cursor trail).Escapes limit)
    (hmore : bounds.allowsMore count = true)
    (hlater : ∀ next trail, next.remaining < cursor.remaining → next.Escaped limit trail →
      (repeatFrom bounds m (count + 1) next trail).Escapes limit) :
    (repeatFrom bounds m count cursor trail).Escapes limit := by
  rw [repeatFrom_andThen]
  simp only [hmore, if_true]
  refine h.andThen (fun child next trail hnext => ?_) (fun failure trail hfailed => ?_)
  · by_cases hprogress : next.remaining < cursor.remaining
    · simp only [hprogress, if_true]
      exact (hlater next trail hprogress hnext).andThen (fun _ _ _ hlast => hlast)
        (fun _ _ hfailed => hfailed)
    · simp only [hprogress, if_false]
      exact hnext
  · by_cases hfew : count < bounds.min
    · simp only [hfew, if_true]
      exact hfailed
    · simp only [hfew, if_false]
      exact .inr (Deepest.reaches_record.mpr hfailed.symm)

end After

/-! ### What follows a cursor that is beyond the limit -/

theorem node_escapes {m : Matcher τ (List Node)} (h : m.Escapes limit) (name : String) :
    (node name m).Escapes limit := by
  intro cursor trail hescaped
  exact node_escapes_of (h cursor trail hescaped) name

theorem sequence_escapes (h : ∀ m ∈ ms, m.Escapes limit) : (sequence ms).Escapes limit := by
  induction ms with
  | nil =>
    intro cursor trail hescaped
    exact hescaped
  | cons m ms ih =>
    intro cursor trail hescaped
    obtain ⟨hfirst, hrest⟩ := List.forall_mem_cons.mp h
    exact sequence_escapes_of (hfirst cursor trail hescaped) (ih hrest)

theorem choice_escapes (hm : m.Escapes limit) (hms : ∀ m ∈ ms, m.Escapes limit) :
    (choice m ms).Escapes limit := by
  intro cursor trail hescaped
  exact choice_escapes_of (hm cursor trail hescaped) hms

theorem repeatFrom_escapes (h : m.Escapes limit) (bounds : Bounds) (count : Nat) :
    (repeatFrom bounds m count).Escapes limit := by
  intro cursor
  -- A further round begins where less of the text remains.
  induction hremaining : cursor.remaining using Nat.strongRecOn generalizing cursor count with
  | ind remaining ih =>
    intro trail hescaped
    by_cases hmore : bounds.allowsMore count
    · refine repeatFrom_escapes_of (h cursor trail hescaped) hmore fun next trail hprogress => ?_
      exact ih next.remaining (hremaining ▸ hprogress) (count + 1) next rfl trail
    · rw [repeatFrom]
      simp only [hmore, if_false, Bool.false_eq_true]
      exact hescaped

end Matcher

/-! ## §4 Rules -/

/-- **No evaluation comes back** from beyond a limit, with any number of unfoldings. -/
theorem Grammar.matcher_escapes [Journal τ] (grammar : Grammar κ) (depth : Nat) (rule : Rule κ)
    (limit : Nat) : (rule.matcher (grammar.call depth) : Matcher τ Node).Escapes limit := by
  induction depth, rule using grammar.unfoldingInduction with
  | character depth name expected => exact Matcher.codePoint_escapes name _ _
  | range depth name low high => exact Matcher.codePoint_escapes name _ _
  | endOfText depth name => exact Matcher.endOfText_escapes name
  | concatenation depth name first rest ih =>
    rw [Rule.matcher_concatenation]
    apply Matcher.node_escapes
    apply Matcher.sequence_escapes
    exact List.forall_mem_map.mpr ih
  | alternation depth name first rest ih =>
    rw [Rule.matcher_alternation]
    obtain ⟨hfirst, hrest⟩ := List.forall_mem_cons.mp ih
    apply Matcher.node_escapes
    apply Matcher.choice_escapes hfirst
    exact List.forall_mem_map.mpr hrest
  | repetition depth name bounds element ih =>
    rw [Rule.matcher_repetition]
    apply Matcher.node_escapes
    exact Matcher.repeatFrom_escapes ih bounds 0
  | exhausted name key =>
    rw [Grammar.matcher_exhausted]
    exact fun _ _ _ => trivial
  | unbuildable depth name key fault hdefine =>
    rw [Grammar.matcher_unbuildable grammar depth name hdefine]
    exact fun _ _ _ => trivial
  | unfolded depth name key rule hdefine ih =>
    rw [Grammar.matcher_unfolded grammar depth name hdefine]
    exact ih

end AugmentedBnf
