import AugmentedBnf.Grammar.Parse
import AugmentedBnf.Proofs.Failure.Summary
import AugmentedBnf.Proofs.Grammar.Unfolding
import AugmentedBnf.Proofs.Matching.Continuation

/-!
# No Failure Is Lost

An evaluation passes failures on in two ways. A failure that ends a part of it is returned, and one
that is recovered from is recorded, if it is the deepest. Failures change from one way to the other:
a choice takes back what a member returned and records it when another member matches.

A transcript keeps all failures, so it tells what the two ways together have to account for. The
invariant is that what is returned and what is recorded summarise what was missed since the
evaluation began and what was recorded before (`Outcome.Accounts`). Within a choice a returned
failure is in flight: it is neither recorded nor given up, and it counts as well.

**Main statement**: `failures_accounted`.
-/

namespace AugmentedBnf

variable {κ τ α β : Type}

open Failure (Summarise)

/-! ## §1 Accounts -/

/-- An evaluation that began with the trail `trail` and with failures in flight accounts for what
    was missed since: what it recorded, and what it returns, summarises all of that. It returns a
    failure that was missed or in flight. -/
inductive Outcome.Accounts (inflight : List Failure) (trail : Trail Transcript) :
    Outcome Transcript α → Prop where
  | matched {value : α} {next : Cursor} {trail' : Trail Transcript} (missed : List Failure)
      (hjournal : trail'.journal.failures = missed ++ trail.journal.failures)
      (hsummary : Summarise trail'.deepest.kept (missed ++ (inflight ++ trail.deepest.kept))) :
      Accounts inflight trail (.matched value next trail')
  | failed {failure : Failure} {trail' : Trail Transcript} (missed : List Failure)
      (hjournal : trail'.journal.failures = missed ++ trail.journal.failures)
      (hmem : failure ∈ missed ++ inflight)
      (hsummary : Summarise (failure :: trail'.deepest.kept)
        (missed ++ (inflight ++ trail.deepest.kept))) :
      Accounts inflight trail (.failed failure trail')
  | aborted {cause : Abort} {trail' : Trail Transcript} :
      Accounts inflight trail (.aborted cause trail')

/-- Accounts go on: what follows a part that accounts for itself accounts for both. -/
theorem Outcome.Accounts.after {inflight inflight' missed : List Failure}
    {trail between : Trail Transcript} {outcome : Outcome Transcript α}
    (h : outcome.Accounts inflight' between)
    (hjournal : between.journal.failures = missed ++ trail.journal.failures)
    (hinflight : inflight' ⊆ missed ++ inflight)
    (hsummary : Summarise (inflight' ++ between.deepest.kept)
      (missed ++ (inflight ++ trail.deepest.kept))) :
    outcome.Accounts inflight trail := by
  cases h with
  | matched later hlater hkept =>
    refine .matched (later ++ missed) ?_ ?_
    · rw [hlater, hjournal, List.append_assoc]
    · rw [List.append_assoc]
      exact hkept.trans ((Summarise.refl later).append hsummary)
  | @failed failure _ later hlater hmem hkept =>
    refine .failed (later ++ missed) ?_ ?_ ?_
    · rw [hlater, hjournal, List.append_assoc]
    · rw [List.append_assoc]
      rcases List.mem_append.mp hmem with hmem | hmem
      · exact List.mem_append_left _ hmem
      · exact List.mem_append_right _ (hinflight hmem)
    · rw [List.append_assoc]
      exact hkept.trans ((Summarise.refl later).append hsummary)
  | aborted => exact .aborted

/-- It makes no difference what is made of a match. -/
theorem Outcome.Accounts.valued {inflight : List Failure} {trail : Trail Transcript}
    {outcome : Outcome Transcript α} (h : outcome.Accounts inflight trail)
    (value : α → Cursor → β) :
    (outcome.andThen (fun found next => .matched (value found next) next) .failed).Accounts inflight
      trail := by
  cases h with
  | matched missed hjournal hsummary => exact .matched missed hjournal hsummary
  | failed missed hjournal hmem hsummary => exact .failed missed hjournal hmem hsummary
  | aborted => exact .aborted

/-- Wherever it begins, an evaluation accounts for what is missed. -/
def Matcher.Accounts (inflight : List Failure) (m : Matcher Transcript α) : Prop :=
  ∀ cursor trail, (m cursor trail).Accounts inflight trail

/-! ## §2 Operations on matchers -/

namespace Matcher

variable {m : Matcher Transcript Node} {ms : List (Matcher Transcript Node)}

/-- A failure that was just missed is returned, and nothing else happened. -/
theorem accounts_missed (failure : Failure) (trail : Trail Transcript) :
    (Outcome.failed failure (trail.miss failure) : Outcome Transcript α).Accounts [] trail :=
  .failed [failure] rfl (List.mem_singleton.mpr rfl) (.refl _)

theorem codePoint_accounts (name expected : String) (accepts : Char → Bool) :
    (codePoint name expected accepts).Accounts [] := by
  intro cursor trail
  unfold codePoint
  rcases cursor.value with (failure | cause) | found
  · exact accounts_missed failure trail
  · exact .aborted
  · by_cases hfound : accepts found
    · simp only [hfound, if_true]
      exact .matched [] rfl (.refl _)
    · simp only [hfound, if_false, Bool.false_eq_true]
      exact accounts_missed _ trail

theorem endOfText_accounts (name : String) : (endOfText name).Accounts [] := by
  intro cursor trail
  unfold endOfText
  cases cursor.atEnd with
  | true => exact .matched [] rfl (.refl _)
  | false => exact accounts_missed _ trail

theorem node_accounts {m : Matcher Transcript (List Node)} (h : m.Accounts []) (name : String) :
    (node name m).Accounts [] := by
  intro cursor trail
  rw [node_andThen]
  exact (h cursor trail).valued _

/-- A sequence returns the failure of one member, and the members before it have recorded theirs. -/
theorem sequence_accounts (h : ∀ m ∈ ms, m.Accounts []) : (sequence ms).Accounts [] := by
  induction ms with
  | nil =>
    intro cursor trail
    exact .matched [] rfl (.refl _)
  | cons m ms ih =>
    intro cursor trail
    obtain ⟨hfirst, hrest⟩ := List.forall_mem_cons.mp h
    have houtcome := hfirst cursor trail
    simp only [sequence_andThen]
    generalize m cursor trail = outcome at houtcome ⊢
    cases houtcome with
    | @matched child next between missed hjournal hsummary =>
      have hlater := (ih hrest next between).after hjournal (List.nil_subset _) hsummary
      exact hlater.valued fun children _ => child :: children
    | failed missed hjournal hmem hsummary => exact .failed missed hjournal hmem hsummary
    | aborted => exact .aborted

/-- The failures of the earlier members are in flight, as one. -/
theorem choiceAfter_accounts (h : ∀ m ∈ ms, m.Accounts []) (failure : Failure) :
    (choiceAfter failure ms).Accounts [failure] := by
  induction ms generalizing failure with
  | nil =>
    -- No member is left to recover from it, so the failure in flight is returned.
    intro cursor trail
    exact .failed [] rfl (List.mem_singleton.mpr rfl) (.refl _)
  | cons m ms ih =>
    intro cursor trail
    obtain ⟨hfirst, hrest⟩ := List.forall_mem_cons.mp h
    have houtcome := hfirst cursor trail
    simp only [choiceAfter]
    generalize m cursor trail = outcome at houtcome ⊢
    cases houtcome with
    | @matched _ _ between missed hjournal hsummary =>
      -- The failure in flight is recorded.
      refine .matched missed hjournal ?_
      have hrecord := (between.deepest.summarise_record failure).trans
        ((Summarise.refl [failure]).append hsummary)
      refine hrecord.congr fun other => ?_
      simp only [List.mem_append, List.nil_append]
      exact or_left_comm
    | @failed other between missed hjournal hmem hsummary =>
      -- Of the failure in flight and the member's own one, the deeper goes on.
      have hdeeper := (Failure.summarise_deeper failure other).append
        (.refl between.deepest.kept)
      have hboth := hdeeper.trans ((Summarise.refl [failure]).append hsummary)
      refine (ih hrest (failure.deeper other) cursor between).after hjournal ?_
        (hboth.congr fun other => ?_)
      · refine List.Subset.trans (Failure.summarise_deeper failure other).subset ?_
        refine List.cons_subset.mpr ⟨?_, List.cons_subset.mpr ⟨?_, List.nil_subset _⟩⟩
        · exact List.mem_append_right _ (List.mem_singleton.mpr rfl)
        · rw [List.append_nil] at hmem
          exact List.mem_append_left _ hmem
      · simp only [List.mem_append, List.nil_append]
        exact or_left_comm
    | aborted => exact .aborted

theorem choice_accounts (hm : m.Accounts []) (hms : ∀ m ∈ ms, m.Accounts []) :
    (choice m ms).Accounts [] := by
  intro cursor trail
  have houtcome := hm cursor trail
  unfold choice
  generalize m cursor trail = outcome at houtcome ⊢
  cases houtcome with
  | matched missed hjournal hsummary => exact .matched missed hjournal hsummary
  | @failed failure between missed hjournal hmem hsummary =>
    -- The failure of the first member is in flight while the others are tried.
    refine (choiceAfter_accounts hms failure cursor between).after hjournal ?_ hsummary
    exact List.cons_subset.mpr ⟨hmem, List.nil_subset _⟩
  | aborted => exact .aborted

theorem repeatFrom_accounts (h : m.Accounts []) (bounds : Bounds) (count : Nat) :
    (repeatFrom bounds m count).Accounts [] := by
  intro cursor
  -- A further round begins where less of the text remains.
  induction hremaining : cursor.remaining using Nat.strongRecOn generalizing cursor count with
  | ind remaining ih =>
    intro trail
    rw [repeatFrom_andThen]
    by_cases hmore : bounds.allowsMore count
    · have houtcome := h cursor trail
      simp only [hmore, if_true]
      generalize m cursor trail = outcome at houtcome ⊢
      cases houtcome with
      | @matched child next between missed hjournal hsummary =>
        rw [Outcome.andThen_matched]
        by_cases hprogress : next.remaining < cursor.remaining
        · have hlater := (ih next.remaining (hremaining ▸ hprogress) (count + 1) next rfl
            between).after hjournal (List.nil_subset _) hsummary
          simp only [hprogress, if_true]
          exact hlater.valued fun children _ => child :: children
        · simp only [hprogress, if_false]
          exact .matched missed hjournal hsummary
      | @failed failure between missed hjournal hmem hsummary =>
        by_cases hfew : count < bounds.min
        · simp only [hfew, if_true]
          exact .failed missed hjournal hmem hsummary
        · -- The returned failure is recorded instead.
          simp only [hfew, if_false]
          exact .matched missed hjournal
            ((between.deepest.summarise_record failure).trans hsummary)
      | aborted => exact .aborted
    · simp only [hmore, if_false, Bool.false_eq_true]
      exact .matched [] rfl (.refl _)

end Matcher

/-! ## §3 Rules -/

/-- **Every evaluation accounts for what it missed**, with any number of unfoldings. -/
theorem Grammar.matcher_accounts (grammar : Grammar κ) (depth : Nat) (rule : Rule κ) :
    (rule.matcher (grammar.call depth)).Accounts [] := by
  induction depth, rule using grammar.unfoldingInduction with
  | character depth name expected => exact Matcher.codePoint_accounts name _ _
  | range depth name low high => exact Matcher.codePoint_accounts name _ _
  | endOfText depth name => exact Matcher.endOfText_accounts name
  | concatenation depth name first rest ih =>
    rw [Rule.matcher_concatenation]
    apply Matcher.node_accounts
    apply Matcher.sequence_accounts
    exact List.forall_mem_map.mpr ih
  | alternation depth name first rest ih =>
    rw [Rule.matcher_alternation]
    obtain ⟨hfirst, hrest⟩ := List.forall_mem_cons.mp ih
    apply Matcher.node_accounts
    apply Matcher.choice_accounts hfirst
    exact List.forall_mem_map.mpr hrest
  | repetition depth name bounds element ih =>
    rw [Rule.matcher_repetition]
    apply Matcher.node_accounts
    exact Matcher.repeatFrom_accounts ih bounds 0
  | exhausted name key =>
    rw [Grammar.matcher_exhausted]
    exact fun _ _ => .aborted
  | unbuildable depth name key fault hdefine =>
    rw [Grammar.matcher_unbuildable grammar depth name hdefine]
    exact fun _ _ => .aborted
  | unfolded depth name key rule hdefine ih =>
    rw [Grammar.matcher_unfolded grammar depth name hdefine]
    exact ih

/-! ## §4 Reported failures -/

namespace Grammar

/-- All failures of characters, ranges and the end of the text in the evaluation of a rule with at
    most `depth` unfoldings within each other, recovered from or not. -/
def missed (grammar : Grammar κ) (depth : Nat) (rule : Rule κ) (cursor : Cursor) : List Failure :=
  (rule.matcher (grammar.call depth) cursor (.fresh (⟨[]⟩ : Transcript))).trail.journal.failures

/-- All that there is to say against a text being matched as a whole: the failures of the
    evaluation, and that the text goes on where the match ends. -/
def missedInAll (grammar : Grammar κ) (rule : Rule κ) (text : String) : List Failure :=
  let cursor := Cursor.start text
  let failures := grammar.missed (grammar.depth cursor.text) rule cursor
  match grammar.evaluate rule cursor (.fresh ()) with
  | .matched _ next _ =>
    if next.atEnd then failures else .unconsumed next.location :: failures
  | _ => failures

section Reported

variable [Journal τ] {grammar : Grammar κ} {depth : Nat} {rule : Rule κ} {cursor next : Cursor}
  {journal : τ} {trail : Trail τ} {node : Node} {failure : Failure}

/-- An evaluation records the same, whatever journal is kept. -/
theorem kept_deepest {ι : Type} [Journal ι] :
    Kept (fun _ => True) (fun (trail : Trail τ) (trail' : Trail ι) =>
      trail.deepest = trail'.deepest) where
  skip := fun _ _ => trivial
  recover := fun failure htrail => congrArg (·.record failure) htrail
  miss := fun _ htrail => htrail

/-- What a match leaves recorded summarises what was missed. -/
theorem summarise_missed_of_matched
    (h : rule.matcher (grammar.call depth) cursor (.fresh journal) = .matched node next trail) :
    Summarise trail.deepest.kept (grammar.missed depth rule cursor) := by
  -- The evaluation that keeps a transcript records the same, and that one accounts for itself.
  have happrox := grammar.matcher_approximates kept_deepest (Nat.le_refl depth) rule cursor
    (.fresh journal) (.fresh (⟨[]⟩ : Transcript)) trivial rfl
  have haccounts := grammar.matcher_accounts depth rule cursor (.fresh ⟨[]⟩)
  unfold missed
  rw [h] at happrox
  generalize rule.matcher (grammar.call depth) cursor (.fresh (⟨[]⟩ : Transcript)) = outcome
    at happrox haccounts ⊢
  cases happrox with
  | matched _ htrail =>
    cases haccounts with
    | matched missed hjournal hsummary =>
      rw [htrail, Outcome.trail, hjournal]
      exact hsummary

/-- A failure is one that was missed, and with what it leaves recorded it summarises all. -/
theorem summarise_missed_of_failed
    (h : rule.matcher (grammar.call depth) cursor (.fresh journal) = .failed failure trail) :
    failure ∈ grammar.missed depth rule cursor ∧
      Summarise (failure :: trail.deepest.kept) (grammar.missed depth rule cursor) := by
  have happrox := grammar.matcher_approximates kept_deepest (Nat.le_refl depth) rule cursor
    (.fresh journal) (.fresh (⟨[]⟩ : Transcript)) trivial rfl
  have haccounts := grammar.matcher_accounts depth rule cursor (.fresh ⟨[]⟩)
  unfold missed
  rw [h] at happrox
  generalize rule.matcher (grammar.call depth) cursor (.fresh (⟨[]⟩ : Transcript)) = outcome
    at happrox haccounts ⊢
  cases happrox with
  | failed htrail =>
    cases haccounts with
    | failed missed hjournal hmem hsummary =>
      rw [htrail, Outcome.trail, hjournal]
      rw [List.append_nil] at hmem
      exact ⟨List.mem_append_left _ hmem, hsummary⟩

/-- What is reported of a failed evaluation is the deepest failure of it. -/
theorem isDeepest_of_failed
    (h : rule.matcher (grammar.call depth) cursor (.fresh journal) = .failed failure trail) :
    (trail.deepest.merge failure).IsDeepest (grammar.missed depth rule cursor) :=
  Failure.isDeepest_iff.mpr
    ((trail.deepest.summarise_merge failure).trans (summarise_missed_of_failed h).2)

end Reported

section Entry

variable {grammar : Grammar κ} {rule : Rule κ} {failure : Failure}

/-- The failure reported from a cursor is a deepest one of those missed. -/
theorem parseFrom_isDeepest {cursor : Cursor}
    (h : grammar.parseFrom rule cursor = .error (.failure failure)) :
    failure.IsDeepest (grammar.missed (grammar.depth cursor.text) rule cursor) := by
  unfold parseFrom Matcher.parseFrom at h
  split at h
  case h_1 => cases h
  case h_2 houtcome =>
    cases h
    exact isDeepest_of_failed houtcome
  case h_3 => cases h

/-- The failure reported of a whole text may also be that the text goes on. -/
theorem parseAll_isDeepest {text : String}
    (h : grammar.parseAll rule text = .error (.failure failure)) :
    failure.IsDeepest (grammar.missedInAll rule text) := by
  unfold parseAll Matcher.parseAll at h
  unfold missedInAll
  simp only at h ⊢
  split at h
  case h_1 node next trail houtcome =>
    rw [houtcome]
    split at h
    · cases h
    case isFalse hleft =>
      cases h
      simp only [hleft, if_false, Bool.false_eq_true]
      -- The last check is one more failure beside those that the match has recorded.
      have hmerge := trail.deepest.summarise_merge (.unconsumed next.location)
      have hsummary := summarise_missed_of_matched houtcome
      exact Failure.isDeepest_iff.mpr (hmerge.trans ((Summarise.refl [_]).append hsummary))
  case h_2 houtcome =>
    rw [houtcome]
    cases h
    exact isDeepest_of_failed houtcome
  case h_3 => cases h

end Entry

/-- **No failure is lost and none is invented.** A match leaves nothing recorded exactly where
    nothing was missed, and otherwise a deepest one of what was missed. A failure is one that was
    missed, and the greater of its offset and that of the recorded one is the greatest offset of
    all. What is reported from a cursor is thus a deepest one of the failures missed, and what is
    reported of a whole text is a deepest one of these and of the failure that the text goes on. -/
theorem failures_accounted [Journal τ] (grammar : Grammar κ) (rule : Rule κ) (journal : τ) :
    (∀ depth cursor node next trail,
      rule.matcher (grammar.call depth) cursor (.fresh journal) = .matched node next trail →
      (trail.deepest.failure = none ↔ grammar.missed depth rule cursor = []) ∧
      ∀ failure ∈ trail.deepest.failure, failure.IsDeepest (grammar.missed depth rule cursor)) ∧
    (∀ depth cursor failure trail,
      rule.matcher (grammar.call depth) cursor (.fresh journal) = .failed failure trail →
      failure ∈ grammar.missed depth rule cursor ∧
      (∃ deepest ∈ grammar.missed depth rule cursor,
        deepest.position = max failure.position trail.deepest.position) ∧
      ∀ other ∈ grammar.missed depth rule cursor,
        other.position ≤ max failure.position trail.deepest.position) ∧
    (∀ cursor failure, grammar.parseFrom rule cursor = .error (.failure failure) →
      failure.IsDeepest (grammar.missed (grammar.depth cursor.text) rule cursor)) ∧
    (∀ text failure, grammar.parseAll rule text = .error (.failure failure) →
      failure.IsDeepest (grammar.missedInAll rule text)) := by
  refine ⟨?_, ?_, ?_, ?_⟩
  · intro depth cursor node next trail h
    have hsummary := summarise_missed_of_matched h
    unfold Deepest.kept at hsummary
    -- Nothing summarises only nothing, and a single failure is a deepest one.
    cases hrecorded : trail.deepest.failure with
    | none =>
      rw [hrecorded] at hsummary
      exact ⟨iff_of_true rfl (Failure.summarise_nil_iff.mp hsummary), by simp⟩
    | some recorded =>
      rw [hrecorded] at hsummary
      have hdeepest := Failure.isDeepest_iff.mpr hsummary
      refine ⟨iff_of_false (by simp) (List.ne_nil_of_mem hdeepest.1), ?_⟩
      rintro _ ⟨⟩
      exact hdeepest
  · intro depth cursor failure trail h
    obtain ⟨hmem, hgreatest⟩ := isDeepest_of_failed h
    rw [Deepest.position_merge] at hgreatest
    refine ⟨(summarise_missed_of_failed h).1, ⟨_, hmem, ?_⟩, hgreatest⟩
    rw [Deepest.position_merge]
  · exact fun _ _ => parseFrom_isDeepest
  · exact fun _ _ => parseAll_isDeepest

/-- An `a` with a `b` behind it, or a `c`. -/
def pairOrSingle : Rule Empty :=
  .alternation "either" (.concatenation "pair" (.character "a" 'a') [.character "b" 'b'])
    [.character "c" 'c']

theorem pairOrSingle_failures_accounted :
    let grammar : Grammar Empty := ⟨[], nofun⟩
    let first : Failure := .mismatch "a" "'a'" 'c' ⟨"cx", 0⟩
    let second : Failure := .mismatch "b" "'b'" 'x' ⟨"ax", 1⟩
    let last : Failure := .unconsumed ⟨"cx", 1⟩
    (grammar.evaluate pairOrSingle (.start "cx") (.fresh ())).trail.deepest.failure = some first ∧
      first.IsDeepest (grammar.missed 0 pairOrSingle (.start "cx")) ∧
      (grammar.missed 0 pairOrSingle (.start "ax")).length = 2 ∧
      (∃ failure ∈ grammar.missed 0 pairOrSingle (.start "ax"), failure.position = 1) ∧
      grammar.parseFrom pairOrSingle (.start "ax") = .error (.failure second) ∧
      second.IsDeepest (grammar.missed 0 pairOrSingle (.start "ax")) ∧
      grammar.parseAll pairOrSingle "cx" = .error (.failure last) ∧
      last.IsDeepest (grammar.missedInAll pairOrSingle "cx") := by
  intro grammar first second last
  obtain ⟨hmatched, hfailed, hreported, hall⟩ := failures_accounted grammar pairOrSingle ()
  have hsecond := hfailed 0 (.start "ax") second ⟨.empty, ()⟩ rfl
  exact ⟨rfl, (hmatched 0 (.start "cx") _ _ _ rfl).2 first rfl, rfl, hsecond.2.1, rfl,
    hreported (.start "ax") second rfl, rfl, hall "cx" last rfl⟩

end Grammar

end AugmentedBnf
