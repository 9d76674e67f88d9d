import AugmentedBnf.Proofs.Matching.Continuation
import AugmentedBnf.Proofs.Rule.Induction
import Mathlib.Data.List.Forall2

/-!
# Approximation of Evaluations

Two evaluations of the same kind differ in what they leave behind: they may start with other
trails, or keep other journals. They may also differ in how many deferred rules they may enter.
`Outcome.Approximates` compares their outcomes. Both match the same, or both fail with the same
failure, and the trails are related; only an evaluation that ran out of unfoldings says nothing
about the other one.

Every operation on matchers keeps this relation, as long as the relation of the trails is one that
writing to them keeps. It is enough to look at cursors of some set that moving does not leave. The
uses are one statement with other relations of trails: what is matched does not depend on the
trail, nor on the journal, and does not change when more unfoldings are allowed.
-/

namespace AugmentedBnf

variable {κ τ ι α β : Type}

/-! ## §1 Related outcomes -/

/-- A set of cursors that moving does not leave, and a relation of trails that is kept when an
    evaluation writes to both. -/
structure Kept [Journal τ] [Journal ι] (C : Cursor → Prop) (R : Trail τ → Trail ι → Prop) :
    Prop where
  skip : ∀ {cursor : Cursor} {c : Char}, C cursor → cursor.value = .ok c →
    C (cursor.skip c.utf8Size)
  recover : ∀ {trail trail'} (failure : Failure), R trail trail' →
    R (trail.recover failure) (trail'.recover failure)
  miss : ∀ {trail trail'} (failure : Failure), R trail trail' →
    R (trail.miss failure) (trail'.miss failure)

/-- What is kept does not depend on which trail comes first. -/
theorem Kept.flip [Journal τ] [Journal ι] {C : Cursor → Prop} {R : Trail τ → Trail ι → Prop}
    (h : Kept C R) : Kept C (fun trail' trail => R trail trail') where
  skip := h.skip
  recover := h.recover
  miss := h.miss

/-- The outcomes agree and leave related trails, unless the first ran out of unfoldings. A match
    stays in the set of cursors. -/
inductive Outcome.Approximates (C : Cursor → Prop) (R : Trail τ → Trail ι → Prop) :
    Outcome τ α → Outcome ι α → Prop where
  | matched {value : α} {next : Cursor} {trail : Trail τ} {trail' : Trail ι} (hnext : C next)
      (htrail : R trail trail') :
      Approximates C R (.matched value next trail) (.matched value next trail')
  | failed {failure : Failure} {trail : Trail τ} {trail' : Trail ι} (htrail : R trail trail') :
      Approximates C R (.failed failure trail) (.failed failure trail')
  | aborted {cause : Abort} {trail : Trail τ} {trail' : Trail ι} (htrail : R trail trail') :
      Approximates C R (.aborted cause trail) (.aborted cause trail')
  | exhausted {trail : Trail τ} {other : Outcome ι α} :
      Approximates C R (.aborted .unfoldings trail) other

/-- Outcomes that go on in ways that agree still agree. -/
theorem Outcome.Approximates.andThen {C : Cursor → Prop} {R : Trail τ → Trail ι → Prop}
    {outcome : Outcome τ α} {outcome' : Outcome ι α}
    {onMatch : α → Cursor → Trail τ → Outcome τ β} {onFail : Failure → Trail τ → Outcome τ β}
    {onMatch' : α → Cursor → Trail ι → Outcome ι β} {onFail' : Failure → Trail ι → Outcome ι β}
    (h : outcome.Approximates C R outcome')
    (hmatch : ∀ value next trail trail', C next → R trail trail' →
      (onMatch value next trail).Approximates C R (onMatch' value next trail'))
    (hfail : ∀ failure trail trail', R trail trail' →
      (onFail failure trail).Approximates C R (onFail' failure trail')) :
    (outcome.andThen onMatch onFail).Approximates C R (outcome'.andThen onMatch' onFail') := by
  cases h with
  | matched hnext htrail => exact hmatch _ _ _ _ hnext htrail
  | failed htrail => exact hfail _ _ _ htrail
  | aborted htrail => exact .aborted htrail
  | exhausted => exact .exhausted

/-- From a cursor of the set and related trails, the outcomes of the first matcher approximate those
    of the second. -/
def Matcher.Approximates (C : Cursor → Prop) (R : Trail τ → Trail ι → Prop) (m : Matcher τ α)
    (m' : Matcher ι α) : Prop :=
  ∀ cursor trail trail', C cursor → R trail trail' →
    (m cursor trail).Approximates C R (m' cursor trail')

/-! ## §2 Operations on matchers -/

namespace Matcher

section Primitive

variable [Journal τ] [Journal ι] {C : Cursor → Prop} {R : Trail τ → Trail ι → Prop}

theorem codePoint_approximates (hkept : Kept C R) (name expected : String)
    (accepts : Char → Bool) :
    (codePoint name expected accepts : Matcher τ Node).Approximates C R
      (codePoint name expected accepts : Matcher ι Node) := by
  intro cursor trail trail' hcursor htrail
  unfold codePoint
  rcases hvalue : cursor.value with (failure | cause) | found
  · exact .failed (hkept.miss _ htrail)
  · exact .aborted htrail
  · by_cases hfound : accepts found
    · simp only [hfound, if_true]
      exact .matched (hkept.skip hcursor hvalue) htrail
    · simp only [hfound, if_false, Bool.false_eq_true]
      exact .failed (hkept.miss _ htrail)

theorem endOfText_approximates (hkept : Kept C R) (name : String) :
    (endOfText name : Matcher τ Node).Approximates C R (endOfText name : Matcher ι Node) := by
  intro cursor trail trail' hcursor htrail
  unfold endOfText
  cases cursor.atEnd with
  | true => exact .matched hcursor htrail
  | false => exact .failed (hkept.miss _ htrail)

end Primitive

section Composite

variable {C : Cursor → Prop} {R : Trail τ → Trail ι → Prop}

theorem node_approximates (name : String) {m : Matcher τ (List Node)} {m' : Matcher ι (List Node)}
    (h : m.Approximates C R m') : (node name m).Approximates C R (node name m') := by
  intro cursor trail trail' hcursor htrail
  rw [node_andThen, node_andThen]
  exact (h cursor trail trail' hcursor htrail).andThen (fun _ _ _ _ => .matched)
    (fun _ _ _ => .failed)

theorem sequence_approximates {ms : List (Matcher τ Node)} {ms' : List (Matcher ι Node)}
    (h : List.Forall₂ (Approximates C R) ms ms') :
    (sequence ms).Approximates C R (sequence ms') := by
  induction h with
  | nil =>
    intro cursor trail trail' hcursor htrail
    exact .matched hcursor htrail
  | @cons m m' ms ms' hfirst _ ih =>
    intro cursor trail trail' hcursor htrail
    rw [sequence_andThen, sequence_andThen]
    refine (hfirst cursor trail trail' hcursor htrail).andThen ?_ (fun _ _ _ => .failed)
    -- Both go on at one cursor, with trails that are related again.
    intro child next trail trail' hnext htrail
    exact (ih next trail trail' hnext htrail).andThen (fun _ _ _ _ => .matched)
      (fun _ _ _ => .failed)

variable [Journal τ] [Journal ι]

theorem choiceAfter_approximates (hkept : Kept C R) {ms : List (Matcher τ Node)}
    {ms' : List (Matcher ι Node)} (h : List.Forall₂ (Approximates C R) ms ms')
    (failure : Failure) :
    (choiceAfter failure ms).Approximates C R (choiceAfter failure ms') := by
  induction h generalizing failure with
  | nil =>
    intro cursor trail trail' _ htrail
    exact .failed htrail
  | @cons m m' _ _ hfirst _ ih =>
    intro cursor trail trail' hcursor htrail
    rw [choiceAfter_andThen, choiceAfter_andThen]
    refine (hfirst cursor trail trail' hcursor htrail).andThen ?_ ?_
    · intro child next trail trail' hnext htrail
      exact .matched hnext (hkept.recover failure htrail)
    · intro other trail trail' htrail
      exact ih _ cursor trail trail' hcursor htrail

theorem choice_approximates (hkept : Kept C R) {m : Matcher τ Node} {m' : Matcher ι Node}
    (hm : m.Approximates C R m') {ms : List (Matcher τ Node)} {ms' : List (Matcher ι Node)}
    (hms : List.Forall₂ (Approximates C R) ms ms') :
    (choice m ms).Approximates C R (choice m' ms') := by
  intro cursor trail trail' hcursor htrail
  rw [choice_andThen, choice_andThen]
  refine (hm cursor trail trail' hcursor htrail).andThen (fun _ _ _ _ => .matched) ?_
  intro failure trail trail' htrail
  exact choiceAfter_approximates hkept hms failure cursor trail trail' hcursor htrail

theorem repeatFrom_approximates (hkept : Kept C R) {m : Matcher τ Node} {m' : Matcher ι Node}
    (hm : m.Approximates C R m') (bounds : Bounds) (count : Nat) :
    (repeatFrom bounds m count).Approximates C R (repeatFrom bounds m' count) := by
  intro cursor
  -- The loop goes on only where less of the text remains.
  induction hremaining : cursor.remaining using Nat.strongRecOn generalizing cursor count with
  | ind remaining ih =>
    intro trail trail' hcursor htrail
    rw [repeatFrom_andThen, repeatFrom_andThen]
    by_cases hmore : bounds.allowsMore count
    · simp only [hmore, if_true]
      refine (hm cursor trail trail' hcursor htrail).andThen ?_ ?_
      · intro child next trail trail' hnext htrail
        by_cases hprogress : next.remaining < cursor.remaining
        · have hrest := ih next.remaining (hremaining ▸ hprogress) (count + 1) next rfl trail trail'
            hnext htrail
          simp only [hprogress, if_true]
          exact hrest.andThen (fun _ _ _ _ => .matched) (fun _ _ _ => .failed)
        · simp only [hprogress, if_false]
          exact .matched hnext htrail
      · intro failure trail trail' htrail
        by_cases hfew : count < bounds.min
        · simp only [hfew, if_true]
          exact .failed htrail
        · simp only [hfew, if_false]
          exact .matched hcursor (hkept.recover failure htrail)
    · simp only [hmore, if_false, Bool.false_eq_true]
      exact .matched hcursor htrail

theorem repetition_approximates (hkept : Kept C R) {m : Matcher τ Node} {m' : Matcher ι Node}
    (hm : m.Approximates C R m') (bounds : Bounds) :
    (repetition bounds m).Approximates C R (repetition bounds m') :=
  repeatFrom_approximates hkept hm bounds 0

end Composite

end Matcher

/-! ## §3 Rules -/

section Rules

variable [Journal τ] [Journal ι] {C : Cursor → Prop} {R : Trail τ → Trail ι → Prop}

/-- **A rule keeps approximation**: where what it defers to is approximated, so is what the rule
    matches. -/
theorem Rule.matcher_approximates (hkept : Kept C R) {call : String → κ → Matcher τ Node}
    {call' : String → κ → Matcher ι Node} (rule : Rule κ)
    (hcall : ∀ name, ∀ key ∈ rule.keys, (call name key).Approximates C R (call' name key)) :
    (rule.matcher call).Approximates C R (rule.matcher call') := by
  induction rule using Rule.inductionOn with
  | character name expected => exact Matcher.codePoint_approximates hkept _ _ _
  | range name low high => exact Matcher.codePoint_approximates hkept _ _ _
  | endOfText name => exact Matcher.endOfText_approximates hkept _
  | concatenation name first rest ih =>
    rw [Rule.matcher_concatenation, Rule.matcher_concatenation]
    apply Matcher.node_approximates
    apply Matcher.sequence_approximates
    -- The members are the same on both sides, and only the calls within them differ.
    rw [List.forall₂_map_left_iff, List.forall₂_map_right_iff, List.forall₂_same]
    intro member hmember
    exact ih member hmember fun name key hkey =>
      hcall name key (Rule.mem_keys_concatenation.mpr ⟨member, hmember, hkey⟩)
  | alternation name first rest ih =>
    rw [Rule.matcher_alternation, Rule.matcher_alternation]
    have hmembers : ∀ member ∈ first :: rest,
        (member.matcher call).Approximates C R (member.matcher call') := by
      intro member hmember
      exact ih member hmember fun name key hkey =>
        hcall name key (Rule.mem_keys_alternation.mpr ⟨member, hmember, hkey⟩)
    obtain ⟨hfirst, hrest⟩ := List.forall_mem_cons.mp hmembers
    apply Matcher.node_approximates
    apply Matcher.choice_approximates hkept hfirst
    rw [List.forall₂_map_left_iff, List.forall₂_map_right_iff, List.forall₂_same]
    exact hrest
  | repetition name bounds element ih =>
    rw [Rule.matcher_repetition, Rule.matcher_repetition]
    exact Matcher.node_approximates _ (Matcher.repetition_approximates hkept (ih hcall) bounds)
  | deferred name key => exact hcall name key (Rule.mem_keys_deferred.mpr rfl)

/-- With fewer unfoldings a deferred rule approximates what it matches with more. -/
theorem Grammar.call_approximates (grammar : Grammar κ) (hkept : Kept C R) {depth depth' : Nat}
    (hdepth : depth ≤ depth') (name : String) (key : κ) :
    (grammar.call depth name key : Matcher τ Node).Approximates C R
      (grammar.call depth' name key : Matcher ι Node) := by
  induction depth generalizing depth' name key with
  | zero =>
    -- Without an unfolding the first evaluation says nothing.
    intro cursor trail trail' _ _
    exact .exhausted
  | succ depth ih =>
    obtain ⟨depth', rfl⟩ : ∃ depth'', depth' = depth'' + 1 := ⟨depth' - 1, by omega⟩
    simp only [Grammar.call]
    cases grammar.define key with
    | error fault =>
      intro cursor trail trail' _ htrail
      exact .aborted htrail
    | ok rule =>
      exact Rule.matcher_approximates hkept rule fun name key _ => ih (by omega) name key

/-- **Unfoldings only add**: with fewer of them a rule approximates what it matches with more. -/
theorem Grammar.matcher_approximates (grammar : Grammar κ) (hkept : Kept C R)
    {depth depth' : Nat} (hdepth : depth ≤ depth') (rule : Rule κ) :
    (rule.matcher (grammar.call depth) : Matcher τ Node).Approximates C R
      (rule.matcher (grammar.call depth') : Matcher ι Node) :=
  Rule.matcher_approximates hkept rule fun name key _ =>
    grammar.call_approximates hkept hdepth name key

end Rules

end AugmentedBnf
