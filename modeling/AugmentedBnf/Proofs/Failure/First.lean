import AugmentedBnf.Proofs.Derivation.Completeness
import AugmentedBnf.Proofs.Failure.Record

/-!
# The First of the Deepest Failures

Of two failures at one offset the first is kept, wherever failures are compared. Which of many is
left in the end is thus settled by their order alone: it is the first of the deepest ones
(`Failure.IsFirstDeepest`), in whatever groups they were compared.

This decides what people are told of a text. A record keeps the first of the deepest failures that
it was given, a failure at the end gives way to it only if it is strictly deeper, and an alternation
of which all members fail returns what the first of the members that got furthest has returned.

**Main statement**: `first_deepest_kept`.
-/

namespace AugmentedBnf

variable {κ τ ι : Type}

open Filter (atTop)

/-! ## §1 Comparing one after the other -/

namespace Failure

variable {failure first second : Failure} {failures rest : List Failure}

theorem deeper_of_le (h : second.position ≤ first.position) : first.deeper second = first :=
  if_neg (Nat.not_lt.mpr h)

theorem deeper_of_lt (h : first.position < second.position) : first.deeper second = second :=
  if_pos h

/-- The failure is one of `failures`. Those before it are less deep, and those behind it are not
    deeper. -/
def IsFirstDeepest (failure : Failure) (failures : List Failure) : Prop :=
  ∃ earlier later, failures = earlier ++ failure :: later ∧
    (∀ other ∈ earlier, other.position < failure.position) ∧
    ∀ other ∈ later, other.position ≤ failure.position

theorem not_isFirstDeepest_nil : ¬ failure.IsFirstDeepest [] := by
  rintro ⟨earlier, later, hnil, -⟩
  simp at hnil

/-- A failure behind the first one has to be strictly deeper than it. -/
theorem isFirstDeepest_cons : failure.IsFirstDeepest (first :: rest) ↔
    (failure = first ∧ ∀ other ∈ rest, other.position ≤ first.position) ∨
      (first.position < failure.position ∧ failure.IsFirstDeepest rest) := by
  constructor
  · rintro ⟨earlier, later, hsplit, hearlier, hlater⟩
    cases earlier with
    | nil =>
      obtain ⟨rfl, rfl⟩ := List.cons.inj hsplit
      exact .inl ⟨rfl, hlater⟩
    | cons other earlier =>
      obtain ⟨rfl, rfl⟩ := List.cons.inj hsplit
      obtain ⟨hfirst, hearlier⟩ := List.forall_mem_cons.mp hearlier
      exact .inr ⟨hfirst, earlier, later, rfl, hearlier, hlater⟩
  · rintro (⟨rfl, hrest⟩ | ⟨hfirst, earlier, later, rfl, hearlier, hlater⟩)
    · exact ⟨[], rest, rfl, by simp, hrest⟩
    · exact ⟨first :: earlier, later, rfl, List.forall_mem_cons.mpr ⟨hfirst, hearlier⟩, hlater⟩

theorem IsFirstDeepest.le_position (h : failure.IsFirstDeepest failures) {other : Failure}
    (hother : other ∈ failures) : other.position ≤ failure.position := by
  obtain ⟨earlier, later, rfl, hearlier, hlater⟩ := h
  rcases List.mem_append.mp hother with hother | hother
  · exact Nat.le_of_lt (hearlier other hother)
  · rcases List.mem_cons.mp hother with rfl | hother
    · exact Nat.le_refl _
    · exact hlater other hother

/-- The deeper of the first two failures stands for both of them. -/
theorem isFirstDeepest_deeper_cons : failure.IsFirstDeepest (first.deeper second :: rest) ↔
    failure.IsFirstDeepest (first :: second :: rest) := by
  simp only [isFirstDeepest_cons, List.forall_mem_cons]
  rcases Nat.lt_or_ge first.position second.position with hlt | hle
  · rw [deeper_of_lt hlt]
    constructor
    · rintro (⟨rfl, hrest⟩ | ⟨hsecond, hfailure⟩)
      · exact .inr ⟨hlt, .inl ⟨rfl, hrest⟩⟩
      · exact .inr ⟨Nat.lt_trans hlt hsecond, .inr ⟨hsecond, hfailure⟩⟩
    · rintro (⟨rfl, hsecond, -⟩ | ⟨-, hfailure⟩)
      · exact absurd hsecond (Nat.not_le.mpr hlt)
      · exact hfailure
  · rw [deeper_of_le hle]
    constructor
    · rintro (⟨rfl, hrest⟩ | ⟨hfirst, hfailure⟩)
      · exact .inl ⟨rfl, hle, hrest⟩
      · exact .inr ⟨hfirst, .inr ⟨Nat.lt_of_le_of_lt hle hfirst, hfailure⟩⟩
    · rintro (⟨rfl, -, hrest⟩ | ⟨hfirst, ⟨rfl, -⟩ | ⟨-, hfailure⟩⟩)
      · exact .inl ⟨rfl, hrest⟩
      · exact absurd hfirst (Nat.not_lt.mpr hle)
      · exact .inr ⟨hfirst, hfailure⟩

/-- **Comparing failures one after the other leaves the first of the deepest ones.** -/
theorem foldl_deeper_eq_iff :
    rest.foldl deeper first = failure ↔ failure.IsFirstDeepest (first :: rest) := by
  induction rest generalizing first with
  | nil => simp [isFirstDeepest_cons, not_isFirstDeepest_nil, eq_comm]
  | cons second rest ih => rw [List.foldl_cons, ih, isFirstDeepest_deeper_cons]

theorem IsFirstDeepest.unique {failure' : Failure} (h : failure.IsFirstDeepest failures)
    (h' : failure'.IsFirstDeepest failures) : failure = failure' := by
  cases failures with
  | nil => exact absurd h not_isFirstDeepest_nil
  | cons first rest => rw [← foldl_deeper_eq_iff.mpr h, foldl_deeper_eq_iff.mpr h']

end Failure

/-! ## §2 Recording one after the other -/

namespace Deepest

variable {failure : Failure} {failures : List Failure}

/-- The record after some failures, given one after the other to an empty one. -/
def recordAll (failures : List Failure) : Deepest := failures.foldl record empty

theorem recordAll_cons (first : Failure) (rest : List Failure) :
    recordAll (first :: rest) = ⟨some (rest.foldl Failure.deeper first)⟩ := by
  show rest.foldl record ⟨some first⟩ = _
  induction rest generalizing first with
  | nil => rfl
  | cons second rest ih => exact ih (first.deeper second)

theorem failure_recordAll_eq_none_iff : (recordAll failures).failure = none ↔ failures = [] := by
  cases failures with
  | nil => exact iff_of_true rfl rfl
  | cons first rest => simp [recordAll_cons]

/-- **A record keeps the first of the deepest failures** that it was given. -/
theorem failure_recordAll_eq_some_iff :
    (recordAll failures).failure = some failure ↔ failure.IsFirstDeepest failures := by
  cases failures with
  | nil => simp [recordAll, empty, Failure.not_isFirstDeepest_nil]
  | cons first rest => rw [recordAll_cons, Option.some.injEq, Failure.foldl_deeper_eq_iff]

/-- A failure at the end is reported if nothing deeper was recorded. -/
theorem merge_recordAll_of_le (h : ∀ recorded ∈ failures, recorded.position ≤ failure.position) :
    (recordAll failures).merge failure = failure := by
  unfold merge
  split
  case h_1 recorded hrecorded =>
    obtain ⟨earlier, later, rfl, -, -⟩ := failure_recordAll_eq_some_iff.mp hrecorded
    exact Failure.deeper_of_le (h recorded List.mem_append_cons_self)
  case h_2 => rfl

/-- A failure at the end gives way to the first of the deepest failures recorded, if any of these is
    strictly deeper. -/
theorem isFirstDeepest_merge_recordAll
    (h : ∃ recorded ∈ failures, failure.position < recorded.position) :
    ((recordAll failures).merge failure).IsFirstDeepest failures := by
  obtain ⟨deep, hdeep, hlt⟩ := h
  unfold merge
  split
  case h_1 recorded hrecorded =>
    have hfirst := failure_recordAll_eq_some_iff.mp hrecorded
    rwa [Failure.deeper_of_lt (Nat.lt_of_lt_of_le hlt (hfirst.le_position hdeep))]
  case h_2 hnone =>
    obtain rfl := failure_recordAll_eq_none_iff.mp hnone
    cases hdeep

end Deepest

/-! ## §3 Choices that fail -/

namespace Matcher

variable {cursor : Cursor} {failure first : Failure} {failures : List Failure}
  {m : Matcher τ Node} {ms : List (Matcher τ Node)}

theorem choiceAfter_failsWith (h : List.Forall₂ (FailsWith cursor) ms failures)
    (trail : Trail τ) : ∃ left,
      choiceAfter first ms cursor trail = .failed (failures.foldl Failure.deeper first) left := by
  induction h generalizing first trail with
  | nil => exact ⟨trail, rfl⟩
  | @cons m returned ms failures hm _ ih =>
    obtain ⟨left, houtcome⟩ := hm trail
    simp only [choiceAfter, houtcome, List.foldl_cons]
    exact ih left

/-- A choice of which all members fail returns the first of the deepest failures of these. -/
theorem choice_failsWith (hm : m.FailsWith cursor first)
    (h : List.Forall₂ (FailsWith cursor) ms failures) (trail : Trail τ) : ∃ left,
      choice m ms cursor trail = .failed (failures.foldl Failure.deeper first) left := by
  obtain ⟨left, houtcome⟩ := hm trail
  simp only [choice, houtcome]
  exact choiceAfter_failsWith h left

end Matcher

/-! ## §4 Alternations that fail -/

namespace Grammar

section Endings

variable [Journal τ] [Journal ι] {grammar : Grammar κ} {rule : Rule κ} {cursor : Cursor}
  {failure : Failure}

/-- An evaluation that ends with a failure ends with it whatever the trail, and with any number of
    unfoldings from some number on. -/
theorem Ends.eventually_failsWith {trail left : Trail τ}
    (h : grammar.Ends rule cursor trail (.failed failure left)) :
    ∀ᶠ depth in atTop,
      (rule.matcher (grammar.call depth) : Matcher ι Node).FailsWith cursor failure := by
  obtain ⟨depth, houtcome, -⟩ := h
  filter_upwards [Filter.eventually_ge_atTop depth] with more hmore
  exact failsWith_of_failed hmore houtcome

/-- A failure for all large numbers of unfoldings is what the evaluation ends with, and nothing else
    is. -/
theorem ends_failed_iff_eq
    (h : ∀ᶠ depth in atTop,
      (rule.matcher (grammar.call depth) : Matcher τ Node).FailsWith cursor failure)
    (trail : Trail τ) (other : Failure) :
    (∃ left, grammar.Ends rule cursor trail (.failed other left)) ↔ other = failure := by
  constructor
  · rintro ⟨left, hends⟩
    obtain ⟨depth, hfails, hother⟩ := (h.and (hends.eventually_failsWith (ι := τ))).exists
    obtain ⟨_, houtcome⟩ := hfails trail
    obtain ⟨_, houtcome'⟩ := hother trail
    rw [houtcome] at houtcome'
    cases houtcome'
    rfl
  · rintro rfl
    obtain ⟨depth, hfails⟩ := h.exists
    obtain ⟨left, houtcome⟩ := hfails trail
    exact ⟨left, depth, houtcome, rfl⟩

/-- Where all members fail with enough unfoldings, some number of them is enough for all members. -/
theorem eventually_forall₂ {rules : List (Rule κ)} {failures : List Failure}
    {P : Nat → Rule κ → Failure → Prop}
    (h : List.Forall₂ (fun rule failure => ∀ᶠ depth in atTop, P depth rule failure) rules
      failures) : ∀ᶠ depth in atTop, List.Forall₂ (P depth) rules failures := by
  induction h with
  | nil => exact .of_forall fun _ => .nil
  | cons hfirst _ ih =>
    filter_upwards [hfirst, ih] with depth hfirst hrest
    exact .cons hfirst hrest

/-- **An alternation of which all members fail** fails with the first of the deepest failures that
    its members return. -/
theorem alternation_failsWith (name : String) {first : Rule κ} {rest : List (Rule κ)}
    {failures : List Failure}
    (h : List.Forall₂ (fun member returned => ∀ᶠ depth in atTop,
      (member.matcher (grammar.call depth) : Matcher τ Node).FailsWith cursor returned)
      (first :: rest) failures) :
    ∃ failure, failure.IsFirstDeepest failures ∧ ∀ᶠ depth in atTop,
      ((Rule.alternation name first rest).matcher (grammar.call depth) :
        Matcher τ Node).FailsWith cursor failure := by
  cases h with
  | @cons _ returned _ failures hfirst hrest =>
    refine ⟨failures.foldl Failure.deeper returned, Failure.foldl_deeper_eq_iff.mp rfl, ?_⟩
    filter_upwards [hfirst, eventually_forall₂ hrest] with depth hfirst hrest trail
    have hmembers := List.forall₂_map_left_iff.mpr hrest
    obtain ⟨left, houtcome⟩ := Matcher.choice_failsWith hfirst hmembers trail
    rw [Rule.matcher_alternation]
    simp only [Matcher.node, houtcome]
    exact ⟨left, rfl⟩

end Endings

/-- **Failures are folded to the first of the deepest ones.** Keeping the deeper of two failures is
    associative and idempotent, and at equal depth the first one is kept. So a record that was empty
    has the first of the deepest failures that it was given, if it was given any. A failure at the
    end is reported unless a recorded one is strictly deeper, and then the first of the deepest
    recorded ones is. And where all members of an alternation fail, with whatever trail, the
    alternation fails with the first of the deepest failures that they return. -/
theorem first_deepest_kept [Journal τ] (grammar : Grammar κ) :
    (∀ first second third : Failure,
      (first.deeper second).deeper third = first.deeper (second.deeper third)) ∧
    (∀ failure : Failure, failure.deeper failure = failure) ∧
    (∀ first second : Failure, second.position ≤ first.position → first.deeper second = first) ∧
    (∀ first second : Failure, first.position < second.position → first.deeper second = second) ∧
    (∀ failures, ((Deepest.recordAll failures).failure = none ↔ failures = []) ∧
      ∀ failure, (Deepest.recordAll failures).failure = some failure ↔
        failure.IsFirstDeepest failures) ∧
    (∀ failures last, ((∀ recorded ∈ failures, recorded.position ≤ last.position) →
        (Deepest.recordAll failures).merge last = last) ∧
      ((∃ recorded ∈ failures, last.position < recorded.position) →
        ((Deepest.recordAll failures).merge last).IsFirstDeepest failures)) ∧
    (∀ name first rest cursor failures,
      List.Forall₂ (fun member returned => ∃ own left : Trail τ,
        grammar.Ends member cursor own (.failed returned left)) (first :: rest) failures →
      ∀ (trail : Trail τ) failure,
        (∃ left, grammar.Ends (.alternation name first rest) cursor trail (.failed failure left)) ↔
          failure.IsFirstDeepest failures) := by
  refine ⟨Failure.deeper_assoc, Failure.deeper_self, fun _ _ => Failure.deeper_of_le,
    fun _ _ => Failure.deeper_of_lt, fun failures => ⟨Deepest.failure_recordAll_eq_none_iff,
      fun failure => Deepest.failure_recordAll_eq_some_iff⟩,
    fun failures last => ⟨Deepest.merge_recordAll_of_le, Deepest.isFirstDeepest_merge_recordAll⟩,
    ?_⟩
  intro name first rest cursor failures hmembers trail failure
  have hfail := hmembers.imp fun member returned ⟨_, _, hends⟩ =>
    hends.eventually_failsWith (ι := τ)
  obtain ⟨returned, hreturned, hfails⟩ := alternation_failsWith name hfail
  rw [ends_failed_iff_eq hfails]
  exact ⟨fun heq => heq ▸ hreturned, fun hfailure => hfailure.unique hreturned⟩

/-- An `x`, or `ab`, or `ac`: the last two get equally far into `az`. -/
def crossOrPairs : Rule Empty :=
  .alternation "either" (.character "x" 'x')
    [.concatenation "first" (.character "a" 'a') [.character "b" 'b'],
      .concatenation "second" (.character "a" 'a') [.character "c" 'c']]

theorem crossOrPairs_first_deepest_kept :
    let grammar : Grammar Empty := ⟨[], nofun⟩
    let x : Failure := .mismatch "x" "'x'" 'a' ⟨"az", 0⟩
    let b : Failure := .mismatch "b" "'b'" 'z' ⟨"az", 1⟩
    let c : Failure := .mismatch "c" "'c'" 'z' ⟨"az", 1⟩
    b.deeper c = b ∧ x.deeper b = b ∧ b.IsFirstDeepest [x, b, c] ∧
      (Deepest.recordAll [x, b]).merge c = c ∧
      ((Deepest.recordAll [b, c]).merge x).IsFirstDeepest [b, c] ∧
      ∃ left, grammar.Ends crossOrPairs (.start "az") (.fresh ()) (.failed b left) := by
  intro grammar x b c
  obtain ⟨-, -, hlevel, hdeep, hrecord, hmerge, halternation⟩ :=
    first_deepest_kept (τ := Unit) grammar
  have hfirst : b.IsFirstDeepest [x, b, c] := ((hrecord [x, b, c]).2 b).mp (by decide)
  refine ⟨hlevel b c (by decide), hdeep x b (by decide), hfirst,
    (hmerge [x, b] c).1 (by decide), (hmerge [b, c] x).2 ⟨b, by simp, by decide⟩, ?_⟩
  refine (halternation "either" _ _ (.start "az") [x, b, c] ?_ (.fresh ()) b).mpr hfirst
  exact .cons ⟨.fresh (), _, 0, rfl, rfl⟩ (.cons ⟨.fresh (), _, 0, rfl, rfl⟩
    (.cons ⟨.fresh (), _, 0, rfl, rfl⟩ .nil))

end Grammar

end AugmentedBnf
