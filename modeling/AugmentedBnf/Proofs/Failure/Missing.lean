import AugmentedBnf.Proofs.Derivation.Soundness
import AugmentedBnf.Proofs.Failure.Accounting

/-!
# What May Be Missed

Which failures a rule may meet, said along with its derivations: a code point or the end of the text
is missed where a part of the rule is tried, and a part is tried behind what the parts before it
have matched. An evaluation meets no other failures, recovered from or not (`misses_of_mem_missed`),
so what is to be known of the failures of a grammar is shown by induction on `Misses`, without
cursors and without a trail.
-/

namespace AugmentedBnf

variable {κ α : Type}

open Text (width)
open Cursor (between)

namespace Grammar

/-! ## §1 Missed failures -/

/-- `Misses grammar rule before chars failure`: where `before` is passed and `chars` are ahead, the
    failure is met while the rule is tried. -/
inductive Misses (grammar : Grammar κ) : Rule κ → List Char → List Char → Failure → Prop where
  | character_end (name : String) (expected : Char) (before : List Char) :
      Misses grammar (.character name expected) before []
        (.unexpectedEnd ⟨.ofList before, width before⟩)
  | character_mismatch (name : String) {expected c : Char} (hc : c ≠ expected)
      (before rest : List Char) :
      Misses grammar (.character name expected) before (c :: rest)
        (.mismatch name (Text.quoteChar expected) c ⟨.ofList (before ++ c :: rest), width before⟩)
  | range_end (name : String) (low high : Char) (before : List Char) :
      Misses grammar (.range name low high) before []
        (.unexpectedEnd ⟨.ofList before, width before⟩)
  | range_mismatch (name : String) {low high c : Char} (hc : ¬ (low ≤ c ∧ c ≤ high))
      (before rest : List Char) :
      Misses grammar (.range name low high) before (c :: rest)
        (.mismatch name (Text.codePoint low ++ "..=" ++ Text.codePoint high) c
          ⟨.ofList (before ++ c :: rest), width before⟩)
  | endOfText (name : String) (c : Char) (before rest : List Char) :
      Misses grammar (.endOfText name) before (c :: rest)
        (.unconsumed ⟨.ofList (before ++ c :: rest), width before⟩)
  /-- A member of a concatenation is tried behind what the earlier ones have matched. -/
  | concatenation {name : String} {first member : Rule κ} {rest earlier later : List (Rule κ)}
      {before chars left : List Char} {parts : List Tree} {failure : Failure}
      (hmembers : first :: rest = earlier ++ member :: later)
      (hparts : grammar.MatchesEach earlier chars parts left)
      (hmember : Misses grammar member (before ++ Tree.charsAmong parts) left failure) :
      Misses grammar (.concatenation name first rest) before chars failure
  /-- A member of an alternation is tried where the earlier ones have failed. -/
  | alternation {name : String} {first member : Rule κ} {rest earlier later : List (Rule κ)}
      {before chars : List Char} {failure : Failure}
      (hmembers : first :: rest = earlier ++ member :: later)
      (hearlier : ∀ other ∈ earlier, grammar.Fails other chars)
      (hmember : Misses grammar member before chars failure) :
      Misses grammar (.alternation name first rest) before chars failure
  /-- A repeated element is tried behind some rounds, if there may be another one. -/
  | repetition {name : String} {bounds : Bounds} {element : Rule κ} {before chars left : List Char}
      {parts : List Tree} {failure : Failure}
      (hparts : grammar.MatchesEach (List.replicate parts.length element) chars parts left)
      (hroom : ∀ max ∈ bounds.max, parts.length < max)
      (hadvance : ∀ part ∈ parts, part.chars ≠ [])
      (helement : Misses grammar element (before ++ Tree.charsAmong parts) left failure) :
      Misses grammar (.repetition name bounds element) before chars failure
  | deferred {name : String} {key : κ} {rule : Rule κ} {before chars : List Char}
      {failure : Failure} (hdefine : grammar.define key = .ok rule)
      (hrule : Misses grammar rule before chars failure) :
      Misses grammar (.deferred name key) before chars failure

/-- The failures that are met while rules are tried one after the other. -/
def MissesEach (grammar : Grammar κ) (rules : List (Rule κ)) (before chars : List Char)
    (failure : Failure) : Prop :=
  ∃ earlier member later parts left, rules = earlier ++ member :: later ∧
    grammar.MatchesEach earlier chars parts left ∧
    grammar.Misses member (before ++ Tree.charsAmong parts) left failure

/-- The failures that are met while one of some rules is sought. -/
def MissesAny (grammar : Grammar κ) (rules : List (Rule κ)) (before chars : List Char)
    (failure : Failure) : Prop :=
  ∃ earlier member later, rules = earlier ++ member :: later ∧
    (∀ other ∈ earlier, grammar.Fails other chars) ∧ grammar.Misses member before chars failure

/-- The failures that are met while a rule is repeated, after `count` rounds. -/
def MissesRounds (grammar : Grammar κ) (bounds : Bounds) (element : Rule κ) (count : Nat)
    (before chars : List Char) (failure : Failure) : Prop :=
  ∃ parts left, grammar.MatchesEach (List.replicate parts.length element) chars parts left ∧
    (∀ max ∈ bounds.max, count + parts.length < max) ∧ (∀ part ∈ parts, part.chars ≠ []) ∧
    grammar.Misses element (before ++ Tree.charsAmong parts) left failure

variable {grammar : Grammar κ} {rule element : Rule κ} {rules : List (Rule κ)} {bounds : Bounds}
  {count : Nat} {before chars middle : List Char} {part : Tree} {failure : Failure}

theorem MissesEach.here (h : grammar.Misses rule before chars failure) :
    grammar.MissesEach (rule :: rules) before chars failure := by
  refine ⟨[], rule, rules, [], chars, rfl, .nil chars, ?_⟩
  rw [Tree.charsAmong_nil, List.append_nil]
  exact h

/-- What is met behind a match is met in all. -/
theorem MissesEach.later (hpart : grammar.Matches rule chars part middle)
    (h : grammar.MissesEach rules (before ++ part.chars) middle failure) :
    grammar.MissesEach (rule :: rules) before chars failure := by
  obtain ⟨earlier, member, later, parts, left, hrules, hparts, hmember⟩ := h
  refine ⟨rule :: earlier, member, later, part :: parts, left, ?_, .cons hpart hparts, ?_⟩
  · rw [hrules, List.cons_append]
  · rw [Tree.charsAmong_cons, ← List.append_assoc]
    exact hmember

theorem MissesAny.here (h : grammar.Misses rule before chars failure) :
    grammar.MissesAny (rule :: rules) before chars failure :=
  ⟨[], rule, rules, rfl, by simp, h⟩

theorem MissesAny.later (hfails : grammar.Fails rule chars)
    (h : grammar.MissesAny rules before chars failure) :
    grammar.MissesAny (rule :: rules) before chars failure := by
  obtain ⟨earlier, member, later, hrules, hearlier, hmember⟩ := h
  refine ⟨rule :: earlier, member, later, ?_, List.forall_mem_cons.mpr ⟨hfails, hearlier⟩, hmember⟩
  rw [hrules, List.cons_append]

theorem MissesRounds.here (hroom : bounds.allowsMore count = true)
    (h : grammar.Misses element before chars failure) :
    grammar.MissesRounds bounds element count before chars failure := by
  refine ⟨[], chars, .nil chars, Bounds.allowsMore_iff.mp hroom, by simp, ?_⟩
  rw [Tree.charsAmong_nil, List.append_nil]
  exact h

theorem MissesRounds.later (hpart : grammar.Matches element chars part middle)
    (hadvance : part.chars ≠ [])
    (h : grammar.MissesRounds bounds element (count + 1) (before ++ part.chars) middle failure) :
    grammar.MissesRounds bounds element count before chars failure := by
  obtain ⟨parts, left, hparts, hroom, hadvances, helement⟩ := h
  refine ⟨part :: parts, left, .cons hpart hparts, fun max hmax => ?_,
    List.forall_mem_cons.mpr ⟨hadvance, hadvances⟩, ?_⟩
  · have := hroom max hmax
    rw [List.length_cons]
    omega
  · rw [Tree.charsAmong_cons, ← List.append_assoc]
    exact helement

end Grammar

/-! ## §2 Operations on matchers -/

namespace Matcher

/-- Wherever it begins, a matcher meets no failures but those of `V`. -/
def Meets (m : Matcher Transcript α) (V : List Char → List Char → Failure → Prop) : Prop :=
  ∀ before chars trail, ∀ failure ∈ (m (between before chars) trail).trail.journal.failures,
    failure ∈ trail.journal.failures ∨ V before chars failure

variable {V V' : List Char → List Char → Failure → Prop}

theorem Meets.mono {m : Matcher Transcript α} (h : m.Meets V)
    (hle : ∀ {before chars failure}, V before chars failure → V' before chars failure) :
    m.Meets V' :=
  fun before chars trail failure hfailure =>
    (h before chars trail failure hfailure).imp_right hle

theorem codePoint_meets (name expected : String) (accepts : Char → Bool) :
    (codePoint name expected accepts).Meets fun before chars failure =>
      chars = [] ∧ failure = .unexpectedEnd ⟨.ofList before, width before⟩ ∨
      ∃ c rest, chars = c :: rest ∧ accepts c = false ∧
        failure = .mismatch name expected c ⟨.ofList (before ++ c :: rest), width before⟩ := by
  intro before chars trail failure
  cases chars with
  | nil =>
    simp only [codePoint, Cursor.value_between_nil]
    intro hfailure
    rcases List.mem_cons.mp hfailure with rfl | hfailure
    · exact .inr (.inl ⟨trivial, rfl⟩)
    · exact .inl hfailure
  | cons c rest =>
    simp only [codePoint, Cursor.value_between_cons]
    cases hc : accepts c with
    | true => exact .inl
    | false =>
      simp only [Bool.false_eq_true, if_false, Cursor.location_between]
      intro hfailure
      rcases List.mem_cons.mp hfailure with rfl | hfailure
      · exact .inr (.inr ⟨c, rest, rfl, hc, rfl⟩)
      · exact .inl hfailure

theorem endOfText_meets (name : String) :
    (endOfText name).Meets fun before chars failure => ∃ c rest, chars = c :: rest ∧
      failure = .unconsumed ⟨.ofList (before ++ c :: rest), width before⟩ := by
  intro before chars trail failure
  cases chars with
  | nil =>
    simp only [endOfText, Cursor.atEnd_between, List.isEmpty_nil, if_true]
    exact .inl
  | cons c rest =>
    simp only [endOfText, Cursor.atEnd_between, List.isEmpty_cons, Bool.false_eq_true, if_false,
      Cursor.location_between]
    intro hfailure
    rcases List.mem_cons.mp hfailure with rfl | hfailure
    · exact .inr ⟨c, rest, rfl, rfl⟩
    · exact .inl hfailure

theorem node_meets {m : Matcher Transcript (List Node)} (h : m.Meets V) (name : String) :
    (node name m).Meets V := by
  intro before chars trail failure
  rw [node_andThen, Outcome.trail_andThen_matched]
  exact h before chars trail failure

section Rules

variable {grammar : Grammar κ} {meaning : Rule κ → Matcher Transcript Node}

/-- Rules are tried one after the other, up to the first that fails. -/
theorem sequence_meets {rules : List (Rule κ)}
    (hmeans : ∀ rule ∈ rules, (meaning rule).Means (grammar.Matches rule) (grammar.Fails rule))
    (hmeets : ∀ rule ∈ rules, (meaning rule).Meets (grammar.Misses rule)) :
    (sequence (rules.map meaning)).Meets (grammar.MissesEach rules) := by
  induction rules with
  | nil =>
    intro before chars trail failure
    exact .inl
  | cons first rest ih =>
    intro before chars trail failure
    obtain ⟨hmeansFirst, hmeansRest⟩ := List.forall_mem_cons.mp hmeans
    obtain ⟨hmeetsFirst, hmeetsRest⟩ := List.forall_mem_cons.mp hmeets
    have houtcome := hmeansFirst before chars trail
    have hfirst := hmeetsFirst before chars trail failure
    simp only [List.map_cons, sequence_andThen]
    generalize meaning first (between before chars) trail = outcome at houtcome hfirst ⊢
    cases houtcome with
    | @matched _ _ trail' part middle hpart _ _ hnext =>
      subst hnext
      -- The rest begins behind the match, with what was met so far.
      rw [Outcome.andThen_matched, Outcome.trail_andThen_matched]
      intro hfailure
      rcases ih hmeansRest hmeetsRest (before ++ part.chars) middle trail' failure hfailure
        with hfailure | hlater
      · exact (hfirst hfailure).imp_right .here
      · exact .inr (.later hpart hlater)
    | failed _ => exact fun hfailure => (hfirst hfailure).imp_right .here
    | aborted _ => exact fun hfailure => (hfirst hfailure).imp_right .here

/-- Rules are tried one instead of the other, up to the first that matches. -/
theorem choiceAfter_meets {rules : List (Rule κ)}
    (hmeans : ∀ rule ∈ rules, (meaning rule).Means (grammar.Matches rule) (grammar.Fails rule))
    (hmeets : ∀ rule ∈ rules, (meaning rule).Meets (grammar.Misses rule)) (inflight : Failure) :
    (choiceAfter inflight (rules.map meaning)).Meets (grammar.MissesAny rules) := by
  induction rules generalizing inflight with
  | nil =>
    intro before chars trail failure
    exact .inl
  | cons first rest ih =>
    intro before chars trail failure
    obtain ⟨hmeansFirst, hmeansRest⟩ := List.forall_mem_cons.mp hmeans
    obtain ⟨hmeetsFirst, hmeetsRest⟩ := List.forall_mem_cons.mp hmeets
    have houtcome := hmeansFirst before chars trail
    have hfirst := hmeetsFirst before chars trail failure
    simp only [List.map_cons, choiceAfter]
    generalize meaning first (between before chars) trail = outcome at houtcome hfirst ⊢
    cases houtcome with
    | matched _ _ _ _ _ _ => exact fun hfailure => (hfirst hfailure).imp_right .here
    | @failed other trail' hfails =>
      intro hfailure
      rcases ih hmeansRest hmeetsRest (inflight.deeper other) before chars trail' failure hfailure
        with hfailure | hlater
      · exact (hfirst hfailure).imp_right .here
      · exact .inr (.later hfails hlater)
    | aborted _ => exact fun hfailure => (hfirst hfailure).imp_right .here

theorem choice_meets {first : Rule κ} {rest : List (Rule κ)}
    (hmeans : ∀ rule ∈ first :: rest,
      (meaning rule).Means (grammar.Matches rule) (grammar.Fails rule))
    (hmeets : ∀ rule ∈ first :: rest, (meaning rule).Meets (grammar.Misses rule)) :
    (choice (meaning first) (rest.map meaning)).Meets (grammar.MissesAny (first :: rest)) := by
  intro before chars trail failure
  obtain ⟨hmeansFirst, hmeansRest⟩ := List.forall_mem_cons.mp hmeans
  obtain ⟨hmeetsFirst, hmeetsRest⟩ := List.forall_mem_cons.mp hmeets
  have houtcome := hmeansFirst before chars trail
  have hfirst := hmeetsFirst before chars trail failure
  simp only [choice]
  generalize meaning first (between before chars) trail = outcome at houtcome hfirst ⊢
  cases houtcome with
  | matched _ _ _ _ _ _ => exact fun hfailure => (hfirst hfailure).imp_right .here
  | @failed other trail' hfails =>
    intro hfailure
    rcases choiceAfter_meets hmeansRest hmeetsRest other before chars trail' failure hfailure
      with hfailure | hlater
    · exact (hfirst hfailure).imp_right .here
    · exact .inr (.later hfails hlater)
  | aborted _ => exact fun hfailure => (hfirst hfailure).imp_right .here

/-- Rounds are tried up to the first that fails, or that matches no code points. -/
theorem repeatFrom_meets {element : Rule κ} {m : Matcher Transcript Node}
    (hmeans : m.Means (grammar.Matches element) (grammar.Fails element))
    (hmeets : m.Meets (grammar.Misses element)) (bounds : Bounds) (count : Nat) :
    (repeatFrom bounds m count).Meets (grammar.MissesRounds bounds element count) := by
  intro before chars
  -- A round that is followed by another one leaves less of the text.
  induction hwidth : width chars using Nat.strongRecOn generalizing before chars count with
  | ind remaining ih =>
    intro trail failure
    rw [repeatFrom_andThen]
    by_cases hmore : bounds.allowsMore count
    · have houtcome := hmeans before chars trail
      have hround := hmeets before chars trail failure
      simp only [hmore, if_true]
      generalize m (between before chars) trail = outcome at houtcome hround ⊢
      cases houtcome with
      | @matched _ _ trail' part middle hpart hchars _ hnext =>
        subst hnext
        simp only [Outcome.andThen_matched, Cursor.remaining_between]
        by_cases hprogress : width middle < width chars
        · have hadvance : part.chars ≠ [] := by
            intro hempty
            simp [hchars, hempty] at hprogress
          rw [if_pos hprogress, Outcome.trail_andThen_matched]
          intro hfailure
          rcases ih (width middle) (hwidth ▸ hprogress) (count + 1) (before ++ part.chars) middle
            rfl trail' failure hfailure with hfailure | hlater
          · exact (hround hfailure).imp_right (.here hmore)
          · exact .inr (.later hpart hadvance hlater)
        · simp only [hprogress, if_false]
          exact fun hfailure => (hround hfailure).imp_right (.here hmore)
      | failed _ =>
        by_cases hfew : count < bounds.min
        · simp only [hfew, if_true]
          exact fun hfailure => (hround hfailure).imp_right (.here hmore)
        · simp only [hfew, if_false]
          exact fun hfailure => (hround hfailure).imp_right (.here hmore)
      | aborted _ => exact fun hfailure => (hround hfailure).imp_right (.here hmore)
    · simp only [hmore, if_false, Bool.false_eq_true]
      exact .inl

end Rules

end Matcher

/-! ## §3 Rules -/

namespace Grammar

/-- **A rule meets the failures that it may miss and no others**, with any number of unfoldings. -/
theorem matcher_meets (grammar : Grammar κ) (depth : Nat) (rule : Rule κ) :
    (rule.matcher (grammar.call depth)).Meets (grammar.Misses rule) := by
  have hmeans : ∀ depth, ∀ rules : List (Rule κ), ∀ rule ∈ rules,
      (rule.matcher (grammar.call depth) : Matcher Transcript Node).Means (grammar.Matches rule)
        (grammar.Fails rule) :=
    fun depth _ rule _ => grammar.matcher_means depth rule
  induction depth, rule using grammar.unfoldingInduction with
  | character depth name expected =>
    apply (Matcher.codePoint_meets name _ _).mono
    rintro before chars failure (⟨rfl, rfl⟩ | ⟨c, rest, rfl, hc, rfl⟩)
    · exact .character_end name expected before
    · exact .character_mismatch name (by simpa using hc) before rest
  | range depth name low high =>
    apply (Matcher.codePoint_meets name _ _).mono
    rintro before chars failure (⟨rfl, rfl⟩ | ⟨c, rest, rfl, hc, rfl⟩)
    · exact .range_end name low high before
    · exact .range_mismatch name (by simpa using hc) before rest
  | endOfText depth name =>
    apply (Matcher.endOfText_meets name).mono
    rintro before chars failure ⟨c, rest, rfl, rfl⟩
    exact .endOfText name c before rest
  | concatenation depth name first rest ih =>
    rw [Rule.matcher_concatenation]
    apply (Matcher.node_meets (Matcher.sequence_meets (hmeans depth _) ih) name).mono
    intro before chars failure hmisses
    obtain ⟨earlier, member, later, parts, left, hmembers, hparts, hmember⟩ := hmisses
    exact .concatenation hmembers hparts hmember
  | alternation depth name first rest ih =>
    rw [Rule.matcher_alternation]
    apply (Matcher.node_meets (Matcher.choice_meets (hmeans depth _) ih) name).mono
    intro before chars failure hmisses
    obtain ⟨earlier, member, later, hmembers, hearlier, hmember⟩ := hmisses
    exact .alternation hmembers hearlier hmember
  | repetition depth name bounds element ih =>
    rw [Rule.matcher_repetition]
    have helement := grammar.matcher_means (τ := Transcript) depth element
    apply (Matcher.node_meets (Matcher.repeatFrom_meets helement ih bounds 0) name).mono
    intro before chars failure hmisses
    obtain ⟨parts, left, hparts, hroom, hadvance, helement⟩ := hmisses
    rw [Nat.zero_add] at hroom
    exact .repetition hparts hroom hadvance helement
  | exhausted name key =>
    rw [Grammar.matcher_exhausted]
    exact fun _ _ _ _ => .inl
  | unbuildable depth name key fault hdefine =>
    rw [Grammar.matcher_unbuildable grammar depth name hdefine]
    exact fun _ _ _ _ => .inl
  | unfolded depth name key rule hdefine ih =>
    rw [Grammar.matcher_unfolded grammar depth name hdefine]
    exact ih.mono (.deferred hdefine)

variable {grammar : Grammar κ} {rule : Rule κ} {before chars : List Char} {failure : Failure}

/-- The failures of an evaluation are among those that the rule may miss. -/
theorem misses_of_mem_missed {depth : Nat}
    (h : failure ∈ grammar.missed depth rule (between before chars)) :
    grammar.Misses rule before chars failure := by
  rcases grammar.matcher_meets depth rule before chars (.fresh ⟨[]⟩) failure h with hnone | hmisses
  · cases hnone
  · exact hmisses

end Grammar

/-! ## §4 Where failures are -/

/-- The failure is in the text of all code points, and behind some of those ahead. -/
def Failure.StandsAhead (before chars : List Char) (failure : Failure) : Prop :=
  ∃ passed rest, chars = passed ++ rest ∧
    failure.location = ⟨.ofList (before ++ chars), width (before ++ passed)⟩

namespace Grammar

variable {grammar : Grammar κ} {rule : Rule κ} {rules : List (Rule κ)}
  {before chars left : List Char} {parts : List Tree} {failure : Failure}

/-- What stands ahead behind matched parts stands ahead before them. -/
theorem MatchesEach.standsAhead (hparts : grammar.MatchesEach rules chars parts left)
    (h : failure.StandsAhead (before ++ Tree.charsAmong parts) left) :
    failure.StandsAhead before chars := by
  obtain ⟨passed, rest, rfl, hlocation⟩ := h
  refine ⟨Tree.charsAmong parts ++ passed, rest, ?_, ?_⟩
  · rw [hparts.chars_eq, List.append_assoc]
  · rw [hlocation, hparts.chars_eq]
    simp only [List.append_assoc]

/-- **A failure is at a place of the text**, not before the one where the rule is tried. -/
theorem Misses.standsAhead (h : grammar.Misses rule before chars failure) :
    failure.StandsAhead before chars := by
  induction h with
  | character_end name expected before => exact ⟨[], [], rfl, by simp [Failure.location]⟩
  | character_mismatch name hc before rest => exact ⟨[], _, rfl, by simp [Failure.location]⟩
  | range_end name low high before => exact ⟨[], [], rfl, by simp [Failure.location]⟩
  | range_mismatch name hc before rest => exact ⟨[], _, rfl, by simp [Failure.location]⟩
  | endOfText name c before rest => exact ⟨[], _, rfl, by simp [Failure.location]⟩
  | concatenation hmembers hparts hmember ih => exact hparts.standsAhead ih
  | alternation hmembers hearlier hmember ih => exact ih
  | repetition hparts hroom hadvance helement ih => exact hparts.standsAhead ih
  | deferred hdefine hrule ih => exact ih

end Grammar

end AugmentedBnf
