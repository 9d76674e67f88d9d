import AugmentedBnf.Proofs.Cursor
import AugmentedBnf.Proofs.Derivation.Basic
import AugmentedBnf.Proofs.Rule.Induction
import Mathlib.Order.Filter.AtTopBot.Basic
import Mathlib.Order.Filter.Finite

/-!
# Derivations Are Found

Whatever has a derivation is found by an evaluation, as soon as it may enter enough deferred rules
within each other. What an evaluation finds does not depend on how it got there: `Matcher.Reads`
and `Matcher.Refuses` speak of every list of code points passed before and every trail.

Each operation on matchers has a lemma for a match and one for a failure. They take what the
premises of a derivation give about the members, so the main statement, `Matches.reads`, is an
induction over derivations with one lemma for each constructor.
-/

namespace AugmentedBnf

variable {κ τ α : Type}

open Filter (atTop eventually_atTop)
open Text (width)
open Cursor (between)

namespace Matcher

/-! ## §1 Settled matchers -/

/-- With `chars` ahead the matcher matches `tree` at its place, and has `left` ahead then. -/
structure Reads (m : Matcher τ Node) (chars : List Char) (tree : Tree) (left : List Char) :
    Prop where
  split : chars = tree.chars ++ left
  matched : ∀ before trail, ∃ trail', m (between before chars) trail
    = .matched (tree.place (.ofList (before ++ chars)) (width before))
        (between (before ++ tree.chars) left) trail'

/-- With `chars` ahead the matcher matches `parts`, each at its place. -/
structure ReadsAll (m : Matcher τ (List Node)) (chars : List Char) (parts : List Tree)
    (left : List Char) : Prop where
  split : chars = Tree.charsAmong parts ++ left
  matched : ∀ before trail, ∃ trail', m (between before chars) trail
    = .matched (Tree.placeAmong (.ofList (before ++ chars)) (width before) parts)
        (between (before ++ Tree.charsAmong parts) left) trail'

/-- With `chars` ahead the matcher fails. -/
def Refuses (m : Matcher τ α) (chars : List Char) : Prop :=
  ∀ before trail, ∃ failure trail', m (between before chars) trail = .failed failure trail'

/-- Matchers match one after the other, each on what the one before it left. -/
inductive ReadsEach : List (Matcher τ Node) → List Char → List Tree → List Char → Prop where
  | nil (chars : List Char) : ReadsEach [] chars [] chars
  | cons {m : Matcher τ Node} {ms : List (Matcher τ Node)} {chars middle left : List Char}
      {part : Tree} {parts : List Tree} (hfirst : m.Reads chars part middle)
      (hrest : ReadsEach ms middle parts left) :
      ReadsEach (m :: ms) chars (part :: parts) left

/-! ## §2 Primitive matchers -/

section Primitive

variable [Journal τ]

theorem codePoint_reads (name expected : String) {accepts : Char → Bool} {c : Char}
    (hc : accepts c) (left : List Char) :
    (codePoint name expected accepts : Matcher τ Node).Reads (c :: left) (.leaf name c) left where
  split := rfl
  matched := by
    intro before trail
    refine ⟨trail, ?_⟩
    have hspan := Cursor.spanTo_between before [c] left
    simp only [codePoint, Cursor.value_between_cons, Cursor.skip_between, hc, if_true]
    simpa using congrArg (Node.leaf name) hspan

theorem codePoint_refuses (name expected : String) {accepts : Char → Bool} {chars : List Char}
    (hchars : ∀ c ∈ chars.head?, accepts c = false) :
    (codePoint name expected accepts : Matcher τ Node).Refuses chars := by
  intro before trail
  cases chars with
  | nil =>
    simp only [codePoint, Cursor.value_between_nil]
    exact ⟨_, _, rfl⟩
  | cons c rest =>
    have hc : accepts c = false := hchars c rfl
    simp only [codePoint, Cursor.value_between_cons, hc, Bool.false_eq_true, if_false]
    exact ⟨_, _, rfl⟩

theorem endOfText_reads (name : String) :
    (endOfText name : Matcher τ Node).Reads [] (.node name []) [] where
  split := rfl
  matched := by
    intro before trail
    refine ⟨trail, ?_⟩
    have hspan := Cursor.spanTo_between before [] []
    simp only [endOfText, Cursor.atEnd_between, List.isEmpty_nil, if_true]
    simpa [Node.leaf] using hspan

theorem endOfText_refuses (name : String) (c : Char) (rest : List Char) :
    (endOfText name : Matcher τ Node).Refuses (c :: rest) := by
  intro before trail
  simp only [endOfText, Cursor.atEnd_between, List.isEmpty_cons, Bool.false_eq_true, if_false]
  exact ⟨_, _, rfl⟩

end Primitive

/-! ## §3 Nodes and sequences -/

section Composite

variable {m : Matcher τ Node} {ms : List (Matcher τ Node)} {chars middle left : List Char}
  {part : Tree} {parts : List Tree}

theorem node_reads {m : Matcher τ (List Node)} (h : m.ReadsAll chars parts left) (name : String) :
    (node name m).Reads chars (.node name parts) left where
  split := h.split
  matched := by
    intro before trail
    obtain ⟨trail', houtcome⟩ := h.matched before trail
    refine ⟨trail', ?_⟩
    simp only [node, houtcome]
    rw [h.split, Cursor.spanTo_between, Tree.place_node, Tree.chars_node]

theorem node_refuses {m : Matcher τ (List Node)} (h : m.Refuses chars) (name : String) :
    (node name m).Refuses chars := by
  intro before trail
  obtain ⟨failure, trail', houtcome⟩ := h before trail
  simp only [node, houtcome]
  exact ⟨_, _, rfl⟩

/-- The first part read, a matcher of several nodes goes on as `m'` does and puts the part in
    front. -/
theorem ReadsAll.cons {all rest : Matcher τ (List Node)} (hfirst : m.Reads chars part middle)
    (hrest : rest.ReadsAll middle parts left)
    (hall : ∀ {before trail node trail' nodes last trail''},
      m (between before chars) trail
        = .matched node (between (before ++ part.chars) middle) trail' →
      rest (between (before ++ part.chars) middle) trail' = .matched nodes last trail'' →
      all (between before chars) trail = .matched (node :: nodes) last trail'') :
    all.ReadsAll chars (part :: parts) left where
  split := by rw [hfirst.split, hrest.split, Tree.charsAmong_cons, List.append_assoc]
  matched := by
    intro before trail
    obtain ⟨trail', hpart⟩ := hfirst.matched before trail
    obtain ⟨trail'', hparts⟩ := hrest.matched (before ++ part.chars) trail'
    refine ⟨trail'', ?_⟩
    rw [hall hpart hparts, Tree.placeAmong_cons, Tree.charsAmong_cons, Text.width_append,
      List.append_assoc, List.append_assoc, ← hfirst.split]

theorem sequence_reads (h : ReadsEach ms chars parts left) :
    (sequence ms).ReadsAll chars parts left := by
  induction h with
  | nil chars =>
    -- With nothing to match, the trail stays as it is.
    refine ⟨rfl, fun before trail => ⟨trail, ?_⟩⟩
    simp only [sequence, Tree.placeAmong_nil, Tree.charsAmong_nil, List.append_nil]
  | cons hfirst _ ih =>
    refine .cons hfirst ih fun hpart hparts => ?_
    simp only [sequence, hpart, hparts]

theorem sequence_refuses {earlier later : List (Matcher τ Node)}
    (h : ReadsEach earlier chars parts left) (hm : m.Refuses left) :
    (sequence (earlier ++ m :: later)).Refuses chars := by
  induction h with
  | nil chars =>
    intro before trail
    obtain ⟨failure, trail', houtcome⟩ := hm before trail
    simp only [List.nil_append, sequence, houtcome]
    exact ⟨_, _, rfl⟩
  | @cons _ _ _ _ _ part _ hfirst _ ih =>
    intro before trail
    obtain ⟨trail', hpart⟩ := hfirst.matched before trail
    obtain ⟨failure, trail'', hrest⟩ := ih hm (before ++ part.chars) trail'
    simp only [List.cons_append, sequence, hpart, hrest]
    exact ⟨_, _, rfl⟩

/-! ## §4 Choices -/

/-- After failed members a choice goes on with the next one. -/
theorem choiceAfter_reads {earlier later : List (Matcher τ Node)}
    (hearlier : ∀ other ∈ earlier, other.Refuses chars) (hm : m.Reads chars part left)
    (failure : Failure) :
    (choiceAfter failure (earlier ++ m :: later)).ReadsAll chars [part] left := by
  refine ⟨by simpa using hm.split, ?_⟩
  intro before trail
  induction earlier generalizing failure trail with
  | nil =>
    obtain ⟨trail', houtcome⟩ := hm.matched before trail
    refine ⟨trail'.recover failure, ?_⟩
    simp [choiceAfter, houtcome]
  | cons other earlier ih =>
    -- The failure of this member goes on with the one so far; it plays no part in the match.
    obtain ⟨hother, hearlier⟩ := List.forall_mem_cons.mp hearlier
    obtain ⟨otherFailure, trail', houtcome⟩ := hother before trail
    simp only [List.cons_append, choiceAfter, houtcome]
    exact ih hearlier (failure.deeper otherFailure) trail'

theorem choiceAfter_refuses (hms : ∀ m ∈ ms, m.Refuses chars) (failure : Failure) :
    (choiceAfter failure ms).Refuses chars := by
  intro before trail
  induction ms generalizing failure trail with
  | nil => exact ⟨failure, trail, rfl⟩
  | cons m ms ih =>
    obtain ⟨hm, hms⟩ := List.forall_mem_cons.mp hms
    obtain ⟨otherFailure, trail', houtcome⟩ := hm before trail
    simp only [choiceAfter, houtcome]
    exact ih hms (failure.deeper otherFailure) trail'

/-- A choice is one after no failed members, with a failure that plays no part. -/
theorem choice_reads {first : Matcher τ Node} {rest earlier later : List (Matcher τ Node)}
    (hmembers : first :: rest = earlier ++ m :: later)
    (hearlier : ∀ other ∈ earlier, other.Refuses chars) (hm : m.Reads chars part left) :
    (choice first rest).ReadsAll chars [part] left := by
  refine ⟨by simpa using hm.split, fun before trail => ?_⟩
  cases earlier with
  | nil =>
    obtain ⟨rfl, rfl⟩ := List.cons.inj hmembers
    obtain ⟨trail', houtcome⟩ := hm.matched before trail
    refine ⟨trail', ?_⟩
    simp [choice, houtcome]
  | cons other earlier =>
    obtain ⟨rfl, rfl⟩ := List.cons.inj hmembers
    obtain ⟨hfirst, hearlier⟩ := List.forall_mem_cons.mp hearlier
    obtain ⟨failure, trail', houtcome⟩ := hfirst before trail
    simp only [choice, houtcome]
    exact (choiceAfter_reads hearlier hm failure).matched before trail'

theorem choice_refuses {first : Matcher τ Node} {rest : List (Matcher τ Node)}
    (h : ∀ m ∈ first :: rest, m.Refuses chars) : (choice first rest).Refuses chars := by
  obtain ⟨hfirst, hrest⟩ := List.forall_mem_cons.mp h
  intro before trail
  obtain ⟨failure, trail', houtcome⟩ := hfirst before trail
  simp only [choice, houtcome]
  exact choiceAfter_refuses hrest failure before trail'

/-! ## §5 Repetitions -/

/-- The cursor behind a part with code points has less in front of it. -/
theorem remaining_lt (hm : m.Reads chars part middle) (before : List Char) :
    (between (before ++ part.chars) middle).remaining < (between before chars).remaining ↔
      part.chars ≠ [] := by
  rw [Cursor.remaining_between, Cursor.remaining_between, hm.split, Text.width_append, ne_eq,
    ← Text.width_eq_zero_iff]
  omega

theorem repeatFrom_reads {bounds : Bounds} {count : Nat}
    (hparts : ReadsEach (List.replicate parts.length m) chars parts left)
    (hbounded : ∀ max ∈ bounds.max, count + parts.length ≤ max)
    (hadvance : ∀ part ∈ parts.dropLast, part.chars ≠ [])
    (henough : bounds.min ≤ count + parts.length ∨ Tree.EndsEmpty parts)
    (hstop : bounds.max ≠ some (count + parts.length) → ¬ Tree.EndsEmpty parts → m.Refuses left) :
    (repeatFrom bounds m count).ReadsAll chars parts left := by
  induction parts generalizing count chars with
  | nil =>
    cases hparts
    simp only [List.length_nil, Nat.add_zero, Tree.not_endsEmpty_nil, or_false,
      not_false_eq_true, true_imp_iff] at henough hstop
    refine ⟨rfl, fun before trail => ?_⟩
    rw [repeatFrom]
    by_cases hmore : bounds.allowsMore count
    · have hopen : bounds.max ≠ some count := by
        intro hmax
        exact Nat.lt_irrefl count (Bounds.allowsMore_iff.mp hmore count hmax)
      obtain ⟨failure, trail', houtcome⟩ := hstop hopen before trail
      simp [hmore, houtcome, Nat.not_lt.mpr henough]
    · simp [hmore]
  | cons part parts ih =>
    simp only [List.length_cons, List.replicate_succ] at hparts
    obtain - | @⟨_, _, _, middle, _, _, _, hfirst, hrest⟩ := hparts
    have hmore : bounds.allowsMore count := by
      refine Bounds.allowsMore_iff.mpr fun max hmax => ?_
      have hle := hbounded max hmax
      rw [List.length_cons] at hle
      omega
    by_cases hempty : part.chars = []
    · -- A part without code points is the last one.
      obtain rfl : parts = [] := by
        by_contra hne
        refine hadvance part ?_ hempty
        rw [List.dropLast_cons_of_ne_nil hne]
        exact List.mem_cons_self
      cases hrest
      refine ⟨by simpa using hfirst.split, fun before trail => ?_⟩
      obtain ⟨trail', hpart⟩ := hfirst.matched before trail
      have hprogress := (remaining_lt hfirst before).not.mpr (not_not.mpr hempty)
      refine ⟨trail', ?_⟩
      rw [repeatFrom]
      simp only [hmore, if_true, hpart, hprogress, if_false]
      simp
    · -- What holds of all parts holds of those behind the first, with one round more counted.
      rw [Tree.endsEmpty_cons hempty] at henough hstop
      have hlater : (repeatFrom bounds m (count + 1)).ReadsAll middle parts left := by
        refine ih hrest ?_ ?_ ?_ ?_
        · intro max hmax
          have hle := hbounded max hmax
          rw [List.length_cons] at hle
          omega
        · intro other hother
          cases parts with
          | nil => simp at hother
          | cons next parts => exact hadvance other (List.mem_cons_of_mem part hother)
        · rw [Nat.add_right_comm]
          exact henough
        · rw [Nat.add_right_comm]
          exact hstop
      refine .cons hfirst hlater fun {before} _ _ _ _ _ _ hpart hparts => ?_
      have hprogress := (remaining_lt hfirst before).mpr hempty
      rw [repeatFrom]
      simp only [hmore, if_true, hpart, hprogress, hparts]

theorem repeatFrom_refuses {bounds : Bounds} {count : Nat}
    (hparts : ReadsEach (List.replicate parts.length m) chars parts left)
    (hfew : count + parts.length < bounds.min) (hadvance : ∀ part ∈ parts, part.chars ≠ [])
    (hstop : m.Refuses left) : (repeatFrom bounds m count).Refuses chars := by
  induction parts generalizing count chars with
  | nil =>
    cases hparts
    intro before trail
    obtain ⟨failure, trail', houtcome⟩ := hstop before trail
    -- Fewer rounds than there must be are fewer than there may be.
    have hmore : bounds.allowsMore count := by
      refine Bounds.allowsMore_iff.mpr fun max hmax => ?_
      exact Nat.lt_of_lt_of_le hfew (bounds.ordered max hmax)
    rw [repeatFrom]
    simp only [hmore, if_true, houtcome, show count < bounds.min from hfew]
    exact ⟨_, _, rfl⟩
  | cons part parts ih =>
    simp only [List.length_cons, List.replicate_succ] at hparts hfew
    obtain - | @⟨_, _, _, middle, _, _, _, hfirst, hrest⟩ := hparts
    obtain ⟨hpart, hadvance⟩ := List.forall_mem_cons.mp hadvance
    have hmore : bounds.allowsMore count := by
      refine Bounds.allowsMore_iff.mpr fun max hmax => ?_
      have hle := bounds.ordered max hmax
      omega
    intro before trail
    obtain ⟨trail', hmatched⟩ := hfirst.matched before trail
    have hfew : count + 1 + parts.length < bounds.min := by omega
    obtain ⟨failure, trail'', hfailed⟩ := ih hrest hfew hadvance (before ++ part.chars) trail'
    rw [repeatFrom]
    simp only [hmore, if_true, hmatched, (remaining_lt hfirst before).mpr hpart, hfailed]
    exact ⟨_, _, rfl⟩

end Composite

end Matcher

/-! ## §6 Rules -/

namespace Grammar

section Found

variable [Journal τ] {grammar : Grammar κ}

/-- What holds of the rule defined for a key holds of the deferred rule with one more unfolding. -/
theorem eventually_deferred {name : String} {key : κ} {rule : Rule κ}
    (hdefine : grammar.define key = .ok rule) {P : Matcher τ Node → Prop}
    (h : ∀ᶠ depth in atTop, P (rule.matcher (grammar.call depth))) :
    ∀ᶠ depth in atTop, P ((Rule.deferred name key).matcher (grammar.call depth)) := by
  obtain ⟨enough, henough⟩ := eventually_atTop.mp h
  refine eventually_atTop.mpr ⟨enough + 1, fun depth hdepth => ?_⟩
  obtain ⟨more, rfl⟩ := Nat.exists_eq_add_of_le hdepth
  -- One unfolding enters the rule, and those that remain are enough for it.
  rw [Nat.add_right_comm, grammar.matcher_unfolded (enough + more) name hdefine]
  exact henough (enough + more) (Nat.le_add_right enough more)

/-- Some number of unfoldings is enough for all of several rules. -/
theorem eventually_forall_mem {rules : List (Rule κ)} {P : Nat → Rule κ → Prop}
    (h : ∀ rule ∈ rules, ∀ᶠ depth in atTop, P depth rule) :
    ∀ᶠ depth in atTop, ∀ rule ∈ rules, P depth rule :=
  (Filter.eventually_all_finite rules.finite_toSet).mpr h

mutual

/-- **Derived matches are found**: with enough unfoldings the rule matches the tree at its place. -/
theorem Matches.reads : ∀ {rule : Rule κ} {chars left : List Char} {tree : Tree},
    grammar.Matches rule chars tree left →
    ∀ᶠ depth in atTop, (rule.matcher (grammar.call depth) : Matcher τ Node).Reads chars tree left
  | _, _, _, _, .character name c left => by
    refine .of_forall fun depth => ?_
    exact Matcher.codePoint_reads name _ (by simp) left
  | _, _, _, _, .range name hc left => by
    refine .of_forall fun depth => ?_
    exact Matcher.codePoint_reads name _ (by simpa using hc) left
  | _, _, _, _, .endOfText name => .of_forall fun _ => Matcher.endOfText_reads name
  | _, _, _, _, .concatenation hparts => by
    filter_upwards [hparts.reads] with depth hreads
    rw [Rule.matcher_concatenation]
    exact Matcher.node_reads (Matcher.sequence_reads hreads) _
  | _, _, _, _, .alternation hmembers hearlier hmember => by
    -- Each earlier member fails with enough unfoldings, so all of them do with the most of these.
    have hrefuse := eventually_forall_mem fun other hother => (hearlier other hother).refuses
    filter_upwards [hmember.reads, hrefuse] with depth hreads hrefuses
    rw [Rule.matcher_alternation]
    have hmatchers := congrArg
      (List.map (Rule.matcher (grammar.call depth : _ → _ → Matcher τ Node))) hmembers
    rw [List.map_cons, List.map_append, List.map_cons] at hmatchers
    exact Matcher.node_reads
      (Matcher.choice_reads hmatchers (List.forall_mem_map.mpr hrefuses) hreads) _
  | _, _, _, _, .repetition hparts hmax hadvance hmin hstop => by
    -- Whether the element fails on what is left matters only for a repetition that stops there.
    have hends := Filter.eventually_imp_distrib_left.mpr fun hmax =>
      Filter.eventually_imp_distrib_left.mpr fun hempty => (hstop hmax hempty).refuses
    filter_upwards [hparts.reads, hends] with depth hreads hrefuses
    rw [List.map_replicate] at hreads
    rw [Rule.matcher_repetition]
    refine Matcher.node_reads (Matcher.repeatFrom_reads hreads ?_ hadvance ?_ ?_) _
    · simpa using hmax
    · simpa using hmin
    · simpa using hrefuses
  | _, _, _, _, .deferred hdefine hrule =>
    eventually_deferred (P := (·.Reads _ _ _)) hdefine hrule.reads

theorem MatchesEach.reads : ∀ {rules : List (Rule κ)} {chars left : List Char}
    {parts : List Tree}, grammar.MatchesEach rules chars parts left →
    ∀ᶠ depth in atTop, Matcher.ReadsEach (τ := τ)
      (rules.map (Rule.matcher (grammar.call depth))) chars parts left
  | _, _, _, _, .nil chars => .of_forall fun _ => .nil chars
  | _, _, _, _, .cons hfirst hrest => by
    filter_upwards [hfirst.reads, hrest.reads] with depth hpart hparts
    exact .cons hpart hparts

/-- **Derived failures are found**: with enough unfoldings the rule fails. -/
theorem Fails.refuses : ∀ {rule : Rule κ} {chars : List Char}, grammar.Fails rule chars →
    ∀ᶠ depth in atTop, (rule.matcher (grammar.call depth) : Matcher τ Node).Refuses chars
  | _, _, .character_end name expected => by
    refine .of_forall fun depth => ?_
    exact Matcher.codePoint_refuses name _ (by simp)
  | _, _, .character_mismatch name hc rest => by
    refine .of_forall fun depth => ?_
    exact Matcher.codePoint_refuses name _ (by simpa using hc)
  | _, _, .range_end name low high => by
    refine .of_forall fun depth => ?_
    exact Matcher.codePoint_refuses name _ (by simp)
  | _, _, .range_mismatch name hc rest => by
    refine .of_forall fun depth => ?_
    exact Matcher.codePoint_refuses name _ (by simpa using hc)
  | _, _, .endOfText name c rest => .of_forall fun _ => Matcher.endOfText_refuses name c rest
  | _, _, .concatenation hmembers hparts hmember => by
    filter_upwards [hparts.reads, hmember.refuses] with depth hreads hrefuses
    rw [Rule.matcher_concatenation, hmembers, List.map_append, List.map_cons]
    exact Matcher.node_refuses (Matcher.sequence_refuses hreads hrefuses) _
  | _, _, .alternation hmembers => by
    have hrefuse := eventually_forall_mem fun member hmember => (hmembers member hmember).refuses
    filter_upwards [hrefuse] with depth hrefuses
    rw [Rule.matcher_alternation]
    refine Matcher.node_refuses (Matcher.choice_refuses ?_) _
    rw [← List.map_cons]
    exact List.forall_mem_map.mpr hrefuses
  | _, _, .repetition hparts hfew hadvance helement => by
    filter_upwards [hparts.reads, helement.refuses] with depth hreads hrefuses
    rw [List.map_replicate] at hreads
    rw [Rule.matcher_repetition]
    refine Matcher.node_refuses (Matcher.repeatFrom_refuses hreads ?_ hadvance hrefuses) _
    simpa using hfew
  | _, _, .deferred hdefine hrule =>
    eventually_deferred (P := (·.Refuses _)) hdefine hrule.refuses

end

end Found

end Grammar

end AugmentedBnf
