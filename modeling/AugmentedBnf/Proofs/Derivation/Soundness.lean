import AugmentedBnf.Proofs.Cursor
import AugmentedBnf.Proofs.Derivation.Basic
import AugmentedBnf.Proofs.Rule.Induction

/-!
# Evaluations Derive What They Find

Whatever an evaluation finds has a derivation: a match is a derived one put at its place in the
text, and a failure is a derived failure. This holds with any number of unfoldings, since an
evaluation that runs out of them finds nothing.

Each operation on matchers is described once, by what a match and a failure of it mean
(`Matcher.Means` for one node, `Matcher.MeansAll` for the nodes of a sequence). The descriptions of
the operations follow the constructors of derivations, so the main statement, `matcher_means`, has
one case for each kind of rule.
-/

namespace AugmentedBnf

variable {κ τ α β : Type}

open Text (width)
open Cursor (between)

/-! ## §1 Meaning of outcomes -/

/-- An outcome from the cursor that has passed `before` and has `chars` ahead: a match is one of `M`
    put at its place, a failure happens where `F` holds, and the text can always be read. -/
inductive Outcome.Explained (place : String → Nat → β → α) (yield : β → List Char)
    (M : β → List Char → Prop) (F : Prop) (before chars : List Char) : Outcome τ α → Prop where
  | matched {value : α} {next : Cursor} {trail : Trail τ} (tree : β) (left : List Char)
      (htree : M tree left) (hchars : chars = yield tree ++ left)
      (hvalue : value = place (.ofList (before ++ chars)) (width before) tree)
      (hnext : next = between (before ++ yield tree) left) :
      Explained place yield M F before chars (.matched value next trail)
  | failed {failure : Failure} {trail : Trail τ} (hfails : F) :
      Explained place yield M F before chars (.failed failure trail)
  | aborted {cause : Abort} {trail : Trail τ} (hcause : ∀ fault, cause ≠ .slice fault) :
      Explained place yield M F before chars (.aborted cause trail)

namespace Outcome

variable {before chars middle left : List Char} {trail : Trail τ} {next : Cursor}

/-- An explanation says more than another one if its matches and failures mean more. -/
theorem Explained.imp {place : String → Nat → β → α} {yield : β → List Char}
    {M M' : β → List Char → Prop} {F F' : Prop} {outcome : Outcome τ α}
    (h : outcome.Explained place yield M F before chars)
    (hM : ∀ tree left, M tree left → M' tree left) (hF : F → F') :
    outcome.Explained place yield M' F' before chars := by
  cases h with
  | matched tree left htree hchars hvalue hnext =>
    exact .matched tree left (hM tree left htree) hchars hvalue hnext
  | failed hfails => exact .failed (hF hfails)
  | aborted hcause => exact .aborted hcause

variable {M : List Tree → List Char → Prop} {F : Prop} {part : Tree} {parts : List Tree}
  {node : Node} {nodes : List Node}

/-- One node is explained by one part. -/
theorem explained_singleton (hparts : M [part] left) (hchars : chars = part.chars ++ left)
    (hvalue : node = part.place (.ofList (before ++ chars)) (width before))
    (hnext : next = between (before ++ part.chars) left) :
    (Outcome.matched [node] next trail).Explained Tree.placeAmong Tree.charsAmong M F before
      chars := by
  apply Explained.matched [part] left hparts
  · rw [Tree.charsAmong_cons, Tree.charsAmong_nil, List.append_nil]
    exact hchars
  · rw [hvalue, Tree.placeAmong_cons, Tree.placeAmong_nil]
  · rw [Tree.charsAmong_cons, Tree.charsAmong_nil, List.append_nil]
    exact hnext

/-- A node and those behind it are explained by a part and those behind it. -/
theorem explained_cons (hparts : M (part :: parts) left) (hchars : chars = part.chars ++ middle)
    (hvalue : node = part.place (.ofList (before ++ chars)) (width before))
    (hmiddle : middle = Tree.charsAmong parts ++ left)
    (hvalues : nodes = Tree.placeAmong (.ofList (before ++ part.chars ++ middle))
      (width (before ++ part.chars)) parts)
    (hnext : next = between (before ++ part.chars ++ Tree.charsAmong parts) left) :
    (Outcome.matched (node :: nodes) next trail).Explained Tree.placeAmong Tree.charsAmong M F
      before chars := by
  apply Explained.matched (part :: parts) left hparts
  · rw [hchars, hmiddle, Tree.charsAmong_cons, List.append_assoc]
  · -- The parts behind are at the offset where the first one stops.
    rw [hvalue, hvalues, hchars, Tree.placeAmong_cons, Text.width_append, List.append_assoc]
  · rw [hnext, Tree.charsAmong_cons, List.append_assoc]

end Outcome

namespace Matcher

/-- What the matches and the failures of a matcher mean, wherever it is evaluated. -/
def Means (m : Matcher τ Node) (M : List Char → Tree → List Char → Prop)
    (F : List Char → Prop) : Prop :=
  ∀ before chars trail, (m (between before chars) trail).Explained Tree.place Tree.chars (M chars)
    (F chars) before chars

/-- What the matches and the failures of a matcher of several nodes mean. -/
def MeansAll (m : Matcher τ (List Node)) (M : List Char → List Tree → List Char → Prop)
    (F : List Char → Prop) : Prop :=
  ∀ before chars trail, (m (between before chars) trail).Explained Tree.placeAmong Tree.charsAmong
    (M chars) (F chars) before chars

/-! ## §2 Primitive matchers -/

/-- A single code point is matched if it is ahead and accepted. -/
theorem codePoint_means [Journal τ] (name expected : String) (accepts : Char → Bool) :
    (codePoint name expected accepts : Matcher τ Node).Means
      (fun chars tree left => ∃ c, accepts c ∧ chars = c :: left ∧ tree = .leaf name c)
      (fun chars => ∀ c ∈ chars.head?, accepts c = false) := by
  intro before chars trail
  cases chars with
  | nil =>
    simp only [codePoint, Cursor.value_between_nil]
    exact .failed (by simp)
  | cons c rest =>
    simp only [codePoint, Cursor.value_between_cons, Cursor.skip_between]
    cases hc : accepts c with
    | true =>
      refine .matched (.leaf name c) rest ⟨c, hc, rfl, rfl⟩ rfl ?_ rfl
      have hspan := Cursor.spanTo_between before [c] rest
      simpa using congrArg (Node.leaf name) hspan
    | false =>
      simp only [Bool.false_eq_true, if_false]
      exact .failed (by simpa using hc)

/-- The end of the text is matched if nothing is ahead. -/
theorem endOfText_means [Journal τ] (name : String) :
    (endOfText name : Matcher τ Node).Means
      (fun chars tree left => chars = [] ∧ tree = .node name [] ∧ left = [])
      (fun chars => chars ≠ []) := by
  intro before chars trail
  cases chars with
  | nil =>
    simp only [endOfText, Cursor.atEnd_between, List.isEmpty_nil, if_true]
    refine .matched (.node name []) [] ⟨trivial, rfl, rfl⟩ rfl ?_ (by simp)
    have hspan := Cursor.spanTo_between before [] []
    simpa [Node.leaf] using hspan
  | cons c rest =>
    simp only [endOfText, Cursor.atEnd_between, List.isEmpty_cons, Bool.false_eq_true, if_false]
    exact .failed (by simp)

/-! ## §3 Composite matchers -/

/-- A node has the matched nodes as its children. -/
theorem node_means {m : Matcher τ (List Node)} {M : List Char → List Tree → List Char → Prop}
    {F : List Char → Prop} (h : m.MeansAll M F) (name : String) :
    (node name m).Means
      (fun chars tree left => ∃ parts, tree = .node name parts ∧ M chars parts left) F := by
  intro before chars trail
  have houtcome := h before chars trail
  simp only [node]
  generalize m (between before chars) trail = outcome at houtcome ⊢
  cases houtcome with
  | matched parts left hparts hchars hvalue hnext =>
    refine .matched (.node name parts) left ⟨parts, rfl, hparts⟩ hchars ?_ hnext
    rw [hvalue, hnext, hchars, Cursor.spanTo_between, Tree.place_node]
  | failed hfails => exact .failed hfails
  | aborted hcause => exact .aborted hcause

section Rules

variable {grammar : Grammar κ} {meaning : Rule κ → Matcher τ Node}

/-- A sequence matches as its members do one after the other. -/
theorem sequence_means {rules : List (Rule κ)}
    (h : ∀ rule ∈ rules, (meaning rule).Means (grammar.Matches rule) (grammar.Fails rule)) :
    (sequence (rules.map meaning)).MeansAll (grammar.MatchesEach rules) (fun chars =>
      ∃ earlier member later parts left, rules = earlier ++ member :: later ∧
        grammar.MatchesEach earlier chars parts left ∧ grammar.Fails member left) := by
  induction rules with
  | nil =>
    intro before chars trail
    exact .matched [] chars (.nil chars) rfl rfl (by simp)
  | cons first rest ih =>
    intro before chars trail
    obtain ⟨hfirst, hrest⟩ := List.forall_mem_cons.mp h
    have houtcome := hfirst before chars trail
    simp only [List.map_cons, sequence]
    generalize meaning first (between before chars) trail = outcome at houtcome ⊢
    cases houtcome with
    | @matched _ _ trail part middle hpart hchars hvalue hnext =>
      subst hnext
      have houtcome := ih hrest (before ++ part.chars) middle trail
      simp only
      generalize sequence (rest.map meaning) (between (before ++ part.chars) middle) trail
        = outcome at houtcome ⊢
      cases houtcome with
      | matched parts left hparts hmiddle hvalues hlast =>
        exact Outcome.explained_cons (.cons hpart hparts) hchars hvalue hmiddle hvalues hlast
      | failed hfails =>
        -- The first member matched, so it is one of the earlier ones.
        obtain ⟨earlier, member, later, parts, left, rfl, hearlier, hmember⟩ := hfails
        exact .failed ⟨first :: earlier, member, later, part :: parts, left, rfl,
          .cons hpart hearlier, hmember⟩
      | aborted hcause => exact .aborted hcause
    | failed hfails => exact .failed ⟨[], first, rest, [], chars, rfl, .nil chars, hfails⟩
    | aborted hcause => exact .aborted hcause

/-- A choice after failed members matches as the first member that does not fail. -/
theorem choiceAfter_means {rules : List (Rule κ)}
    (h : ∀ rule ∈ rules, (meaning rule).Means (grammar.Matches rule) (grammar.Fails rule))
    (failure : Failure) :
    (choiceAfter failure (rules.map meaning)).MeansAll (fun chars parts left =>
      ∃ earlier member later part, rules = earlier ++ member :: later ∧ parts = [part] ∧
        (∀ other ∈ earlier, grammar.Fails other chars) ∧ grammar.Matches member chars part left)
      (fun chars => ∀ member ∈ rules, grammar.Fails member chars) := by
  induction rules generalizing failure with
  | nil =>
    intro before chars trail
    exact .failed (by simp)
  | cons first rest ih =>
    intro before chars trail
    obtain ⟨hfirst, hrest⟩ := List.forall_mem_cons.mp h
    have houtcome := hfirst before chars trail
    simp only [List.map_cons, choiceAfter]
    generalize meaning first (between before chars) trail = outcome at houtcome ⊢
    cases houtcome with
    | matched part left hpart hchars hvalue hnext =>
      exact Outcome.explained_singleton ⟨[], first, rest, part, rfl, rfl, by simp, hpart⟩ hchars
        hvalue hnext
    | @failed other trail hfails =>
      -- One more member has failed before the one that matches.
      apply (ih hrest (failure.deeper other) before chars trail).imp
      · intro parts left hparts
        obtain ⟨earlier, member, later, part, rfl, rfl, hearlier, hmember⟩ := hparts
        exact ⟨first :: earlier, member, later, part, rfl, rfl,
          List.forall_mem_cons.mpr ⟨hfails, hearlier⟩, hmember⟩
      · intro hothers
        exact List.forall_mem_cons.mpr ⟨hfails, hothers⟩
    | aborted hcause => exact .aborted hcause

/-- A choice matches as the first member that does not fail. -/
theorem choice_means {first : Rule κ} {rest : List (Rule κ)}
    (h : ∀ rule ∈ first :: rest, (meaning rule).Means (grammar.Matches rule) (grammar.Fails rule)) :
    (choice (meaning first) (rest.map meaning)).MeansAll (fun chars parts left =>
      ∃ earlier member later part, first :: rest = earlier ++ member :: later ∧ parts = [part] ∧
        (∀ other ∈ earlier, grammar.Fails other chars) ∧ grammar.Matches member chars part left)
      (fun chars => ∀ member ∈ first :: rest, grammar.Fails member chars) := by
  intro before chars trail
  obtain ⟨hfirst, hrest⟩ := List.forall_mem_cons.mp h
  have houtcome := hfirst before chars trail
  simp only [choice]
  generalize meaning first (between before chars) trail = outcome at houtcome ⊢
  cases houtcome with
  | matched part left hpart hchars hvalue hnext =>
    exact Outcome.explained_singleton ⟨[], first, rest, part, rfl, rfl, by simp, hpart⟩ hchars
      hvalue hnext
  | @failed failure trail hfails =>
    apply (choiceAfter_means hrest failure before chars trail).imp
    · intro parts left hparts
      obtain ⟨earlier, member, later, part, rfl, rfl, hearlier, hmember⟩ := hparts
      exact ⟨first :: earlier, member, later, part, rfl, rfl,
        List.forall_mem_cons.mpr ⟨hfails, hearlier⟩, hmember⟩
    · intro hothers
      exact List.forall_mem_cons.mpr ⟨hfails, hothers⟩
  | aborted hcause => exact .aborted hcause

/-- The rounds of a repetition that are still to come. -/
theorem repeatFrom_means {element : Rule κ} {m : Matcher τ Node}
    (h : m.Means (grammar.Matches element) (grammar.Fails element)) (bounds : Bounds)
    {count : Nat} (hcount : ∀ max ∈ bounds.max, count ≤ max) :
    (repeatFrom bounds m count).MeansAll (grammar.Repeats bounds element count)
      (fun chars => ∃ parts left, grammar.RepeatsTooFew bounds element count chars parts left) := by
  intro before chars
  -- A round that is followed by another one leaves less of the text.
  induction hwidth : width chars using Nat.strongRecOn generalizing before chars count with
  | ind remaining ih =>
    intro trail
    rw [repeatFrom]
    by_cases hmore : bounds.allowsMore count
    · -- There is room for the round that is tried now.
      have hroom : ∀ max ∈ bounds.max, count + 1 ≤ max := Bounds.allowsMore_iff.mp hmore
      have houtcome := h before chars trail
      simp only [hmore, if_true]
      generalize m (between before chars) trail = outcome at houtcome ⊢
      cases houtcome with
      | @matched _ _ trail part middle hpart hchars hvalue hnext =>
        subst hnext
        simp only [Cursor.remaining_between]
        by_cases hprogress : width middle < width chars
        · have hadvance : part.chars ≠ [] := by
            intro hempty
            simp [hchars, hempty] at hprogress
          have houtcome := ih (width middle) (hwidth ▸ hprogress) hroom
            (before ++ part.chars) middle rfl trail
          simp only [hprogress, if_true]
          generalize repeatFrom bounds m (count + 1) (between (before ++ part.chars) middle) trail
            = outcome at houtcome ⊢
          cases houtcome with
          | matched parts left hparts hmiddle hvalues hlast =>
            exact Outcome.explained_cons (.cons hpart hadvance hparts) hchars hvalue hmiddle
              hvalues hlast
          | failed hfails =>
            obtain ⟨parts, left, hfew⟩ := hfails
            exact .failed ⟨part :: parts, left, .cons hpart hadvance hfew⟩
          | aborted hcause => exact .aborted hcause
        · -- A round without progress has matched no code points.
          have hempty : part.chars = [] := by
            rw [← Text.width_eq_zero_iff]
            rw [hchars, Text.width_append] at hprogress
            omega
          simp only [hprogress, if_false]
          exact Outcome.explained_singleton (.stalled hroom hpart hempty) hchars hvalue rfl
      | failed hfails =>
        by_cases hfew : count < bounds.min
        · simp only [hfew, if_true]
          exact .failed ⟨[], chars, .ended hfew hfails⟩
        · simp only [hfew, if_false]
          exact .matched [] chars (.ended (Nat.not_lt.mp hfew) hcount hfails) rfl rfl (by simp)
      | aborted hcause => exact .aborted hcause
    · -- There were at most as many rounds as are allowed, and now there are as many.
      have hfull := Bounds.max_eq_of_not_allowsMore hcount hmore
      simp only [hmore, if_false, Bool.false_eq_true]
      exact .matched [] chars (.full hfull) rfl rfl (by simp)

/-- A repetition matches as one that has not begun. -/
theorem repetition_means {element : Rule κ} {m : Matcher τ Node}
    (h : m.Means (grammar.Matches element) (grammar.Fails element)) (bounds : Bounds) :
    (repetition bounds m).MeansAll (grammar.Repeats bounds element 0)
      (fun chars => ∃ parts left, grammar.RepeatsTooFew bounds element 0 chars parts left) :=
  repeatFrom_means h bounds (fun max _ => Nat.zero_le max)

/-- Equivalent descriptions say the same of a matcher. -/
theorem Means.congr {m : Matcher τ Node} {M M' : List Char → Tree → List Char → Prop}
    {F F' : List Char → Prop} (h : m.Means M F) (hM : ∀ {chars tree left}, M chars tree left →
      M' chars tree left) (hF : ∀ {chars}, F chars → F' chars) : m.Means M' F' := by
  intro before chars trail
  exact (h before chars trail).imp (fun _ _ => hM) hF

end Rules

end Matcher

/-! ## §4 Rules -/

/-- **What an evaluation finds is derived**: with any number of unfoldings, the matches of a rule
    are derived matches put at their places, and its failures are derived failures. -/
theorem Grammar.matcher_means [Journal τ] (grammar : Grammar κ) (depth : Nat) (rule : Rule κ) :
    (rule.matcher (grammar.call depth) : Matcher τ Node).Means (grammar.Matches rule)
      (grammar.Fails rule) := by
  induction depth, rule using grammar.unfoldingInduction with
  | character depth name expected =>
    apply (Matcher.codePoint_means name _ _).congr
    · rintro chars tree left ⟨c, hc, rfl, rfl⟩
      obtain rfl : c = expected := by simpa using hc
      exact .character name c left
    · intro chars hnone
      cases chars with
      | nil => exact .character_end name expected
      | cons c rest => exact .character_mismatch name (by simpa using hnone) rest
  | range depth name low high =>
    apply (Matcher.codePoint_means name _ _).congr
    · rintro chars tree left ⟨c, hc, rfl, rfl⟩
      exact .range name (by simpa using hc) left
    · intro chars hnone
      cases chars with
      | nil => exact .range_end name low high
      | cons c rest => exact .range_mismatch name (by simpa using hnone) rest
  | endOfText depth name =>
    apply (Matcher.endOfText_means name).congr
    · rintro chars tree left ⟨rfl, rfl, rfl⟩
      exact .endOfText name
    · intro chars hne
      obtain ⟨c, rest, rfl⟩ := List.exists_cons_of_ne_nil hne
      exact .endOfText name c rest
  | concatenation depth name first rest ih =>
    rw [Rule.matcher_concatenation]
    apply (Matcher.node_means (Matcher.sequence_means ih) name).congr
    · rintro chars tree left ⟨parts, rfl, hparts⟩
      exact .concatenation hparts
    · rintro chars ⟨earlier, member, later, parts, left, hmembers, hparts, hmember⟩
      exact .concatenation hmembers hparts hmember
  | alternation depth name first rest ih =>
    rw [Rule.matcher_alternation]
    apply (Matcher.node_means (Matcher.choice_means ih) name).congr
    · rintro chars tree left ⟨parts, rfl, earlier, member, later, part, hmembers, rfl, hearlier,
        hmember⟩
      exact .alternation hmembers hearlier hmember
    · intro chars hmembers
      exact .alternation hmembers
  | repetition depth name bounds element ih =>
    rw [Rule.matcher_repetition]
    apply (Matcher.node_means (Matcher.repetition_means ih bounds) name).congr
    · intro chars tree left hparts
      exact Grammar.matches_repetition_iff.mpr hparts
    · intro chars hfew
      exact Grammar.fails_repetition_iff.mpr hfew
  -- An evaluation that is abandoned has nothing to explain, and the text could be read.
  | exhausted name key =>
    intro before chars trail
    rw [Grammar.matcher_exhausted]
    exact .aborted (by simp)
  | unbuildable depth name key fault hdefine =>
    intro before chars trail
    rw [Grammar.matcher_unbuildable grammar depth name hdefine]
    exact .aborted (by simp)
  | unfolded depth name key rule hdefine ih =>
    rw [Grammar.matcher_unfolded grammar depth name hdefine]
    exact ih.congr (.deferred hdefine) (.deferred hdefine)

end AugmentedBnf
