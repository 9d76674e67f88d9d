import AugmentedBnf.Proofs.Failure.Record
import AugmentedBnf.Proofs.Failure.Summary
import AugmentedBnf.Proofs.Matching.Continuation

/-!
# Groups of Members

The members of a concatenation or an alternation may be split into groups, each of which becomes a
rule of its own. A concatenation of groups does the same as the concatenation of all members, since
a sequence goes on from wherever the one before it got to (`sequence_append`).

An alternation of groups is less obvious. When a member in a later group matches, the failures of
its own group are recovered from first and those of the earlier groups afterwards, each as one; in
the flat alternation all of them are recovered from as one. The deepest failure is the same in
either grouping (`Failure.deeper_assoc`), but of equally deep ones that were recorded another may
remain. So the trail that a match leaves is the same up to ties (`Trail.Level`); nothing is
recorded where all members fail, and there the outcome is the same.

**Main statement**: `regrouping_keeps_outcome`.
-/

namespace AugmentedBnf

variable {κ τ α β : Type}

/-! ## §1 Groups -/

/-- One or more members under a name. -/
structure Group (α : Type) where
  name : String
  first : α
  rest : List α

namespace Group

/-- The members in order. -/
def members (group : Group α) : List α := group.first :: group.rest

/-- The group with another member for each. -/
def map (f : α → β) (group : Group α) : Group β := ⟨group.name, f group.first, group.rest.map f⟩

/-- The members of all groups in one. -/
def flatten (name : String) (groups : Group (Group α)) : Group α :=
  ⟨name, groups.first.first, groups.first.rest ++ groups.rest.flatMap members⟩

theorem members_map (f : α → β) (group : Group α) :
    (group.map f).members = group.members.map f := rfl

theorem map_map {γ : Type} (g : β → γ) (f : α → β) (group : Group α) :
    (group.map f).map g = group.map (g ∘ f) := by
  simp only [map, List.map_map, Function.comp_apply]

theorem members_flatten (name : String) (groups : Group (Group α)) :
    (groups.flatten name).members = groups.members.flatMap members := rfl

theorem map_flatten (f : α → β) (name : String) (groups : Group (Group α)) :
    (groups.flatten name).map f = (groups.map (map f)).flatten name := by
  simp only [flatten, map, List.map_append, List.map_flatMap, List.flatMap_map]
  rfl

/-- The group as a concatenation. -/
def concatenation (group : Group (Rule κ)) : Rule κ :=
  .concatenation group.name group.first group.rest

/-- The group as an alternation. -/
def alternation (group : Group (Rule κ)) : Rule κ :=
  .alternation group.name group.first group.rest

/-- The members of a group one after the other, under its name. -/
def sequence (group : Group (Matcher τ Node)) : Matcher τ Node :=
  .node group.name (.sequence group.members)

/-- The first member of a group that succeeds, under its name. -/
def choice (group : Group (Matcher τ Node)) : Matcher τ Node :=
  .node group.name (.choice group.first group.rest)

section Matchers

variable [Journal τ] (call : String → κ → Matcher τ Node)

theorem matcher_concatenation (group : Group (Rule κ)) :
    group.concatenation.matcher call = (group.map (Rule.matcher call)).sequence :=
  Rule.matcher_concatenation call group.name group.first group.rest

theorem matcher_alternation (group : Group (Rule κ)) :
    group.alternation.matcher call = (group.map (Rule.matcher call)).choice :=
  Rule.matcher_alternation call group.name group.first group.rest

theorem map_concatenation (groups : Group (Group (Rule κ))) :
    (groups.map concatenation).map (Rule.matcher call)
      = (groups.map (map (Rule.matcher call))).map sequence := by
  rw [map_map, map_map]
  exact congrArg groups.map (funext (matcher_concatenation call))

theorem map_alternation (groups : Group (Group (Rule κ))) :
    (groups.map alternation).map (Rule.matcher call)
      = (groups.map (map (Rule.matcher call))).map choice := by
  rw [map_map, map_map]
  exact congrArg groups.map (funext (matcher_alternation call))

end Matchers

end Group

/-- The node under another name and without its children, whose children take their place. -/
def Node.ungroup (name : String) (node : Node) : Node :=
  ⟨name, node.span, node.children.flatMap Node.children⟩

/-! ## §2 Sequences -/

namespace Matcher

variable (cursor : Cursor) (trail : Trail τ)

/-- A sequence goes on with further matchers where it got to. -/
theorem sequence_append (ms ms' : List (Matcher τ Node)) :
    sequence (ms ++ ms') cursor trail = (sequence ms cursor trail).andThen
      (fun nodes next trail => (sequence ms' next trail).map (nodes ++ ·)) .failed := by
  induction ms generalizing cursor trail with
  | nil =>
    show sequence ms' cursor trail = (sequence ms' cursor trail).map id
    cases sequence ms' cursor trail <;> rfl
  | cons m ms ih =>
    simp only [List.cons_append, sequence_andThen]
    cases m cursor trail with
    | matched node next after =>
      simp only [Outcome.andThen_matched, ih]
      cases sequence ms next after with
      | matched nodes middle between =>
        simp only [Outcome.andThen_matched]
        cases sequence ms' middle between <;> rfl
      | failed failure between => rfl
      | aborted cause between => rfl
    | failed failure after => rfl
    | aborted cause after => rfl

/-- Sequences of groups are the sequence of all members. -/
theorem sequence_groups (groups : List (Group (Matcher τ Node))) :
    (sequence (groups.map Group.sequence) cursor trail).map (·.flatMap Node.children)
      = sequence (groups.flatMap Group.members) cursor trail := by
  induction groups generalizing cursor trail with
  | nil => rfl
  | cons group groups ih =>
    simp only [List.map_cons, List.flatMap_cons, sequence_andThen, sequence_append, Group.sequence,
      node_andThen]
    cases sequence group.members cursor trail with
    | matched nodes next after =>
      simp only [Outcome.andThen_matched]
      rw [← ih]
      cases sequence (groups.map Group.sequence) next after <;> rfl
    | failed failure after => rfl
    | aborted cause after => rfl

end Matcher

/-! ## §3 Trails up to ties -/

/-- The trails differ in nothing but which failure they keep of those at one offset. -/
structure Trail.Level (trail trail' : Trail τ) : Prop where
  position : trail.deepest.failure.map Failure.position
    = trail'.deepest.failure.map Failure.position
  journal : trail.journal = trail'.journal

theorem Trail.Level.refl (trail : Trail τ) : trail.Level trail := ⟨rfl, rfl⟩

/-- Two failures may be recovered from as one, or the second of them before the first. -/
theorem Trail.level_recover (trail : Trail τ) (first second : Failure) :
    ((trail.recover second).recover first).Level (trail.recover (first.deeper second)) where
  position := by
    simp only [recover]
    rcases trail.deepest with ⟨_ | recorded⟩
    · simp only [Deepest.record, Option.map_some, Failure.position_deeper, Nat.max_comm]
    · simp only [Deepest.record, Option.map_some, Failure.position_deeper, Nat.max_assoc,
        Nat.max_comm]
  journal := rfl

namespace Outcome

/-- The outcomes are the same; if they are matches, the trails are the same up to ties. -/
inductive Level : Outcome τ α → Outcome τ α → Prop where
  | matched {value : α} {next : Cursor} {trail trail' : Trail τ} (htrail : trail.Level trail') :
      Level (.matched value next trail) (.matched value next trail')
  | failed {failure : Failure} {trail : Trail τ} :
      Level (.failed failure trail) (.failed failure trail)
  | aborted {cause : Abort} {trail : Trail τ} :
      Level (.aborted cause trail) (.aborted cause trail)

theorem Level.refl (outcome : Outcome τ α) : outcome.Level outcome := by
  cases outcome with
  | matched value next trail => exact .matched (.refl trail)
  | failed failure trail => exact .failed
  | aborted cause trail => exact .aborted

/-- What a choice comes to by itself, and what it comes to after others failed with `failure` at the
    deepest: a match recovers from that failure as well, and a failure gives way to a deeper one. -/
inductive Preceded (failure : Failure) : Outcome τ α → Outcome τ α → Prop where
  | matched {value : α} {next : Cursor} {trail trail' : Trail τ}
      (htrail : (trail.recover failure).Level trail') :
      Preceded failure (.matched value next trail) (.matched value next trail')
  | failed {other : Failure} {trail : Trail τ} :
      Preceded failure (.failed other trail) (.failed (failure.deeper other) trail)
  | aborted {cause : Abort} {trail : Trail τ} :
      Preceded failure (.aborted cause trail) (.aborted cause trail)

end Outcome

/-! ## §4 Choices -/

namespace Matcher

variable (cursor : Cursor) (trail : Trail τ)

/-- A choice of which all members fail goes on with further members. -/
theorem choiceAfter_append (failure : Failure) (ms ms' : List (Matcher τ Node)) :
    choiceAfter failure (ms ++ ms') cursor trail
      = (choiceAfter failure ms cursor trail).andThen .matched
        (fun failure => choiceAfter failure ms' cursor) := by
  induction ms generalizing failure trail with
  | nil => rfl
  | cons m ms ih =>
    simp only [List.cons_append, choiceAfter_andThen]
    cases m cursor trail with
    | matched node next after => rfl
    | failed other after => exact ih after (failure.deeper other)
    | aborted cause after => rfl

theorem choice_append (first : Matcher τ Node) (rest ms : List (Matcher τ Node)) :
    choice first (rest ++ ms) cursor trail = (choice first rest cursor trail).andThen .matched
      (fun failure => choiceAfter failure ms cursor) := by
  simp only [choice_andThen]
  cases first cursor trail with
  | matched node next after => rfl
  | failed failure after => exact choiceAfter_append cursor after failure rest ms
  | aborted cause after => rfl

/-- A choice goes on alike from the deepest failure of its own members and from that of earlier
    ones as well. -/
theorem choiceAfter_preceded (failure other : Failure) (ms : List (Matcher τ Node)) :
    (choiceAfter other ms cursor trail).Preceded failure
      (choiceAfter (failure.deeper other) ms cursor trail) := by
  induction ms generalizing other trail with
  | nil => exact .failed
  | cons m ms ih =>
    simp only [choiceAfter_andThen]
    cases m cursor trail with
    | matched node next after => exact .matched (after.level_recover failure other)
    | failed last after =>
      simp only [Outcome.andThen_failed, Failure.deeper_assoc]
      exact ih after (other.deeper last)
    | aborted cause after => exact .aborted

theorem choice_preceded (failure : Failure) (first : Matcher τ Node)
    (rest : List (Matcher τ Node)) :
    (choice first rest cursor trail).Preceded failure
      (choiceAfter failure (first :: rest) cursor trail) := by
  simp only [choice_andThen, choiceAfter_andThen]
  cases first cursor trail with
  | matched node next after => exact .matched (.refl _)
  | failed other after => exact choiceAfter_preceded cursor after failure other rest
  | aborted cause after => exact .aborted

/-- Choices of groups are the choice of all members, up to ties. -/
theorem choiceAfter_groups (failure : Failure) (groups : List (Group (Matcher τ Node))) :
    ((choiceAfter failure (groups.map Group.choice) cursor trail).map
        (·.flatMap Node.children)).Level
      (choiceAfter failure (groups.flatMap Group.members) cursor trail) := by
  induction groups generalizing failure trail with
  | nil => exact .failed
  | cons group groups ih =>
    -- The flat choice has gone through the group's members with the earlier failures in mind.
    have hgroup := choice_preceded cursor trail failure group.first group.rest
    rw [List.flatMap_cons, choiceAfter_append, Group.members]
    rw [List.map_cons, choiceAfter_andThen group.choice]
    simp only [Group.choice, node_andThen]
    generalize choice group.first group.rest cursor trail = outcome at hgroup ⊢
    generalize choiceAfter failure (group.first :: group.rest) cursor trail = outcome' at hgroup ⊢
    cases hgroup with
    | matched htrail =>
      -- The match ends both choices, so nothing depends on which failure was recorded.
      simp only [Outcome.andThen_matched, Outcome.map_matched, List.flatMap_cons, List.flatMap_nil,
        List.append_nil]
      exact .matched htrail
    | failed => exact ih _ _
    | aborted => exact .aborted

theorem choice_groups (first : Group (Matcher τ Node)) (rest : List (Group (Matcher τ Node))) :
    ((choice first.choice (rest.map Group.choice) cursor trail).map
        (·.flatMap Node.children)).Level
      (choice first.first (first.rest ++ rest.flatMap Group.members) cursor trail) := by
  rw [choice_append, choice_andThen first.choice]
  simp only [Group.choice, node_andThen]
  -- Before the first group nothing has failed, so up to its end both choices do the same.
  cases choice first.first first.rest cursor trail with
  | matched nodes next after =>
    simp only [Outcome.andThen_matched, Outcome.map_matched, List.flatMap_cons, List.flatMap_nil,
      List.append_nil]
    exact .refl _
  | failed failure after => exact choiceAfter_groups cursor after failure rest
  | aborted cause after => exact .aborted

/-! ## §5 Nodes of groups -/

theorem node_ungroup (outer name : String) (children : Matcher τ (List Node)) :
    (node outer children cursor trail).map (Node.ungroup name)
      = node name (fun cursor trail => (children cursor trail).map (·.flatMap Node.children)) cursor
        trail := by
  simp only [node]
  cases children cursor trail <;> rfl

theorem node_level (name : String) {children children' : Matcher τ (List Node)}
    (h : (children cursor trail).Level (children' cursor trail)) :
    (node name children cursor trail).Level (node name children' cursor trail) := by
  simp only [node]
  generalize children cursor trail = outcome, children' cursor trail = outcome' at h ⊢
  cases h with
  | matched htrail => exact .matched htrail
  | failed => exact .failed
  | aborted => exact .aborted

theorem sequence_ungroup (name : String) (groups : Group (Group (Matcher τ Node))) :
    ((groups.map Group.sequence).sequence cursor trail).map (Node.ungroup name)
      = (groups.flatten name).sequence cursor trail := by
  have hchildren : (fun cursor trail => (sequence (groups.map Group.sequence).members cursor
      trail).map (·.flatMap Node.children)) = sequence (groups.flatten name).members := by
    funext cursor trail
    rw [Group.members_map, Group.members_flatten]
    exact sequence_groups cursor trail groups.members
  rw [Group.sequence, node_ungroup, hchildren]
  rfl

theorem choice_ungroup (name : String) (groups : Group (Group (Matcher τ Node))) :
    (((groups.map Group.choice).choice cursor trail).map (Node.ungroup name)).Level
      ((groups.flatten name).choice cursor trail) := by
  rw [Group.choice, node_ungroup]
  exact node_level cursor trail name (choice_groups cursor trail groups.first groups.rest)

end Matcher

/-! ## §6 Rules -/

/-- **Regrouping is harmless.** However the members are split into groups, the concatenation of the
    groups' concatenations has the outcome of the flat one: the same failure, or the same cursor
    and, with the groups' children in order, the same node; and it leaves the same trail. The
    alternation of the groups' alternations has the outcome of the flat one, with the same member
    for its child, and the same failure if all members fail; only if a member matches, another one
    of several failures at one offset may be recorded. -/
theorem Grammar.regrouping_keeps_outcome [Journal τ] (grammar : Grammar κ)
    (groups : Group (Group (Rule κ))) (name : String) (cursor : Cursor) (trail : Trail τ) :
    (grammar.matcher (groups.map Group.concatenation).concatenation cursor trail).map
        (Node.ungroup name)
        = grammar.matcher (groups.flatten name).concatenation cursor trail ∧
      ((grammar.matcher (groups.map Group.alternation).alternation cursor trail).map
        (Node.ungroup name)).Level
        (grammar.matcher (groups.flatten name).alternation cursor trail) := by
  unfold matcher
  simp only [Group.matcher_concatenation, Group.matcher_alternation, Group.map_concatenation,
    Group.map_alternation, Group.map_flatten]
  exact ⟨Matcher.sequence_ungroup cursor trail name _, Matcher.choice_ungroup cursor trail name _⟩

end AugmentedBnf
