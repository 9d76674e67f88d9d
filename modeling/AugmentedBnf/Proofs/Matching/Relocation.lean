import AugmentedBnf.Proofs.Grammar.Reach
import AugmentedBnf.Proofs.Matching.Escape

/-!
# Evaluations in Another Place

Two texts may have code points in common that stand in different places, with other code points in
front of them and behind. Evaluations of one rule that begin in the common part go on in lock-step
for as long as none of them gets beyond it: they match the same, recover from the same failures and
fail with the same one, up to the text and to the offset at which the common part stands.

What the code points behind the common part are makes a difference only to an evaluation that gets
there, and that one has escaped in the sense of `Outcome.Escapes`. A rule that asks for the end of
the text also sees whether there are any (`Overlap.Tolerates`).

**Main statement**: `Grammar.matcher_mirrors`.
-/

namespace AugmentedBnf

variable {κ τ ι α β : Type}

open Text (width)
open Cursor (between)

/-! ## §1 Relocated results -/

/-- Where things of another text are: `text` is that text, and the place of an offset is `shift`
    bytes further on. -/
structure Relocation where
  text : String
  shift : Nat

/-- The same location in the other text. -/
def Location.moved (target : Relocation) (location : Location) : Location :=
  ⟨target.text, target.shift + location.offset⟩

/-- The same failure in the other text. -/
def Failure.moved (target : Relocation) : Failure → Failure
  | .unexpectedEnd location => .unexpectedEnd (location.moved target)
  | .mismatch rule expected found location => .mismatch rule expected found (location.moved target)
  | .unconsumed location => .unconsumed (location.moved target)

/-- The same record in the other text. -/
def Deepest.moved (target : Relocation) (deepest : Deepest) : Deepest :=
  ⟨deepest.failure.map (Failure.moved target)⟩

/-- The same span in the other text. -/
def Span.moved (target : Relocation) (span : Span) : Span :=
  ⟨target.text, target.shift + span.start, target.shift + span.stop⟩

namespace Node

mutual

/-- The same tree in the other text. -/
def moved (target : Relocation) : Node → Node
  | ⟨name, span, children⟩ => ⟨name, span.moved target, movedAll target children⟩

/-- The same trees in the other text. -/
def movedAll (target : Relocation) : List Node → List Node
  | [] => []
  | node :: rest => moved target node :: movedAll target rest

end

end Node

section Moved

variable (target : Relocation)

@[simp] theorem Failure.position_moved (failure : Failure) :
    (failure.moved target).position = target.shift + failure.position := by
  cases failure <;> rfl

/-- Which failure is the deeper one does not depend on the place. -/
@[simp] theorem Failure.deeper_moved (first second : Failure) :
    (first.moved target).deeper (second.moved target) = (first.deeper second).moved target := by
  unfold Failure.deeper
  simp only [Failure.position_moved, Nat.add_lt_add_iff_left]
  split <;> rfl

@[simp] theorem Deepest.record_moved (deepest : Deepest) (failure : Failure) :
    (deepest.moved target).record (failure.moved target)
      = (deepest.record failure).moved target := by
  rcases deepest with ⟨_ | recorded⟩
  · rfl
  · simp [Deepest.moved, Deepest.record]

@[simp] theorem Deepest.merge_moved (deepest : Deepest) (failure : Failure) :
    (deepest.moved target).merge (failure.moved target) = (deepest.merge failure).moved target := by
  rcases deepest with ⟨_ | recorded⟩
  · rfl
  · simp [Deepest.moved, Deepest.merge]

end Moved

/-! ## §2 Texts that overlap -/

/-- Two texts that have the code points `shared` in common. The first begins with them and goes on
    with `tail`; in the second `front` stands before them and `tail'` behind. -/
structure Overlap where
  front : List Char
  shared : List Char
  tail : List Char
  tail' : List Char

namespace Overlap

variable (overlap : Overlap)

/-- Where in the second text the things of the first are. -/
def relocation : Relocation :=
  ⟨.ofList (overlap.front ++ (overlap.shared ++ overlap.tail')), width overlap.front⟩

/-- The end of the common part, in the first text. -/
def limit : Nat := width overlap.shared

/-- A cursor in the common part, in the first text. -/
def here (before ahead : List Char) : Cursor := between before (ahead ++ overlap.tail)

/-- The same cursor in the second text. -/
def there (before ahead : List Char) : Cursor :=
  between (overlap.front ++ before) (ahead ++ overlap.tail')

/-- Behind the common part at least one of the texts goes on. -/
def Cut : Prop := overlap.tail ≠ [] ∨ overlap.tail' ≠ []

/-- If the first text ends with the common part then so does the second one, or else the rule does
    not ask. -/
def Tolerates (grammar : Grammar κ) (rule : Rule κ) : Prop :=
  (overlap.tail = [] → overlap.tail' = []) ∨ ∀ name, ¬ grammar.Contains rule (.endOfText name)

variable {overlap}

/-- What a rule leads to asks for no more than the rule does. -/
theorem Tolerates.part {grammar : Grammar κ} {rule member : Rule κ}
    (h : overlap.Tolerates grammar rule)
    (hmember : ∀ {part}, grammar.Contains member part → grammar.Contains rule part) :
    overlap.Tolerates grammar member :=
  h.imp_right fun hnone name hpart => hnone name (hmember hpart)

section Standing

variable {before ahead : List Char} (h : before ++ ahead = overlap.shared)

include h

theorem location_there : (overlap.there before ahead).location
    = (overlap.here before ahead).location.moved overlap.relocation := by
  simp [here, there, Location.moved, relocation, ← h]

/-- A span between two cursors is relocated as they are. -/
theorem spanTo_there {before' ahead' : List Char} :
    (overlap.there before ahead).spanTo (overlap.there before' ahead')
      = ((overlap.here before ahead).spanTo (overlap.here before' ahead')).moved
        overlap.relocation := by
  simp [Cursor.spanTo, here, there, Span.moved, relocation, ← h]

end Standing

/-! ### Reading and moving in the common part -/

section Reading

variable (before : List Char) (c : Char) (rest : List Char)

@[simp] theorem value_here : (overlap.here before (c :: rest)).value = .ok c := by
  simp [here]

@[simp] theorem value_there : (overlap.there before (c :: rest)).value = .ok c := by
  simp [there]

@[simp] theorem skip_here :
    (overlap.here before (c :: rest)).skip c.utf8Size = overlap.here (before ++ [c]) rest := by
  simp [here]

@[simp] theorem skip_there :
    (overlap.there before (c :: rest)).skip c.utf8Size = overlap.there (before ++ [c]) rest := by
  simp [there]

/-- A text ends with the common part if nothing comes behind. -/
theorem atEnd_here (ahead : List Char) :
    (overlap.here before ahead).atEnd = (ahead ++ overlap.tail).isEmpty := by
  simp [here]

theorem atEnd_there (ahead : List Char) :
    (overlap.there before ahead).atEnd = (ahead ++ overlap.tail').isEmpty := by
  simp [there]

end Reading

end Overlap

/-- At the end of a text there is nothing to read. -/
theorem Cursor.value_of_atEnd {cursor : Cursor} (h : cursor.atEnd = true) :
    cursor.value = .error (.failure (.unexpectedEnd cursor.location)) := by
  cases cursor with
  | within text offset => cases h
  | ended text => rfl

/-! ## §3 Mirrored outcomes -/

/-- The two evaluations agree: both match the same, up to the same place in the common part, or
    both fail with the same failure, and they have recorded the same. Otherwise the first one has
    got beyond the common part, where the texts may differ. -/
inductive Outcome.Mirrors (overlap : Overlap) (move : α → α) :
    Outcome τ α → Outcome ι α → Prop where
  | matched {value : α} {before ahead : List Char} {trail : Trail τ} {trail' : Trail ι}
      (hshared : before ++ ahead = overlap.shared)
      (htrail : trail'.deepest = trail.deepest.moved overlap.relocation) :
      Mirrors overlap move (.matched value (overlap.here before ahead) trail)
        (.matched (move value) (overlap.there before ahead) trail')
  | failed {failure : Failure} {trail : Trail τ} {trail' : Trail ι}
      (htrail : trail'.deepest = trail.deepest.moved overlap.relocation) :
      Mirrors overlap move (.failed failure trail)
        (.failed (failure.moved overlap.relocation) trail')
  | aborted {cause : Abort} {trail : Trail τ} {trail' : Trail ι} :
      Mirrors overlap move (.aborted cause trail) (.aborted cause trail')
  | escaped {outcome : Outcome τ α} {outcome' : Outcome ι α} (hcut : overlap.Cut)
      (hescapes : outcome.Escapes overlap.limit) : Mirrors overlap move outcome outcome'

/-- Outcomes that go on in ways that agree still agree, if the first evaluation does not come back
    once it has got beyond the common part. -/
theorem Outcome.Mirrors.andThen {overlap : Overlap} {move : α → α} {move' : β → β}
    {outcome : Outcome τ α} {outcome' : Outcome ι α}
    {onMatch : α → Cursor → Trail τ → Outcome τ β} {onFail : Failure → Trail τ → Outcome τ β}
    {onMatch' : α → Cursor → Trail ι → Outcome ι β} {onFail' : Failure → Trail ι → Outcome ι β}
    (h : outcome.Mirrors overlap move outcome')
    (hmatch : ∀ value before ahead trail trail', before ++ ahead = overlap.shared →
      trail'.deepest = trail.deepest.moved overlap.relocation →
      (onMatch value (overlap.here before ahead) trail).Mirrors overlap move'
        (onMatch' (move value) (overlap.there before ahead) trail'))
    (hfail : ∀ failure trail trail', trail'.deepest = trail.deepest.moved overlap.relocation →
      (onFail failure trail).Mirrors overlap move'
        (onFail' (failure.moved overlap.relocation) trail'))
    (hescapes : outcome.Escapes overlap.limit →
      (outcome.andThen onMatch onFail).Escapes overlap.limit) :
    (outcome.andThen onMatch onFail).Mirrors overlap move' (outcome'.andThen onMatch' onFail') := by
  cases h with
  | matched hshared htrail => exact hmatch _ _ _ _ _ hshared htrail
  | failed htrail => exact hfail _ _ _ htrail
  | aborted => exact .aborted
  | escaped hcut houtcome => exact .escaped hcut (hescapes houtcome)

/-- From the same place in the common part and with the same recorded, the matchers agree. -/
def Matcher.Mirrors (overlap : Overlap) (move : α → α) (m : Matcher τ α) (m' : Matcher ι α) :
    Prop :=
  ∀ before ahead trail trail', before ++ ahead = overlap.shared →
    trail'.deepest = trail.deepest.moved overlap.relocation →
    (m (overlap.here before ahead) trail).Mirrors overlap move
      (m' (overlap.there before ahead) trail')

/-! ## §4 Operations on matchers -/

namespace Matcher

section Primitive

variable [Journal τ] [Journal ι] {overlap : Overlap}

/-- A failure is missed at the same place. -/
theorem mirrors_missed (failure : Failure) {trail : Trail τ} {trail' : Trail ι} {move : α → α}
    (htrail : trail'.deepest = trail.deepest.moved overlap.relocation) :
    (Outcome.failed failure (trail.miss failure) : Outcome τ α).Mirrors overlap move
      (Outcome.failed (failure.moved overlap.relocation)
        (trail'.miss (failure.moved overlap.relocation)) : Outcome ι α) :=
  .failed htrail

/-- Where the common part ends and a text goes on, whatever a code point is asked for has escaped:
    it is passed, or the failure is there. -/
theorem codePoint_escapes_of_limit (name expected : String) (accepts : Char → Bool)
    {before after : List Char} (trail : Trail τ) :
    ((codePoint name expected accepts : Matcher τ Node) (between before after) trail).Escapes
      (width before) := by
  cases after with
  | nil =>
    simp only [codePoint, Cursor.value_between_nil]
    exact .inl (Nat.le_refl _)
  | cons c rest =>
    have hc := c.utf8Size_pos
    simp only [codePoint, Cursor.value_between_cons, Cursor.skip_between]
    cases accepts c with
    | true =>
      left
      simpa using hc
    | false =>
      left
      simp [Failure.position, Failure.location]

theorem codePoint_mirrors (name expected : String) (accepts : Char → Bool) :
    (codePoint name expected accepts : Matcher τ Node).Mirrors overlap
      (Node.moved overlap.relocation) (codePoint name expected accepts : Matcher ι Node) := by
  intro before ahead trail trail' hshared htrail
  cases ahead with
  | nil =>
    by_cases hcut : overlap.Cut
    · refine .escaped hcut ?_
      rw [Overlap.limit, ← hshared, List.append_nil]
      exact codePoint_escapes_of_limit name expected accepts trail
    · -- Neither text goes on, and both evaluations miss a code point.
      obtain ⟨htail, htail'⟩ : overlap.tail = [] ∧ overlap.tail' = [] := by
        simpa [Overlap.Cut] using hcut
      have hhere : (overlap.here before []).atEnd := by
        simp [Overlap.atEnd_here, htail]
      have hthere : (overlap.there before []).atEnd := by
        simp [Overlap.atEnd_there, htail']
      simp only [codePoint, Cursor.value_of_atEnd hhere, Cursor.value_of_atEnd hthere,
        Overlap.location_there hshared]
      exact mirrors_missed (.unexpectedEnd _) htrail
  | cons c rest =>
    simp only [codePoint, Overlap.value_here, Overlap.value_there]
    cases accepts c with
    | true =>
      have hshared' : (before ++ [c]) ++ rest = overlap.shared := by
        rw [← hshared, List.append_assoc, List.singleton_append]
      simp only [if_true, Overlap.skip_here, Overlap.skip_there, Overlap.spanTo_there hshared]
      exact .matched hshared' htrail
    | false =>
      simp only [Bool.false_eq_true, if_false, Overlap.location_there hshared]
      exact mirrors_missed (.mismatch _ _ _ _) htrail

theorem endOfText_mirrors (name : String) (hend : overlap.tail = [] → overlap.tail' = []) :
    (endOfText name : Matcher τ Node).Mirrors overlap (Node.moved overlap.relocation)
      (endOfText name : Matcher ι Node) := by
  intro before ahead trail trail' hshared htrail
  simp only [endOfText, Overlap.spanTo_there hshared, Overlap.location_there hshared]
  by_cases hhere : (overlap.here before ahead).atEnd
  · -- The first text ends here, and so does the second one.
    have hboth : ahead = [] ∧ overlap.tail = [] := by
      simpa [Overlap.atEnd_here] using hhere
    have hthere : (overlap.there before ahead).atEnd := by
      simp [Overlap.atEnd_there, hboth.1, hend hboth.2]
    simp only [hhere, hthere, if_true]
    exact .matched hshared htrail
  · simp only [hhere, if_false, Bool.false_eq_true]
    by_cases hthere : (overlap.there before ahead).atEnd
    · -- Only the second text ends, so the first evaluation fails at the end of the common part.
      have hboth : ahead = [] ∧ overlap.tail' = [] := by
        simpa [Overlap.atEnd_there] using hthere
      have hcut : overlap.Cut := by
        left
        intro htail
        simp [Overlap.atEnd_here, hboth.1, htail] at hhere
      refine .escaped hcut (.inl ?_)
      simp [Overlap.limit, Overlap.here, Failure.position, Failure.location, ← hshared, hboth.1]
    · simp only [hthere, if_false, Bool.false_eq_true]
      exact mirrors_missed (.unconsumed _) htrail

end Primitive

section Composite

variable {overlap : Overlap}

theorem node_mirrors {m : Matcher τ (List Node)} {m' : Matcher ι (List Node)}
    (h : m.Mirrors overlap (Node.movedAll overlap.relocation) m') (name : String) :
    (node name m).Mirrors overlap (Node.moved overlap.relocation) (node name m') := by
  intro before ahead trail trail' hshared htrail
  rw [node_andThen, node_andThen]
  refine (h before ahead trail trail' hshared htrail).andThen ?_ (fun _ _ _ => .failed) ?_
  · intro nodes _ _ _ _ hlast htrail
    rw [Overlap.spanTo_there hshared]
    exact .matched hlast htrail
  · intro hescapes
    simpa only [node_andThen] using node_escapes_of hescapes name

theorem sequence_mirrors {ms : List (Matcher τ Node)} {ms' : List (Matcher ι Node)}
    (h : List.Forall₂ (Mirrors overlap (Node.moved overlap.relocation)) ms ms')
    (hescapes : ∀ m ∈ ms, m.Escapes overlap.limit) :
    (sequence ms).Mirrors overlap (Node.movedAll overlap.relocation) (sequence ms') := by
  induction h with
  | nil =>
    intro before ahead trail trail' hshared htrail
    exact .matched hshared htrail
  | @cons m m' ms ms' hfirst _ ih =>
    intro before ahead trail trail' hshared htrail
    obtain ⟨_, hrest⟩ := List.forall_mem_cons.mp hescapes
    rw [sequence_andThen, sequence_andThen]
    refine (hfirst before ahead trail trail' hshared htrail).andThen ?_ (fun _ _ _ => .failed) ?_
    · -- Both go on behind the first match, at the same place in the common part.
      intro child middle left trail trail' hmiddle htrail
      exact (ih hrest middle left trail trail' hmiddle htrail).andThen
        (fun _ _ _ _ _ => .matched) (fun _ _ _ => .failed)
        (fun hlater => hlater.andThen (fun _ _ _ hlast => hlast) (fun _ _ hfailed => hfailed))
    · intro hfirst
      simpa only [sequence_andThen] using sequence_escapes_of hfirst (sequence_escapes hrest)

theorem choiceAfter_mirrors {ms : List (Matcher τ Node)} {ms' : List (Matcher ι Node)}
    (h : List.Forall₂ (Mirrors overlap (Node.moved overlap.relocation)) ms ms')
    (hescapes : ∀ m ∈ ms, m.Escapes overlap.limit) (failure : Failure) :
    (choiceAfter failure ms).Mirrors overlap (Node.movedAll overlap.relocation)
      (choiceAfter (failure.moved overlap.relocation) ms') := by
  induction h generalizing failure with
  | nil =>
    intro before ahead trail trail' hshared htrail
    exact .failed htrail
  | @cons m m' ms ms' hfirst _ ih =>
    intro before ahead trail trail' hshared htrail
    obtain ⟨_, hrest⟩ := List.forall_mem_cons.mp hescapes
    rw [choiceAfter_andThen, choiceAfter_andThen]
    refine (hfirst before ahead trail trail' hshared htrail).andThen ?_ ?_ ?_
    · -- Both recover from the failures of the earlier members.
      intro child _ _ trail trail' hlast htrail
      refine .matched hlast ?_
      simp only [Trail.recover, htrail, Deepest.record_moved]
    · intro other trail trail' htrail
      rw [Failure.deeper_moved]
      exact ih hrest (failure.deeper other) before ahead trail trail' hshared htrail
    · intro hfirst
      simpa only [choiceAfter_andThen] using choiceAfter_escapes_of hfirst
        (fun hinflight => choiceAfter_escapes hrest hinflight _) failure

theorem choice_mirrors {m : Matcher τ Node} {m' : Matcher ι Node}
    (hm : m.Mirrors overlap (Node.moved overlap.relocation) m') {ms : List (Matcher τ Node)}
    {ms' : List (Matcher ι Node)}
    (hms : List.Forall₂ (Mirrors overlap (Node.moved overlap.relocation)) ms ms')
    (hescapes : ∀ m ∈ ms, m.Escapes overlap.limit) :
    (choice m ms).Mirrors overlap (Node.movedAll overlap.relocation) (choice m' ms') := by
  intro before ahead trail trail' hshared htrail
  rw [choice_andThen, choice_andThen]
  refine (hm before ahead trail trail' hshared htrail).andThen (fun _ _ _ _ _ => .matched) ?_ ?_
  · intro failure trail trail' htrail
    exact choiceAfter_mirrors hms hescapes failure before ahead trail trail' hshared htrail
  · intro hfirst
    simpa only [choice_andThen] using choice_escapes_of hfirst hescapes

/-- Whether a round makes progress is seen in both texts alike. -/
theorem remaining_there_lt_iff {before ahead before' ahead' : List Char} :
    (overlap.there before' ahead').remaining < (overlap.there before ahead).remaining ↔
      (overlap.here before' ahead').remaining < (overlap.here before ahead).remaining := by
  simp [Overlap.here, Overlap.there]

theorem repeatFrom_mirrors {m : Matcher τ Node} {m' : Matcher ι Node}
    (h : m.Mirrors overlap (Node.moved overlap.relocation) m') (hescapes : m.Escapes overlap.limit)
    (bounds : Bounds) (count : Nat) :
    (repeatFrom bounds m count).Mirrors overlap (Node.movedAll overlap.relocation)
      (repeatFrom bounds m' count) := by
  intro before ahead
  -- A further round begins where less of the first text remains.
  induction hremaining : (overlap.here before ahead).remaining using Nat.strongRecOn generalizing
    before ahead count with
  | ind remaining ih =>
    intro trail trail' hshared htrail
    by_cases hmore : bounds.allowsMore count
    · rw [repeatFrom_andThen, repeatFrom_andThen]
      simp only [hmore, if_true]
      refine (h before ahead trail trail' hshared htrail).andThen ?_ ?_ ?_
      · intro child middle left trail trail' hmiddle htrail
        simp only [remaining_there_lt_iff]
        by_cases hprogress :
            (overlap.here middle left).remaining < (overlap.here before ahead).remaining
        · have hlater := ih _ (hremaining ▸ hprogress) (count + 1) middle left rfl trail trail'
            hmiddle htrail
          simp only [hprogress, if_true]
          exact hlater.andThen (fun _ _ _ _ _ => .matched) (fun _ _ _ => .failed)
            (fun hlater => hlater.andThen (fun _ _ _ hlast => hlast) (fun _ _ hfailed => hfailed))
        · simp only [hprogress, if_false]
          exact .matched hmiddle htrail
      · intro failure trail trail' htrail
        by_cases hfew : count < bounds.min
        · simp only [hfew, if_true]
          exact .failed htrail
        · simp only [hfew, if_false]
          refine .matched hshared ?_
          simp only [Trail.recover, htrail, Deepest.record_moved]
      · intro hround
        have hescaped := repeatFrom_escapes_of hround hmore fun next trail _ hnext =>
          repeatFrom_escapes hescapes bounds (count + 1) next trail hnext
        rw [repeatFrom_andThen] at hescaped
        simpa only [hmore, if_true] using hescaped
    · rw [repeatFrom, repeatFrom]
      simp only [hmore, if_false, Bool.false_eq_true]
      exact .matched hshared htrail

end Composite

end Matcher

/-! ## §5 Rules -/

/-- **A rule is evaluated alike in both texts**, as long as the evaluation does not get beyond their
    common part. -/
theorem Grammar.matcher_mirrors [Journal τ] [Journal ι] (grammar : Grammar κ) {overlap : Overlap}
    (depth : Nat) (rule : Rule κ) (htolerates : overlap.Tolerates grammar rule) :
    (rule.matcher (grammar.call depth) : Matcher τ Node).Mirrors overlap
      (Node.moved overlap.relocation) (rule.matcher (grammar.call depth) : Matcher ι Node) := by
  have hescapes : ∀ depth, ∀ rules : List (Rule κ),
      ∀ m ∈ rules.map (Rule.matcher (grammar.call depth : String → κ → Matcher τ Node)),
        m.Escapes overlap.limit :=
    fun depth rules => List.forall_mem_map.mpr fun rule _ => grammar.matcher_escapes depth rule _
  induction depth, rule using grammar.unfoldingInduction with
  | character depth name expected => exact Matcher.codePoint_mirrors name _ _
  | range depth name low high => exact Matcher.codePoint_mirrors name _ _
  | endOfText depth name =>
    refine Matcher.endOfText_mirrors name ?_
    exact htolerates.resolve_right fun hnone => hnone name (.refl _)
  | concatenation depth name first rest ih =>
    rw [Rule.matcher_concatenation, Rule.matcher_concatenation]
    apply Matcher.node_mirrors
    refine Matcher.sequence_mirrors ?_ (hescapes depth _)
    rw [List.forall₂_map_left_iff, List.forall₂_map_right_iff, List.forall₂_same]
    exact fun member hmember => ih member hmember (htolerates.part (.concatenation hmember))
  | alternation depth name first rest ih =>
    rw [Rule.matcher_alternation, Rule.matcher_alternation]
    have hmembers : ∀ member ∈ first :: rest, Matcher.Mirrors overlap _ _ _ :=
      fun member hmember => ih member hmember (htolerates.part (.alternation hmember))
    obtain ⟨hfirst, hrest⟩ := List.forall_mem_cons.mp hmembers
    apply Matcher.node_mirrors
    refine Matcher.choice_mirrors hfirst ?_ (hescapes depth _)
    rw [List.forall₂_map_left_iff, List.forall₂_map_right_iff, List.forall₂_same]
    exact hrest
  | repetition depth name bounds element ih =>
    rw [Rule.matcher_repetition, Rule.matcher_repetition]
    apply Matcher.node_mirrors
    refine Matcher.repeatFrom_mirrors ?_ (grammar.matcher_escapes depth element _) bounds 0
    exact ih (htolerates.part .repetition)
  | exhausted name key =>
    rw [Grammar.matcher_exhausted, Grammar.matcher_exhausted]
    exact fun _ _ _ _ _ _ => .aborted
  | unbuildable depth name key fault hdefine =>
    rw [Grammar.matcher_unbuildable grammar depth name hdefine,
      Grammar.matcher_unbuildable grammar depth name hdefine]
    exact fun _ _ _ _ _ _ => .aborted
  | unfolded depth name key rule hdefine ih =>
    rw [Grammar.matcher_unfolded grammar depth name hdefine,
      Grammar.matcher_unfolded grammar depth name hdefine]
    exact ih (htolerates.part (.deferred hdefine))

end AugmentedBnf
