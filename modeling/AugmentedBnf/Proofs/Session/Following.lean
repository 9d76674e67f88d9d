import AugmentedBnf.Proofs.Matching.Continuation
import AugmentedBnf.Proofs.Session.Consistent
import AugmentedBnf.Session.Parse
import Mathlib.Data.List.Forall2

/-!
# Evaluations That Build

An evaluation in a session may build rules on its way, so a later one from the same place does not
find what the earlier one found. To compare the two, or to compare either with an evaluation that
keeps nothing, one has to wait and see what the earlier one has built in the end.

A `View` is another way to evaluate numbered rules, which agrees with the session once the session
holds enough (`live`). An evaluation is followed by another one (`Outcome.Follows`) if it keeps the
session consistent, leaves what was built, and, provided that the session it leaves is still live,
ends as the other one does. Being live is passed back from later sessions to earlier ones, so
following is kept when an evaluation goes on from an outcome, and there is one lemma for all
operations on matchers (`Follows.andThen`).

**Main statement**: `callKept_follows` says that deferred rules in a session are followed by those
of any view.
-/

namespace AugmentedBnf

variable {κ ι α β : Type}

/-- The outcome with another trail. -/
def Outcome.withTrail {τ : Type} (trail' : Trail ι) : Outcome τ α → Outcome ι α
  | .matched value next _ => .matched value next trail'
  | .failed failure _ => .failed failure trail'
  | .aborted cause _ => .aborted cause trail'

theorem Outcome.trail_withTrail {τ : Type} (trail' : Trail ι) (outcome : Outcome τ α) :
    (outcome.withTrail trail').trail = trail' := by
  cases outcome <;> rfl

/-! ## §1 Views -/

/-- Another way to evaluate rules with numbered places. While a session is `live`, the rules that
    it has built are evaluated as they are; `sees` relates what was recorded to the trail of the
    other evaluation. -/
structure View (ι : Type) [Journal ι] (grammar : Grammar κ) where
  live : Session κ → Prop
  sees : Deepest → Trail ι → Prop
  call : Nat → String → Occurrence κ → Matcher ι Node
  live_of_before : ∀ {session later}, session.Before later → live later → live session
  recover : ∀ {deepest trail'} (failure : Failure), sees deepest trail' →
    sees (deepest.record failure) (trail'.recover failure)
  miss : ∀ {deepest trail'} (failure : Failure), sees deepest trail' →
    sees deepest (trail'.miss failure)
  exhausted : ∀ name occurrence cursor trail',
    call 0 name occurrence cursor trail' = .aborted .unfoldings trail'
  entered : ∀ {session deepest trail'} {occurrence : Occurrence κ} {rule : Rule (Occurrence κ)},
    live session → sees deepest trail' → session.built occurrence.cell = some rule →
    grammar.define occurrence.key = .ok (rule.map Occurrence.key) → ∀ depth name cursor,
    call (depth + 1) name occurrence cursor trail' = rule.matcher (call depth) cursor trail'

/-- The session has the cells of `base`, with others maybe, and is consistent. -/
def Session.Keeps (grammar : Grammar κ) (needed : κ → Prop) (base : List κ)
    (session : Session κ) : Prop :=
  ∃ keys, base <+: keys ∧ session.Consistent grammar needed keys

variable [Journal ι] {grammar : Grammar κ} {view : View ι grammar} {needed : κ → Prop}
  {base : List κ}

/-! ## §2 Followed outcomes -/

/-- An evaluation that begins with `trail` keeps the session consistent and leaves what was built.
    If the session that it leaves is live, the other evaluation, from whatever it sees for the
    trail, ends as this one does. -/
structure Outcome.Follows (view : View ι grammar) (needed : κ → Prop) (base : List κ)
    (trail : Trail (Session κ)) (outcome : Outcome (Session κ) α)
    (other : Trail ι → Outcome ι α) : Prop where
  keeps : outcome.trail.journal.Keeps grammar needed base
  before : trail.journal.Before outcome.trail.journal
  agrees : view.live outcome.trail.journal → ∀ trail', view.sees trail.deepest trail' →
    ∃ last', view.sees outcome.trail.deepest last' ∧ other trail' = outcome.withTrail last'

/-- From a consistent session, what the first matcher does is followed by the second. -/
def Matcher.Follows (view : View ι grammar) (needed : κ → Prop) (base : List κ)
    (matcher : Matcher (Session κ) α) (matcher' : Matcher ι α) : Prop :=
  ∀ cursor trail, trail.journal.Keeps grammar needed base →
    (matcher cursor trail).Follows view needed base trail (matcher' cursor)

namespace Outcome

variable {trail : Trail (Session κ)}

/-- What leaves the session as it is has to be followed by itself only. -/
theorem Follows.done (hkeeps : trail.journal.Keeps grammar needed base)
    {outcome : Outcome (Session κ) α} {other : Trail ι → Outcome ι α}
    (hjournal : outcome.trail.journal = trail.journal)
    (hagrees : ∀ trail', view.sees trail.deepest trail' →
      ∃ last', view.sees outcome.trail.deepest last' ∧ other trail' = outcome.withTrail last') :
    outcome.Follows view needed base trail other where
  keeps := hjournal ▸ hkeeps
  before := hjournal ▸ .refl _
  agrees := fun _ => hagrees

/-- What comes after a followed outcome is followed, if the other evaluation goes on from there. -/
theorem Follows.next {outcome : Outcome (Session κ) α} {other : Trail ι → Outcome ι α}
    (h : outcome.Follows view needed base trail other) {later : Outcome (Session κ) β}
    {other' later' : Trail ι → Outcome ι β}
    (hlater : later.Follows view needed base outcome.trail later')
    (hother : ∀ trail' last', other trail' = outcome.withTrail last' →
      other' trail' = later' last') :
    later.Follows view needed base trail other' where
  keeps := hlater.keeps
  before := h.before.trans hlater.before
  agrees := by
    intro hlive trail' hsees
    -- What comes after is live only if what comes first is, so the other evaluation gets there.
    obtain ⟨last', hlast, hfirst⟩ :=
      h.agrees (view.live_of_before hlater.before hlive) trail' hsees
    rw [hother trail' last' hfirst]
    exact hlater.agrees hlive last' hlast

/-- **Going on is followed by going on**: it is enough that what comes after a match and what comes
    after a failure are. -/
theorem Follows.andThen {outcome : Outcome (Session κ) α} {other : Trail ι → Outcome ι α}
    (h : outcome.Follows view needed base trail other)
    {onMatch : α → Cursor → Trail (Session κ) → Outcome (Session κ) β}
    {onMatch' : α → Cursor → Trail ι → Outcome ι β}
    (hmatch : ∀ value next trail, trail.journal.Keeps grammar needed base →
      (onMatch value next trail).Follows view needed base trail (onMatch' value next))
    {onFail : Failure → Trail (Session κ) → Outcome (Session κ) β}
    {onFail' : Failure → Trail ι → Outcome ι β}
    (hfail : ∀ failure trail, trail.journal.Keeps grammar needed base →
      (onFail failure trail).Follows view needed base trail (onFail' failure)) :
    (outcome.andThen onMatch onFail).Follows view needed base trail
      (fun trail' => (other trail').andThen onMatch' onFail') := by
  cases outcome with
  | matched value next last =>
    refine h.next (hmatch value next last h.keeps) fun trail' last' hother => ?_
    rw [hother]
    rfl
  | failed failure last =>
    refine h.next (hfail failure last h.keeps) fun trail' last' hother => ?_
    rw [hother]
    rfl
  | aborted cause last =>
    refine ⟨h.keeps, h.before, fun hlive trail' hsees => ?_⟩
    obtain ⟨last', hlast, hother⟩ := h.agrees hlive trail' hsees
    exact ⟨last', hlast, by rw [hother]; rfl⟩

end Outcome

/-! ## §3 Operations on matchers -/

namespace Matcher

/-- A match with the trail as it is. -/
theorem follows_matched (value : α) (next : Cursor) (trail : Trail (Session κ))
    (hkeeps : trail.journal.Keeps grammar needed base) :
    (Outcome.matched value next trail).Follows view needed base trail (.matched value next) :=
  .done hkeeps rfl fun trail' hsees => ⟨trail', hsees, rfl⟩

/-- A failure with the trail as it is. -/
theorem follows_failed (failure : Failure) (trail : Trail (Session κ))
    (hkeeps : trail.journal.Keeps grammar needed base) :
    (Outcome.failed failure trail : Outcome _ α).Follows view needed base trail
      (.failed failure) :=
  .done hkeeps rfl fun trail' hsees => ⟨trail', hsees, rfl⟩

/-- A match that recovers from a failure. -/
theorem follows_recover (value : α) (next : Cursor) (failure : Failure)
    (trail : Trail (Session κ)) (hkeeps : trail.journal.Keeps grammar needed base) :
    (Outcome.matched value next (trail.recover failure)).Follows view needed base trail
      (fun trail' => .matched value next (trail'.recover failure)) :=
  .done hkeeps rfl fun trail' hsees => ⟨trail'.recover failure, view.recover failure hsees, rfl⟩

/-- A failure that is told as a miss. -/
theorem follows_miss (failure : Failure) (trail : Trail (Session κ))
    (hkeeps : trail.journal.Keeps grammar needed base) :
    (Outcome.failed failure (trail.miss failure) : Outcome _ α).Follows view needed base trail
      (fun trail' => .failed failure (trail'.miss failure)) :=
  .done hkeeps rfl fun trail' hsees => ⟨trail'.miss failure, view.miss failure hsees, rfl⟩

theorem codePoint_follows (name expected : String) (accepts : Char → Bool) :
    (codePoint name expected accepts).Follows view needed base
      (codePoint name expected accepts : Matcher ι Node) := by
  intro cursor trail hkeeps
  unfold codePoint
  rcases cursor.value with (failure | cause) | found
  · exact follows_miss failure trail hkeeps
  · exact .done hkeeps rfl fun trail' hsees => ⟨trail', hsees, rfl⟩
  · by_cases hfound : accepts found
    · simp only [hfound, if_true]
      exact follows_matched _ _ trail hkeeps
    · simp only [hfound, if_false, Bool.false_eq_true]
      exact follows_miss _ trail hkeeps

theorem endOfText_follows (name : String) :
    (endOfText name).Follows view needed base (endOfText name : Matcher ι Node) := by
  intro cursor trail hkeeps
  unfold endOfText
  cases cursor.atEnd with
  | true => exact follows_matched _ _ trail hkeeps
  | false => exact follows_miss _ trail hkeeps

theorem node_follows (name : String) {m : Matcher (Session κ) (List Node)}
    {m' : Matcher ι (List Node)} (h : m.Follows view needed base m') :
    (node name m).Follows view needed base (node name m') := by
  intro cursor trail hkeeps
  rw [node_andThen, node_andThen]
  exact (h cursor trail hkeeps).andThen (fun _ _ => follows_matched _ _) follows_failed

theorem sequence_follows {ms : List (Matcher (Session κ) Node)} {ms' : List (Matcher ι Node)}
    (h : List.Forall₂ (Follows view needed base) ms ms') :
    (sequence ms).Follows view needed base (sequence ms') := by
  induction h with
  | nil => exact fun cursor => follows_matched [] cursor
  | cons hfirst _ ih =>
    intro cursor trail hkeeps
    rw [sequence_andThen, sequence_andThen]
    refine (hfirst cursor trail hkeeps).andThen (fun child next trail hkeeps => ?_) follows_failed
    exact (ih next trail hkeeps).andThen (fun _ _ => follows_matched _ _) follows_failed

theorem choiceAfter_follows {ms : List (Matcher (Session κ) Node)} {ms' : List (Matcher ι Node)}
    (h : List.Forall₂ (Follows view needed base) ms ms') (failure : Failure) :
    (choiceAfter failure ms).Follows view needed base (choiceAfter failure ms') := by
  induction h generalizing failure with
  | nil => exact fun _ => follows_failed failure
  | cons hfirst _ ih =>
    intro cursor trail hkeeps
    rw [choiceAfter_andThen, choiceAfter_andThen]
    exact (hfirst cursor trail hkeeps).andThen (fun _ _ => follows_recover _ _ failure)
      (fun other => ih (failure.deeper other) cursor)

theorem choice_follows {m : Matcher (Session κ) Node} {m' : Matcher ι Node}
    (hm : m.Follows view needed base m') {ms : List (Matcher (Session κ) Node)}
    {ms' : List (Matcher ι Node)} (hms : List.Forall₂ (Follows view needed base) ms ms') :
    (choice m ms).Follows view needed base (choice m' ms') := by
  intro cursor trail hkeeps
  rw [choice_andThen, choice_andThen]
  exact (hm cursor trail hkeeps).andThen (fun _ _ => follows_matched _ _)
    (fun failure => choiceAfter_follows hms failure cursor)

theorem repeatFrom_follows {m : Matcher (Session κ) Node} {m' : Matcher ι Node}
    (hm : m.Follows view needed base m') (bounds : Bounds) (count : Nat) :
    (repeatFrom bounds m count).Follows view needed base (repeatFrom bounds m' count) := by
  intro cursor
  -- The loop goes on only where less of the text remains.
  induction hremaining : cursor.remaining using Nat.strongRecOn generalizing cursor count with
  | ind remaining ih =>
    intro trail hkeeps
    rw [repeatFrom_andThen, repeatFrom_andThen]
    by_cases hmore : bounds.allowsMore count
    · simp only [hmore, if_true]
      refine (hm cursor trail hkeeps).andThen (fun child next trail hkeeps => ?_)
        (fun failure trail hkeeps => ?_)
      · by_cases hprogress : next.remaining < cursor.remaining
        · simp only [hprogress, if_true]
          have hrest := ih next.remaining (hremaining ▸ hprogress) (count + 1) next rfl trail hkeeps
          exact hrest.andThen (fun _ _ => follows_matched _ _) follows_failed
        · simp only [hprogress, if_false]
          exact follows_matched _ _ trail hkeeps
      · by_cases hfew : count < bounds.min
        · simp only [hfew, if_true]
          exact follows_failed failure trail hkeeps
        · simp only [hfew, if_false]
          exact follows_recover _ _ failure trail hkeeps
    · simp only [hmore, if_false, Bool.false_eq_true]
      exact follows_matched _ _ trail hkeeps

end Matcher

/-! ## §4 Rules -/

/-- **A rule keeps following**: where what it defers to is followed, so is what the rule matches. -/
theorem Rule.matcher_follows {call : String → Occurrence κ → Matcher (Session κ) Node}
    {call' : String → Occurrence κ → Matcher ι Node} (rule : Rule (Occurrence κ))
    (hcall : ∀ name, ∀ occurrence ∈ rule.keys,
      (call name occurrence).Follows view needed base (call' name occurrence)) :
    (rule.matcher call).Follows view needed base (rule.matcher call') := by
  induction rule using Rule.inductionOn with
  | character name expected => exact Matcher.codePoint_follows _ _ _
  | range name low high => exact Matcher.codePoint_follows _ _ _
  | endOfText name => exact Matcher.endOfText_follows _
  | concatenation name first rest ih =>
    rw [Rule.matcher_concatenation, Rule.matcher_concatenation]
    apply Matcher.node_follows
    apply Matcher.sequence_follows
    rw [List.forall₂_map_left_iff, List.forall₂_map_right_iff, List.forall₂_same]
    intro member hmember
    exact ih member hmember fun name occurrence hmem =>
      hcall name occurrence (Rule.mem_keys_concatenation.mpr ⟨member, hmember, hmem⟩)
  | alternation name first rest ih =>
    rw [Rule.matcher_alternation, Rule.matcher_alternation]
    have hmembers : ∀ member ∈ first :: rest,
        (member.matcher call).Follows view needed base (member.matcher call') := by
      intro member hmember
      exact ih member hmember fun name occurrence hmem =>
        hcall name occurrence (Rule.mem_keys_alternation.mpr ⟨member, hmember, hmem⟩)
    obtain ⟨hfirst, hrest⟩ := List.forall_mem_cons.mp hmembers
    apply Matcher.node_follows
    apply Matcher.choice_follows hfirst
    rw [List.forall₂_map_left_iff, List.forall₂_map_right_iff, List.forall₂_same]
    exact hrest
  | repetition name bounds element ih =>
    rw [Rule.matcher_repetition, Rule.matcher_repetition]
    exact Matcher.node_follows _ (Matcher.repeatFrom_follows (ih hcall) bounds 0)
  | deferred name occurrence => exact hcall name occurrence (Rule.mem_keys_deferred.mpr rfl)

/-- Entering a deferred rule comes to evaluating the rule in its cell, which is built if need be. -/
theorem Session.exists_entered (hprovides : grammar.Provides needed) {occurrence : Occurrence κ}
    (hkey : base[occurrence.cell]? = some occurrence.key) {trail : Trail (Session κ)}
    (hkeeps : trail.journal.Keeps grammar needed base) (depth : Nat) (name : String)
    (cursor : Cursor) :
    ∃ keys session rule, base <+: keys ∧ session.Consistent grammar needed keys ∧
      trail.journal.Before session ∧ session.built occurrence.cell = some rule ∧
      grammar.define occurrence.key = .ok (rule.map Occurrence.key) ∧ rule.Enrolled keys ∧
      grammar.callKept (depth + 1) name occurrence cursor trail
        = rule.matcher (grammar.callKept depth) cursor { trail with journal := session } := by
  obtain ⟨keys, hextends, hconsistent⟩ := hkeeps
  have hkey := getElem?_of_prefix hextends hkey
  unfold Grammar.callKept
  cases hbuilt : trail.journal.built occurrence.cell with
  | some rule =>
    obtain ⟨key, hkey', hdefine, henrolled⟩ := hconsistent.defined hbuilt
    obtain rfl : occurrence.key = key := Option.some.inj (hkey.symm.trans hkey')
    exact ⟨keys, trail.journal, rule, hextends, hconsistent, .refl _, hbuilt, hdefine, henrolled,
      rfl⟩
  | none =>
    -- The rule is numbered behind the cells that there are, then told of and kept.
    obtain ⟨target, htarget, hneeded⟩ :=
      hprovides occurrence.key (hconsistent.needed _ (List.mem_of_getElem? hkey))
    have hlater : keys <+: keys ++ target.keys := List.prefix_append _ _
    have hnew := hconsistent.enrol hneeded
    have hkey := getElem?_of_prefix hlater hkey
    have hdefine : grammar.define occurrence.key
        = .ok ((trail.journal.enrol target).1.map Occurrence.key) := by
      rw [htarget, Session.enrol, Rule.map_number]
    have henrolled := hconsistent.enrolled target
    have hnone : (trail.journal.enrol target).2.built occurrence.cell = none := by
      rw [Session.built_enrol, hbuilt]
    have hbefore : trail.journal.Before (trail.journal.enrol target).2 :=
      fun cell rule h => (Session.built_enrol _ _ _).trans h
    refine ⟨keys ++ target.keys, _, _, hextends.trans hlater,
      hnew.build hkey hnone name cursor.position hdefine henrolled,
      hbefore.trans (hnew.before_build hkey hnone name cursor.position _), ?_, hdefine, henrolled,
      ?_⟩
    · rw [hnew.built_build hkey, if_pos rfl]
    · rw [htarget]
      rfl

/-- **Deferred rules are followed**: whatever an evaluation finds built and whatever it builds, a
    view that agrees with what it leaves ends in the same way. -/
theorem Grammar.callKept_follows (hprovides : grammar.Provides needed) (depth : Nat) (name : String)
    {occurrence : Occurrence κ} (hkey : base[occurrence.cell]? = some occurrence.key) :
    (grammar.callKept depth name occurrence).Follows view needed base
      (view.call depth name occurrence) := by
  induction depth generalizing name occurrence base with
  | zero =>
    intro cursor trail hkeeps
    exact .done hkeeps rfl fun trail' hsees =>
      ⟨trail', hsees, view.exhausted name occurrence cursor trail'⟩
  | succ depth ih =>
    intro cursor trail hkeeps
    obtain ⟨keys, session, rule, hextends, hconsistent, hbefore, hbuilt, hdefine, henrolled,
      hentered⟩ := Session.exists_entered hprovides hkey hkeeps depth name cursor
    have hrule : (rule.matcher (grammar.callKept depth)).Follows view needed keys
        (rule.matcher (view.call depth)) :=
      Rule.matcher_follows rule fun name occurrence hmem => ih name (henrolled occurrence hmem)
    obtain ⟨⟨keys', hextends', hconsistent'⟩, hbefore', hagrees⟩ :=
      hrule cursor { trail with journal := session } ⟨keys, List.prefix_rfl, hconsistent⟩
    rw [hentered]
    refine ⟨⟨keys', hextends.trans hextends', hconsistent'⟩, hbefore.trans hbefore', ?_⟩
    intro hlive trail' hsees
    rw [view.entered (view.live_of_before hbefore' hlive) hsees hbuilt hdefine]
    exact hagrees hlive trail' hsees

/-- What a rule matches, where its deferred parts match what the view says. -/
def View.matcher (view : View ι grammar) (rule : Rule (Occurrence κ)) : Matcher ι Node :=
  fun cursor => rule.matcher (view.call (grammar.depth cursor.text)) cursor

theorem Grammar.matcherKept_follows (view : View ι grammar) (hprovides : grammar.Provides needed)
    {rule : Rule (Occurrence κ)} (henrolled : rule.Enrolled base) :
    (grammar.matcherKept rule).Follows view needed base (view.matcher rule) := by
  intro cursor
  exact Rule.matcher_follows rule (fun name occurrence hmem =>
    callKept_follows hprovides _ name (henrolled occurrence hmem)) cursor

end AugmentedBnf
