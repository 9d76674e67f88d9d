import AugmentedBnf.Proofs.Derivation.Adequacy
import AugmentedBnf.Proofs.Grammar.Reach
import AugmentedBnf.Proofs.Matching.Answer
import AugmentedBnf.Proofs.Session.Following

/-!
# Kept Rules Are Not Observed

A rule may be asked many questions in one session, in any order and about any texts, and what is
built for one of them is kept for the others. Nobody can tell from the replies. They are those that
the rule gives in a new session, and those of the grammar alone. What can be told is the log: it
tells of each building once, and where an evaluation has begun before, it tells of no building any
more.

Both follow from `Grammar.matcherKept_follows`, with two views. One keeps nothing and looks up each
key in the grammar (`View.plain`). The other is the session itself, at a time when all that the
earlier evaluation built is there (`View.again`).

**Main statement**: `keeping_unobserved`.
-/

namespace AugmentedBnf

variable {κ : Type}

/-! ## §1 Two views of a session -/

/-- Deferred rules looked up in the grammar, keeping nothing. -/
def View.plain (grammar : Grammar κ) : View Unit grammar where
  live _ := True
  sees deepest trail' := trail'.deepest = deepest
  call depth name occurrence := grammar.call depth name occurrence.key
  live_of_before _ _ := trivial
  recover failure hsees := congrArg (·.record failure) hsees
  miss _ hsees := hsees
  exhausted name occurrence cursor trail' := by rw [Grammar.call]
  entered _ _ _ hdefine depth name cursor := by
    rw [Grammar.call, hdefine]
    exact congrFun (congrFun (Rule.matcher_map _ _ _) _) _

theorem View.matcher_plain (grammar : Grammar κ) (rule : Rule (Occurrence κ)) :
    (View.plain grammar).matcher rule = grammar.evaluate (rule.map Occurrence.key) := by
  funext cursor
  unfold Grammar.evaluate Grammar.matcher
  rw [Rule.matcher_map]
  rfl

/-- Deferred rules in a session `later` that has built all that they need. -/
def View.again (grammar : Grammar κ) (later : Session κ) : View (Session κ) grammar where
  live session := session.Before later
  sees _ trail' := trail'.journal = later
  call := grammar.callKept
  live_of_before := Session.Before.trans
  recover _ hsees := hsees
  miss _ hsees := hsees
  exhausted name occurrence cursor trail' := by rw [Grammar.callKept]
  entered hlive hsees hbuilt _ depth name cursor := by
    simp only [Grammar.callKept, hsees, hlive _ _ hbuilt]

theorem View.matcher_again (grammar : Grammar κ) (later : Session κ)
    (rule : Rule (Occurrence κ)) :
    (View.again grammar later).matcher rule = grammar.matcherKept rule := rfl

/-- An answer says as much of a trail as what was recorded. -/
theorem Outcome.answer_withTrail {τ ι : Type} {trail' : Trail ι} {outcome : Outcome τ Node}
    (h : trail'.deepest = outcome.trail.deepest) :
    (outcome.withTrail trail').answer = outcome.answer := by
  cases outcome <;> simp only [withTrail, answer, h, trail]

/-! ## §2 One evaluation -/

namespace Grammar

section Kept

variable {grammar : Grammar κ} {needed : κ → Prop} {base : List κ} {rule : Rule (Occurrence κ)}
  {session : Session κ}

/-- What is kept does not show in the answer. -/
theorem answer_matcherKept (hprovides : grammar.Provides needed) (henrolled : rule.Enrolled base)
    (hkeeps : session.Keeps grammar needed base) (cursor : Cursor) (recorded : Deepest) :
    (grammar.matcherKept rule cursor ⟨recorded, session⟩).answer
      = (grammar.evaluate (rule.map Occurrence.key) cursor ⟨recorded, ()⟩).answer := by
  obtain ⟨-, -, hagrees⟩ := matcherKept_follows (.plain grammar) hprovides henrolled cursor
    ⟨recorded, session⟩ hkeeps
  obtain ⟨last', hlast, hother⟩ := hagrees trivial ⟨recorded, ()⟩ rfl
  rw [← View.matcher_plain, hother, Outcome.answer_withTrail hlast]

/-- An evaluation keeps the session consistent and leaves what was built. -/
theorem keeps_matcherKept (hprovides : grammar.Provides needed) (henrolled : rule.Enrolled base)
    (hkeeps : session.Keeps grammar needed base) (cursor : Cursor) (recorded : Deepest) :
    (grammar.matcherKept rule cursor ⟨recorded, session⟩).trail.journal.Keeps grammar needed base ∧
      session.Before (grammar.matcherKept rule cursor ⟨recorded, session⟩).trail.journal := by
  obtain ⟨hkeeps', hbefore, -⟩ := matcherKept_follows (.plain grammar) hprovides henrolled
    cursor ⟨recorded, session⟩ hkeeps
  exact ⟨hkeeps', hbefore⟩

/-- From where an evaluation has begun before, another one changes nothing, whatever was recorded
    and whatever was built since. -/
theorem journal_matcherKept (hprovides : grammar.Provides needed) (henrolled : rule.Enrolled base)
    (hkeeps : session.Keeps grammar needed base) {cursor : Cursor} {recorded : Deepest}
    (later : Session κ)
    (hlater : (grammar.matcherKept rule cursor ⟨recorded, session⟩).trail.journal.Before later)
    (recorded' : Deepest) :
    (grammar.matcherKept rule cursor ⟨recorded', later⟩).trail.journal = later := by
  obtain ⟨-, -, hagrees⟩ := matcherKept_follows (.again grammar later) hprovides henrolled
    cursor ⟨recorded, session⟩ hkeeps
  obtain ⟨last', hlast, hother⟩ := hagrees hlater ⟨recorded', later⟩ rfl
  rw [← View.matcher_again grammar later, hother, Outcome.trail_withTrail]
  exact hlast

end Kept

end Grammar

/-! ## §3 Requests -/

/-- What a rule may be asked. -/
inductive Request where
  /-- To be evaluated at a cursor, going on with what was recorded. -/
  | track (cursor : Cursor) (recorded : Deepest)
  /-- To be evaluated at a cursor. -/
  | parseFrom (cursor : Cursor)
  /-- To match a text from its start. -/
  | parse (text : String)
  /-- To match all of a text. -/
  | parseAll (text : String)

/-- What comes back for a request. -/
inductive Reply where
  | tracked (answer : Except Abort Answer)
  | evaluated (result : Except Stop (Node × Cursor))
  | parsed (result : Except Stop Node)

namespace Request

/-- Where the evaluation begins. -/
def cursor : Request → Cursor
  | .track cursor _ => cursor
  | .parseFrom cursor => cursor
  | .parse text => .start text
  | .parseAll text => .start text

/-- What the evaluation begins with. -/
def recorded : Request → Deepest
  | .track _ recorded => recorded
  | _ => .empty

/-- The reply that the answer of the evaluation makes. -/
def reply (answer : Except Abort Answer) : Request → Reply
  | .track _ _ => .tracked answer
  | .parseFrom _ => .evaluated (Answer.returned Answer.reported answer)
  | .parse _ => .parsed (Answer.returned (fun answer => answer.reported.map Prod.fst) answer)
  | .parseAll _ => .parsed (Answer.returned Answer.whole answer)

end Request

/-- The reply of a rule of the grammar, when nothing is kept. -/
def Grammar.reply (grammar : Grammar κ) (rule : Rule κ) : Request → Reply
  | .track cursor recorded => .tracked (grammar.evaluate rule cursor ⟨recorded, ()⟩).answer
  | .parseFrom cursor => .evaluated (grammar.parseFrom rule cursor)
  | .parse text => .parsed (grammar.parse rule text)
  | .parseAll text => .parsed (grammar.parseAll rule text)

theorem Grammar.reply_eq (grammar : Grammar κ) (rule : Rule κ) (request : Request) :
    grammar.reply rule request
      = request.reply (grammar.evaluate rule request.cursor ⟨request.recorded, ()⟩).answer := by
  cases request with
  | track cursor recorded => rfl
  | parseFrom cursor => exact congrArg Reply.evaluated (Matcher.parseFrom_fst _ _ _)
  | parse text => exact congrArg Reply.parsed (Matcher.parse_fst _ _ _ _)
  | parseAll text => exact congrArg Reply.parsed (Matcher.parseAll_fst _ _ _ _)

namespace Session

/-- The reply of a rule in a session, and the session afterwards. -/
def serve (grammar : Grammar κ) (rule : Rule (Occurrence κ)) :
    Request → Session κ → Reply × Session κ
  | .track cursor recorded, session =>
    let outcome := grammar.matcherKept rule cursor ⟨recorded, session⟩
    (.tracked outcome.answer, outcome.trail.journal)
  | .parseFrom cursor, session => (parseFrom grammar rule cursor session).map .evaluated id
  | .parse text, session => (parse grammar rule text session).map .parsed id
  | .parseAll text, session => (parseAll grammar rule text session).map .parsed id

/-- The session with further events, the latest first. -/
def tell (events : List Event) (session : Session κ) : Session κ :=
  { session with events := events ++ session.events }

theorem happened_eq_tell (event : Event) (session : Session κ) :
    Journal.happened event session = session.tell [event] := rfl

section Tell

variable {grammar : Grammar κ} {needed : κ → Prop} {base : List κ} {session : Session κ}
  {events : List Event}

theorem told_tell (hevents : ∀ event ∈ events, event.level = "DEBUG") :
    (session.tell events).told = session.told := by
  have hnone : events.filterMap Event.cell? = [] :=
    List.filterMap_eq_nil_iff.mpr fun event hevent => event.level_eq_iff.mp (hevents event hevent)
  rw [told, tell, List.filterMap_append, hnone, List.nil_append, told]

theorem Keeps.tell (hkeeps : session.Keeps grammar needed base)
    (hevents : ∀ event ∈ events, event.level = "DEBUG") :
    (session.tell events).Keeps grammar needed base := by
  obtain ⟨keys, hextends, hconsistent⟩ := hkeeps
  exact ⟨keys, hextends, hconsistent.of_told_eq rfl (told_tell hevents)⟩

end Tell

end Session

namespace Matcher

theorem parseFrom_snd {τ : Type} (matcher : Matcher τ Node) (cursor : Cursor) (journal : τ) :
    (matcher.parseFrom cursor journal).2 = (matcher cursor (.fresh journal)).trail.journal := by
  unfold parseFrom
  cases matcher cursor (.fresh journal) <;> rfl

section Log

variable (matcher : Matcher (Session κ) Node) (rule text : String) (session : Session κ)

theorem exists_parse_snd :
    ∃ closing, (∀ event ∈ closing, event.level = "DEBUG") ∧ (matcher.parse rule text session).2
      = (matcher (.start text)
          (.fresh (session.tell [.began text.utf8ByteSize rule]))).trail.journal.tell closing := by
  have hjournal := matcher.parseFrom_snd (.start text)
    (session.tell [.began text.utf8ByteSize rule])
  simp only [parse, Session.happened_eq_tell, ← hjournal]
  -- Only an abandoned evaluation goes without an event for its end.
  rcases matcher.parseFrom (.start text) (session.tell [.began text.utf8ByteSize rule])
    with ⟨(failure | cause) | ⟨node, next⟩, journal⟩
  · exact ⟨[.stopped rule failure.position], by simp [Event.level], rfl⟩
  · exact ⟨[], List.forall_mem_nil _, rfl⟩
  · exact ⟨[.matched rule next.position], by simp [Event.level], rfl⟩

theorem exists_parseAll_snd :
    ∃ closing, (∀ event ∈ closing, event.level = "DEBUG") ∧ (matcher.parseAll rule text session).2
      = (matcher (.start text)
          (.fresh (session.tell [.beganAll text.utf8ByteSize rule]))).trail.journal.tell
            closing := by
  simp only [parseAll, Session.happened_eq_tell]
  generalize matcher (.start text) (.fresh (session.tell [.beganAll text.utf8ByteSize rule]))
    = outcome
  cases outcome with
  | matched node next trail =>
    simp only
    split
    case isTrue => exact ⟨[], List.forall_mem_nil _, rfl⟩
    case isFalse => exact ⟨[.leftOver rule next.position], by simp [Event.level], rfl⟩
  | failed failure trail =>
    exact ⟨[.stopped rule (trail.deepest.merge failure).position], by simp [Event.level], rfl⟩
  | aborted cause trail => exact ⟨[], List.forall_mem_nil _, rfl⟩

end Log

end Matcher

namespace Session

/-- Each request comes to one evaluation, with events for debugging around it. -/
theorem exists_serve_eq (grammar : Grammar κ) (rule : Rule (Occurrence κ)) (request : Request)
    (session : Session κ) :
    ∃ opening, (∀ event ∈ opening, event.level = "DEBUG") ∧
    ∃ closing, (∀ event ∈ closing, event.level = "DEBUG") ∧
      serve grammar rule request session
        = (request.reply (grammar.matcherKept rule request.cursor
            ⟨request.recorded, session.tell opening⟩).answer,
          (grammar.matcherKept rule request.cursor
            ⟨request.recorded, session.tell opening⟩).trail.journal.tell closing) := by
  cases request with
  | track cursor recorded => exact ⟨[], List.forall_mem_nil _, [], List.forall_mem_nil _, rfl⟩
  | parseFrom cursor =>
    refine ⟨[], List.forall_mem_nil _, [], List.forall_mem_nil _, Prod.ext ?_ ?_⟩
    · exact congrArg Reply.evaluated (Matcher.parseFrom_fst _ _ _)
    · exact Matcher.parseFrom_snd _ _ _
  | parse text =>
    obtain ⟨closing, hclosing, hsession⟩ :=
      (grammar.matcherKept rule).exists_parse_snd rule.name text session
    refine ⟨[.began text.utf8ByteSize rule.name], by simp [Event.level], closing, hclosing,
      Prod.ext ?_ hsession⟩
    exact congrArg Reply.parsed (Matcher.parse_fst _ _ _ _)
  | parseAll text =>
    obtain ⟨closing, hclosing, hsession⟩ :=
      (grammar.matcherKept rule).exists_parseAll_snd rule.name text session
    refine ⟨[.beganAll text.utf8ByteSize rule.name], by simp [Event.level], closing, hclosing,
      Prod.ext ?_ hsession⟩
    exact congrArg Reply.parsed (Matcher.parseAll_fst _ _ _ _)

section Serve

variable {grammar : Grammar κ} {needed : κ → Prop} {base : List κ} {rule : Rule (Occurrence κ)}
  {session : Session κ}

/-- The reply is that of the grammar. -/
theorem serve_fst (hprovides : grammar.Provides needed) (henrolled : rule.Enrolled base)
    (hkeeps : session.Keeps grammar needed base) (request : Request) :
    (serve grammar rule request session).1
      = grammar.reply (rule.map Occurrence.key) request := by
  obtain ⟨opening, hopening, closing, -, hserve⟩ := exists_serve_eq grammar rule request session
  rw [hserve, Grammar.reply_eq,
    Grammar.answer_matcherKept hprovides henrolled (hkeeps.tell hopening)]

/-- A request keeps the session consistent and leaves what was built. -/
theorem keeps_serve (hprovides : grammar.Provides needed) (henrolled : rule.Enrolled base)
    (hkeeps : session.Keeps grammar needed base) (request : Request) :
    (serve grammar rule request session).2.Keeps grammar needed base ∧
      session.Before (serve grammar rule request session).2 := by
  obtain ⟨opening, hopening, closing, hclosing, hserve⟩ :=
    exists_serve_eq grammar rule request session
  obtain ⟨hkeeps', hbefore⟩ := Grammar.keeps_matcherKept hprovides henrolled
    (hkeeps.tell hopening) request.cursor request.recorded
  rw [hserve]
  exact ⟨hkeeps'.tell hclosing, hbefore⟩

/-- From where an earlier request began, a later one adds to the log for debugging only. -/
theorem events_serve (hprovides : grammar.Provides needed) (henrolled : rule.Enrolled base)
    (hkeeps : session.Keeps grammar needed base) {earlier request : Request}
    (hcursor : earlier.cursor = request.cursor) {later : Session κ}
    (hlater : (serve grammar rule earlier session).2.Before later) :
    ∃ added, (∀ event ∈ added, event.level = "DEBUG") ∧
      (serve grammar rule request later).2 = later.tell added := by
  obtain ⟨opening, hopening, closing, -, hearlier⟩ := exists_serve_eq grammar rule earlier session
  obtain ⟨opening', hopening', closing', hclosing', hserve⟩ :=
    exists_serve_eq grammar rule request later
  rw [hearlier] at hlater
  -- The events around an evaluation do not count as built.
  have hjournal := Grammar.journal_matcherKept hprovides henrolled (hkeeps.tell hopening)
    (later.tell opening') hlater request.recorded
  rw [hserve, ← hcursor, hjournal]
  refine ⟨closing' ++ opening', List.forall_mem_append.mpr ⟨hclosing', hopening'⟩, ?_⟩
  simp only [tell, List.append_assoc]

/-! ## §4 Many evaluations -/

/-- The replies to requests one after the other, and the session after the last. -/
def serveAll (grammar : Grammar κ) (rule : Rule (Occurrence κ)) :
    List Request → Session κ → List Reply × Session κ
  | [], session => ([], session)
  | request :: requests, session =>
    let (reply, session) := serve grammar rule request session
    let (replies, session) := serveAll grammar rule requests session
    (reply :: replies, session)

/-- Requests keep the session consistent, leave what was built, and get the replies of the
    grammar. -/
theorem keeps_serveAll (hprovides : grammar.Provides needed) (henrolled : rule.Enrolled base)
    (hkeeps : session.Keeps grammar needed base) (requests : List Request) :
    (serveAll grammar rule requests session).1
        = requests.map (grammar.reply (rule.map Occurrence.key)) ∧
      (serveAll grammar rule requests session).2.Keeps grammar needed base ∧
      session.Before (serveAll grammar rule requests session).2 := by
  induction requests generalizing session with
  | nil => exact ⟨rfl, hkeeps, .refl session⟩
  | cons request requests ih =>
    obtain ⟨hkeeps', hbefore⟩ := keeps_serve hprovides henrolled hkeeps request
    obtain ⟨hreplies, hlast, hbefore'⟩ := ih hkeeps'
    refine ⟨?_, hlast, hbefore.trans hbefore'⟩
    rw [List.map_cons, ← hreplies, ← serve_fst hprovides henrolled hkeeps]
    rfl

/-- From where one of the requests began, a further one adds to the log for debugging only. -/
theorem events_serveAll (hprovides : grammar.Provides needed) (henrolled : rule.Enrolled base)
    (hkeeps : session.Keeps grammar needed base) {requests : List Request}
    {earlier request : Request} (hmem : earlier ∈ requests)
    (hcursor : earlier.cursor = request.cursor) :
    ∃ added, (∀ event ∈ added, event.level = "DEBUG") ∧
      (serve grammar rule request (serveAll grammar rule requests session).2).2
        = (serveAll grammar rule requests session).2.tell added := by
  induction requests generalizing session with
  | nil => cases hmem
  | cons first requests ih =>
    obtain ⟨hkeeps', -⟩ := keeps_serve hprovides henrolled hkeeps first
    rcases List.mem_cons.mp hmem with rfl | hmem
    · -- What the others build comes on top of what this one has built.
      obtain ⟨-, -, hbefore⟩ := keeps_serveAll hprovides henrolled hkeeps' requests
      exact events_serve hprovides henrolled hkeeps hcursor hbefore
    · exact ih hkeeps' hmem

end Serve

/-- A new session is consistent, with the keys of its rule. -/
theorem keeps_start (grammar : Grammar κ) {needed : κ → Prop} {rule : Rule κ}
    (hneeded : ∀ key ∈ rule.keys, needed key) :
    (start rule).2.Keeps grammar needed rule.keys ∧ (start rule).1.Enrolled rule.keys :=
  ⟨⟨rule.keys, List.prefix_rfl, (Consistent.empty grammar needed).enrol hneeded⟩,
    (Consistent.empty grammar needed).enrolled rule⟩

/-- If all rules that occur can be built, those of the keys that occur need no others. -/
theorem provides_of_contains {grammar : Grammar κ} {rule : Rule κ}
    (hbuildable : ∀ name key, grammar.Contains rule (.deferred name key) →
      ∃ target, grammar.define key = .ok target) :
    grammar.Provides fun key => ∃ name, grammar.Contains rule (.deferred name key) := by
  rintro key ⟨name, hcontains⟩
  obtain ⟨target, hdefine⟩ := hbuildable name key hcontains
  refine ⟨target, hdefine, fun key' hkey' => ?_⟩
  obtain ⟨name', hcontains'⟩ := grammar.exists_contains_of_mem_keys hkey'
  exact ⟨name', hcontains.trans (.deferred hdefine hcontains')⟩

/-- **Keeping what was built is not observed**, in a session of a rule all of whose deferred parts
    can be built. Whatever was asked before, the replies are those that the rule gives in a new
    session, and those of the grammar alone. The log tells of the building of just the cells that
    were built, of each once. This is also the record of what the grammar was asked for: a key is
    looked up by the very step that logs the building of its cell (`Grammar.callKept`), and by no
    other, so the rule of a cell is made at most once. What was built stays, with the same rule. And
    a request whose evaluation begins where that of an earlier one began builds nothing: but for
    events for debugging the session stays as it was. -/
theorem keeping_unobserved (grammar : Grammar κ) (rule : Rule κ)
    (hbuildable : ∀ name key, grammar.Contains rule (.deferred name key) →
      ∃ target, grammar.define key = .ok target) (requests : List Request) :
    let kept := (start rule).1
    let fresh := (start rule).2
    let session := (serveAll grammar kept requests fresh).2
    (serveAll grammar kept requests fresh).1
        = requests.map (fun request => (serve grammar kept request fresh).1) ∧
      (serveAll grammar kept requests fresh).1 = requests.map (grammar.reply rule) ∧
      session.told.Nodup ∧
      (∀ cell, cell ∈ session.told ↔ ∃ built, session.built cell = some built) ∧
      (∀ more, session.Before (serveAll grammar kept more session).2) ∧
      ∀ earlier ∈ requests, ∀ request : Request, earlier.cursor = request.cursor →
        ∃ added, (∀ event ∈ added, event.level = "DEBUG") ∧
          (serve grammar kept request session).2 = session.tell added := by
  intro kept fresh session
  have hprovides := provides_of_contains hbuildable
  obtain ⟨hfresh, henrolled⟩ :=
    keeps_start grammar fun _ hkey => grammar.exists_contains_of_mem_keys hkey
  have hrule : kept.map Occurrence.key = rule := rule.map_number _
  obtain ⟨hreplies, hkeeps, -⟩ := keeps_serveAll hprovides henrolled hfresh requests
  obtain ⟨keys, -, hconsistent⟩ := id hkeeps
  refine ⟨?_, ?_, hconsistent.nodup_told, fun _ => hconsistent.mem_told, fun more => ?_, ?_⟩
  · rw [hreplies]
    exact List.map_congr_left fun request _ =>
      (serve_fst hprovides henrolled hfresh request).symm
  · rw [hreplies, hrule]
  · exact (keeps_serveAll hprovides henrolled hkeeps more).2.2
  · intro earlier hmem request hcursor
    exact events_serveAll hprovides henrolled hfresh hmem hcursor

theorem parentheses_keeping_unobserved :
    let kept := (start (.deferred "outer" () : Rule Unit)).1
    let fresh := (start (.deferred "outer" () : Rule Unit)).2
    let requests : List Request := [.parse "(x)y", .track (.start "x") .empty, .parseAll "()"]
    let session := (serveAll Grammar.parentheses kept requests fresh).2
    (∀ name key, Grammar.parentheses.Contains (.deferred "outer" ()) (.deferred name key) →
        ∃ target, Grammar.parentheses.define key = .ok target) ∧
      (serveAll Grammar.parentheses kept requests fresh).1
        = requests.map (fun request => (serve Grammar.parentheses kept request fresh).1) ∧
      session.told = [1, 0] ∧ session.told.Nodup ∧
      ∃ added, (∀ event ∈ added, event.level = "DEBUG") ∧
        (serve Grammar.parentheses kept (.parseAll "(x)y") session).2 = session.tell added := by
  intro kept fresh requests session
  have hbuildable : ∀ name key,
      Grammar.parentheses.Contains (.deferred "outer" ()) (.deferred name key) →
        ∃ target, Grammar.parentheses.define key = .ok target := fun _ _ _ => ⟨_, rfl⟩
  obtain ⟨hfresh, -, hnodup, -, -, hagain⟩ :=
    keeping_unobserved Grammar.parentheses (.deferred "outer" ()) hbuildable requests
  refine ⟨hbuildable, hfresh, by decide +kernel, hnodup, ?_⟩
  -- Matching all of the text begins where matching from its start has begun.
  exact hagain (.parse "(x)y") List.mem_cons_self (.parseAll "(x)y") rfl

end Session

end AugmentedBnf
