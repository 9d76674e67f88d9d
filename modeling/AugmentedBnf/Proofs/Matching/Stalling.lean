import AugmentedBnf.Proofs.Derivation.Soundness
import AugmentedBnf.Proofs.Failure.Record
import AugmentedBnf.Proofs.Matching.Continuation

/-!
# Rounds without Progress

A repetition stops at the first match that does not move the cursor on. A loop that is told how
often to try would go on there (`Matcher.insist`). Since an evaluation does not look at what was
recorded before it, each further round finds the same match again and records nothing new
(`insistFrom_stalled`). So the loop comes to the same outcome as the repetition, with copies of the
last match behind the others; in particular these copies make up for matches that a minimum asks
for.

Without an upper bound the loop has to be told a number of rounds that is large enough. One more
than there are code points ahead will do, since each round before the last takes one of them.

**Main statement**: `repetition_stops_early`.
-/

namespace AugmentedBnf

variable {κ τ : Type}

open Text (width)
open Cursor (between)

/-! ## §1 A loop that does not stop early -/

namespace Matcher

/-- The element up to `more` times after it has matched `count` times, whether or not the cursor
    moves on. A failure with fewer than `min` matches is the failure of the loop; a later one is
    recovered from and ends it. -/
def insistFrom (min : Nat) (element : Matcher τ Node) (count : Nat) : Nat → Matcher τ (List Node)
  | 0 => fun cursor trail => .matched [] cursor trail
  | more + 1 => fun cursor trail =>
    (element cursor trail).andThen
      (fun child next trail =>
        (insistFrom min element (count + 1) more next trail).map (child :: ·))
      (fun failure trail =>
        if count < min then .failed failure trail else .matched [] cursor (trail.recover failure))

/-- The element `size` times in a row, or as often as it matches but at least `min` times. -/
def insist (min size : Nat) (element : Matcher τ Node) : Matcher τ (List Node) :=
  insistFrom min element 0 size

variable {min size count more : Nat} {element : Matcher τ Node} {cursor next : Cursor}
  {trail trail' : Trail τ} {child : Node} {children : List Node}

/-- The loop has as many rounds as it is told to have, or enough of them. -/
theorem length_of_insistFrom (hmin : min ≤ count + more)
    (h : insistFrom min element count more cursor trail = .matched children next trail') :
    min ≤ count + children.length ∧ children.length ≤ more := by
  induction more generalizing count cursor trail children with
  | zero =>
    cases h
    exact ⟨hmin, Nat.le_refl 0⟩
  | succ more ih =>
    unfold insistFrom at h
    cases houtcome : element cursor trail with
    | matched child middle after =>
      simp only [houtcome, Outcome.andThen_matched] at h
      cases hrest : insistFrom min element (count + 1) more middle after with
      | matched later last final =>
        rw [hrest] at h
        cases h
        obtain ⟨henough, hle⟩ := ih (by omega) hrest
        simp only [List.length_cons]
        omega
      | failed failure final =>
        rw [hrest] at h
        cases h
      | aborted cause final =>
        rw [hrest] at h
        cases h
    | failed failure after =>
      simp only [houtcome, Outcome.andThen_failed] at h
      by_cases hfew : count < min
      · rw [if_pos hfew] at h
        cases h
      · rw [if_neg hfew] at h
        cases h
        exact ⟨Nat.not_lt.mp hfew, Nat.zero_le _⟩
    | aborted cause after =>
      rw [houtcome] at h
      cases h

theorem length_of_insist {name : String} {node : Node} (hmin : min ≤ size)
    (h : Matcher.node name (insist min size element) cursor trail = .matched node next trail') :
    min ≤ node.children.length ∧ node.children.length ≤ size := by
  unfold Matcher.node at h
  cases houtcome : insist min size element cursor trail with
  | matched children last after =>
    rw [houtcome] at h
    cases h
    rw [← Nat.zero_add size] at hmin
    have hlength := length_of_insistFrom hmin houtcome
    rwa [Nat.zero_add] at hlength
  | failed failure after =>
    rw [houtcome] at h
    cases h
  | aborted cause after =>
    rw [houtcome] at h
    cases h

/-- A round that leaves everything as it was is repeated to the end. -/
theorem insistFrom_stalled (h : element cursor trail = .matched child cursor trail) :
    insistFrom min element count more cursor trail
      = .matched (List.replicate more child) cursor trail := by
  induction more generalizing count with
  | zero => rfl
  | succ more ih =>
    unfold insistFrom
    simp only [h, Outcome.andThen_matched, ih, Outcome.map_matched, List.replicate_succ]

end Matcher

/-! ## §2 Copies of the last match -/

namespace Node

/-- The nodes, and behind them copies of the last one up to `size` nodes, if it is empty. -/
def padded (size : Nat) (nodes : List Node) : List Node :=
  match nodes.getLast? with
  | none => nodes
  | some last =>
    if last.span.isEmpty then nodes ++ List.replicate (size - nodes.length) last else nodes

/-- The node with copies of its last child up to `size` children, if that child is empty. -/
def withCopies (size : Nat) (node : Node) : Node :=
  { node with children := padded size node.children }

variable {size : Nat} {child : Node}

theorem padded_singleton (hempty : child.span.isEmpty) :
    padded (size + 1) [child] = List.replicate (size + 1) child := by
  simp [padded, hempty, List.replicate_succ]

/-- A node that is not empty stays in front of the others. -/
theorem padded_cons (hchild : child.span.isEmpty = false) (nodes : List Node) :
    padded (size + 1) (child :: nodes) = child :: padded size nodes := by
  cases nodes with
  | nil => simp [padded, hchild]
  | cons other nodes =>
    simp only [padded, List.getLast?_cons_cons, List.length_cons, Nat.add_sub_add_right]
    rcases (other :: nodes).getLast? with _ | last
    · rfl
    · by_cases hempty : last.span.isEmpty
      · simp only [hempty, if_true, List.cons_append]
      · simp only [hempty, if_false, Bool.false_eq_true]

end Node

/-! ## §3 The loop and the repetition -/

/-- A placed tree is empty if it has no code points. -/
theorem Tree.isEmpty_span_place (tree : Tree) (text : String) (offset : Nat) :
    (tree.place text offset).span.isEmpty = decide (tree.chars = []) := by
  have hstays : offset = offset + width tree.chars ↔ tree.chars = [] := by
    rw [← Text.width_eq_zero_iff]
    omega
  rw [Tree.span_place]
  exact decide_eq_decide.mpr hstays

namespace Matcher

/-- What was matched without progress is matched again, and nothing is recorded by that. -/
def Stalls (m : Matcher τ Node) : Prop :=
  ∀ cursor trail trail' child, m cursor trail = .matched child cursor trail' →
    m cursor trail' = .matched child cursor trail'

/-- The loop has as many rounds left as the repetition may have, or more than enough for the code
    points ahead if that has no bound. -/
def Enough (bounds : Bounds) (count more : Nat) (chars : List Char) : Prop :=
  bounds.max = some (count + more) ∨ bounds.max = none ∧ chars.length < more

namespace Enough

variable {bounds : Bounds} {chars part left : List Char}

theorem not_allowsMore (h : Enough bounds count 0 chars) : ¬ bounds.allowsMore count := by
  rw [Bounds.allowsMore_iff]
  intro hroom
  rcases h with hmax | ⟨-, hlt⟩
  · exact absurd (hroom count hmax) (Nat.lt_irrefl count)
  · exact absurd hlt (Nat.not_lt_zero _)

theorem allowsMore (h : Enough bounds count (more + 1) chars) : bounds.allowsMore count := by
  rw [Bounds.allowsMore_iff]
  intro max hmax
  rcases h with hsome | ⟨hnone, -⟩
  · obtain rfl := Option.some.inj (hsome.symm.trans hmax)
    omega
  · rw [hnone] at hmax
    cases hmax

/-- A round that takes a code point leaves enough for those behind it. -/
theorem next (h : Enough bounds count (more + 1) (part ++ left)) (hpart : part ≠ []) :
    Enough bounds (count + 1) more left := by
  refine h.imp (fun hmax => ?_) fun hnone => ⟨hnone.1, ?_⟩
  · rw [hmax, Nat.add_right_comm, Nat.add_assoc]
  · have hpos := List.length_pos_iff.mpr hpart
    have hlength := hnone.2
    rw [List.length_append] at hlength
    omega

end Enough

variable {m m' : Matcher Unit Node} {M : List Char → Tree → List Char → Prop}
  {F : List Char → Prop} {text : List Char}

/-- The loop does as the repetition as long as both go on. It is enough that their matchers agree
    in the text that is matched. -/
theorem insistFrom_eq_repeatFrom (hmeans : m'.Means M F) (hstalls : m'.Stalls)
    (hagree : ∀ before chars, before ++ chars = text →
      m (between before chars) = m' (between before chars))
    (bounds : Bounds) {count more : Nat} {before chars : List Char}
    (henough : Enough bounds count more chars) (htext : before ++ chars = text)
    (trail : Trail Unit) :
    insistFrom bounds.min m count more (between before chars) trail
      = (repeatFrom bounds m' count (between before chars) trail).map (Node.padded more) := by
  induction more generalizing count before chars trail with
  | zero =>
    rw [repeatFrom_andThen]
    simp only [henough.not_allowsMore, if_false, Bool.false_eq_true]
    rfl
  | succ more ih =>
    have hexplained := hmeans before chars trail
    rw [repeatFrom_andThen]
    unfold insistFrom
    rw [hagree before chars htext]
    simp only [henough.allowsMore, if_true]
    cases houtcome : m' (between before chars) trail with
    | matched child next after =>
      rw [houtcome] at hexplained
      obtain ⟨tree, left, -, rfl, rfl, rfl⟩ := hexplained
      simp only [Outcome.andThen_matched, Cursor.remaining_between]
      by_cases hempty : tree.chars = []
      · -- The cursor is where it was, so all further rounds are this one again.
        have hstays : between (before ++ tree.chars) left = between before (tree.chars ++ left) := by
          rw [hempty, List.append_nil, List.nil_append]
        have hchild := (tree.isEmpty_span_place (.ofList (before ++ (tree.chars ++ left)))
          (width before)).trans (decide_eq_true hempty)
        have hwidth : ¬ width left < width (tree.chars ++ left) := by
          rw [hempty]
          exact Nat.lt_irrefl _
        rw [hstays] at houtcome ⊢
        have hstalled := hstalls _ _ _ _ houtcome
        rw [← hagree before _ htext] at hstalled
        rw [insistFrom_stalled hstalled, if_neg hwidth, Outcome.map_matched, Outcome.map_matched,
          Node.padded_singleton hchild, List.replicate_succ]
      · have hchild := (tree.isEmpty_span_place (.ofList (before ++ (tree.chars ++ left)))
          (width before)).trans (decide_eq_false hempty)
        have hprogress : width left < width (tree.chars ++ left) := by
          have hne : width tree.chars ≠ 0 := fun hzero => hempty (Text.width_eq_zero_iff.mp hzero)
          rw [Text.width_append]
          omega
        rw [← List.append_assoc] at htext
        rw [if_pos hprogress, ih (henough.next hempty) htext]
        cases repeatFrom bounds m' (count + 1) (between (before ++ tree.chars) left) after with
        | matched children last final =>
          simp only [Outcome.map_matched, Outcome.andThen_matched]
          rw [Node.padded_cons hchild]
        | failed failure final => rfl
        | aborted cause final => rfl
    | failed failure after =>
      simp only [Outcome.andThen_failed]
      by_cases hfew : count < bounds.min
      · simp only [hfew, if_true, Outcome.map_failed]
      · simp only [hfew, if_false, Outcome.map_matched]
        rfl
    | aborted cause after => rfl

end Matcher

/-! ## §4 Rules -/

/-- What was recorded behind an earlier record is not recorded again. -/
theorem Deepest.after_after (earlier later : Deepest) :
    (earlier.after later).after later = earlier.after later := by
  rcases earlier with ⟨_ | first⟩
  · rcases later with ⟨_ | second⟩
    · rfl
    · simp only [after, Failure.deeper_self]
  · rcases later with ⟨_ | second⟩
    · rfl
    · simp only [after, Failure.deeper_assoc, Failure.deeper_self]

/-- An outcome without a journal is known by its answer, if it is a match. -/
theorem Outcome.eq_matched_of_answer {outcome : Outcome Unit Node} {node : Node} {next : Cursor}
    {trail : Trail Unit} (h : outcome.answer = .ok ⟨.ok (node, next), trail.deepest⟩) :
    outcome = .matched node next trail := by
  cases outcome with
  | matched node' next' trail' =>
    simp only [Outcome.answer, Except.ok.injEq, Answer.mk.injEq, Prod.mk.injEq] at h
    obtain ⟨⟨rfl, rfl⟩, hdeepest⟩ := h
    show Outcome.matched node' next' ⟨trail'.deepest, ()⟩ = _
    rw [hdeepest]
  | failed failure trail' => cases h
  | aborted cause trail' => cases h

namespace Grammar

variable (grammar : Grammar κ)

/-- Whatever is recorded before it, an evaluation matches the same. -/
theorem matcher_stalls (depth : Nat) (rule : Rule κ) :
    (rule.matcher (grammar.call depth) : Matcher Unit Node).Stalls := by
  intro cursor trail trail' child houtcome
  have hfirst := grammar.answer_after depth rule cursor trail.deepest () ()
  have hagain := grammar.answer_after depth rule cursor trail'.deepest () ()
  change (rule.matcher (grammar.call depth) cursor trail).answer = _ at hfirst
  change (rule.matcher (grammar.call depth) cursor trail').answer = _ at hagain
  apply Outcome.eq_matched_of_answer
  rw [hagain]
  rw [houtcome] at hfirst
  cases hown : (rule.matcher (grammar.call depth) cursor (.fresh ())).answer with
  | error cause =>
    rw [hown] at hfirst
    cases hfirst
  | ok own =>
    rw [hown] at hfirst
    simp only [Outcome.answer, Except.map, Answer.after, Except.ok.injEq, Answer.mk.injEq]
      at hfirst ⊢
    obtain ⟨hresult, hdeepest⟩ := hfirst
    -- The record of its own is behind the earlier one already.
    exact ⟨hresult.symm, by rw [hdeepest, Deepest.after_after]⟩

/-- In one text an evaluation always has the same number of unfoldings. -/
theorem evaluate_between {text : String} {before chars : List Char} (rule : Rule κ)
    (htext : before ++ chars = text.toList) :
    grammar.evaluate rule (between before chars)
      = rule.matcher (grammar.call (grammar.depth text)) (between before chars) := by
  unfold evaluate matcher
  rw [Cursor.text_between, htext, String.ofList_toList]

/-- **Stopping early loses nothing but copies.** From a cursor that has passed `count` code points
    of a text, the loop that does not stop early comes to the same outcome as the repetition: the
    same failure, or the same cursor and span, and the same record. Its children are those of the
    repetition with copies of the last one behind them if that one is empty. Without an upper bound
    this holds for every number of rounds above that of the code points ahead. The loop has rounds
    enough for the minimum, so an empty match at the end of a repetition stands for all that the
    minimum asks for. -/
theorem repetition_stops_early (element : Rule κ) (name : String) (bounds : Bounds) {text : String}
    {count size : Nat} {cursor : Cursor} (hcursor : (Cursor.start text).advance count = .ok cursor)
    (hsize : bounds.max = some size ∨
      bounds.max = none ∧ bounds.min ≤ size ∧ (text.toList.drop count).length < size)
    (trail : Trail Unit) :
    Matcher.node name (.insist bounds.min size (grammar.evaluate element)) cursor trail
        = (grammar.evaluate (.repetition name bounds element) cursor trail).map
          (Node.withCopies size) ∧
      ∀ node next trail',
        Matcher.node name (.insist bounds.min size (grammar.evaluate element)) cursor trail
          = .matched node next trail' →
        bounds.min ≤ node.children.length ∧ node.children.length ≤ size := by
  rw [Cursor.start_eq_between, Cursor.advance_between, Except.ok.injEq, List.nil_append] at hcursor
  subst hcursor
  have htext : text.toList.take count ++ text.toList.drop count = text.toList :=
    List.take_append_drop count text.toList
  have henough : Matcher.Enough bounds 0 size (text.toList.drop count) := by
    rw [Matcher.Enough, Nat.zero_add]
    exact hsize.imp_right fun hnone => ⟨hnone.1, hnone.2.2⟩
  have hloop := Matcher.insistFrom_eq_repeatFrom
    (grammar.matcher_means (grammar.depth text) element)
    (grammar.matcher_stalls (grammar.depth text) element)
    (fun _ _ => grammar.evaluate_between element) bounds henough htext trail
  constructor
  · rw [grammar.evaluate_between _ htext, Rule.matcher_repetition, Matcher.node_andThen,
      Matcher.node_andThen, Outcome.map_andThen]
    simp only [Matcher.insist, hloop, Outcome.andThen_map]
    rfl
  · intro node next trail' hmatched
    have hmin : bounds.min ≤ size := hsize.elim (bounds.ordered size) fun hnone => hnone.2.1
    exact Matcher.length_of_insist hmin hmatched

/-- An `x`, or the end of the text, which takes nothing. -/
def crossOrEnd : Rule Empty :=
  .alternation "either" (.character "x" 'x') [.endOfText "end"]

/-- A minimum of three is met by one `x` and one empty match, or by that match three times. -/
theorem crossOrEnd_repetition_stops_early :
    let grammar : Grammar Empty := ⟨[], nofun⟩
    let bounds : Bounds := ⟨3, some 4, by simp⟩
    let cursor : Cursor := .within "yx" 1
    let cross : Node := ⟨"either", ⟨"yx", 1, 2⟩, [.leaf "x" ⟨"yx", 1, 2⟩]⟩
    let nothing : Node := ⟨"either", ⟨"yx", 2, 2⟩, [.leaf "end" ⟨"yx", 2, 2⟩]⟩
    let trail : Trail Unit := ⟨⟨some (.unexpectedEnd ⟨"yx", 2⟩)⟩, ()⟩
    (Cursor.start "yx").advance 1 = .ok cursor ∧
      grammar.evaluate (.repetition "all" bounds crossOrEnd) cursor (.fresh ())
        = .matched ⟨"all", ⟨"yx", 1, 2⟩, [cross, nothing]⟩ (.ended "yx") trail ∧
      Matcher.node "all" (.insist 3 4 (grammar.evaluate crossOrEnd)) cursor (.fresh ())
        = .matched ⟨"all", ⟨"yx", 1, 2⟩, [cross, nothing, nothing, nothing]⟩ (.ended "yx")
          trail := by
  intro grammar bounds cursor cross nothing trail
  have hcursor : (Cursor.start "yx").advance 1 = .ok cursor := by decide
  obtain ⟨hsame, -⟩ := repetition_stops_early grammar crossOrEnd "all" bounds hcursor (.inl rfl)
    (.fresh ())
  have hstopped : grammar.evaluate (.repetition "all" bounds crossOrEnd) cursor (.fresh ())
      = .matched ⟨"all", ⟨"yx", 1, 2⟩, [cross, nothing]⟩ (.ended "yx") trail := by
    decide +kernel
  rw [hstopped] at hsame
  exact ⟨hcursor, hstopped, hsame⟩

end Grammar

end AugmentedBnf
