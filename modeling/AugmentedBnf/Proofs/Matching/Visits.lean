import AugmentedBnf.Proofs.Derivation.Adequacy
import AugmentedBnf.Proofs.Failure.Missing

/-!
# Cursors Stand on Code Points

A cursor can be made for any offset of a text, one inside a code point or beyond the last one
included. Such a cursor cannot be read, or it differs from the one that has ended at the same
offset. None of them comes up: a cursor that the start cursor moves to stands on a code point or has
ended, and the cursors that an evaluation from there comes to (`Visits`) are again moved to. So the
text can be read wherever an evaluation reads it, and its cursors are told apart by their offsets.

The cursors that an evaluation comes to are defined along with the parts of a rule. None is left out
that has to do with a failure: whatever is missed is missed at one of them
(`exists_visits_of_mem_missed`).

**Main statement**: `cursors_stand_on_codePoints`.
-/

namespace AugmentedBnf

variable {κ ι τ : Type}

open Text (width)
open Cursor (between)

/-! ## §1 Cursors that are moved to -/

namespace Cursor

variable {text : String} {cursor next last : Cursor} {count count' : Nat}

/-- Moving some number of times leads from the cursor to the next one. -/
def MovesTo (cursor next : Cursor) : Prop := ∃ count, cursor.advance count = .ok next

theorem MovesTo.refl (cursor : Cursor) : cursor.MovesTo cursor := ⟨0, rfl⟩

theorem advance_add (h : cursor.advance count = .ok next) (count' : Nat) :
    cursor.advance (count + count') = next.advance count' := by
  induction count generalizing cursor with
  | zero =>
    obtain rfl := Except.ok.inj h
    rw [Nat.zero_add]
  | succ count ih =>
    rw [Nat.add_right_comm, advance]
    rw [advance] at h
    split at h
    case h_1 moved hmoved => rw [ih h]
    case h_2 fault hfault => cases h

theorem MovesTo.trans (h : cursor.MovesTo next) (hlast : next.MovesTo last) :
    cursor.MovesTo last := by
  obtain ⟨count, hcount⟩ := h
  obtain ⟨count', hcount'⟩ := hlast
  exact ⟨count + count', (advance_add hcount count').trans hcount'⟩

/-- The cursors that a text's start cursor moves to are those between its code points. -/
theorem movesTo_iff : (start text).MovesTo cursor ↔ cursor.Within text.toList := by
  constructor
  · rintro ⟨count, hcount⟩
    rw [start_eq_between, advance_between, Except.ok.injEq] at hcount
    exact ⟨_, _, List.take_append_drop count _, hcount.symm⟩
  · rintro ⟨before, after, htext, rfl⟩
    refine ⟨before.length, ?_⟩
    rw [start_eq_between, advance_between, ← htext, List.take_left, List.drop_left, List.nil_append]

/-- With a code point left to stand on, the cursor is at its offset. -/
theorem advance_start_of_lt (h : count < text.toList.length) :
    (start text).advance count = .ok (.within text (width (text.toList.take count))) ∧
      (Cursor.within text (width (text.toList.take count))).value = .ok text.toList[count] := by
  have hsplit : text.toList.take count ++ text.toList[count] :: text.toList.drop (count + 1)
      = text.toList := by
    rw [List.getElem_cons_drop, List.take_append_drop]
  have hcursor : between (text.toList.take count)
      (text.toList[count] :: text.toList.drop (count + 1))
      = .within text (width (text.toList.take count)) := by
    rw [between, hsplit, String.ofList_toList]
  constructor
  · rw [start_eq_between, advance_between, List.nil_append, List.drop_eq_getElem_cons h, hcursor]
  · rw [← hcursor, value_between_cons]

/-- With all code points passed, the cursor has ended. -/
theorem advance_start_of_le (h : text.toList.length ≤ count) :
    (start text).advance count = .ok (.ended text) := by
  rw [start_eq_between, advance_between, List.nil_append, List.take_of_length_le h,
    List.drop_of_length_le h, between, String.ofList_toList]

theorem position_le_of_movesTo (h : (start text).MovesTo cursor) (hnext : cursor.MovesTo next) :
    cursor.position ≤ next.position := by
  obtain ⟨before, after, -, rfl⟩ := movesTo_iff.mp h
  obtain ⟨count, hcount⟩ := hnext
  rw [advance_between, Except.ok.injEq] at hcount
  rw [← hcount, position_between, position_between, Text.width_append]
  exact Nat.le_add_right _ _

/-- **Cursors that are moved to in a text are told apart by their offsets.** -/
theorem eq_iff_position_eq (h : (start text).MovesTo cursor) (hnext : (start text).MovesTo next) :
    cursor = next ↔ cursor.position = next.position := by
  obtain ⟨before, after, htext, rfl⟩ := movesTo_iff.mp h
  obtain ⟨before', after', htext', rfl⟩ := movesTo_iff.mp hnext
  refine ⟨congrArg position, fun hposition => ?_⟩
  -- Both cut the same code points in two, and what is in front of them has the same width.
  rw [position_between, position_between] at hposition
  obtain rfl := Text.eq_of_width_eq (htext.trans htext'.symm) hposition
  rw [List.append_cancel_left (htext.trans htext'.symm)]

/-- Where a cursor is moved to, the text can be read. -/
theorem value_ne_slice (h : (start text).MovesTo cursor) (fault : SliceFault) :
    cursor.value ≠ .error (.abort (.slice fault)) := by
  obtain ⟨before, after, -, rfl⟩ := movesTo_iff.mp h
  cases after with
  | nil => simp
  | cons c rest => simp

theorem exists_next (h : (start text).MovesTo cursor) : ∃ moved, cursor.next = .ok moved := by
  obtain ⟨before, after, -, rfl⟩ := movesTo_iff.mp h
  exact ⟨_, next_between before after⟩

end Cursor

/-! ## §2 Cursors that are visited -/

namespace Grammar

/-- The rule matches what lies between the two cursors. -/
def Leads (grammar : Grammar κ) (rule : Rule κ) (cursor next : Cursor) : Prop :=
  ∃ node trail, grammar.Ends rule cursor (.fresh ()) (.matched node next trail)

/-- The rule does not match at the cursor. -/
def Halts (grammar : Grammar κ) (rule : Rule κ) (cursor : Cursor) : Prop :=
  ∃ failure trail, grammar.Ends rule cursor (.fresh ()) (.failed failure trail)

/-- The rules match one after the other what lies between the two cursors. -/
inductive LeadsEach (grammar : Grammar κ) : List (Rule κ) → Cursor → Cursor → Prop where
  | nil (cursor : Cursor) : LeadsEach grammar [] cursor cursor
  | cons {rule : Rule κ} {rules : List (Rule κ)} {cursor next last : Cursor}
      (hfirst : grammar.Leads rule cursor next) (hrest : LeadsEach grammar rules next last) :
      LeadsEach grammar (rule :: rules) cursor last

/-- So many rounds of the element match what lies between the two cursors, and none of them leaves
    as much of the text as there was. -/
inductive LeadsRounds (grammar : Grammar κ) (element : Rule κ) : Nat → Cursor → Cursor → Prop where
  | zero (cursor : Cursor) : LeadsRounds grammar element 0 cursor cursor
  | succ {count : Nat} {cursor next last : Cursor} (hfirst : grammar.Leads element cursor next)
      (hprogress : next.remaining < cursor.remaining)
      (hrest : LeadsRounds grammar element count next last) :
      LeadsRounds grammar element (count + 1) cursor last

/-- `Visits grammar rule cursor met`: an evaluation of the rule at the cursor comes to the cursor
    `met`, since it begins or ends there or a part of it does. -/
inductive Visits (grammar : Grammar κ) : Rule κ → Cursor → Cursor → Prop where
  | start (rule : Rule κ) (cursor : Cursor) : Visits grammar rule cursor cursor
  | finish {rule : Rule κ} {cursor next : Cursor} (h : grammar.Leads rule cursor next) :
      Visits grammar rule cursor next
  /-- A member of a concatenation is evaluated where the earlier ones have led to. -/
  | concatenation {name : String} {first member : Rule κ} {rest earlier later : List (Rule κ)}
      {cursor next met : Cursor} (hmembers : first :: rest = earlier ++ member :: later)
      (hearlier : grammar.LeadsEach earlier cursor next) (hmember : Visits grammar member next met) :
      Visits grammar (.concatenation name first rest) cursor met
  /-- A member of an alternation is evaluated at the same cursor, if the earlier ones fail. -/
  | alternation {name : String} {first member : Rule κ} {rest earlier later : List (Rule κ)}
      {cursor met : Cursor} (hmembers : first :: rest = earlier ++ member :: later)
      (hearlier : ∀ other ∈ earlier, grammar.Halts other cursor)
      (hmember : Visits grammar member cursor met) :
      Visits grammar (.alternation name first rest) cursor met
  /-- A repeated element is evaluated where earlier rounds have led to, if there may be another. -/
  | repetition {name : String} {bounds : Bounds} {element : Rule κ} {count : Nat}
      {cursor next met : Cursor} (hearlier : grammar.LeadsRounds element count cursor next)
      (hroom : bounds.allowsMore count = true) (helement : Visits grammar element next met) :
      Visits grammar (.repetition name bounds element) cursor met
  | deferred {name : String} {key : κ} {rule : Rule κ} {cursor met : Cursor}
      (hdefine : grammar.define key = .ok rule) (hrule : Visits grammar rule cursor met) :
      Visits grammar (.deferred name key) cursor met

variable {grammar : Grammar κ} {rule element : Rule κ} {rules : List (Rule κ)} {text : String}
  {count : Nat} {cursor next met : Cursor}

section Evaluation

variable [Journal τ] {trail trail' : Trail τ}

/-- A match ends where the cursor that it began at moves to. -/
theorem Ends.movesTo {node : Node} (hcursor : (Cursor.start text).MovesTo cursor)
    (h : grammar.Ends rule cursor trail (.matched node next trail')) : cursor.MovesTo next := by
  obtain ⟨before, after, -, rfl⟩ := Cursor.movesTo_iff.mp hcursor
  obtain ⟨tree, left, htree, -, rfl⟩ := ends_matched_iff.mp ⟨trail', h⟩
  -- The match takes up the code points of its tree, and each of them is one move.
  refine ⟨tree.chars.length, ?_⟩
  rw [Cursor.advance_between, htree.chars_eq, List.take_left, List.drop_left]

/-- With any number of unfoldings, an evaluation reads the text only where it can be read. -/
theorem matcher_ne_slice (hcursor : (Cursor.start text).MovesTo cursor) (depth : Nat)
    (fault : SliceFault) :
    rule.matcher (grammar.call depth) cursor trail ≠ .aborted (.slice fault) trail' := by
  obtain ⟨before, after, -, rfl⟩ := Cursor.movesTo_iff.mp hcursor
  have hexplained := grammar.matcher_means depth rule before after trail
  intro houtcome
  -- If it is abandoned, then for another cause.
  rw [houtcome] at hexplained
  cases hexplained with
  | aborted hcause => exact hcause fault rfl

end Evaluation

theorem Leads.movesTo (hcursor : (Cursor.start text).MovesTo cursor)
    (h : grammar.Leads rule cursor next) : cursor.MovesTo next := by
  obtain ⟨_, _, hends⟩ := h
  exact hends.movesTo hcursor

theorem LeadsEach.movesTo (hcursor : (Cursor.start text).MovesTo cursor)
    (h : grammar.LeadsEach rules cursor next) : cursor.MovesTo next := by
  induction h with
  | nil cursor => exact .refl cursor
  | cons hfirst _ ih =>
    have hnext := hfirst.movesTo hcursor
    exact hnext.trans (ih (hcursor.trans hnext))

theorem LeadsRounds.movesTo (hcursor : (Cursor.start text).MovesTo cursor)
    (h : grammar.LeadsRounds element count cursor next) : cursor.MovesTo next := by
  induction h with
  | zero cursor => exact .refl cursor
  | succ hfirst _ _ ih =>
    have hnext := hfirst.movesTo hcursor
    exact hnext.trans (ih (hcursor.trans hnext))

/-- **An evaluation only comes to cursors that the one it begins at moves to.** -/
theorem Visits.movesTo (hcursor : (Cursor.start text).MovesTo cursor)
    (h : grammar.Visits rule cursor met) : cursor.MovesTo met := by
  induction h with
  | start rule cursor => exact .refl cursor
  | finish hleads => exact hleads.movesTo hcursor
  -- A part begins at a cursor that is moved to, so the induction goes on from there.
  | concatenation _ hearlier _ ih =>
    have hnext := hearlier.movesTo hcursor
    exact hnext.trans (ih (hcursor.trans hnext))
  | alternation _ _ _ ih => exact ih hcursor
  | repetition hearlier _ _ ih =>
    have hnext := hearlier.movesTo hcursor
    exact hnext.trans (ih (hcursor.trans hnext))
  | deferred _ _ ih => exact ih hcursor

/-! ## §3 Failures are met at visited cursors -/

section Failures

variable {before chars left : List Char} {parts : List Tree} {failure : Failure}

theorem Matches.leads {tree : Tree} (h : grammar.Matches rule chars tree left)
    (before : List Char) :
    grammar.Leads rule (between before chars) (between (before ++ tree.chars) left) :=
  ⟨_, ends_matched_iff.mpr ⟨tree, left, h, rfl, rfl⟩⟩

theorem MatchesEach.leadsEach (h : grammar.MatchesEach rules chars parts left)
    (before : List Char) : grammar.LeadsEach rules (between before chars)
      (between (before ++ Tree.charsAmong parts) left) := by
  induction rules generalizing before chars parts with
  | nil =>
    cases h
    rw [Tree.charsAmong_nil, List.append_nil]
    exact .nil _
  | cons rule rules ih =>
    cases h with
    | cons hfirst hrest =>
      rw [Tree.charsAmong_cons, ← List.append_assoc]
      exact .cons (hfirst.leads before) (ih hrest _)

/-- Parts that each take up a code point are rounds that each make progress. -/
theorem MatchesEach.leadsRounds
    (h : grammar.MatchesEach (List.replicate parts.length element) chars parts left)
    (hadvance : ∀ part ∈ parts, part.chars ≠ []) (before : List Char) :
    grammar.LeadsRounds element parts.length (between before chars)
      (between (before ++ Tree.charsAmong parts) left) := by
  induction parts generalizing before chars with
  | nil =>
    cases h
    rw [Tree.charsAmong_nil, List.append_nil]
    exact .zero _
  | cons part parts ih =>
    obtain ⟨hpart, hparts⟩ := List.forall_mem_cons.mp hadvance
    cases h with
    | @cons _ _ _ _ _ middle _ hfirst hrest =>
      rw [Tree.charsAmong_cons, ← List.append_assoc]
      refine .succ (hfirst.leads before) ?_ (ih hrest hparts _)
      have hwidth := mt Text.width_eq_zero_iff.mp hpart
      rw [Cursor.remaining_between, Cursor.remaining_between, hfirst.chars_eq, Text.width_append]
      omega

/-- What a rule may miss it misses at a cursor that it visits. -/
theorem Misses.exists_visits (h : grammar.Misses rule before chars failure) :
    ∃ met, grammar.Visits rule (between before chars) met ∧ failure.location = met.location := by
  induction h with
  | character_end | character_mismatch | range_end | range_mismatch | endOfText =>
    exact ⟨_, .start _ _, by simp [Failure.location]⟩
  | concatenation hmembers hparts _ ih =>
    obtain ⟨met, hmet, hlocation⟩ := ih
    exact ⟨met, .concatenation hmembers (hparts.leadsEach _) hmet, hlocation⟩
  | alternation hmembers hearlier _ ih =>
    obtain ⟨met, hmet, hlocation⟩ := ih
    refine ⟨met, .alternation hmembers (fun other hother => ?_) hmet, hlocation⟩
    exact ends_failed_iff.mpr (hearlier other hother)
  | repetition hparts hroom hadvance _ ih =>
    obtain ⟨met, hmet, hlocation⟩ := ih
    exact ⟨met, .repetition (hparts.leadsRounds hadvance _) (Bounds.allowsMore_iff.mpr hroom) hmet,
      hlocation⟩
  | deferred hdefine _ ih =>
    obtain ⟨met, hmet, hlocation⟩ := ih
    exact ⟨met, .deferred hdefine hmet, hlocation⟩

/-- **Every failure that an evaluation meets is met at a cursor that it visits**, whether the
    evaluation recovers from it or not. -/
theorem exists_visits_of_mem_missed {depth : Nat} (hcursor : (Cursor.start text).MovesTo cursor)
    (h : failure ∈ grammar.missed depth rule cursor) :
    ∃ met, grammar.Visits rule cursor met ∧ failure.location = met.location := by
  obtain ⟨before, after, -, rfl⟩ := Cursor.movesTo_iff.mp hcursor
  exact (misses_of_mem_missed h).exists_visits

end Failures

/-! ## §4 Texts -/

/-- **Cursors stand on code points.** However often the start cursor of a text moves, it does not
    come off the text: as long as there are code points left to stand on, it is at the offset that
    the code points before it take up and reads the next one, and then it has ended and reads none.
    Moving does not lead back. Where an evaluation begins at such a cursor, its match ends at one
    that this cursor moves to, it is never abandoned since the text cannot be read, and all cursors
    that it visits are ones that this cursor moves to, where the text can be read. Any two cursors
    that are visited by evaluations of one text are the same if they are at the same offset. -/
theorem cursors_stand_on_codePoints [Journal τ] (grammar : Grammar κ) (grammar' : Grammar ι)
    (text : String) :
    (∀ count, ∃ cursor, (Cursor.start text).advance count = .ok cursor ∧
      (∀ hcount : count < text.toList.length,
        cursor = .within text (width (text.toList.take count)) ∧
          cursor.value = .ok text.toList[count]) ∧
      (text.toList.length ≤ count →
        cursor = .ended text ∧ cursor.position = text.utf8ByteSize ∧
          cursor.value = .error (.failure (.unexpectedEnd ⟨text, text.utf8ByteSize⟩)))) ∧
    (∀ count cursor, (Cursor.start text).advance count = .ok cursor →
      (∀ more next, cursor.advance more = .ok next → cursor.position ≤ next.position) ∧
      ∀ rule : Rule κ,
        (∀ (trail trail' : Trail τ) node next,
          grammar.Ends rule cursor trail (.matched node next trail') →
          (∃ more, cursor.advance more = .ok next) ∧ cursor.position ≤ next.position) ∧
        (∀ depth (trail trail' : Trail τ) fault,
          rule.matcher (grammar.call depth) cursor trail ≠ .aborted (.slice fault) trail') ∧
        ∀ met, grammar.Visits rule cursor met →
          (∃ more, cursor.advance more = .ok met) ∧ cursor.position ≤ met.position ∧
            (∀ fault, met.value ≠ .error (.abort (.slice fault))) ∧
            ∃ moved, met.next = .ok moved) ∧
    ∀ count cursor count' cursor', (Cursor.start text).advance count = .ok cursor →
      (Cursor.start text).advance count' = .ok cursor' →
      ∀ (rule : Rule κ) (rule' : Rule ι) met met', grammar.Visits rule cursor met →
        grammar'.Visits rule' cursor' met' → (met = met' ↔ met.position = met'.position) := by
  refine ⟨fun count => ?_, fun count cursor hcount => ?_, ?_⟩
  · rcases Nat.lt_or_ge count text.toList.length with hlt | hle
    · obtain ⟨hcursor, hvalue⟩ := Cursor.advance_start_of_lt hlt
      exact ⟨_, hcursor, fun _ => ⟨rfl, hvalue⟩, fun hle => absurd hle (Nat.not_le.mpr hlt)⟩
    · exact ⟨_, Cursor.advance_start_of_le hle, fun hlt => absurd hle (Nat.not_le.mpr hlt),
        fun _ => ⟨rfl, rfl, rfl⟩⟩
  · have hcursor : (Cursor.start text).MovesTo cursor := ⟨count, hcount⟩
    refine ⟨fun more next hnext => Cursor.position_le_of_movesTo hcursor ⟨more, hnext⟩,
      fun rule => ⟨fun trail trail' node next hends => ?_,
        fun depth _ _ fault => matcher_ne_slice hcursor depth fault, fun met hvisits => ?_⟩⟩
    · have hnext := hends.movesTo hcursor
      exact ⟨hnext, Cursor.position_le_of_movesTo hcursor hnext⟩
    · have hmet := hvisits.movesTo hcursor
      have hstart := hcursor.trans hmet
      exact ⟨hmet, Cursor.position_le_of_movesTo hcursor hmet, Cursor.value_ne_slice hstart,
        Cursor.exists_next hstart⟩
  · intro count cursor count' cursor' hcount hcount' rule rule' met met' hvisits hvisits'
    have hcursor : (Cursor.start text).MovesTo cursor := ⟨count, hcount⟩
    have hcursor' : (Cursor.start text).MovesTo cursor' := ⟨count', hcount'⟩
    exact Cursor.eq_iff_position_eq (hcursor.trans (hvisits.movesTo hcursor))
      (hcursor'.trans (hvisits'.movesTo hcursor'))

/-- The parentheses begin behind an accented letter, and end in front of the last code point. -/
theorem parentheses_cursors_stand_on_codePoints :
    (Cursor.start "é(x)y").advance 1 = .ok (.within "é(x)y" 2) ∧
      (Cursor.within "é(x)y" 2).value = .ok '(' ∧
      ∃ node trail, parentheses.Ends (.deferred "outer" ()) (.within "é(x)y" 2) (.fresh ())
          (.matched node (.within "é(x)y" 5) trail) ∧
        (∃ more, (Cursor.within "é(x)y" 2).advance more = .ok (.within "é(x)y" 5)) ∧
        (∃ moved, (Cursor.within "é(x)y" 5).next = .ok moved) ∧
        (Cursor.within "é(x)y" 2 = .within "é(x)y" 5 ↔ 2 = 5) := by
  have hcursor : (Cursor.start "é(x)y").advance 1 = .ok (.within "é(x)y" 2) := by decide
  have hends : parentheses.Ends (.deferred "outer" ()) (.within "é(x)y" 2) (.fresh ()) _ :=
    ⟨2, rfl, rfl⟩
  obtain ⟨hmoves, hevaluation, happart⟩ :=
    cursors_stand_on_codePoints (τ := Unit) parentheses parentheses "é(x)y"
  obtain ⟨-, hrule⟩ := hevaluation 1 _ hcursor
  obtain ⟨hmatch, -, hvisits⟩ := hrule (.deferred "outer" ())
  obtain ⟨cursor, hadvance, hwithin, -⟩ := hmoves 1
  obtain rfl := Except.ok.inj (hcursor.symm.trans hadvance)
  have hfinish : parentheses.Visits (.deferred "outer" ()) (.within "é(x)y" 2)
      (.within "é(x)y" 5) := .finish ⟨_, _, hends⟩
  exact ⟨hcursor, (hwithin (by decide)).2, _, _, hends, (hmatch _ _ _ _ hends).1,
    (hvisits _ hfinish).2.2.2, happart 1 _ 1 _ hcursor hcursor _ _ _ _
      (.start (.deferred "outer" ()) _) hfinish⟩

end Grammar

end AugmentedBnf
