import AugmentedBnf.Proofs.Derivation.Adequacy
import AugmentedBnf.Proofs.Failure.Missing
import AugmentedBnf.Proofs.Matching.Relocation

/-!
# Failures Are Decided by What Was Read

A reported failure is the deepest one met, so no code point behind it has been looked at. Another
text that is the same up to and including the code point at the failure is therefore refused with
the same failure, whatever comes later, and a match comes out the same if nothing was read behind
it. Rules that ask for the end of the text are an exception, since the end is not a code point.

This holds with any number of unfoldings, since two texts that begin alike need the same number. How
many a text allows for depends on its length, so that evaluations are bounded could make a
difference, but not in a grammar that lists its keys.

**Main statement**: `evaluation_local`.
-/

namespace AugmentedBnf

variable {κ : Type}

open Text (width)
open Cursor (between)

/-! ## §1 Texts that agree -/

namespace Text

/-- The texts agree on their first `length` bytes. -/
def Agree (length : Nat) (text text' : String) : Prop :=
  text.toByteArray.extract 0 length = text'.toByteArray.extract 0 length

/-- A text that agrees with another one on some code points has these code points. -/
theorem exists_tail_of_agree {shared tail : List Char} {text' : String}
    (h : Agree (width shared) (.ofList (shared ++ tail)) text') :
    ∃ tail', text' = .ofList (shared ++ tail') := by
  have hsize : shared.utf8Encode.size = width shared := by
    rw [← utf8ByteSize_ofList, ← String.size_toByteArray, String.toByteArray_ofList]
  have hfront : shared.utf8Encode = text'.toByteArray.extract 0 (width shared) := by
    rw [← h, String.toByteArray_ofList, List.utf8Encode_append]
    exact (ByteArray.extract_append_eq_left hsize.symm).symm
  -- These bytes are whole code points, and the text goes on from there.
  have hbytes : shared.utf8Encode ++ text'.toByteArray.extract (width shared) text'.toByteArray.size
      = text'.toList.utf8Encode := by
    rw [hfront, ByteArray.extract_append_extract, ← String.toByteArray_ofList,
      String.ofList_toList, Nat.zero_min, ByteArray.extract_zero_max_size]
  obtain ⟨tail', htail'⟩ := List.isPrefix_of_utf8Encode_append_eq_utf8Encode _ hbytes
  exact ⟨tail', by rw [htail', String.ofList_toList]⟩

end Text

/-- A failure that stands ahead in a text, and not at its end, is at a code point. A text that
    agrees up to and including that code point begins with the same code points. -/
theorem Failure.StandsAhead.exists_alike {text : String} {failure : Failure}
    (h : failure.StandsAhead [] text.toList) (hlt : failure.position < text.utf8ByteSize) :
    ∃ c, Text.charAt text failure.position = .ok (some c) ∧
      ∀ text', Text.Agree (failure.position + c.utf8Size) text text' →
        ∃ shared tail tail', text = .ofList (shared ++ tail) ∧ text' = .ofList (shared ++ tail') ∧
          width shared = failure.position + c.utf8Size := by
  obtain ⟨passed, rest, hchars, hlocation⟩ := h
  have hposition : failure.position = width passed := by
    rw [Failure.position, hlocation]
    rfl
  have htext : text = .ofList (passed ++ rest) := by
    rw [← hchars, String.ofList_toList]
  cases rest with
  | nil =>
    rw [hposition, htext, List.append_nil, Text.utf8ByteSize_ofList] at hlt
    exact absurd hlt (Nat.lt_irrefl _)
  | cons c rest =>
    refine ⟨c, ?_, fun text' hagree => ?_⟩
    · rw [hposition, htext, Text.charAt_width, List.head?_cons]
    · have hwidth : width (passed ++ [c]) = failure.position + c.utf8Size := by
        simp [hposition]
      have hsplit : text = .ofList ((passed ++ [c]) ++ rest) := by
        rw [htext, List.append_assoc, List.singleton_append]
      rw [← hwidth, hsplit] at hagree
      obtain ⟨tail', htail'⟩ := Text.exists_tail_of_agree hagree
      exact ⟨passed ++ [c], rest, tail', hsplit, htail', hwidth⟩

/-! ## §2 Reported failures -/

namespace Matcher

variable {m : Matcher Unit Node} {name text : String} {failure : Failure}

/-- A failure is reported of a beginning of a text if the matcher fails at its start. -/
theorem parse_failed_iff : (m.parse name text ()).1 = .error (.failure failure) ↔
    ∃ returned trail, m (.start text) (.fresh ()) = .failed returned trail ∧
      trail.deepest.merge returned = failure := by
  unfold parse parseFrom
  -- The beginning is an event, of which no journal is kept.
  have hbegan : m (.start text) (.fresh (Journal.happened (.began text.utf8ByteSize name) ()))
      = m (.start text) (.fresh ()) := rfl
  simp only [hbegan]
  cases m (.start text) (.fresh ()) with
  | matched node next trail => simp
  | failed returned trail => simp
  | aborted cause trail => simp

/-- A failure is reported of a whole text if the matcher fails at its start, or matches less. -/
theorem parseAll_failed_iff : (m.parseAll name text ()).1 = .error (.failure failure) ↔
    (∃ returned trail, m (.start text) (.fresh ()) = .failed returned trail ∧
      trail.deepest.merge returned = failure) ∨
    ∃ node next trail, m (.start text) (.fresh ()) = .matched node next trail ∧
      next.atEnd = false ∧ trail.deepest.merge (.unconsumed next.location) = failure := by
  unfold parseAll
  have hbegan : m (.start text) (.fresh (Journal.happened (.beganAll text.utf8ByteSize name) ()))
      = m (.start text) (.fresh ()) := rfl
  simp only [hbegan]
  cases m (.start text) (.fresh ()) with
  | matched node next trail =>
    cases hend : next.atEnd <;> simp [hend]
  | failed returned trail => simp
  | aborted cause trail => simp

end Matcher

namespace Grammar

section Places

variable {grammar : Grammar κ} {rule : Rule κ} {depth : Nat} {name text : String}
  {failure : Failure}

/-- What is missed from the start of a text is at a place of the text. -/
theorem standsAhead_of_mem_missed (h : failure ∈ grammar.missed depth rule (.start text)) :
    failure.StandsAhead [] text.toList := by
  rw [Cursor.start_eq_between] at h
  exact (misses_of_mem_missed h).standsAhead

theorem standsAhead_of_failed {returned : Failure} {trail : Trail Unit}
    (houtcome : rule.matcher (grammar.call depth) (.start text) (.fresh ())
      = .failed returned trail) :
    (trail.deepest.merge returned).StandsAhead [] text.toList :=
  standsAhead_of_mem_missed (isDeepest_of_failed houtcome).1

section Matched

variable {node : Node} {next : Cursor} {trail : Trail Unit}
  (houtcome : rule.matcher (grammar.call depth) (.start text) (.fresh ())
    = .matched node next trail)

include houtcome

/-- What a match from the start of a text has recorded is at a place of the text. -/
theorem standsAhead_of_recorded (h : failure ∈ trail.deepest.failure) :
    failure.StandsAhead [] text.toList := by
  refine standsAhead_of_mem_missed ((summarise_missed_of_matched houtcome).subset ?_)
  exact Option.mem_toList.mpr h

/-- What is reported of a text that goes on behind a match is at a place of the text. -/
theorem standsAhead_of_leftOver :
    (trail.deepest.merge (.unconsumed next.location)).StandsAhead [] text.toList := by
  have hleft : (Failure.unconsumed next.location).StandsAhead [] text.toList := by
    obtain ⟨tree, left, htree, -, rfl⟩ := exists_tree_of_matched houtcome
    refine ⟨tree.chars, left, htree.chars_eq, ?_⟩
    rw [List.nil_append, List.nil_append, htree.chars_eq]
    exact Cursor.location_between _ _
  -- It is that the text goes on, or a deeper failure that was recorded.
  rcases hdeepest : trail.deepest.failure with _ | recorded
  · simpa only [Deepest.merge, hdeepest] using hleft
  · have hrecorded := standsAhead_of_recorded houtcome hdeepest
    simp only [Deepest.merge, hdeepest, Failure.deeper]
    split
    · exact hrecorded
    · exact hleft

/-- Texts that agree up to the end of a match and up to behind what it has recorded begin alike. -/
theorem exists_alike_of_matched {text' : String}
    (hlt : ∀ failure ∈ trail.deepest.failure, failure.position < text.utf8ByteSize)
    (hagree : Text.Agree next.position text text')
    (hrecorded : ∀ failure ∈ trail.deepest.failure, ∀ c,
      Text.charAt text failure.position = .ok (some c) →
      Text.Agree (failure.position + c.utf8Size) text text') :
    ∃ shared tail tail', text = .ofList (shared ++ tail) ∧ text' = .ofList (shared ++ tail') ∧
      next.position ≤ width shared ∧
      ∀ failure ∈ trail.deepest.failure, failure.position < width shared := by
  obtain ⟨tree, left, htree, -, rfl⟩ := exists_tree_of_matched houtcome
  rw [Cursor.position_between] at hagree ⊢
  -- Up to the end of the match, the texts have the matched code points in common.
  have hpassed : (∀ failure ∈ trail.deepest.failure, failure.position < width tree.chars) →
      ∃ shared tail tail', text = .ofList (shared ++ tail) ∧ text' = .ofList (shared ++ tail') ∧
        width tree.chars ≤ width shared ∧
        ∀ failure ∈ trail.deepest.failure, failure.position < width shared := by
    intro hbelow
    have hsplit : text = .ofList (tree.chars ++ left) := by
      rw [← htree.chars_eq, String.ofList_toList]
    rw [hsplit] at hagree
    obtain ⟨tail', htail'⟩ := Text.exists_tail_of_agree hagree
    exact ⟨tree.chars, left, tail', hsplit, htail', Nat.le_refl _, hbelow⟩
  rcases hdeepest : trail.deepest.failure with _ | recorded
  · rw [hdeepest] at hpassed
    exact hpassed (by simp)
  · have hmem : recorded ∈ trail.deepest.failure := hdeepest
    by_cases hle : width tree.chars ≤ recorded.position
    · -- The recorded failure is behind the match, and the texts are alike up to behind it.
      obtain ⟨c, hc, halike⟩ :=
        (standsAhead_of_recorded houtcome hmem).exists_alike (hlt recorded hmem)
      obtain ⟨shared, tail, tail', htext, htext', hwidth⟩ :=
        halike text' (hrecorded recorded hmem c hc)
      have hpos := c.utf8Size_pos
      refine ⟨shared, tail, tail', htext, htext', by omega, ?_⟩
      rintro failure ⟨⟩
      omega
    · rw [hdeepest] at hpassed
      refine hpassed ?_
      rintro failure ⟨⟩
      exact Nat.not_le.mp hle

end Matched

theorem standsAhead_of_parse
    (h : ((rule.matcher (grammar.call depth)).parse name text ()).1 = .error (.failure failure)) :
    failure.StandsAhead [] text.toList := by
  obtain ⟨returned, trail, houtcome, rfl⟩ := Matcher.parse_failed_iff.mp h
  exact standsAhead_of_failed houtcome

theorem standsAhead_of_parseAll
    (h : ((rule.matcher (grammar.call depth)).parseAll name text ()).1
      = .error (.failure failure)) : failure.StandsAhead [] text.toList := by
  rcases Matcher.parseAll_failed_iff.mp h with ⟨returned, trail, houtcome, rfl⟩ |
    ⟨node, next, trail, houtcome, -, rfl⟩
  · exact standsAhead_of_failed houtcome
  · exact standsAhead_of_leftOver houtcome

theorem standsAhead_of_boundedParseAll
    (h : grammar.parseAll rule text = .error (.failure failure)) :
    failure.StandsAhead [] text.toList := by
  have hdepth : ((rule.matcher (grammar.call (grammar.depth (Cursor.start text).text))).parseAll
      rule.name text ()).1 = .error (.failure failure) := h
  exact standsAhead_of_parseAll hdepth

/-- What there is to say against a text was missed, or it is that the text goes on behind a
    match. -/
theorem misses_of_mem_missedInAll (h : failure ∈ grammar.missedInAll rule text) :
    grammar.Misses rule [] text.toList failure ∨
      ∃ tree c rest, grammar.Matches rule text.toList tree (c :: rest) ∧
        failure = .unconsumed ⟨text, width tree.chars⟩ := by
  have hmissed : ∀ {failure depth}, failure ∈ grammar.missed depth rule (.start text) →
      grammar.Misses rule [] text.toList failure := by
    intro failure depth hmem
    rw [Cursor.start_eq_between] at hmem
    exact misses_of_mem_missed hmem
  unfold missedInAll at h
  simp only at h
  split at h
  case h_1 node next trail houtcome =>
    split at h
    case isTrue => exact .inl (hmissed h)
    case isFalse hleft =>
      rcases List.mem_cons.mp h with rfl | h
      · obtain ⟨tree, left, htree, -, rfl⟩ := exists_tree_of_matched houtcome
        cases left with
        | nil => exact absurd (Cursor.atEnd_between _ []) hleft
        | cons c rest =>
          refine .inr ⟨tree, c, rest, htree, ?_⟩
          rw [Cursor.location_between, ← htree.chars_eq, String.ofList_toList]
      · exact .inl (hmissed h)
  case h_2 => exact .inl (hmissed h)

end Places

/-! ## §3 Evaluations on texts that begin alike -/

section Alike

variable {grammar : Grammar κ} {rule : Rule κ}
  (hnone : ∀ name, ¬ grammar.Contains rule (.endOfText name)) {depth : Nat} {name : String}
  {shared tail : List Char} (tail' : List Char)

include hnone

/-- An evaluation that does not get beyond what the texts have in common goes the same way in
    both. -/
theorem matcher_mirrors_of_alike {outcome : Outcome Unit Node}
    (houtcome : rule.matcher (grammar.call depth) (.start (.ofList (shared ++ tail))) (.fresh ())
      = outcome) :
    outcome.Mirrors ⟨[], shared, tail, tail'⟩ (Node.moved ⟨.ofList (shared ++ tail'), 0⟩)
      (rule.matcher (grammar.call depth) (.start (.ofList (shared ++ tail'))) (.fresh ())) := by
  let overlap : Overlap := ⟨[], shared, tail, tail'⟩
  have hhere : Cursor.start (.ofList (shared ++ tail)) = overlap.here [] shared := by
    rw [Cursor.start_eq_between, String.toList_ofList, Overlap.here]
  have hthere : Cursor.start (.ofList (shared ++ tail')) = overlap.there [] shared := by
    rw [Cursor.start_eq_between, String.toList_ofList, Overlap.there, List.nil_append]
  rw [← houtcome, hhere, hthere]
  exact grammar.matcher_mirrors depth rule (.inr hnone) [] shared (.fresh ()) (.fresh ()) rfl rfl

theorem failed_of_alike {returned : Failure} {trail : Trail Unit}
    (houtcome : rule.matcher (grammar.call depth) (.start (.ofList (shared ++ tail))) (.fresh ())
      = .failed returned trail)
    (hlocal : (trail.deepest.merge returned).position < width shared) :
    ∃ trail', rule.matcher (grammar.call depth) (.start (.ofList (shared ++ tail'))) (.fresh ())
        = .failed (returned.moved ⟨.ofList (shared ++ tail'), 0⟩) trail' ∧
      trail'.deepest = trail.deepest.moved ⟨.ofList (shared ++ tail'), 0⟩ := by
  have hescapes : ¬ (Outcome.failed returned trail : Outcome Unit Node).Escapes (width shared) :=
    fun hescapes => absurd (Deepest.le_position_merge.mpr hescapes) (Nat.not_le.mpr hlocal)
  have hmirrors := matcher_mirrors_of_alike hnone tail' houtcome
  generalize rule.matcher (grammar.call depth) (.start (.ofList (shared ++ tail'))) (.fresh ())
    = outcome at hmirrors ⊢
  cases hmirrors with
  | failed htrail => exact ⟨_, rfl, htrail⟩
  | escaped _ h => exact absurd h hescapes

theorem matched_of_alike {node : Node} {next : Cursor} {trail : Trail Unit}
    (houtcome : rule.matcher (grammar.call depth) (.start (.ofList (shared ++ tail))) (.fresh ())
      = .matched node next trail)
    (hnext : next.position ≤ width shared)
    (hrecorded : ∀ failure ∈ trail.deepest.failure, failure.position < width shared) :
    ∃ before ahead trail', before ++ ahead = shared ∧ next = between before (ahead ++ tail) ∧
      rule.matcher (grammar.call depth) (.start (.ofList (shared ++ tail'))) (.fresh ())
        = .matched (node.moved ⟨.ofList (shared ++ tail'), 0⟩) (between before (ahead ++ tail'))
          trail' ∧
      trail'.deepest = trail.deepest.moved ⟨.ofList (shared ++ tail'), 0⟩ := by
  have hescapes : ¬ (Outcome.matched node next trail).Escapes (width shared) := by
    rintro (hlt | ⟨failure, hfailure, hle⟩)
    · exact absurd hlt (Nat.not_lt.mpr hnext)
    · exact absurd hle (Nat.not_le.mpr (hrecorded failure hfailure))
  have hmirrors := matcher_mirrors_of_alike hnone tail' houtcome
  generalize rule.matcher (grammar.call depth) (.start (.ofList (shared ++ tail'))) (.fresh ())
    = outcome at hmirrors ⊢
  cases hmirrors with
  | @matched _ before ahead _ trail' hshared htrail =>
    exact ⟨before, ahead, trail', hshared, rfl, rfl, htrail⟩
  | escaped _ h => exact absurd h hescapes

/-- A failure of a beginning of a text is that of any text that agrees up to behind it. -/
theorem parse_failed_of_alike {failure : Failure}
    (h : ((rule.matcher (grammar.call depth)).parse name (.ofList (shared ++ tail)) ()).1
      = .error (.failure failure))
    (hlocal : failure.position < width shared) :
    ((rule.matcher (grammar.call depth)).parse name (.ofList (shared ++ tail')) ()).1
      = .error (.failure (failure.moved ⟨.ofList (shared ++ tail'), 0⟩)) := by
  obtain ⟨returned, trail, houtcome, rfl⟩ := Matcher.parse_failed_iff.mp h
  obtain ⟨trail', houtcome', htrail⟩ := failed_of_alike hnone tail' houtcome hlocal
  refine Matcher.parse_failed_iff.mpr ⟨_, trail', houtcome', ?_⟩
  rw [htrail, Deepest.merge_moved]

/-- A failure of a whole text is that of any text that agrees up to behind it. -/
theorem parseAll_failed_of_alike {failure : Failure}
    (h : ((rule.matcher (grammar.call depth)).parseAll name (.ofList (shared ++ tail)) ()).1
      = .error (.failure failure))
    (hlocal : failure.position < width shared) :
    ((rule.matcher (grammar.call depth)).parseAll name (.ofList (shared ++ tail')) ()).1
      = .error (.failure (failure.moved ⟨.ofList (shared ++ tail'), 0⟩)) := by
  rcases Matcher.parseAll_failed_iff.mp h with ⟨returned, trail, houtcome, rfl⟩ |
    ⟨node, next, trail, houtcome, hend, rfl⟩
  · obtain ⟨trail', houtcome', htrail⟩ := failed_of_alike hnone tail' houtcome hlocal
    refine Matcher.parseAll_failed_iff.mpr (.inl ⟨_, trail', houtcome', ?_⟩)
    rw [htrail, Deepest.merge_moved]
  · -- The reported failure is not before the end of the match, nor before a recorded one.
    have hbelow := mt Deepest.le_position_merge.mpr (Nat.not_le.mpr hlocal)
    rw [not_or, Nat.not_le] at hbelow
    obtain ⟨hnext, hrecorded⟩ := hbelow
    have hnext : next.position < width shared := hnext
    obtain ⟨before, ahead, trail', rfl, rfl, houtcome', htrail⟩ :=
      matched_of_alike hnone tail' houtcome (Nat.le_of_lt hnext)
        fun failure hfailure => Nat.not_le.mp fun hle => hrecorded ⟨failure, hfailure, hle⟩
    -- So the match ends within what the texts have in common, and the other one goes on as well.
    have hahead : ahead ≠ [] := by
      rintro rfl
      simp at hnext
    refine Matcher.parseAll_failed_iff.mpr (.inr ⟨_, _, trail', houtcome', by simp [hahead], ?_⟩)
    rw [htrail, ← Deepest.merge_moved]
    simp [Failure.moved, Location.moved]

end Alike

/-! ## §4 Locality -/

/-- A failure that `parse` reports of the text, and that is not at its end, is at a code point, and
    is reported of every text that agrees up to and including that code point, at the same place
    there. -/
def FailsLocally (parse : String → Except Stop Node) (text : String) : Prop :=
  ∀ failure, parse text = .error (.failure failure) → failure.position < text.utf8ByteSize →
    ∃ c, Text.charAt text failure.position = .ok (some c) ∧
      ∀ text', Text.Agree (failure.position + c.utf8Size) text text' →
        parse text' = .error (.failure (failure.moved ⟨text', 0⟩))

/-- A match of a beginning of the text that has recorded no failure, or one that is not at the end
    of the text and so at a code point, comes out the same on every text that agrees up to the end
    of the match and, if there is a recorded failure, up to and including the code point at it. -/
def MatchesLocally (m : Matcher Unit Node) (text : String) : Prop :=
  ∀ node next trail, m (.start text) (.fresh ()) = .matched node next trail →
    (∀ failure ∈ trail.deepest.failure, failure.position < text.utf8ByteSize) →
    (∀ failure ∈ trail.deepest.failure,
      ∃ c, Text.charAt text failure.position = .ok (some c)) ∧
    ∀ text', Text.Agree next.position text text' →
      (∀ failure ∈ trail.deepest.failure, ∀ c,
        Text.charAt text failure.position = .ok (some c) →
        Text.Agree (failure.position + c.utf8Size) text text') →
      ∃ next' trail', m (.start text') (.fresh ()) = .matched (node.moved ⟨text', 0⟩) next' trail' ∧
        next'.position = next.position ∧ trail'.deepest = trail.deepest.moved ⟨text', 0⟩

section Entries

variable {parse parse' : String → Except Stop Node} {text : String}

/-- What is reported at places of the text, and again of each text that begins alike, is reported
    locally. -/
theorem FailsLocally.of_alike
    (hplace : ∀ {failure}, parse text = .error (.failure failure) →
      failure.StandsAhead [] text.toList)
    (halike : ∀ {shared tail} tail' {failure}, parse (.ofList (shared ++ tail))
        = .error (.failure failure) → failure.position < width shared →
      parse (.ofList (shared ++ tail'))
        = .error (.failure (failure.moved ⟨.ofList (shared ++ tail'), 0⟩))) :
    FailsLocally parse text := by
  intro failure h hlt
  obtain ⟨c, hc, hbegins⟩ := (hplace h).exists_alike hlt
  refine ⟨c, hc, fun text' hagree => ?_⟩
  obtain ⟨shared, tail, tail', rfl, rfl, hwidth⟩ := hbegins text' hagree
  have hpos := c.utf8Size_pos
  exact halike tail' h (by omega)

/-- It is enough to know which failures are reported of the text itself: those of the other texts
    follow. -/
theorem FailsLocally.of_subsumes (h : FailsLocally parse text) (hhere : parse' text = parse text)
    (hothers : ∀ {text' failure}, parse text' = .error (.failure failure) →
      parse' text' = .error (.failure failure)) : FailsLocally parse' text := by
  intro failure hfailed hlt
  obtain ⟨c, hc, halike⟩ := h failure (hhere ▸ hfailed) hlt
  exact ⟨c, hc, fun text' hagree => hothers (halike text' hagree)⟩

end Entries

section Unfoldings

variable {grammar : Grammar κ} {rule : Rule κ}
  (hnone : ∀ name, ¬ grammar.Contains rule (.endOfText name)) (depth : Nat) (name text : String)

include hnone

theorem failsLocally_parse :
    FailsLocally (fun text => ((rule.matcher (grammar.call depth)).parse name text ()).1) text :=
  .of_alike standsAhead_of_parse (parse_failed_of_alike hnone)

theorem failsLocally_parseAll :
    FailsLocally (fun text => ((rule.matcher (grammar.call depth)).parseAll name text ()).1)
      text :=
  .of_alike standsAhead_of_parseAll (parseAll_failed_of_alike hnone)

theorem matchesLocally_matcher : MatchesLocally (rule.matcher (grammar.call depth)) text := by
  intro node next trail h hlt
  refine ⟨fun failure hfailure => ?_, fun text' hagree hrecorded => ?_⟩
  · obtain ⟨c, hc, -⟩ := (standsAhead_of_recorded h hfailure).exists_alike (hlt failure hfailure)
    exact ⟨c, hc⟩
  · obtain ⟨shared, tail, tail', rfl, rfl, hnext, hbelow⟩ :=
      exists_alike_of_matched h hlt hagree hrecorded
    obtain ⟨before, ahead, trail', -, rfl, houtcome', htrail⟩ :=
      matched_of_alike hnone tail' h hnext hbelow
    exact ⟨_, trail', houtcome', by simp, htrail⟩

end Unfoldings

/-! ## §5 Evaluations as they are bounded -/

section Bounded

variable {grammar : Grammar κ} {rule : Rule κ} (hlists : grammar.ListsKeys rule) {depth : Nat}
  {text : String} {failure : Failure}

include hlists

/-- An outcome that some number of unfoldings leads to is that of the bounded evaluation. -/
theorem matcher_of_depth {outcome : Outcome Unit Node}
    (houtcome : rule.matcher (grammar.call depth) (.start text) (.fresh ()) = outcome)
    (hends : outcome.isExhausted = false) :
    grammar.matcher rule (.start text) (.fresh ()) = outcome := by
  rw [Cursor.start_eq_between] at houtcome ⊢
  exact ((ends_iff hlists).mp ⟨depth, houtcome, hends⟩).1

theorem parse_of_depth
    (h : ((rule.matcher (grammar.call depth)).parse rule.name text ()).1
      = .error (.failure failure)) : grammar.parse rule text = .error (.failure failure) := by
  obtain ⟨returned, trail, houtcome, hfailure⟩ := Matcher.parse_failed_iff.mp h
  exact Matcher.parse_failed_iff.mpr
    ⟨returned, trail, matcher_of_depth hlists houtcome rfl, hfailure⟩

theorem parseAll_of_depth
    (h : ((rule.matcher (grammar.call depth)).parseAll rule.name text ()).1
      = .error (.failure failure)) : grammar.parseAll rule text = .error (.failure failure) := by
  rcases Matcher.parseAll_failed_iff.mp h with ⟨returned, trail, houtcome, hfailure⟩ |
    ⟨node, next, trail, houtcome, hend, hfailure⟩
  · exact Matcher.parseAll_failed_iff.mpr
      (.inl ⟨returned, trail, matcher_of_depth hlists houtcome rfl, hfailure⟩)
  · exact Matcher.parseAll_failed_iff.mpr
      (.inr ⟨node, next, trail, matcher_of_depth hlists houtcome rfl, hend, hfailure⟩)

variable (hnone : ∀ name, ¬ grammar.Contains rule (.endOfText name)) (text)

include hnone

theorem failsLocally_boundedParse : FailsLocally (grammar.parse rule) text :=
  (failsLocally_parse hnone (grammar.depth (Cursor.start text).text) rule.name text).of_subsumes rfl
    (parse_of_depth hlists)

theorem failsLocally_boundedParseAll : FailsLocally (grammar.parseAll rule) text :=
  (failsLocally_parseAll hnone (grammar.depth (Cursor.start text).text) rule.name text).of_subsumes
    rfl (parseAll_of_depth hlists)

theorem matchesLocally_evaluate : MatchesLocally (grammar.evaluate rule) text := by
  intro node next trail h hlt
  obtain ⟨hpoints, hothers⟩ :=
    matchesLocally_matcher hnone (grammar.depth (Cursor.start text).text) text node next trail h hlt
  refine ⟨hpoints, fun text' hagree hrecorded => ?_⟩
  obtain ⟨next', trail', houtcome', hsame⟩ := hothers text' hagree hrecorded
  exact ⟨next', trail', matcher_of_depth hlists houtcome' rfl, hsame⟩

/-- A text that goes on as another one does up to and including the code point at its failure is not
    matched either. -/
theorem parseAll_failed_of_next {passed rest : List Char} {c : Char}
    (h : grammar.parseAll rule (.ofList (passed ++ c :: rest)) = .error (.failure failure))
    (hposition : failure.position = width passed) (more : List Char) :
    ∃ failure', grammar.parseAll rule (.ofList (passed ++ c :: more))
      = .error (.failure failure') := by
  have hlocal : failure.position < width (passed ++ [c]) := by
    have hc := c.utf8Size_pos
    simp only [hposition, Text.width_append, Text.width_cons, Text.width_nil]
    omega
  have hshared : ∀ ahead, passed ++ c :: ahead = (passed ++ [c]) ++ ahead := by simp
  rw [hshared] at h ⊢
  exact ⟨_, parseAll_of_depth hlists (parseAll_failed_of_alike hnone more h hlocal)⟩

end Bounded

/-- **Evaluations are decided by what they read.** Let a rule not ask for the end of the text. What
    is reported of a text, or matched of it, is that of every text that agrees with it as far as
    the evaluation has read, with any number of unfoldings, and in a grammar that lists its keys
    also as evaluations are bounded. -/
theorem evaluation_local {grammar : Grammar κ} {rule : Rule κ}
    (hnone : ∀ name, ¬ grammar.Contains rule (.endOfText name)) (text : String) :
    (∀ depth,
      FailsLocally (fun text => ((rule.matcher (grammar.call depth)).parse rule.name text ()).1)
        text ∧
      FailsLocally (fun text => ((rule.matcher (grammar.call depth)).parseAll rule.name text ()).1)
        text ∧
      MatchesLocally (rule.matcher (grammar.call depth)) text) ∧
    (grammar.Closed → rule.keys ⊆ grammar.keys →
      FailsLocally (grammar.parse rule) text ∧ FailsLocally (grammar.parseAll rule) text ∧
        MatchesLocally (grammar.evaluate rule) text) :=
  ⟨fun depth => ⟨failsLocally_parse hnone depth rule.name text,
      failsLocally_parseAll hnone depth rule.name text, matchesLocally_matcher hnone depth text⟩,
    fun hclosed hkeys => ⟨failsLocally_boundedParse ⟨hclosed, hkeys⟩ text hnone,
      failsLocally_boundedParseAll ⟨hclosed, hkeys⟩ text hnone,
      matchesLocally_evaluate ⟨hclosed, hkeys⟩ text hnone⟩⟩

/-- Angle brackets around an `x`, within each other to any depth. Each depth has a key of its own,
    so no list has them all. -/
def brackets : Grammar Nat where
  keys := []
  define depth := .ok (.alternation "nested"
    (.concatenation "group" (.character "open" '<')
      [.deferred "inner" (depth + 1), .character "close" '>'])
    [.character "core" 'x'])

theorem brackets_evaluation_local :
    let rule : Rule Nat := .deferred "outer" 0
    let matcher : Matcher Unit Node := rule.matcher (brackets.call 2)
    (∀ name, ¬ brackets.Contains rule (.endOfText name)) ∧ ¬ rule.keys ⊆ brackets.keys ∧
      Text.Agree 4 "<xé" "<xé>" ∧
      (matcher.parse "outer" "<xé" ()).1
        = .error (.failure (.mismatch "close" "'>'" 'é' ⟨"<xé", 2⟩)) ∧
      (matcher.parse "outer" "<xé>" ()).1
        = .error (.failure (.mismatch "close" "'>'" 'é' ⟨"<xé>", 2⟩)) ∧
      (∃ trail, matcher (.start "xy") (.fresh ())
        = .matched ⟨"nested", ⟨"xy", 0, 1⟩, [.leaf "core" ⟨"xy", 0, 1⟩]⟩ (.within "xy" 1) trail) ∧
      ∃ next trail, matcher (.start "x") (.fresh ())
        = .matched ⟨"nested", ⟨"x", 0, 1⟩, [.leaf "core" ⟨"x", 0, 1⟩]⟩ next trail ∧
          next.position = 1 := by
  intro rule matcher
  have hnone : ∀ name, ¬ brackets.Contains rule (.endOfText name) :=
    Grammar.not_contains_endOfText (by rintro key rule ⟨⟩; rfl) rfl
  have hkeys : ¬ rule.keys ⊆ brackets.keys := by
    intro hkeys
    cases hkeys (List.mem_singleton.mpr rfl)
  have hagree : Text.Agree 4 "<xé" "<xé>" := by
    unfold Text.Agree
    decide
  have hagree' : Text.Agree 1 "xy" "x" := by
    unfold Text.Agree
    decide
  obtain ⟨hparse, -, -⟩ := (evaluation_local hnone "<xé").1 2
  obtain ⟨-, -, hmatched⟩ := (evaluation_local hnone "xy").1 2
  -- The code point at the failure is the one that was found.
  obtain ⟨c, hc, hothers⟩ := hparse _ rfl (by decide)
  obtain rfl : 'é' = c := by
    have hfound : Text.charAt "<xé" 2 = .ok (some 'é') := rfl
    exact Option.some.inj (Except.ok.inj (hfound.symm.trans hc))
  obtain ⟨-, hothers'⟩ := hmatched _ _ _ rfl (by
    rintro failure ⟨⟩
    decide)
  obtain ⟨next, trail, houtcome, hnext, -⟩ := hothers' "x" hagree' (by
    rintro failure ⟨⟩ c hc
    obtain rfl : 'x' = c := by
      have hx : Text.charAt "xy" 0 = .ok (some 'x') := rfl
      exact Option.some.inj (Except.ok.inj (hx.symm.trans hc))
    exact hagree')
  exact ⟨hnone, hkeys, hagree, rfl, hothers "<xé>" hagree, ⟨_, rfl⟩, next, trail, houtcome, hnext⟩

end Grammar

end AugmentedBnf
