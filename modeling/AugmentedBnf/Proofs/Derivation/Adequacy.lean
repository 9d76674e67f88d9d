import AugmentedBnf.Grammar.Parse
import AugmentedBnf.Proofs.Derivation.Completeness
import AugmentedBnf.Proofs.Derivation.Soundness
import AugmentedBnf.Proofs.Grammar.Unfolding

/-!
# Evaluations and Derivations

An evaluation of a rule, over offsets and spans and with an order in which things are tried, comes
to what the derivations of the rule say, over lists of code points and without any order. Since an
evaluation has one outcome, derivations are unique: a list of code points is matched in one way, or
it is failed on, or the rule defers without end.

**Main statements**: `ends_matched_iff` and `ends_failed_iff` at a cursor between code points,
`evaluation_derives` at every cursor that a start cursor reaches.
-/

namespace AugmentedBnf

variable {κ τ : Type}

open Text (width)
open Cursor (between)

namespace Grammar

variable {grammar : Grammar κ} {rule : Rule κ} {chars left left' : List Char} {tree tree' : Tree}

/-! ## §1 Uniqueness -/

/-- A list of code points is matched in one way. -/
theorem Matches.unique (h : grammar.Matches rule chars tree left)
    (h' : grammar.Matches rule chars tree' left') : tree = tree' ∧ left = left' := by
  -- Both are found by one evaluation.
  obtain ⟨depth, hreads, hreads'⟩ := ((h.reads (τ := Unit)).and (h'.reads (τ := Unit))).exists
  obtain ⟨_, houtcome⟩ := hreads.matched [] (.fresh ())
  obtain ⟨_, houtcome'⟩ := hreads'.matched [] (.fresh ())
  rw [houtcome, Outcome.matched.injEq] at houtcome'
  obtain ⟨hplace, hnext, -⟩ := houtcome'
  obtain ⟨hchars, hleft⟩ := Cursor.between_injective hnext
  exact ⟨Tree.place_injective hchars hplace, hleft⟩

/-- What is matched is not failed on. -/
theorem Matches.not_fails (h : grammar.Matches rule chars tree left) :
    ¬ grammar.Fails rule chars := by
  intro hfails
  obtain ⟨depth, hreads, hrefuses⟩ :=
    ((h.reads (τ := Unit)).and (hfails.refuses (τ := Unit))).exists
  obtain ⟨_, houtcome⟩ := hreads.matched [] (.fresh ())
  obtain ⟨_, _, houtcome'⟩ := hrefuses [] (.fresh ())
  rw [houtcome] at houtcome'
  cases houtcome'

/-! ## §2 Outcomes -/

section Outcomes

variable [Journal τ] {trail : Trail τ}

/-- **A match is a derived one** at the place where the evaluation began. -/
theorem ends_matched_iff {before : List Char} {node : Node} {next : Cursor} :
    (∃ trail', grammar.Ends rule (between before chars) trail (.matched node next trail')) ↔
      ∃ tree left, grammar.Matches rule chars tree left ∧
        node = tree.place (.ofList (before ++ chars)) (width before) ∧
        next = between (before ++ tree.chars) left := by
  constructor
  · rintro ⟨trail', depth, houtcome, -⟩
    have hexplained := grammar.matcher_means depth rule before chars trail
    rw [houtcome] at hexplained
    cases hexplained with
    | matched tree left htree _ hvalue hnext => exact ⟨tree, left, htree, hvalue, hnext⟩
  · rintro ⟨tree, left, htree, rfl, rfl⟩
    obtain ⟨depth, hreads⟩ := (htree.reads (τ := τ)).exists
    obtain ⟨trail', houtcome⟩ := hreads.matched before trail
    exact ⟨trail', depth, houtcome, rfl⟩

/-- **A failure is a derived one.** -/
theorem ends_failed_iff {before : List Char} :
    (∃ failure trail', grammar.Ends rule (between before chars) trail (.failed failure trail')) ↔
      grammar.Fails rule chars := by
  constructor
  · rintro ⟨failure, trail', depth, houtcome, -⟩
    have hexplained := grammar.matcher_means depth rule before chars trail
    rw [houtcome] at hexplained
    cases hexplained with
    | failed hfails => exact hfails
  · intro hfails
    obtain ⟨depth, hrefuses⟩ := (hfails.refuses (τ := τ)).exists
    obtain ⟨failure, trail', houtcome⟩ := hrefuses before trail
    exact ⟨failure, trail', depth, houtcome, rfl⟩

end Outcomes

/-! ## §3 Reached cursors -/

/-- **Evaluations compute derivations.** From a cursor that has passed `count` code points of a
    text, a rule is matched as derived on the code points ahead, with the derived tree at the
    cursor's place and the next cursor behind its code points, and it fails where a failure is
    derived. There is at most one derivation of either kind. In a grammar that lists its keys, the
    evaluation that is bounded by `Grammar.depth` is the one that the derivations speak of. -/
theorem evaluation_derives [Journal τ] (grammar : Grammar κ) (rule : Rule κ) {text : String}
    {count : Nat} {cursor : Cursor} (hcursor : (Cursor.start text).advance count = .ok cursor)
    (trail : Trail τ) :
    (∀ node next, (∃ trail', grammar.Ends rule cursor trail (.matched node next trail')) ↔
      ∃ tree left, grammar.Matches rule (text.toList.drop count) tree left ∧
        node = tree.place text cursor.position ∧
        (Cursor.start text).advance (count + tree.chars.length) = .ok next) ∧
    ((∃ failure trail', grammar.Ends rule cursor trail (.failed failure trail')) ↔
      grammar.Fails rule (text.toList.drop count)) ∧
    (∀ tree left tree' left', grammar.Matches rule (text.toList.drop count) tree left →
      grammar.Matches rule (text.toList.drop count) tree' left' → tree = tree' ∧ left = left') ∧
    (∀ tree left, grammar.Matches rule (text.toList.drop count) tree left →
      ¬ grammar.Fails rule (text.toList.drop count)) ∧
    (grammar.Closed → rule.keys ⊆ grammar.keys → ∀ outcome, outcome.isExhausted = false →
      (grammar.matcher rule cursor trail = outcome ↔ grammar.Ends rule cursor trail outcome)) := by
  rw [Cursor.start_eq_between, Cursor.advance_between, Except.ok.injEq] at hcursor
  subst hcursor
  simp only [List.nil_append]
  refine ⟨fun node next => ?_, ends_failed_iff, fun _ _ _ _ => Matches.unique,
    fun _ _ => Matches.not_fails, fun hclosed hkeys outcome hends => ?_⟩
  · rw [ends_matched_iff, List.take_append_drop, String.ofList_toList, Cursor.position_between]
    refine exists_congr fun tree => exists_congr fun left => ?_
    refine and_congr_right fun htree => and_congr_right fun _ => ?_
    -- Behind the derived tree are the code points that are left.
    have hahead := htree.chars_eq
    have hpassed : text.toList.take (count + tree.chars.length)
        = text.toList.take count ++ tree.chars := by
      rw [List.take_add, hahead, List.take_left]
    have hleft : text.toList.drop (count + tree.chars.length) = left := by
      rw [← List.drop_drop, hahead, List.drop_left]
    rw [Cursor.start_eq_between, Cursor.advance_between, List.nil_append, hpassed, hleft,
      Except.ok.injEq, eq_comm]
  · rw [ends_iff ⟨hclosed, hkeys⟩, and_iff_left hends]

/-- Parentheses around an `x`, within each other to any depth. -/
def parentheses : Grammar Unit where
  keys := [()]
  define _ := .ok (.alternation "nested"
    (.concatenation "group" (.character "open" '(') [.deferred "inner" (), .character "close" ')'])
    [.character "core" 'x'])

theorem parentheses_evaluation_derives :
    (Cursor.start "é(x)y").advance 1 = .ok (.within "é(x)y" 2) ∧ parentheses.Closed ∧
      ∃ tree left, parentheses.Matches (.deferred "outer" ()) ['(', 'x', ')', 'y'] tree left ∧
        ⟨"nested", ⟨"é(x)y", 2, 5⟩, [⟨"group", ⟨"é(x)y", 2, 5⟩,
          [.leaf "open" ⟨"é(x)y", 2, 3⟩,
            ⟨"nested", ⟨"é(x)y", 3, 4⟩, [.leaf "core" ⟨"é(x)y", 3, 4⟩]⟩,
            .leaf "close" ⟨"é(x)y", 4, 5⟩]⟩]⟩ = tree.place "é(x)y" 2 ∧
        (Cursor.start "é(x)y").advance (1 + tree.chars.length) = .ok (.within "é(x)y" 5) := by
  have hcursor : (Cursor.start "é(x)y").advance 1 = .ok (.within "é(x)y" 2) := by decide
  have hclosed : parentheses.Closed := fun _ _ _ _ _ _ => List.mem_singleton.mpr rfl
  obtain ⟨hmatched, -, -, -, hbounded⟩ :=
    evaluation_derives parentheses (.deferred "outer" ()) hcursor (.fresh ())
  refine ⟨hcursor, hclosed, (hmatched _ _).mp ⟨_, (hbounded hclosed ?_ _ rfl).mp rfl⟩⟩
  exact fun _ _ => List.mem_singleton.mpr rfl

/-! ## §4 Whole texts -/

/-- A match from the start of a text is a derived one and ends behind its code points. -/
theorem exists_tree_of_matched {text : String} {depth : Nat} {node : Node} {next : Cursor}
    {trail : Trail Unit}
    (houtcome : rule.matcher (grammar.call depth) (.start text) (.fresh ())
      = .matched node next trail) :
    ∃ tree left, grammar.Matches rule text.toList tree left ∧ node = tree.place text 0 ∧
      next = between tree.chars left := by
  have hexplained := grammar.matcher_means depth rule [] text.toList (.fresh ())
  rw [← Cursor.start_eq_between, houtcome] at hexplained
  cases hexplained with
  | matched tree left htree hchars hvalue hnext =>
    refine ⟨tree, left, htree, ?_, hnext⟩
    rw [hvalue, List.nil_append, String.ofList_toList]
    rfl

/-- All of a text is matched if a match from its start ends where the text does. -/
theorem parseAll_matched_iff {text : String} {node : Node} :
    grammar.parseAll rule text = .ok node ↔
      ∃ next trail, grammar.matcher rule (.start text) (.fresh ()) = .matched node next trail ∧
        next.atEnd = true := by
  unfold parseAll Matcher.parseAll
  -- The beginning is an event, of which no journal is kept.
  have hbegan : grammar.evaluate rule (.start text)
      (.fresh (Journal.happened (.beganAll text.utf8ByteSize rule.name) ()))
        = grammar.matcher rule (.start text) (.fresh ()) := rfl
  simp only [hbegan]
  cases grammar.matcher rule (.start text) (.fresh ()) with
  | matched node next trail =>
    cases hend : next.atEnd <;> simp [hend]
  | failed returned trail => simp
  | aborted cause trail => simp

/-- A whole text is matched as derived. -/
theorem exists_tree_of_parseAll {text : String} {node : Node}
    (h : grammar.parseAll rule text = .ok node) :
    ∃ tree, grammar.Matches rule text.toList tree [] ∧ node = tree.place text 0 := by
  obtain ⟨next, trail, houtcome, hend⟩ := parseAll_matched_iff.mp h
  obtain ⟨tree, left, htree, rfl, rfl⟩ := exists_tree_of_matched houtcome
  obtain rfl : left = [] := by simpa using hend
  exact ⟨tree, htree, rfl⟩

/-- What is derived at the start of a text is matched there. -/
theorem exists_matched_of_matches (hlists : grammar.ListsKeys rule) {text : String}
    (htree : grammar.Matches rule text.toList tree left) :
    ∃ trail, grammar.matcher rule (.start text) (.fresh ())
      = .matched (tree.place text 0) (between tree.chars left) trail := by
  have hmatched : ∃ trail', grammar.Ends rule (between [] text.toList) (.fresh ())
      (.matched (tree.place (.ofList text.toList) 0) (between tree.chars left) trail') :=
    ends_matched_iff.mpr ⟨tree, left, htree, rfl, rfl⟩
  obtain ⟨trail', hends⟩ := hmatched
  have houtcome := ((ends_iff hlists).mp hends).1
  rw [← Cursor.start_eq_between, String.ofList_toList] at houtcome
  exact ⟨trail', houtcome⟩

/-- A derivation that leaves nothing of a text is what is matched of all of it. -/
theorem parseAll_of_matches (hlists : grammar.ListsKeys rule) {text : String}
    (htree : grammar.Matches rule text.toList tree []) :
    grammar.parseAll rule text = .ok (tree.place text 0) := by
  obtain ⟨trail, houtcome⟩ := exists_matched_of_matches hlists htree
  exact parseAll_matched_iff.mpr ⟨_, trail, houtcome, Cursor.atEnd_between _ []⟩

/-- All of a text is matched if a derivation leaves nothing of it. -/
theorem parseAll_ok_iff (hlists : grammar.ListsKeys rule) {text : String} :
    (∃ node, grammar.parseAll rule text = .ok node) ↔
      ∃ tree, grammar.Matches rule text.toList tree [] := by
  constructor
  · rintro ⟨node, hnode⟩
    obtain ⟨tree, htree, -⟩ := exists_tree_of_parseAll hnode
    exact ⟨tree, htree⟩
  · rintro ⟨tree, htree⟩
    exact ⟨_, parseAll_of_matches hlists htree⟩

/-! ## §5 Beginnings of texts -/

/-- A text is matched from its start if the rule matches there, wherever the match ends. -/
theorem parse_matched_iff {text : String} {node : Node} :
    grammar.parse rule text = .ok node ↔
      ∃ next trail, grammar.matcher rule (.start text) (.fresh ()) = .matched node next trail := by
  unfold parse Matcher.parse Matcher.parseFrom
  -- The beginning is an event, of which no journal is kept.
  have hbegan : grammar.evaluate rule (.start text)
      (.fresh (Journal.happened (.began text.utf8ByteSize rule.name) ()))
        = grammar.matcher rule (.start text) (.fresh ()) := rfl
  simp only [hbegan]
  cases grammar.matcher rule (.start text) (.fresh ()) with
  | matched node next trail => simp
  | failed returned trail => simp
  | aborted cause trail => simp

/-- A text is matched from its start as derived. -/
theorem exists_tree_of_parse {text : String} {node : Node}
    (h : grammar.parse rule text = .ok node) :
    ∃ tree left, grammar.Matches rule text.toList tree left ∧ node = tree.place text 0 := by
  obtain ⟨next, trail, houtcome⟩ := parse_matched_iff.mp h
  obtain ⟨tree, left, htree, rfl, -⟩ := exists_tree_of_matched houtcome
  exact ⟨tree, left, htree, rfl⟩

/-- What is derived at the start of a text is what is matched from there. -/
theorem parse_of_matches (hlists : grammar.ListsKeys rule) {text : String}
    (htree : grammar.Matches rule text.toList tree left) :
    grammar.parse rule text = .ok (tree.place text 0) := by
  obtain ⟨trail, houtcome⟩ := exists_matched_of_matches hlists htree
  exact parse_matched_iff.mpr ⟨_, trail, houtcome⟩

end Grammar

end AugmentedBnf
