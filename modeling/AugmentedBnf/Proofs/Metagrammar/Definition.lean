import AugmentedBnf.Proofs.Derivation.Adequacy
import AugmentedBnf.Proofs.Metagrammar.Line
import AugmentedBnf.Proofs.Node.Naming

/-!
# Definitions Are Found

A definition of a grammar text starts with its name at the start of a line, and it goes on up to
the next line that does not start with a blank. So its start can be told from a single code point.
The tree of the text has one `rule` node for each such line and no others, and a `rulename` node for
the name in front of everything else in it.

**Main statement**: `findAll_rule_of_parseAll`.
-/

namespace AugmentedBnf.Metagrammar

open Computability
open CoreRules Rule
open Text (width)

variable {text : String} {before chars left : List Char} {tree : Tree}

/-! ## §1 Names -/

/-- A letter, a digit or a hyphen, as a name goes on with them. -/
def isNameChar (c : Char) : Bool := c.isAlphanum || c = '-'

/-- The code points that a name is made of. -/
def nameRanges : List (Char × Char) := [('A', 'Z'), ('a', 'z'), ('0', '9'), ('-', '-')]

theorem covers_letters_iff {c : Char} : Covers [('A', 'Z'), ('a', 'z')] c ↔ c.isAlpha := by
  unfold Covers Char.isAlpha Char.isUpper Char.isLower
  simp only [List.mem_cons, List.not_mem_nil, or_false, exists_eq_or_imp, exists_eq_left,
    Char.le_def, Bool.or_eq_true, Bool.and_eq_true, decide_eq_true_eq]

theorem covers_digits_iff {c : Char} : Covers [('0', '9')] c ↔ c.isDigit := by
  unfold Covers Char.isDigit
  simp only [List.mem_singleton, exists_eq_left, Char.le_def, Bool.and_eq_true, decide_eq_true_eq]

theorem covers_nameRanges_iff (c : Char) : Covers nameRanges c ↔ isNameChar c := by
  have hsplit : nameRanges = [('A', 'Z'), ('a', 'z')] ++ ([('0', '9')] ++ [('-', '-')]) := rfl
  have hhyphen : Covers [('-', '-')] c ↔ c = '-' := by
    unfold Covers
    simp only [List.mem_singleton, exists_eq_left]
    constructor
    · intro ⟨hlow, hhigh⟩
      exact Char.le_antisymm hhigh hlow
    · intro hc
      rw [hc]
      exact ⟨Char.le_refl _, Char.le_refl _⟩
  rw [hsplit, covers_append, covers_append, covers_letters_iff, covers_digits_iff, hhyphen,
    ← or_assoc]
  unfold isNameChar Char.isAlphanum
  simp only [Bool.or_eq_true, decide_eq_true_eq]

/-- **A name is as long as it can be.** -/
theorem takeWhile_of_matches_rulename (h : grammar.Matches rulename chars tree left) :
    chars.takeWhile isNameChar = tree.chars := by
  have hword := h.mem_language language_le_deferred
  apply h.takeWhile_eq covers_nameRanges_iff (language_le_within rfl hword)
  cases h with
  | concatenation hparts =>
    cases hparts with
    | cons hletter hrest =>
      cases hrest with
      | cons hmore hnone =>
        cases hnone
        -- Behind the letter in front, there is all that a name can go on with.
        have hfails := hmore.fails_of_repetition language_le_deferred rfl
          fun hnil => ne_nil_of_mem_language rfl rfl hnil rfl
        exact Grammar.notAhead_of_fails rfl hfails

/-! ## §2 Nodes of definitions -/

/-- The node ends just behind a line feed, and the first name in it spans the longest run of
    letters, digits and hyphens from where the node starts. -/
structure IsDefinition (text : String) (node : Node) : Prop where
  lineFeed : ∃ lineFeed, Text.charAt text lineFeed = .ok (some '\n') ∧ node.stop = lineFeed + 1
  rulename : ∃ name front back, node.find "rulename" = some name ∧
    text = .ofList (front ++ back) ∧ node.start = width front ∧
    name.span = ⟨text, node.start, node.start + width (back.takeWhile isNameChar)⟩

/-- **A definition has one node**, within which there are no others. -/
theorem findAll_of_matches_rule (h : grammar.Matches rule chars tree left) (text : String)
    (offset : Nat) : (tree.place text offset).findAll "rule" = [tree.place text offset] := by
  cases h with
  | concatenation hparts =>
    rw [Tree.place_node, Node.findAll, if_pos rfl]
    -- No rule within is named as a definition is.
    rw [hparts.findAllAmong_eq_nil (all_of_define (by decide)) (List.all_eq_true.mp (by decide))]

theorem isDefinition_of_matches_rule (h : grammar.Matches rule chars tree left)
    (htext : text = .ofList (before ++ chars)) :
    IsDefinition text (tree.place text (width before)) := by
  constructor
  case lineFeed =>
    have hword := h.mem_language language_le_deferred
    rw [language_rule] at hword
    obtain ⟨front, -, hfront⟩ := exists_unbroken_of_mem_line (.inl hword)
    refine ⟨width (before ++ front), ?_, ?_⟩
    · have hchars : before ++ chars = (before ++ front) ++ '\n' :: left := by
        rw [h.chars_eq, hfront]
        simp
      rw [htext, hchars, Text.charAt_width, List.head?_cons]
    · rw [Node.stop, Tree.span_place, hfront]
      simp only [Text.width_append, Nat.add_assoc]
      rfl
  case rulename =>
    cases h with
    | concatenation hparts =>
      cases hparts with
      | @cons _ _ _ _ _ name _ hname hrest =>
        refine ⟨name.place text (width before), before, chars, ?_, htext, ?_, ?_⟩
        · cases hname
          rfl
        · rw [Node.start, Tree.span_place]
        · rw [Node.start, Tree.span_place, Tree.span_place, takeWhile_of_matches_rulename hname]

/-! ## §3 Nodes of lines -/

/-- `*c-wsp c-nl`, blanks up to the end of a line. -/
def blankLine : Rule Deferral := .concatenation "*c-wsp c-nl" blanks [cNl]

/-- `rule / (*c-wsp c-nl)` -/
def line : Rule Deferral := .alternation "rule / (*c-wsp c-nl)" rule [blankLine]

theorem language_line :
    line.language deferred = Production.rule + Production.cWsp∗ * Production.cNl := by
  simp [line, blankLine]

/-- A definition starts with a letter. -/
theorem isLetterAt_of_matches_rule (h : grammar.Matches rule chars tree left)
    (htext : text = .ofList (before ++ chars)) : isLetterAt text (width before) := by
  have hword := h.mem_language language_le_deferred
  have hahead := ahead_of_mem_language rfl rfl hword left
  rw [← h.chars_eq] at hahead
  cases chars with
  | nil => exact absurd h.chars_eq.symm (by simp [ne_nil_of_mem_language rfl rfl hword])
  | cons c rest =>
    rw [htext, isLetterAt_width, List.head?_cons, Option.any_some]
    exact covers_letters_iff.mp (hahead c rfl)

/-- A blank line does not start with a letter. -/
theorem not_isLetterAt_of_matches_blankLine (h : grammar.Matches blankLine chars tree left)
    (htext : text = .ofList (before ++ chars)) : isLetterAt text (width before) = false := by
  have hword := h.mem_language language_le_deferred
  have hahead := ahead_of_mem_language rfl rfl hword left
  rw [← h.chars_eq] at hahead
  have hnone : NotAhead [('A', 'Z'), ('a', 'z')] chars := hahead.notAhead rfl
  rw [htext, isLetterAt_width]
  cases chars with
  | nil => rfl
  | cons c rest =>
    rw [List.head?_cons, Option.any_some, ← Bool.not_eq_true, ← covers_letters_iff]
    exact hnone c rfl

/-- **A line has the node of a definition exactly if it starts with a letter.** -/
theorem findAll_of_matches_line (h : grammar.Matches line chars tree left)
    (htext : text = .ofList (before ++ chars)) :
    (isLetterAt text (width before) = false ∧
      (tree.place text (width before)).findAll "rule" = []) ∨
    (isLetterAt text (width before) ∧ ∃ node,
      (tree.place text (width before)).findAll "rule" = [node] ∧
      node.span = ⟨text, width before, width before + width tree.chars⟩ ∧
      IsDefinition text node) := by
  cases h with
  | @alternation _ _ member _ earlier later _ _ part hmembers hearlier hmember =>
    have hfound :
        ((Tree.node "rule / (*c-wsp c-nl)" [part]).place text (width before)).findAll "rule"
          = (part.place text (width before)).findAll "rule" := by
      rw [Tree.place_node, Node.findAll, if_neg (by decide), Tree.placeAmong_cons,
        Tree.placeAmong_nil, Node.findAllAmong, Node.findAllAmong, List.append_nil]
    have hchoice : member = rule ∨ member = blankLine := by
      have hmem : member ∈ [rule, blankLine] := by
        rw [hmembers]
        exact List.mem_append_cons_self
      simpa using hmem
    rw [hfound, Tree.chars_node, Tree.charsAmong_cons, Tree.charsAmong_nil, List.append_nil]
    rcases hchoice with rfl | rfl
    · right
      refine ⟨isLetterAt_of_matches_rule hmember htext, part.place text (width before),
        findAll_of_matches_rule hmember text (width before), ?_,
        isDefinition_of_matches_rule hmember htext⟩
      exact Tree.span_place text (width before) part
    · left
      exact ⟨not_isLetterAt_of_matches_blankLine hmember htext,
        hmember.findAll_eq_nil (all_of_define (by decide)) (by decide) text (width before)⟩

/-! ## §4 Nodes of lists -/

/-- The nodes are those of the definitions in the lines `chars` of the text. -/
structure AreDefinitions (text : String) (before chars : List Char) (nodes : List Node) : Prop where
  starts : nodes.map Node.start
    = (Text.lineStartsFrom (width before) chars).filter (isLetterAt text)
  disjoint : nodes.Pairwise fun node later => node.stop ≤ later.start
  each : ∀ node ∈ nodes, IsDefinition text node

/-- Nothing starts at the end of a text. -/
theorem AreDefinitions.nil (htext : text = .ofList before) :
    AreDefinitions text before [] [] where
  starts := by
    have hend : isLetterAt text (width before) = false := by
      have hwidth := isLetterAt_width before []
      rw [List.append_nil, ← htext] at hwidth
      exact hwidth
    rw [Text.lineStartsFrom, Text.lineFeedsFrom, List.map_nil, List.map_nil, List.filter_singleton,
      hend]
    rfl
  disjoint := .nil
  each := fun _ hnode => absurd hnode List.not_mem_nil

/-- What follows a place starts there or behind it. -/
theorem AreDefinitions.le_start {nodes : List Node} (h : AreDefinitions text before chars nodes)
    {node : Node} (hnode : node ∈ nodes) : width before ≤ node.start := by
  have hstart : node.start ∈ nodes.map Node.start := List.mem_map_of_mem hnode
  rw [h.starts] at hstart
  exact Text.le_of_mem_lineStartsFrom (List.mem_of_mem_filter hstart)

/-- **A line in front adds the node of its definition**, if it is one. -/
theorem AreDefinitions.cons {rest : List Char} {nodes : List Node}
    (h : grammar.Matches line chars tree rest) (htext : text = .ofList (before ++ chars))
    (hrest : AreDefinitions text (before ++ tree.chars) rest nodes) :
    AreDefinitions text before chars
      ((tree.place text (width before)).findAll "rule" ++ nodes) := by
  -- The line ends in a line feed, and only its start can be that of a definition.
  have hword := h.mem_language language_le_deferred
  rw [language_line] at hword
  obtain ⟨front, hfront, hend⟩ := exists_unbroken_of_mem_line hword
  have hchars : chars = front ++ '\n' :: rest := by
    rw [h.chars_eq, hend, List.append_assoc]
    rfl
  have hstarts := definitionStarts_line (hchars ▸ htext) hfront
  rw [← hchars, ← hend, ← hrest.starts] at hstarts
  rcases findAll_of_matches_line h htext with ⟨hletter, hnone⟩ | ⟨hletter, node, hone, hspan, hnode⟩
  · rw [hnone, List.nil_append]
    rw [List.filter_singleton, hletter] at hstarts
    exact ⟨hstarts.symm, hrest.disjoint, hrest.each⟩
  · have hstart : node.start = width before := by
      rw [Node.start, hspan]
    have hstop : node.stop = width (before ++ tree.chars) := by
      rw [Node.stop, hspan, Text.width_append]
    rw [hone, List.singleton_append]
    rw [List.filter_singleton, hletter] at hstarts
    constructor
    case starts =>
      rw [List.map_cons, hstart, hstarts]
      rfl
    case disjoint =>
      refine .cons (fun later hlater => ?_) hrest.disjoint
      rw [hstop]
      exact hrest.le_start hlater
    case each => exact List.forall_mem_cons.mpr ⟨hnode, hrest.each⟩

/-- **The lines of a text have the nodes of its definitions.** -/
theorem areDefinitions_of_matchesEach {parts : List Tree}
    (h : grammar.MatchesEach (List.replicate parts.length line) chars parts [])
    (htext : text = .ofList (before ++ chars)) :
    AreDefinitions text before chars
      (Node.findAllAmong "rule" (Tree.placeAmong text (width before) parts)) := by
  induction parts generalizing before chars with
  | nil =>
    cases h
    rw [List.append_nil] at htext
    exact .nil htext
  | cons part parts ih =>
    cases h with
    | cons hfirst hrest =>
      rw [Tree.placeAmong_cons, Node.findAllAmong, ← Text.width_append]
      apply AreDefinitions.cons hfirst htext
      apply ih hrest
      rw [htext, hfirst.chars_eq, List.append_assoc]

/-! ## §5 Accepted texts -/

/-- **The definitions of a grammar text are found**, all of them and each once, in the order of the
    text: where the text is accepted, the `rule` nodes of the tree start where a line starts with a
    letter, be it the first line or one behind a line feed. They do not overlap, each of them ends
    behind a line feed, and the first `rulename` node in it spans the longest run of letters, digits
    and hyphens from its start. -/
theorem findAll_rule_of_parseAll {node : Node} (h : grammar.parseAll rulelist text = .ok node) :
    (node.findAll "rule").map Node.start = definitionStarts text ∧
      (definitionStarts text).Pairwise (· < ·) ∧
      (∀ start, start ∈ definitionStarts text ↔
        (start = 0 ∨ ∃ lineFeed, Text.charAt text lineFeed = .ok (some '\n') ∧
          start = lineFeed + 1) ∧
        ∃ c, Text.charAt text start = .ok (some c) ∧ c.isAlpha) ∧
      (node.findAll "rule").Pairwise (fun definition later => definition.stop ≤ later.start) ∧
      ∀ definition ∈ node.findAll "rule", IsDefinition text definition := by
  obtain ⟨tree, htree, rfl⟩ := Grammar.exists_tree_of_parseAll h
  obtain ⟨parts, rfl, hrepeats⟩ := Grammar.matches_repetition_iff.mp htree
  have hfound : ((Tree.node "rulelist" parts).place text 0).findAll "rule"
      = Node.findAllAmong "rule" (Tree.placeAmong text (width []) parts) := by
    rw [Tree.place_node, Node.findAll, if_neg (by decide)]
    rfl
  have htext : text = .ofList ([] ++ text.toList) := String.ofList_toList.symm
  have hdefinitions := areDefinitions_of_matchesEach hrepeats.matched htext
  rw [hfound]
  refine ⟨hdefinitions.starts, ?_, fun _ => mem_definitionStarts_iff, hdefinitions.disjoint,
    hdefinitions.each⟩
  exact (Text.pairwise_lineStartsFrom 0 text.toList).filter _

/-- Two definitions, the first of which has a comment and goes on in another line. -/
theorem continued_findAll_rule :
    ∃ node, grammar.parseAll rulelist "a=(b) ;c\n /d\n\nE-1=/f\n" = .ok node ∧
      (node.findAll "rule").map Node.start = [0, 14] ∧
      ∀ definition ∈ node.findAll "rule", IsDefinition "a=(b) ;c\n /d\n\nE-1=/f\n" definition := by
  have haccepted : (grammar.parseAll rulelist "a=(b) ;c\n /d\n\nE-1=/f\n").isOk := by
    decide +kernel
  cases hnode : grammar.parseAll rulelist "a=(b) ;c\n /d\n\nE-1=/f\n" with
  | error fault =>
    rw [hnode] at haccepted
    cases haccepted
  | ok node =>
    obtain ⟨hstarts, -, -, -, hdefinitions⟩ := findAll_rule_of_parseAll hnode
    refine ⟨node, rfl, ?_, hdefinitions⟩
    rw [hstarts]
    decide

end AugmentedBnf.Metagrammar
