import AugmentedBnf.Proofs.Derivation.Predictive
import AugmentedBnf.Proofs.Derivation.Totality
import AugmentedBnf.Proofs.Node.Tiling

/-!
# Longest Words

A rule matches one beginning of what is ahead, and its language may have several words there. A rule
is greedy in the sense that counts if it matches each of them, perhaps with more behind it: then
what it matches is the longest one, since that is a word too (`matchesLongest_of_atLeast`).

Taking more than a word can only go wrong where something else of the rule has to follow. So pieces
in front of others must be taken as they are, and only the last one may go on. Behind it there may
be rules that match nothing, and these may go on as well, but they cannot fail. For predictive rules
this is all there is to it (`takes_atLeast_of_predictive`).
-/

namespace AugmentedBnf

variable {κ : Type}

open Computability

namespace Grammar

open Rule (visibleAll visibleAny nullableAll firstAll behindRound)

variable {grammar : Grammar κ} {rule element : Rule κ} {rules : List (Rule κ)} {bounds : Bounds}
  {count : Nat} {word front back rest chars : List Char}

/-! ## §1 A word and perhaps more -/

/-- What takes code points with others behind them takes the word where `rest` is behind it, and
    perhaps a beginning of `rest` with it. -/
def AtLeast (takes : List Char → List Char → Prop) (word rest : List Char) : Prop :=
  ∃ more left, rest = more ++ left ∧ takes (word ++ more) left

theorem AtLeast.of_exact {takes : List Char → List Char → Prop} (h : takes word rest) :
    AtLeast takes word rest :=
  ⟨[], rest, rfl, by rwa [List.append_nil]⟩

/-- Where nothing is behind the word, there is no more to take. -/
theorem AtLeast.exact_nil {takes : List Char → List Char → Prop} (h : AtLeast takes word []) :
    takes word [] := by
  obtain ⟨more, left, hnil, htakes⟩ := h
  obtain ⟨rfl, rfl⟩ := List.append_eq_nil_iff.mp hnil.symm
  rwa [List.append_nil] at htakes

/-- The code points ahead are the same, whatever is taken of them. -/
theorem AtLeast.imp {takes takes' : List Char → List Char → Prop} (h : AtLeast takes word rest)
    (himp : ∀ chars left, word ++ rest = chars ++ left → takes chars left → takes' chars left) :
    AtLeast takes' word rest := by
  obtain ⟨more, left, rfl, htakes⟩ := h
  exact ⟨more, left, rfl, himp _ _ (List.append_assoc _ _ _).symm htakes⟩

/-- A match of what is ahead takes at least nothing. -/
theorem takes_atLeast_nil {tree : Tree} {left : List Char}
    (h : grammar.Matches rule rest tree left) : AtLeast (grammar.Takes rule) [] rest := by
  refine ⟨tree.chars, left, h.chars_eq, tree, ?_⟩
  rwa [List.nil_append, ← h.chars_eq]

section Sequences

/-- Rules in front of others take their piece and no more. -/
theorem AtLeast.append {rules' : List (Rule κ)}
    (hfront : grammar.TakesEach rules front (back ++ rest))
    (hback : AtLeast (grammar.TakesEach rules') back rest) :
    AtLeast (grammar.TakesEach (rules ++ rules')) (front ++ back) rest := by
  obtain ⟨more, left, rfl, htakes⟩ := hback
  refine ⟨more, left, rfl, ?_⟩
  rw [List.append_assoc]
  rw [← List.append_assoc] at hfront
  exact hfront.append htakes

theorem AtLeast.cons (hfront : grammar.Takes rule front (back ++ rest))
    (hback : AtLeast (grammar.TakesEach rules) back rest) :
    AtLeast (grammar.TakesEach (rule :: rules)) (front ++ back) rest :=
  .append (.singleton hfront) hback

/-- The last rule that has a piece of the word may go on, if those behind it match anything. -/
theorem AtLeast.cons_nil (hword : AtLeast (grammar.Takes rule) word rest)
    (hrules : ∀ left, AtLeast (grammar.TakesEach rules) [] left) :
    AtLeast (grammar.TakesEach (rule :: rules)) word rest := by
  obtain ⟨more, middle, rfl, htakes⟩ := hword
  obtain ⟨further, left, rfl, hfurther⟩ := hrules middle
  refine ⟨more ++ further, left, (List.append_assoc _ _ _).symm, ?_⟩
  rw [← List.append_assoc]
  exact .cons htakes hfurther

theorem AtLeast.singleton (h : AtLeast (grammar.Takes rule) word rest) :
    AtLeast (grammar.TakesEach [rule]) word rest :=
  h.cons_nil fun left => .of_exact (.nil left)

theorem AtLeast.concatenation {name : String} {first : Rule κ} {others : List (Rule κ)}
    (h : AtLeast (grammar.TakesEach (first :: others)) word rest) :
    AtLeast (grammar.Takes (.concatenation name first others)) word rest :=
  h.imp fun _ _ _ htakes => htakes.concatenation

theorem AtLeast.alternation {name : String} {first member : Rule κ} {others : List (Rule κ)}
    (h : AtLeast (grammar.Takes member) word rest) (earlier later : List (Rule κ))
    (hmembers : first :: others = earlier ++ member :: later)
    (hearlier : ∀ other ∈ earlier, grammar.Fails other (word ++ rest)) :
    AtLeast (grammar.Takes (.alternation name first others)) word rest :=
  h.imp fun _ _ hahead htakes => htakes.alternation earlier later hmembers (hahead ▸ hearlier)

end Sequences

section Rounds

/-- A round before others takes its piece and no more. -/
theorem AtLeast.round (hfront : grammar.Takes element front (back ++ rest)) (hne : front ≠ [])
    (hback : AtLeast (grammar.TakesRounds bounds element (count + 1)) back rest) :
    AtLeast (grammar.TakesRounds bounds element count) (front ++ back) rest := by
  obtain ⟨more, left, rfl, htakes⟩ := hback
  refine ⟨more, left, rfl, ?_⟩
  rw [List.append_assoc]
  rw [← List.append_assoc] at hfront
  exact .cons hfront hne htakes

/-- The last round of the word may go on, if there may be further rounds or none. -/
theorem AtLeast.round_nil (hword : AtLeast (grammar.Takes element) word rest) (hne : word ≠ [])
    (hrounds : ∀ left, AtLeast (grammar.TakesRounds bounds element (count + 1)) [] left) :
    AtLeast (grammar.TakesRounds bounds element count) word rest := by
  obtain ⟨more, middle, rfl, htakes⟩ := hword
  obtain ⟨further, left, rfl, hfurther⟩ := hrounds middle
  refine ⟨more ++ further, left, (List.append_assoc _ _ _).symm, ?_⟩
  rw [← List.append_assoc]
  exact .cons htakes (fun hnil => hne (List.append_eq_nil_iff.mp hnil).1) hfurther

theorem AtLeast.repetition {name : String}
    (h : AtLeast (grammar.TakesRounds bounds element 0) word rest) :
    AtLeast (grammar.Takes (.repetition name bounds element)) word rest :=
  h.imp fun _ _ _ htakes => htakes.repetition

end Rounds

/-! ## §2 Rules that cannot fail -/

/-- A repetition that asks for no round cannot fail. -/
theorem not_fails_repetition {name : String} (hmin : bounds.min = 0) :
    ¬ grammar.Fails (.repetition name bounds element) chars := by
  intro hfails
  obtain ⟨parts, left, hfew⟩ := fails_repetition_iff.mp hfails
  have hlt := hfew.few
  omega

/-- What may be left out and is seen to begin cannot fail. -/
theorem not_fails_of_nullable (hvisible : rule.visible) (hnull : rule.nullable) :
    ¬ grammar.Fails rule chars := by
  induction rule using Rule.inductionOn generalizing chars with
  | character name expected => cases hnull
  | range name low high => cases hnull
  | endOfText name => cases hvisible
  | concatenation name first others ih =>
    intro hfails
    have hall : ∀ {members : List (Rule κ)}, visibleAll members → nullableAll members →
        ∀ member ∈ members, member.visible ∧ member.nullable := by
      intro members hvis hnulls
      induction members with
      | nil => simp
      | cons member members ih =>
        unfold visibleAll at hvis
        unfold nullableAll at hnulls
        simp only [Bool.and_eq_true, Bool.or_eq_true, Bool.not_eq_true'] at hvis hnulls
        have hrest := hvis.2.resolve_left (by simp [hnulls.1])
        exact List.forall_mem_cons.mpr ⟨⟨hvis.1, hnulls.1⟩, ih hrest hnulls.2⟩
    cases hfails with
    | @concatenation _ _ member _ earlier later _ _ _ hmembers _ hmember =>
      have hmem : member ∈ first :: others := hmembers ▸ List.mem_append_cons_self
      have hvisible : visibleAll (first :: others) := hvisible
      have hnull : nullableAll (first :: others) := hnull
      obtain ⟨hvis, hnullable⟩ := hall hvisible hnull member hmem
      exact ih member hmem hvis hnullable hmember
  | alternation name first others ih =>
    have hvisible : visibleAny (first :: others) := hvisible
    have hnone : (Rule.alternation name first others).nullable = false :=
      Rule.nullableAny_of_visibleAny hvisible
    rw [hnone] at hnull
    cases hnull
  | repetition name bounds element ih =>
    unfold Rule.visible at hvisible
    unfold Rule.nullable at hnull
    simp only [Bool.and_eq_true, Bool.not_eq_true'] at hvisible
    rw [hvisible.2, Bool.or_false] at hnull
    exact not_fails_repetition (of_decide_eq_true hnull)
  | deferred name key => cases hvisible

variable (hdecides : ∀ (rule : Rule κ) chars, grammar.Decides rule chars)

include hdecides

/-- What cannot fail matches something wherever it is tried. -/
theorem takes_atLeast_nil_of_not_fails (h : ¬ grammar.Fails rule rest) :
    AtLeast (grammar.Takes rule) [] rest := by
  obtain ⟨tree, left, htree⟩ := (hdecides rule rest).resolve_right h
  exact takes_atLeast_nil htree

/-- Rules that may all be left out match something. -/
theorem takesEach_atLeast_nil (hvisible : visibleAll rules) (hnull : nullableAll rules)
    (rest : List Char) : AtLeast (grammar.TakesEach rules) [] rest := by
  induction rules generalizing rest with
  | nil => exact .of_exact (.nil rest)
  | cons rule rules ih =>
    unfold visibleAll at hvisible
    unfold nullableAll at hnull
    simp only [Bool.and_eq_true, Bool.or_eq_true, Bool.not_eq_true'] at hvisible hnull
    have hrules := hvisible.2.resolve_left (by simp [hnull.1])
    have hfirst : ¬ grammar.Fails rule rest := not_fails_of_nullable hvisible.1 hnull.1
    exact (takes_atLeast_nil_of_not_fails hdecides hfirst).cons_nil (ih hrules hnull.2)

/-- After enough rounds a repetition goes on with some more or none. -/
theorem takesRounds_atLeast_nil (hmin : bounds.min ≤ count)
    (hmax : ∀ max ∈ bounds.max, count ≤ max) (rest : List Char) :
    AtLeast (grammar.TakesRounds bounds element count) [] rest := by
  rcases decides_rounds hmax (hdecides element rest) (fun chars _ => hdecides element chars) with
    ⟨parts, left, hparts⟩ | ⟨parts, left, hfew⟩
  · have hchars := hparts.matched.chars_eq
    refine ⟨Tree.charsAmong parts, left, hchars, parts, ?_⟩
    rwa [List.nil_append, ← hchars]
  · have hlt := hfew.few
    omega

/-! ## §3 Predictive rules -/

variable {calls : κ → Language Char} {follow : List (Char × Char)}

/-- Rules one after the other: those with a further piece of the word behind them are told by it
    where to end, and behind the last piece the others may be left out. -/
theorem takesEach_atLeast_of_predictive
    (h : ∀ rule ∈ rules, ∀ {word follow}, rule.predictive follow → word ∈ rule.language calls →
      ∀ rest, AtLeast (grammar.Takes rule) word rest)
    (hpredictive : Rule.predictiveAll follow rules) (hword : word ∈ Rule.product calls rules)
    (rest : List Char) : AtLeast (grammar.TakesEach rules) word rest := by
  induction rules generalizing word with
  | nil =>
    obtain rfl : word = [] := hword
    exact .of_exact (.nil rest)
  | cons rule rules ih =>
    obtain ⟨hrule, hrules⟩ := List.forall_mem_cons.mp h
    unfold Rule.predictiveAll at hpredictive
    simp only [Bool.and_eq_true] at hpredictive
    obtain ⟨⟨hvis, hfirst⟩, hlater⟩ := hpredictive
    obtain ⟨front, hfront, back, hback, rfl⟩ := hword
    obtain ⟨hnil, hahead⟩ := Rule.begins_of_mem_product
      (fun _ _ hvis _ => Rule.begins_of_mem_language hvis) hvis hback
    cases back with
    | nil =>
      -- Nothing else of the word follows, so the first rule may go on.
      simp only [List.append_nil]
      exact (hrule hfirst hfront rest).cons_nil
        (takesEach_atLeast_nil hdecides hvis (hnil rfl))
    | cons c back =>
      have hbehind : Ahead (Rule.behind rules follow) (c :: back ++ rest) :=
        fun d hd => covers_append.mpr (.inl (hahead d hd))
      exact .cons (takes_of_predictive hfirst hfront hbehind) (ih hrules hlater hback)

/-- Rounds with a further one behind them are told by it where to end. -/
theorem takesRounds_atLeast_of_predictive {more : Nat}
    (h : ∀ {word}, word ∈ element.language calls →
      ∀ rest, AtLeast (grammar.Takes element) word rest)
    (hvisible : element.visible) (hnull : element.nullable = false)
    (hpredictive : element.predictive (behindRound bounds element follow))
    (hmin : bounds.min ≤ count + more) (hmax : ∀ max ∈ bounds.max, count + more ≤ max)
    (hword : word ∈ element.language calls ^ more) (rest : List Char) :
    AtLeast (grammar.TakesRounds bounds element count) word rest := by
  induction more generalizing count word with
  | zero =>
    obtain rfl : word = [] := hword
    exact takesRounds_atLeast_nil hdecides hmin hmax rest
  | succ more ih =>
    rw [pow_succ'] at hword
    obtain ⟨front, hfront, back, hback, rfl⟩ := hword
    have hne := Rule.ne_nil_of_mem_language hvisible hnull hfront
    rw [← Nat.add_assoc, Nat.add_right_comm] at hmin hmax
    cases more with
    | zero =>
      obtain rfl : back = [] := hback
      simp only [List.append_nil]
      exact (h hfront rest).round_nil hne (takesRounds_atLeast_nil hdecides hmin hmax)
    | succ more =>
      have hone : bounds.max ≠ some 1 := by
        intro hone
        have hle := hmax 1 hone
        omega
      have hahead : Ahead (behindRound bounds element follow) (back ++ rest) := by
        rw [pow_succ'] at hback
        obtain ⟨next, hnext, further, -, rfl⟩ := hback
        rw [behindRound, if_neg hone, List.append_assoc]
        exact (Rule.ahead_of_mem_language hvisible hnull hnext _).mono
          (List.subset_append_left _ _)
      exact .round (takes_of_predictive hpredictive hfront hahead) hne (ih hmin hmax hback)

/-- **Predictive rules take at least a word** of their language that is ahead, whatever comes behind
    it. -/
theorem takes_atLeast_of_predictive (hpredictive : rule.predictive follow)
    (hword : word ∈ rule.language calls) (rest : List Char) :
    AtLeast (grammar.Takes rule) word rest := by
  induction rule using Rule.inductionOn generalizing follow word rest with
  | character name expected =>
    obtain rfl : word = [expected] := hword
    exact .of_exact ⟨.leaf name expected, .character name expected rest⟩
  | range name low high =>
    obtain ⟨c, hc, rfl⟩ := hword
    exact .of_exact ⟨.leaf name c, .range name hc rest⟩
  | endOfText name => cases hpredictive
  | concatenation name first others ih =>
    have hpredictive : Rule.predictiveAll follow (first :: others) := hpredictive
    exact (takesEach_atLeast_of_predictive hdecides ih hpredictive hword rest).concatenation
  | alternation name first others ih =>
    unfold Rule.predictive at hpredictive
    rw [Bool.and_eq_true] at hpredictive
    have hvisible : visibleAny (first :: others) := hpredictive.1
    have hany : Rule.predictiveAny follow (first :: others) := hpredictive.2
    obtain ⟨earlier, chosen, later, hmembers, hearlier, hchosen, hword⟩ :=
      exists_chosen_of_predictive hvisible hany hword rest
    have hmem : chosen ∈ first :: others := hmembers ▸ List.mem_append_cons_self
    exact (ih chosen hmem hchosen hword rest).alternation earlier later hmembers hearlier
  | repetition name bounds element ih =>
    unfold Rule.predictive at hpredictive
    simp only [Bool.and_eq_true] at hpredictive
    obtain ⟨⟨hvisible, -⟩, helement⟩ := hpredictive
    unfold Rule.visible at hvisible
    simp only [Bool.and_eq_true, Bool.not_eq_true'] at hvisible
    obtain ⟨count, hmin, hmax, hword⟩ := hword
    rw [← Nat.zero_add count] at hmin hmax
    exact (takesRounds_atLeast_of_predictive hdecides (fun hword rest => ih helement hword rest)
      hvisible.1 hvisible.2 helement hmin hmax hword rest).repetition
  | deferred name key => cases hpredictive

omit hdecides

/-! ## §4 Longest words of a text -/

/-- Matched from the start of the text, the rule finds the longest word of the language that the
    text begins with, if it begins with one. Matched against all of the text, it finds out whether
    the text is a word. -/
structure MatchesLongest (grammar : Grammar κ) (rule : Rule κ) (language : Language Char)
    (text : String) : Prop where
  parse_iff : (∃ node, grammar.parse rule text = .ok node) ↔
    ∃ front back, text = front ++ back ∧ front.toList ∈ language
  longest : ∀ node, grammar.parse rule text = .ok node →
    ∃ front back, text = front ++ back ∧ front.toList ∈ language ∧
      node.start = 0 ∧ node.covered = .ok front ∧
      ∀ other further, text = other ++ further → other.toList ∈ language →
        other.length ≤ front.length
  parseAll_iff : (∃ node, grammar.parseAll rule text = .ok node) ↔ text.toList ∈ language

/-- **What takes at least each word matches the longest one**, since what it takes is a word. -/
theorem matchesLongest_of_atLeast {calls : κ → Language Char} {language : Language Char}
    (hlists : grammar.ListsKeys rule)
    (hcalls : ∀ key rule, grammar.define key = .ok rule → rule.language calls ≤ calls key)
    (hlanguage : rule.language calls = language)
    (h : ∀ word ∈ language, ∀ rest, AtLeast (grammar.Takes rule) word rest) (text : String) :
    grammar.MatchesLongest rule language text := by
  have hword : ∀ {tree left}, grammar.Matches rule text.toList tree left →
      tree.chars ∈ language :=
    fun htree => hlanguage ▸ htree.mem_language hcalls
  constructor
  case parse_iff =>
    constructor
    · rintro ⟨node, hnode⟩
      obtain ⟨tree, left, htree, -⟩ := exists_tree_of_parse hnode
      refine ⟨.ofList tree.chars, .ofList left, ?_, ?_⟩
      · rw [← String.ofList_append, ← htree.chars_eq, String.ofList_toList]
      · rw [String.toList_ofList]
        exact hword htree
    · rintro ⟨front, back, rfl, hfront⟩
      obtain ⟨more, left, hrest, tree, htree⟩ := h _ hfront back.toList
      rw [List.append_assoc, ← hrest, ← String.toList_append] at htree
      exact ⟨_, parse_of_matches hlists htree⟩
  case longest =>
    intro node hnode
    obtain ⟨tree, left, htree, rfl⟩ := exists_tree_of_parse hnode
    have htext : text = .ofList ([] ++ (tree.chars ++ left)) := by
      rw [List.nil_append, ← htree.chars_eq, String.ofList_toList]
    refine ⟨.ofList tree.chars, .ofList left, ?_, ?_, ?_, ?_, ?_⟩
    · rw [← String.ofList_append, ← htree.chars_eq, String.ofList_toList]
    · rw [String.toList_ofList]
      exact hword htree
    · rw [Node.start, Tree.span_place]
    · have hcovered := tree.covered_place [] left
      rwa [← htext] at hcovered
    · -- The rule takes at least the other word, and what it takes is the tree.
      intro other further hother hmem
      obtain ⟨more, left', hrest, tree', htree'⟩ := h _ hmem further.toList
      have hchars := chars_of_matches htree'
      rw [List.append_assoc, ← hrest, ← String.toList_append, ← hother] at htree'
      obtain ⟨rfl, -⟩ := htree.unique htree'
      rw [String.length_ofList, hchars, List.length_append, String.length_toList]
      exact Nat.le_add_right _ _
  case parseAll_iff =>
    rw [parseAll_ok_iff hlists]
    constructor
    · rintro ⟨tree, htree⟩
      have hmem := hword htree
      rwa [htree.chars_eq, List.append_nil]
    · exact fun hmem => takes_nil_iff.mp (h _ hmem []).exact_nil

end Grammar

end AugmentedBnf
