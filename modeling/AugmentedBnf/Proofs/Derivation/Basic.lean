import AugmentedBnf.Grammar.Basic
import AugmentedBnf.Proofs.Derivation.Tree

/-!
# Derivations

What the rules of a grammar mean, said without cursors, offsets or an order of evaluation: a rule
matches a beginning of a list of code points and leaves the rest, or it fails on the list. Both
are relations given by their laws, and they need each other. An alternative matches only where the
earlier ones fail, and a repetition ends only where its element fails.
-/

namespace AugmentedBnf

variable {κ : Type}

/-- There is room for another round below each bound. -/
theorem Bounds.allowsMore_iff {bounds : Bounds} {count : Nat} :
    bounds.allowsMore count ↔ ∀ max ∈ bounds.max, count < max := by
  unfold allowsMore
  cases bounds.max with
  | none => simp
  | some max => simp

/-- Rounds that leave no room are as many as there may be. -/
theorem Bounds.max_eq_of_not_allowsMore {bounds : Bounds} {count : Nat}
    (hcount : ∀ max ∈ bounds.max, count ≤ max) (hfull : ¬ bounds.allowsMore count) :
    bounds.max = some count := by
  rw [allowsMore_iff] at hfull
  obtain ⟨max, hfull⟩ := Classical.not_forall.mp hfull
  obtain ⟨hmax, hge⟩ := Classical.not_imp.mp hfull
  rw [Nat.le_antisymm (hcount max hmax) (Nat.not_lt.mp hge)]
  exact hmax

namespace Grammar

/-! ## §1 Matching and failing -/

mutual

/-- `Matches grammar rule chars tree left`: the rule matches a beginning of `chars` as `tree`, and
    `left` remains. -/
inductive Matches (grammar : Grammar κ) : Rule κ → List Char → Tree → List Char → Prop where
  /-- A character matches itself. -/
  | character (name : String) (c : Char) (left : List Char) :
      Matches grammar (.character name c) (c :: left) (.leaf name c) left
  /-- A range matches one code point in it. -/
  | range (name : String) {low high c : Char} (hc : low ≤ c ∧ c ≤ high) (left : List Char) :
      Matches grammar (.range name low high) (c :: left) (.leaf name c) left
  /-- The end of the text is where no code point is left. -/
  | endOfText (name : String) : Matches grammar (.endOfText name) [] (.node name []) []
  /-- A concatenation has one part for each member. -/
  | concatenation {name : String} {first : Rule κ} {rest : List (Rule κ)} {chars left : List Char}
      {parts : List Tree} (hparts : MatchesEach grammar (first :: rest) chars parts left) :
      Matches grammar (.concatenation name first rest) chars (.node name parts) left
  /-- An alternation has one part, from a member that matches where the earlier ones fail. -/
  | alternation {name : String} {first member : Rule κ} {rest earlier later : List (Rule κ)}
      {chars left : List Char} {part : Tree} (hmembers : first :: rest = earlier ++ member :: later)
      (hearlier : ∀ other ∈ earlier, Fails grammar other chars)
      (hmember : Matches grammar member chars part left) :
      Matches grammar (.alternation name first rest) chars (.node name [part]) left
  /-- A repetition has parts from the element, at most as many as its bounds allow. Only the last
      one may be without code points, and that one stands for all that are missing. Where the
      parts are neither as many as allowed nor end in one without code points, the element fails on
      what is left. -/
  | repetition {name : String} {bounds : Bounds} {element : Rule κ} {chars left : List Char}
      {parts : List Tree}
      (hparts : MatchesEach grammar (List.replicate parts.length element) chars parts left)
      (hmax : ∀ max ∈ bounds.max, parts.length ≤ max)
      (hadvance : ∀ part ∈ parts.dropLast, part.chars ≠ [])
      (hmin : bounds.min ≤ parts.length ∨ Tree.EndsEmpty parts)
      (hstop : bounds.max ≠ some parts.length → ¬ Tree.EndsEmpty parts →
        Fails grammar element left) :
      Matches grammar (.repetition name bounds element) chars (.node name parts) left
  /-- A deferred rule does as the rule that it stands for, and adds no node. -/
  | deferred {name : String} {key : κ} {rule : Rule κ} {chars left : List Char} {tree : Tree}
      (hdefine : grammar.define key = .ok rule) (hrule : Matches grammar rule chars tree left) :
      Matches grammar (.deferred name key) chars tree left

/-- Rules match one after the other, each on what the one before it left. -/
inductive MatchesEach (grammar : Grammar κ) :
    List (Rule κ) → List Char → List Tree → List Char → Prop where
  | nil (chars : List Char) : MatchesEach grammar [] chars [] chars
  | cons {rule : Rule κ} {rules : List (Rule κ)} {chars middle left : List Char} {part : Tree}
      {parts : List Tree} (hfirst : Matches grammar rule chars part middle)
      (hrest : MatchesEach grammar rules middle parts left) :
      MatchesEach grammar (rule :: rules) chars (part :: parts) left

/-- `Fails grammar rule chars`: the rule matches no beginning of `chars`. -/
inductive Fails (grammar : Grammar κ) : Rule κ → List Char → Prop where
  | character_end (name : String) (expected : Char) : Fails grammar (.character name expected) []
  | character_mismatch (name : String) {expected c : Char} (hc : c ≠ expected)
      (rest : List Char) : Fails grammar (.character name expected) (c :: rest)
  | range_end (name : String) (low high : Char) : Fails grammar (.range name low high) []
  | range_mismatch (name : String) {low high c : Char} (hc : ¬ (low ≤ c ∧ c ≤ high))
      (rest : List Char) : Fails grammar (.range name low high) (c :: rest)
  | endOfText (name : String) (c : Char) (rest : List Char) :
      Fails grammar (.endOfText name) (c :: rest)
  /-- A concatenation fails where a member does, after the earlier ones have matched. -/
  | concatenation {name : String} {first member : Rule κ} {rest earlier later : List (Rule κ)}
      {chars left : List Char} {parts : List Tree}
      (hmembers : first :: rest = earlier ++ member :: later)
      (hparts : MatchesEach grammar earlier chars parts left)
      (hmember : Fails grammar member left) :
      Fails grammar (.concatenation name first rest) chars
  /-- An alternation fails where all its members do. -/
  | alternation {name : String} {first : Rule κ} {rest : List (Rule κ)} {chars : List Char}
      (hmembers : ∀ member ∈ first :: rest, Fails grammar member chars) :
      Fails grammar (.alternation name first rest) chars
  /-- A repetition fails where its element does, after too few parts with code points. -/
  | repetition {name : String} {bounds : Bounds} {element : Rule κ} {chars left : List Char}
      {parts : List Tree}
      (hparts : MatchesEach grammar (List.replicate parts.length element) chars parts left)
      (hfew : parts.length < bounds.min) (hadvance : ∀ part ∈ parts, part.chars ≠ [])
      (helement : Fails grammar element left) :
      Fails grammar (.repetition name bounds element) chars
  | deferred {name : String} {key : κ} {rule : Rule κ} {chars : List Char}
      (hdefine : grammar.define key = .ok rule) (hrule : Fails grammar rule chars) :
      Fails grammar (.deferred name key) chars

end

variable {grammar : Grammar κ}

/-! ## §2 What a match leaves -/

mutual

/-- A match splits the code points into those of its tree and those left. -/
theorem Matches.chars_eq : ∀ {rule : Rule κ} {chars left : List Char} {tree : Tree},
    grammar.Matches rule chars tree left → chars = tree.chars ++ left
  | _, _, _, _, .character _ _ _ => rfl
  | _, _, _, _, .range _ _ _ => rfl
  | _, _, _, _, .endOfText _ => rfl
  | _, _, _, _, .concatenation hparts => hparts.chars_eq
  | _, _, _, _, .alternation _ _ hmember => by simpa using hmember.chars_eq
  | _, _, _, _, .repetition hparts _ _ _ _ => hparts.chars_eq
  | _, _, _, _, .deferred _ hrule => hrule.chars_eq

theorem MatchesEach.chars_eq : ∀ {rules : List (Rule κ)} {chars left : List Char}
    {parts : List Tree}, grammar.MatchesEach rules chars parts left →
    chars = Tree.charsAmong parts ++ left
  | _, _, _, _, .nil _ => rfl
  | _, _, _, _, .cons hfirst hrest => by
    rw [hfirst.chars_eq, hrest.chars_eq, Tree.charsAmong_cons, List.append_assoc]

end

/-- Rules match one after the other if some of them do and then the others. -/
theorem MatchesEach.append {rules rules' : List (Rule κ)} {chars middle left : List Char}
    {parts parts' : List Tree} (h : grammar.MatchesEach rules chars parts middle)
    (h' : grammar.MatchesEach rules' middle parts' left) :
    grammar.MatchesEach (rules ++ rules') chars (parts ++ parts') left := by
  induction rules generalizing chars parts with
  | nil =>
    cases h
    exact h'
  | cons rule rules ih =>
    obtain - | ⟨hfirst, hrest⟩ := h
    exact .cons hfirst (ih hrest)

/-! ## §3 Repetitions in progress -/

/-- A repetition that has matched `count` times goes on with `parts`, and then stops. -/
structure Repeats (grammar : Grammar κ) (bounds : Bounds) (element : Rule κ) (count : Nat)
    (chars : List Char) (parts : List Tree) (left : List Char) : Prop where
  matched : grammar.MatchesEach (List.replicate parts.length element) chars parts left
  bounded : ∀ max ∈ bounds.max, count + parts.length ≤ max
  advance : ∀ part ∈ parts.dropLast, part.chars ≠ []
  enough : bounds.min ≤ count + parts.length ∨ Tree.EndsEmpty parts
  stop : bounds.max ≠ some (count + parts.length) → ¬ Tree.EndsEmpty parts →
    grammar.Fails element left

/-- A repetition that has matched `count` times goes on to fail, for too few matches. -/
structure RepeatsTooFew (grammar : Grammar κ) (bounds : Bounds) (element : Rule κ) (count : Nat)
    (chars : List Char) (parts : List Tree) (left : List Char) : Prop where
  matched : grammar.MatchesEach (List.replicate parts.length element) chars parts left
  few : count + parts.length < bounds.min
  advance : ∀ part ∈ parts, part.chars ≠ []
  fails : grammar.Fails element left

section Repeats

variable {bounds : Bounds} {element : Rule κ} {count : Nat} {chars middle left : List Char}
  {part : Tree} {parts : List Tree}

/-- A repetition matches as one that has not begun. -/
theorem matches_repetition_iff {name : String} {tree : Tree} :
    grammar.Matches (.repetition name bounds element) chars tree left ↔
      ∃ parts, tree = .node name parts ∧ grammar.Repeats bounds element 0 chars parts left := by
  constructor
  · rintro (_ | _ | _ | _ | _ | ⟨hparts, hmax, hadvance, hmin, hstop⟩ | _)
    refine ⟨_, rfl, hparts, ?_, hadvance, ?_, ?_⟩
    · simpa using hmax
    · simpa using hmin
    · simpa using hstop
  · rintro ⟨parts, rfl, hrepeats⟩
    have ⟨hparts, hmax, hadvance, hmin, hstop⟩ := hrepeats
    simp only [Nat.zero_add] at hmax hmin hstop
    exact .repetition hparts hmax hadvance hmin hstop

/-- A repetition fails as one that has not begun. -/
theorem fails_repetition_iff {name : String} :
    grammar.Fails (.repetition name bounds element) chars ↔
      ∃ parts left, grammar.RepeatsTooFew bounds element 0 chars parts left := by
  constructor
  · rintro (_ | _ | _ | _ | _ | _ | _ | ⟨hparts, hfew, hadvance, helement⟩ | _)
    exact ⟨_, _, hparts, by simpa using hfew, hadvance, helement⟩
  · rintro ⟨parts, left, hparts, hfew, hadvance, helement⟩
    exact .repetition hparts (by simpa using hfew) hadvance helement

/-- A repetition that has matched as often as it may stops. -/
theorem Repeats.full (hmax : bounds.max = some count) :
    grammar.Repeats bounds element count chars [] chars where
  matched := .nil chars
  bounded := by
    simp [hmax]
  advance := by simp
  enough := .inl (bounds.ordered count hmax)
  stop := fun hne _ => absurd hmax hne

/-- A repetition that has matched often enough stops where the element fails. -/
theorem Repeats.ended (hmin : bounds.min ≤ count) (hmax : ∀ max ∈ bounds.max, count ≤ max)
    (hfails : grammar.Fails element chars) :
    grammar.Repeats bounds element count chars [] chars where
  matched := .nil chars
  bounded := hmax
  advance := by simp
  enough := .inl hmin
  stop := fun _ _ => hfails

/-- A repetition stops with a match of no code points. -/
theorem Repeats.stalled (hmore : ∀ max ∈ bounds.max, count + 1 ≤ max)
    (hpart : grammar.Matches element chars part left) (hempty : part.chars = []) :
    grammar.Repeats bounds element count chars [part] left where
  matched := .cons hpart (.nil left)
  bounded := hmore
  advance := by simp
  enough := .inr (Tree.endsEmpty_singleton.mpr hempty)
  stop := fun _ hne => absurd (Tree.endsEmpty_singleton.mpr hempty) hne

/-- A repetition goes on after a match of some code points. -/
theorem Repeats.cons (hpart : grammar.Matches element chars part middle)
    (hadvance : part.chars ≠ [])
    (hrest : grammar.Repeats bounds element (count + 1) middle parts left) :
    grammar.Repeats bounds element count chars (part :: parts) left where
  matched := .cons hpart hrest.matched
  bounded := by
    intro max hmax
    have := hrest.bounded max hmax
    simp only [List.length_cons]
    omega
  advance := by
    intro other hother
    cases parts with
    | nil => simp at hother
    | cons next parts =>
      rcases List.mem_cons.mp hother with rfl | hother
      · exact hadvance
      · exact hrest.advance other hother
  enough := by
    -- The part in front has code points, so it is not the one that ends the parts.
    rw [Tree.endsEmpty_cons hadvance, List.length_cons]
    exact hrest.enough.imp_left fun hmin => by omega
  stop := by
    rw [Tree.endsEmpty_cons hadvance, List.length_cons, ← Nat.add_assoc, Nat.add_right_comm]
    exact hrest.stop

/-- A repetition that has matched too rarely fails where the element does. -/
theorem RepeatsTooFew.ended (hfew : count < bounds.min) (hfails : grammar.Fails element chars) :
    grammar.RepeatsTooFew bounds element count chars [] chars where
  matched := .nil chars
  few := hfew
  advance := by simp
  fails := hfails

theorem RepeatsTooFew.cons (hpart : grammar.Matches element chars part middle)
    (hadvance : part.chars ≠ [])
    (hrest : grammar.RepeatsTooFew bounds element (count + 1) middle parts left) :
    grammar.RepeatsTooFew bounds element count chars (part :: parts) left where
  matched := .cons hpart hrest.matched
  few := by
    have := hrest.few
    simp only [List.length_cons]
    omega
  advance := List.forall_mem_cons.mpr ⟨hadvance, hrest.advance⟩
  fails := hrest.fails

end Repeats

end Grammar

end AugmentedBnf
