import AugmentedBnf.Proofs.Derivation.Basic

/-!
# What a Rule Takes

`Takes` says that a rule matches certain code points where others come behind them, and leaves the
tree aside. A text that is cut into pieces is matched piece by piece, so this is the form in which a
match of a whole text is put together from matches of its pieces: each lemma cuts the text as the
rule does.
-/

namespace AugmentedBnf.Grammar

variable {κ : Type} {grammar : Grammar κ}

/-- Where `chars` are ahead and `left` behind them, the rule matches `chars`. -/
def Takes (grammar : Grammar κ) (rule : Rule κ) (chars left : List Char) : Prop :=
  ∃ tree, grammar.Matches rule (chars ++ left) tree left

/-- Rules one after the other match `chars`. -/
def TakesEach (grammar : Grammar κ) (rules : List (Rule κ)) (chars left : List Char) : Prop :=
  ∃ parts, grammar.MatchesEach rules (chars ++ left) parts left

/-- A repetition after `count` rounds matches `chars`. -/
def TakesRounds (grammar : Grammar κ) (bounds : Bounds) (element : Rule κ) (count : Nat)
    (chars left : List Char) : Prop :=
  ∃ parts, grammar.Repeats bounds element count (chars ++ left) parts left

variable {rule element : Rule κ} {rules : List (Rule κ)} {name : String} {bounds : Bounds}
  {count : Nat} {chars chars' left : List Char}

/-- The tree of a match has the code points that are matched. -/
theorem chars_of_matches {tree : Tree} (h : grammar.Matches rule (chars ++ left) tree left) :
    tree.chars = chars :=
  (List.append_cancel_right h.chars_eq).symm

/-- To take what is all of a text is to match it and leave nothing. -/
theorem takes_nil_iff :
    grammar.Takes rule chars [] ↔ ∃ tree, grammar.Matches rule chars tree [] := by
  rw [Takes, List.append_nil]

/-! ## §1 Concatenations -/

theorem TakesEach.nil (left : List Char) : grammar.TakesEach [] [] left :=
  ⟨[], .nil left⟩

/-- The first rule has what the others match behind it. -/
theorem TakesEach.cons (hfirst : grammar.Takes rule chars (chars' ++ left))
    (hrest : grammar.TakesEach rules chars' left) :
    grammar.TakesEach (rule :: rules) (chars ++ chars') left := by
  obtain ⟨part, hpart⟩ := hfirst
  obtain ⟨parts, hparts⟩ := hrest
  rw [TakesEach, List.append_assoc]
  exact ⟨part :: parts, .cons hpart hparts⟩

theorem TakesEach.append {rules' : List (Rule κ)}
    (h : grammar.TakesEach rules chars (chars' ++ left))
    (h' : grammar.TakesEach rules' chars' left) :
    grammar.TakesEach (rules ++ rules') (chars ++ chars') left := by
  obtain ⟨parts, hparts⟩ := h
  obtain ⟨parts', hparts'⟩ := h'
  rw [TakesEach, List.append_assoc]
  exact ⟨parts ++ parts', hparts.append hparts'⟩

theorem TakesEach.singleton (h : grammar.Takes rule chars left) :
    grammar.TakesEach [rule] chars left := by
  rw [← List.append_nil chars]
  exact .cons h (.nil left)

theorem TakesEach.concatenation {first : Rule κ} {rest : List (Rule κ)}
    (h : grammar.TakesEach (first :: rest) chars left) :
    grammar.Takes (.concatenation name first rest) chars left := by
  obtain ⟨parts, hparts⟩ := h
  exact ⟨.node name parts, .concatenation hparts⟩

/-- A concatenation fails where one member fails behind what the earlier ones match. -/
theorem TakesEach.fails {first member : Rule κ} {rest earlier later : List (Rule κ)}
    (h : grammar.TakesEach earlier chars left)
    (hmembers : first :: rest = earlier ++ member :: later) (hmember : grammar.Fails member left) :
    grammar.Fails (.concatenation name first rest) (chars ++ left) := by
  obtain ⟨parts, hparts⟩ := h
  exact .concatenation hmembers hparts hmember

/-! ## §2 Alternations and deferred rules -/

theorem Takes.alternation {first member : Rule κ} {rest : List (Rule κ)}
    (h : grammar.Takes member chars left) (earlier later : List (Rule κ))
    (hmembers : first :: rest = earlier ++ member :: later)
    (hearlier : ∀ other ∈ earlier, grammar.Fails other (chars ++ left)) :
    grammar.Takes (.alternation name first rest) chars left := by
  obtain ⟨part, hpart⟩ := h
  exact ⟨.node name [part], .alternation hmembers hearlier hpart⟩

theorem Takes.deferred {key : κ} (h : grammar.Takes rule chars left)
    (hdefine : grammar.define key = .ok rule) :
    grammar.Takes (.deferred name key) chars left := by
  obtain ⟨tree, htree⟩ := h
  exact ⟨tree, .deferred hdefine htree⟩

/-! ## §3 Repetitions -/

theorem TakesRounds.ended (hmin : bounds.min ≤ count) (hmax : ∀ max ∈ bounds.max, count ≤ max)
    (hfails : grammar.Fails element left) : grammar.TakesRounds bounds element count [] left :=
  ⟨[], .ended hmin hmax hfails⟩

theorem TakesRounds.cons (hround : grammar.Takes element chars (chars' ++ left))
    (hne : chars ≠ []) (hrest : grammar.TakesRounds bounds element (count + 1) chars' left) :
    grammar.TakesRounds bounds element count (chars ++ chars') left := by
  obtain ⟨part, hpart⟩ := hround
  obtain ⟨parts, hparts⟩ := hrest
  rw [TakesRounds, List.append_assoc]
  exact ⟨part :: parts, .cons hpart (chars_of_matches hpart ▸ hne) hparts⟩

theorem TakesRounds.repetition (h : grammar.TakesRounds bounds element 0 chars left) :
    grammar.Takes (.repetition name bounds element) chars left := by
  obtain ⟨parts, hparts⟩ := h
  exact ⟨.node name parts, matches_repetition_iff.mpr ⟨parts, rfl, hparts⟩⟩

/-- An optional rule is left out where it fails. -/
theorem Takes.optional_nil (h : grammar.Fails element left) :
    grammar.Takes (.optional name element) [] left :=
  (TakesRounds.ended (Nat.zero_le _) (fun _ _ => Nat.zero_le _) h).repetition

theorem Takes.optional (h : grammar.Takes element chars left) (hne : chars ≠ []) :
    grammar.Takes (.optional name element) chars left := by
  obtain ⟨part, hpart⟩ := h
  have hadvance : part.chars ≠ [] := chars_of_matches hpart ▸ hne
  exact ⟨.node name [part],
    matches_repetition_iff.mpr ⟨[part], rfl, .cons hpart hadvance (.full rfl)⟩⟩

/-- A repetition without an upper bound matches a text that is cut off round by round: `pending`
    holds of what is ahead before each round, and where no round is left the element fails. -/
theorem takesRounds_of_pending (pending : List Char → Prop) (hopen : bounds.max = none)
    (hpending : ∀ chars, pending chars → chars = [] ∧ grammar.Fails element left ∨
      ∃ front back, chars = front ++ back ∧ front ≠ [] ∧ pending back ∧
        grammar.Takes element front (back ++ left))
    (hcount : bounds.min ≤ count) (hchars : pending chars) :
    grammar.TakesRounds bounds element count chars left := by
  induction hlength : chars.length using Nat.strongRecOn generalizing chars count with
  | ind length ih =>
    rcases hpending chars hchars with ⟨rfl, hfails⟩ | ⟨front, back, rfl, hne, hback, hfront⟩
    · exact .ended hcount (by simp [hopen]) hfails
    · have hshorter : back.length < length := by
        have hpos := List.length_pos_iff.mpr hne
        rw [← hlength, List.length_append]
        omega
      exact .cons hfront hne (ih back.length hshorter (Nat.le_succ_of_le hcount) hback rfl)

end AugmentedBnf.Grammar
