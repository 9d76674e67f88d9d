import AugmentedBnf.Proofs.Derivation.Language
import AugmentedBnf.Proofs.Derivation.Taking
import AugmentedBnf.Proofs.Rule.Induction

/-!
# One Code Point of Lookahead

Often the next code point alone tells that a rule cannot begin: `Rule.first` are the code points
that a rule can begin with. A rule that may be left out (`Rule.nullable`) is skipped then, and any
other fails (`Grammar.skips_or_fails`). This needs that a rule can be seen to begin without looking
into deferred ones, which `Rule.visible` checks.

The sets of code points are given as lists of ranges, so that the checks can be evaluated.
-/

namespace AugmentedBnf

variable {κ : Type}

/-! ## §1 Ranges of code points -/

/-- The code point lies in one of the ranges. -/
def Covers (ranges : List (Char × Char)) (c : Char) : Prop :=
  ∃ range ∈ ranges, range.1 ≤ c ∧ c ≤ range.2

/-- No code point lies in ranges of both lists. -/
def apart (ranges ranges' : List (Char × Char)) : Bool :=
  ranges.all fun range => ranges'.all fun range' => range.2 < range'.1 || range'.2 < range.1

instance (ranges : List (Char × Char)) (c : Char) : Decidable (Covers ranges c) :=
  inferInstanceAs (Decidable (∃ range ∈ ranges, range.1 ≤ c ∧ c ≤ range.2))

section Ranges

variable {ranges ranges' : List (Char × Char)} {c : Char}

theorem covers_append : Covers (ranges ++ ranges') c ↔ Covers ranges c ∨ Covers ranges' c := by
  unfold Covers
  simp only [List.mem_append, or_and_right, exists_or]

theorem not_covers_of_apart (hapart : apart ranges ranges') (hc : Covers ranges' c) :
    ¬ Covers ranges c := by
  rintro ⟨range, hrange, hlow, hhigh⟩
  obtain ⟨range', hrange', hlow', hhigh'⟩ := hc
  have hone := List.all_eq_true.mp (List.all_eq_true.mp hapart range hrange) range' hrange'
  rw [Bool.or_eq_true, decide_eq_true_eq, decide_eq_true_eq] at hone
  -- One of the ranges ends before the other begins, and `c` would lie in both.
  rcases hone with hlt | hlt
  · exact absurd (Char.le_trans hlow' hhigh) (Char.not_le.mpr hlt)
  · exact absurd (Char.le_trans hlow hhigh') (Char.not_le.mpr hlt)

end Ranges

/-- The next code point, if there is one, lies in the ranges. -/
def Ahead (ranges : List (Char × Char)) (chars : List Char) : Prop :=
  ∀ c ∈ chars.head?, Covers ranges c

/-- The next code point, if there is one, lies in none of the ranges. -/
def NotAhead (ranges : List (Char × Char)) (chars : List Char) : Prop :=
  ∀ c ∈ chars.head?, ¬ Covers ranges c

theorem ahead_cons (c : Char) (rest : List Char) : Ahead [(c, c)] (c :: rest) := by
  intro d hd
  obtain rfl : c = d := by simpa using hd
  exact ⟨(c, c), List.mem_singleton.mpr rfl, Char.le_refl c, Char.le_refl c⟩

theorem Ahead.mono {ranges ranges' : List (Char × Char)} {chars : List Char}
    (h : Ahead ranges chars) (hsubset : ranges ⊆ ranges') : Ahead ranges' chars := by
  intro c hc
  obtain ⟨range, hrange, hcovers⟩ := h c hc
  exact ⟨range, hsubset hrange, hcovers⟩

theorem Ahead.notAhead {ranges ranges' : List (Char × Char)} {chars : List Char}
    (h : Ahead ranges' chars) (hapart : apart ranges ranges') : NotAhead ranges chars :=
  fun c hc => not_covers_of_apart hapart (h c hc)

/-! ## §2 Beginnings of rules -/

namespace Rule

mutual

/-- Whether the rule may match no code points. -/
def nullable : Rule κ → Bool
  | .character _ _ => false
  | .range _ _ _ => false
  | .endOfText _ => true
  | .concatenation _ first rest => nullable first && nullableAll rest
  | .alternation _ first rest => nullable first || nullableAny rest
  | .repetition _ bounds element => bounds.min = 0 || nullable element
  | .deferred _ _ => true

/-- Whether all of some rules may match no code points. -/
def nullableAll : List (Rule κ) → Bool
  | [] => true
  | rule :: rest => nullable rule && nullableAll rest

/-- Whether any of some rules may match no code points. -/
def nullableAny : List (Rule κ) → Bool
  | [] => false
  | rule :: rest => nullable rule || nullableAny rest

end

mutual

/-- The code points that a match of the rule can begin with. -/
def first : Rule κ → List (Char × Char)
  | .character _ expected => [(expected, expected)]
  | .range _ low high => [(low, high)]
  | .endOfText _ => []
  | .concatenation _ member rest =>
    first member ++ if nullable member then firstAll rest else []
  | .alternation _ member rest => first member ++ firstAny rest
  | .repetition _ _ element => first element
  | .deferred _ _ => []

/-- The code points that a match of rules one after the other can begin with. -/
def firstAll : List (Rule κ) → List (Char × Char)
  | [] => []
  | rule :: rest => first rule ++ if nullable rule then firstAll rest else []

/-- The code points that a match of any of some rules can begin with. -/
def firstAny : List (Rule κ) → List (Char × Char)
  | [] => []
  | rule :: rest => first rule ++ firstAny rest

end

mutual

/-- Whether the rule is seen to begin: no deferred rule can stand at its beginning, and what is
    chosen or repeated is not nullable. -/
def visible : Rule κ → Bool
  | .character _ _ => true
  | .range _ _ _ => true
  | .endOfText _ => false
  | .concatenation _ member rest => visible member && (!nullable member || visibleAll rest)
  | .alternation _ member rest => visible member && !nullable member && visibleAny rest
  | .repetition _ _ element => visible element && !nullable element
  | .deferred _ _ => false

/-- Whether rules one after the other are seen to begin. -/
def visibleAll : List (Rule κ) → Bool
  | [] => true
  | rule :: rest => visible rule && (!nullable rule || visibleAll rest)

/-- Whether each of some rules is seen to begin and is not nullable. -/
def visibleAny : List (Rule κ) → Bool
  | [] => true
  | rule :: rest => visible rule && !nullable rule && visibleAny rest

end

/-- A choice can begin with what a member can begin with, and no member is nullable. -/
theorem visible_of_mem {rule : Rule κ} {rules : List (Rule κ)} (hvisible : visibleAny rules)
    (hrule : rule ∈ rules) : rule.visible ∧ rule.nullable = false ∧
      ∀ c, Covers rule.first c → Covers (firstAny rules) c := by
  induction rules with
  | nil => cases hrule
  | cons other rules ih =>
    unfold visibleAny at hvisible
    simp only [Bool.and_eq_true, Bool.not_eq_true'] at hvisible
    rcases List.mem_cons.mp hrule with rfl | hrule
    · exact ⟨hvisible.1.1, hvisible.1.2, fun c hc => covers_append.mpr (.inl hc)⟩
    · obtain ⟨hvis, hnull, hcovers⟩ := ih hvisible.2 hrule
      exact ⟨hvis, hnull, fun c hc => covers_append.mpr (.inr (hcovers c hc))⟩

theorem nullableAny_of_visibleAny {rules : List (Rule κ)} (hvisible : visibleAny rules) :
    nullableAny rules = false := by
  induction rules with
  | nil => rfl
  | cons rule rest ih =>
    unfold visibleAny at hvisible
    simp only [Bool.and_eq_true, Bool.not_eq_true'] at hvisible
    unfold nullableAny
    rw [hvisible.1.2, ih hvisible.2]
    rfl

/-! ## §3 Words of a rule -/

variable {calls : κ → Language Char}

/-- A word fits the beginning of a rule: only a nullable rule has the empty word. -/
def Begins (nullable : Bool) (first : List (Char × Char)) (chars : List Char) : Prop :=
  (chars = [] → nullable) ∧ Ahead first chars

theorem begins_append {nullable nullable' : Bool} {first first' : List (Char × Char)}
    {chars chars' : List Char} (h : Begins nullable first chars)
    (h' : nullable → Begins nullable' first' chars') :
    Begins (nullable && nullable') (first ++ if nullable then first' else [])
      (chars ++ chars') := by
  -- Only if the first word is empty does the second one tell how the words begin.
  cases chars with
  | nil =>
    have hnullable := h.1 rfl
    obtain ⟨hnil, hahead⟩ := h' hnullable
    rw [hnullable, List.nil_append, Bool.true_and, if_pos rfl]
    exact ⟨hnil, fun c hc => covers_append.mpr (.inr (hahead c hc))⟩
  | cons c rest =>
    refine ⟨fun hnil => by simp at hnil, fun d hd => covers_append.mpr (.inl ?_)⟩
    exact h.2 d hd

/-- Words of rules one after the other begin with the first that is not left out. -/
theorem begins_of_mem_product {rules : List (Rule κ)}
    (h : ∀ rule ∈ rules, rule.visible → ∀ {chars}, chars ∈ rule.language calls →
      Begins rule.nullable rule.first chars)
    (hvisible : visibleAll rules) {chars : List Char} (hchars : chars ∈ product calls rules) :
    Begins (nullableAll rules) (firstAll rules) chars := by
  induction rules generalizing chars with
  | nil =>
    obtain rfl : chars = [] := hchars
    exact ⟨fun _ => rfl, fun c hc => by cases hc⟩
  | cons rule rules ih =>
    obtain ⟨hrule, hrules⟩ := List.forall_mem_cons.mp h
    unfold visibleAll at hvisible
    simp only [Bool.and_eq_true, Bool.or_eq_true, Bool.not_eq_true'] at hvisible
    obtain ⟨front, hfront, back, hback, rfl⟩ := hchars
    refine begins_append (hrule hvisible.1 hfront) fun hnullable => ?_
    exact ih hrules (hvisible.2.resolve_left (by simp [hnullable])) hback

/-- **The words of a rule begin as it is seen to begin.** -/
theorem begins_of_mem_language {rule : Rule κ} (hvisible : rule.visible) {chars : List Char}
    (hchars : chars ∈ rule.language calls) : Begins rule.nullable rule.first chars := by
  induction rule using Rule.inductionOn generalizing chars with
  | character name expected =>
    obtain rfl : chars = [expected] := hchars
    refine ⟨by simp, fun c hc => ?_⟩
    obtain rfl : expected = c := by simpa using hc
    exact ⟨(expected, expected), List.mem_singleton.mpr rfl, Char.le_refl _, Char.le_refl _⟩
  | range name low high =>
    obtain ⟨d, hd, rfl⟩ := hchars
    refine ⟨by simp, fun c hc => ?_⟩
    obtain rfl : d = c := by simpa using hc
    exact ⟨(low, high), List.mem_singleton.mpr rfl, hd⟩
  | endOfText name => cases hvisible
  | concatenation name member rest ih => exact begins_of_mem_product ih hvisible hchars
  | alternation name member rest ih =>
    rw [language_alternation, mem_sum] at hchars
    obtain ⟨rule, hrule, hchars⟩ := hchars
    have hvisible : visibleAny (member :: rest) := hvisible
    obtain ⟨hvis, hnull, hcovers⟩ := visible_of_mem hvisible hrule
    obtain ⟨hnil, hahead⟩ := ih rule hrule hvis hchars
    rw [hnull] at hnil
    exact ⟨fun hempty => absurd (hnil hempty) (by simp), fun c hc => hcovers c (hahead c hc)⟩
  | repetition name bounds element ih =>
    unfold visible at hvisible
    simp only [Bool.and_eq_true, Bool.not_eq_true'] at hvisible
    obtain ⟨count, hmin, -, hchars⟩ := hchars
    cases count with
    | zero =>
      -- No round at all is allowed only where none is asked for.
      obtain rfl : chars = [] := hchars
      refine ⟨fun _ => ?_, fun c hc => by cases hc⟩
      simp [nullable, Nat.le_zero.mp hmin]
    | succ count =>
      -- The first round has a code point, so the word begins as the element does.
      rw [pow_succ'] at hchars
      obtain ⟨front, hfront, back, -, rfl⟩ := hchars
      obtain ⟨hnil, hahead⟩ := ih hvisible.1 hfront
      rw [hvisible.2] at hnil
      cases front with
      | nil => exact absurd (hnil rfl) (by simp)
      | cons c front => exact ⟨by simp, hahead⟩
  | deferred name key => cases hvisible

theorem ne_nil_of_mem_language {rule : Rule κ} (hvisible : rule.visible)
    (hnull : rule.nullable = false) {chars : List Char} (hchars : chars ∈ rule.language calls) :
    chars ≠ [] := by
  obtain ⟨hnil, -⟩ := begins_of_mem_language hvisible hchars
  rw [hnull] at hnil
  exact fun hempty => Bool.false_ne_true (hnil hempty)

/-- With a word of a rule ahead, what the rule can begin with is ahead. -/
theorem ahead_of_mem_language {rule : Rule κ} (hvisible : rule.visible)
    (hnull : rule.nullable = false) {chars : List Char} (hchars : chars ∈ rule.language calls)
    (left : List Char) : Ahead rule.first (chars ++ left) := by
  have hne := ne_nil_of_mem_language hvisible hnull hchars
  obtain ⟨-, hahead⟩ := begins_of_mem_language hvisible hchars
  cases chars with
  | nil => exact absurd rfl hne
  | cons c rest => exact hahead

/-- Whether the rule is seen to need a code point outside the ranges. -/
def avoids (ranges : List (Char × Char)) (rule : Rule κ) : Bool :=
  rule.visible && !rule.nullable && apart rule.first ranges

end Rule

/-! ## §4 Rules that cannot begin -/

namespace Grammar

open Rule (visibleAll visibleAny nullableAll firstAll)

variable {grammar : Grammar κ}

/-- Rules one after the other are left out as far as they may be, and the first that may not
    fails. -/
theorem skips_or_fails_all {rules : List (Rule κ)} {chars : List Char}
    (h : ∀ rule ∈ rules, rule.visible → NotAhead rule.first chars →
      (rule.nullable → grammar.Takes rule [] chars) ∧
      (rule.nullable = false → grammar.Fails rule chars))
    (hvisible : visibleAll rules) (hahead : NotAhead (firstAll rules) chars) :
    (nullableAll rules → grammar.TakesEach rules [] chars) ∧
      (nullableAll rules = false → ∃ earlier member later, rules = earlier ++ member :: later ∧
        grammar.TakesEach earlier [] chars ∧ grammar.Fails member chars) := by
  induction rules with
  | nil => exact ⟨fun _ => .nil chars, fun hnull => by cases hnull⟩
  | cons rule rules ih =>
    obtain ⟨hrule, hrules⟩ := List.forall_mem_cons.mp h
    unfold visibleAll at hvisible
    simp only [Bool.and_eq_true, Bool.or_eq_true, Bool.not_eq_true'] at hvisible
    have hfirst : NotAhead rule.first chars :=
      fun c hc hcovers => hahead c hc (covers_append.mpr (.inl hcovers))
    obtain ⟨hskips, hfails⟩ := hrule hvisible.1 hfirst
    unfold nullableAll
    cases hnull : rule.nullable with
    | false =>
      -- The first rule fails already.
      refine ⟨fun hall => by simp at hall, fun _ => ?_⟩
      exact ⟨[], rule, rules, rfl, .nil chars, hfails hnull⟩
    | true =>
      have hrest : NotAhead (firstAll rules) chars := by
        refine fun c hc hcovers => hahead c hc (covers_append.mpr (.inr ?_))
        rw [if_pos hnull]
        exact hcovers
      obtain ⟨hall, hsome⟩ := ih hrules (hvisible.2.resolve_left (by simp [hnull])) hrest
      rw [Bool.true_and]
      refine ⟨fun hnulls => .cons (hskips hnull) (hall hnulls), fun hnulls => ?_⟩
      obtain ⟨earlier, member, later, rfl, hearlier, hmember⟩ := hsome hnulls
      exact ⟨rule :: earlier, member, later, rfl, .cons (hskips hnull) hearlier, hmember⟩

/-- **A rule that cannot begin is skipped or fails**: skipped if it may match no code points. -/
theorem skips_or_fails {rule : Rule κ} {chars : List Char} (hvisible : rule.visible)
    (hahead : NotAhead rule.first chars) :
    (rule.nullable → grammar.Takes rule [] chars) ∧
      (rule.nullable = false → grammar.Fails rule chars) := by
  induction rule using Rule.inductionOn with
  | character name expected =>
    refine ⟨fun hnull => (Bool.false_ne_true hnull).elim, fun _ => ?_⟩
    cases chars with
    | nil => exact .character_end name expected
    | cons c rest =>
      refine .character_mismatch name (fun hc => hahead c rfl ?_) rest
      exact ⟨_, List.mem_singleton.mpr rfl, hc ▸ Char.le_refl _, hc ▸ Char.le_refl _⟩
  | range name low high =>
    refine ⟨fun hnull => (Bool.false_ne_true hnull).elim, fun _ => ?_⟩
    cases chars with
    | nil => exact .range_end name low high
    | cons c rest =>
      refine .range_mismatch name (fun hc => hahead c rfl ?_) rest
      exact ⟨_, List.mem_singleton.mpr rfl, hc⟩
  | endOfText name => cases hvisible
  | concatenation name member rest ih =>
    obtain ⟨hall, hsome⟩ := skips_or_fails_all ih hvisible hahead
    refine ⟨fun hnull => (hall hnull).concatenation, fun hnull => ?_⟩
    obtain ⟨earlier, other, later, hmembers, hearlier, hother⟩ := hsome hnull
    exact hearlier.fails hmembers hother
  | alternation name member rest ih =>
    have hvisible : visibleAny (member :: rest) := hvisible
    have hnull : (Rule.alternation name member rest).nullable = false :=
      Rule.nullableAny_of_visibleAny hvisible
    refine ⟨fun hnullable => absurd hnullable (by simp [hnull]), fun _ => ?_⟩
    apply Fails.alternation
    intro other hother
    obtain ⟨hvis, hnone, hcovers⟩ := Rule.visible_of_mem hvisible hother
    exact (ih other hother hvis fun c hc hfirst => hahead c hc (hcovers c hfirst)).2 hnone
  | repetition name bounds element ih =>
    unfold Rule.visible at hvisible
    simp only [Bool.and_eq_true, Bool.not_eq_true'] at hvisible
    -- The element fails, so there is no round, which is enough or too few.
    have hfails := (ih hvisible.1 hahead).2 hvisible.2
    unfold Rule.nullable
    rw [hvisible.2, Bool.or_false]
    refine ⟨fun hmin => ?_, fun hmin => ?_⟩
    · have hzero : bounds.min = 0 := of_decide_eq_true hmin
      exact (TakesRounds.ended (Nat.le_of_eq hzero) (fun _ _ => Nat.zero_le _) hfails).repetition
    · have hpos : 0 < bounds.min := Nat.pos_of_ne_zero (of_decide_eq_false hmin)
      exact fails_repetition_iff.mpr ⟨[], chars, .ended hpos hfails⟩
  | deferred name key => cases hvisible

theorem fails_of_avoids {rule : Rule κ} {ranges : List (Char × Char)} {chars : List Char}
    (havoids : rule.avoids ranges) (hahead : Ahead ranges chars) : grammar.Fails rule chars := by
  unfold Rule.avoids at havoids
  simp only [Bool.and_eq_true, Bool.not_eq_true'] at havoids
  obtain ⟨⟨hvisible, hnull⟩, hapart⟩ := havoids
  exact (skips_or_fails hvisible (hahead.notAhead hapart)).2 hnull

/-- The earlier members of an alternation are passed over where they cannot begin. -/
theorem Takes.alternation_of_avoids {name : String} {first member : Rule κ} {rest : List (Rule κ)}
    {ranges : List (Char × Char)} {chars left : List Char} (h : grammar.Takes member chars left)
    (earlier later : List (Rule κ)) (hmembers : first :: rest = earlier ++ member :: later)
    (havoids : earlier.all (Rule.avoids ranges)) (hahead : Ahead ranges (chars ++ left)) :
    grammar.Takes (.alternation name first rest) chars left :=
  h.alternation earlier later hmembers fun other hother =>
    fails_of_avoids (List.all_eq_true.mp havoids other hother) hahead

end Grammar

end AugmentedBnf
