import AugmentedBnf.Proofs.Derivation.Lookahead
import AugmentedBnf.Proofs.Grammar.Reach

/-!
# Classes of Code Points

The code points of a word are among those that its rule asks for (`language_le_within`). A rule
that asks for a single code point is a class: it fails on nothing that it can begin with. A
repetition of a class therefore takes the longest run of code points of the class, and leaves
something else.
-/

namespace AugmentedBnf

variable {κ : Type}

open Computability

/-! ## §1 Code points of words -/

section Closed

variable {closed language : Language Char} (hone : 1 ≤ closed) (hmul : closed * closed ≤ closed)

include hone hmul

/-- What is closed under being put together has the star of what it has. -/
theorem kstar_le_of_closed (h : language ≤ closed) : language∗ ≤ closed := by
  have hstar := mul_kstar_le hone ((mul_le_mul' le_rfl h).trans hmul)
  rwa [one_mul] at hstar

theorem product_le_of_closed {calls : κ → Language Char} {rules : List (Rule κ)}
    (h : ∀ rule ∈ rules, rule.language calls ≤ closed) : Rule.product calls rules ≤ closed := by
  induction rules with
  | nil => exact hone
  | cons rule rules ih =>
    obtain ⟨hrule, hrules⟩ := List.forall_mem_cons.mp h
    exact (mul_le_mul' hrule (ih hrules)).trans hmul

end Closed

/-- The words with all code points in the ranges. -/
def within (ranges : List (Char × Char)) : Language Char :=
  {word : List Char | ∀ c ∈ word, Covers ranges c}

section Within

variable {ranges : List (Char × Char)}

theorem one_le_within : 1 ≤ within ranges := by
  rintro word rfl c hc
  cases hc

theorem mul_within_le : within ranges * within ranges ≤ within ranges := by
  rintro word ⟨front, hfront, back, hback, rfl⟩ c hc
  exact (List.mem_append.mp hc).elim (hfront c) (hback c)

end Within

namespace Rule

/-- The code points that the rule itself asks for lie in the ranges, and it does not defer. -/
def isWithin (ranges : List (Char × Char)) : Rule κ → Bool
  | .character _ expected => decide (Covers ranges expected)
  | .range _ low high => ranges.any fun range => range.1 ≤ low && high ≤ range.2
  | .deferred _ _ => false
  | _ => true

/-- **The words of a rule have the code points that it asks for.** -/
theorem language_le_within {ranges : List (Char × Char)} {calls : κ → Language Char}
    {rule : Rule κ} (h : rule.all (isWithin ranges)) : rule.language calls ≤ within ranges := by
  induction rule using Rule.inductionOn with
  | character name expected =>
    rintro word rfl
    exact List.forall_mem_singleton.mpr (of_decide_eq_true h)
  | range name low high =>
    obtain ⟨range, hrange, hends⟩ := List.any_eq_true.mp h
    rw [Bool.and_eq_true, decide_eq_true_eq, decide_eq_true_eq] at hends
    rintro word ⟨c, hc, rfl⟩
    have hcovers : Covers ranges c :=
      ⟨range, hrange, Char.le_trans hends.1 hc.1, Char.le_trans hc.2 hends.2⟩
    exact List.forall_mem_singleton.mpr hcovers
  | endOfText name => exact one_le_within
  | concatenation name first rest ih =>
    rw [language_concatenation]
    apply product_le_of_closed one_le_within mul_within_le
    exact fun member hmember => ih member hmember (all_of_mem_concatenation h hmember)
  | alternation name first rest ih =>
    rw [language_alternation]
    intro word hword
    obtain ⟨member, hmember, hword⟩ := (mem_sum calls).mp hword
    exact ih member hmember (all_of_mem_alternation h hmember) hword
  | repetition name bounds element ih =>
    rintro word ⟨count, -, -, hword⟩
    have hrounds : element.language calls ^ count ≤ (element.language calls)∗ := pow_le_kstar
    exact kstar_le_of_closed one_le_within mul_within_le (ih (all_element h)) (hrounds hword)
  | deferred name key => cases h

/-! ## §2 Classes -/

/-- The rule itself asks for a single code point, or leaves it to its members. -/
def isClass : Rule κ → Bool
  | .character _ _ => true
  | .range _ _ _ => true
  | .alternation _ _ _ => true
  | _ => false

theorem covers_firstAny_iff {rules : List (Rule κ)} {c : Char} :
    Covers (firstAny rules) c ↔ ∃ rule ∈ rules, Covers rule.first c := by
  induction rules with
  | nil => simp [firstAny, Covers]
  | cons rule rest ih =>
    rw [firstAny, covers_append, ih]
    simp only [List.mem_cons, exists_eq_or_imp]

end Rule

namespace Grammar

variable {grammar : Grammar κ} {rule : Rule κ} {chars left : List Char} {tree : Tree}

/-- **A class fails only where it cannot begin.** -/
theorem notAhead_of_fails (hclass : rule.all Rule.isClass) (h : grammar.Fails rule chars) :
    NotAhead rule.first chars := by
  induction rule using Rule.inductionOn with
  | character name expected =>
    intro c hc hcovers
    obtain ⟨range, hrange, hlow, hhigh⟩ := hcovers
    obtain rfl := List.mem_singleton.mp hrange
    cases h with
    | character_end => cases hc
    | character_mismatch _ hne =>
      obtain rfl := Option.some.inj hc
      exact hne (Char.le_antisymm hhigh hlow)
  | range name low high =>
    intro c hc hcovers
    obtain ⟨range, hrange, hwithin⟩ := hcovers
    obtain rfl := List.mem_singleton.mp hrange
    cases h with
    | range_end => cases hc
    | range_mismatch _ hout =>
      obtain rfl := Option.some.inj hc
      exact hout hwithin
  | alternation name first rest ih =>
    intro c hc hcovers
    have hcovers : Covers (Rule.firstAny (first :: rest)) c := hcovers
    obtain ⟨member, hmember, hfirst⟩ := Rule.covers_firstAny_iff.mp hcovers
    cases h with
    | alternation hmembers =>
      exact ih member hmember (Rule.all_of_mem_alternation hclass hmember) (hmembers member hmember)
        c hc hfirst
  | endOfText name => cases Rule.check_of_all hclass
  | concatenation name first rest ih => cases Rule.check_of_all hclass
  | repetition name bounds element ih => cases Rule.check_of_all hclass
  | deferred name key => cases Rule.check_of_all hclass

/-! ## §3 Runs -/

/-- **Repetitions go on as long as they can**: one without an upper bound stops where its element
    fails, if the element is never empty. -/
theorem Matches.fails_of_repetition
    {calls : κ → Language Char}
    (hcalls : ∀ key rule, grammar.define key = .ok rule → rule.language calls ≤ calls key)
    {name : String} {bounds : Bounds} {element : Rule κ} (hopen : bounds.max = none)
    (hne : [] ∉ element.language calls)
    (h : grammar.Matches (.repetition name bounds element) chars tree left) :
    grammar.Fails element left := by
  obtain ⟨parts, rfl, hrepeats⟩ := matches_repetition_iff.mp h
  apply hrepeats.stop
  · rw [hopen]
    exact nofun
  · intro ⟨last, hlast, hempty⟩
    have heach := (hrepeats.matched.mem_language hcalls).2 _ fun _ => List.eq_of_mem_replicate
    exact hne (hempty ▸ heach last (List.mem_of_getLast? hlast))

/-- What is matched is the longest run of code points with a property, if they have it and what is
    left does not begin with another one. -/
theorem Matches.takeWhile_eq {property : Char → Bool} {ranges : List (Char × Char)}
    (hranges : ∀ c, Covers ranges c ↔ property c) (h : grammar.Matches rule chars tree left)
    (hrun : tree.chars ∈ within ranges) (hleft : NotAhead ranges left) :
    chars.takeWhile property = tree.chars := by
  have hproperty : ∀ c ∈ tree.chars, property c := fun c hc => (hranges c).mp (hrun c hc)
  rw [h.chars_eq, List.takeWhile_append_of_pos hproperty]
  cases left with
  | nil => simp
  | cons c rest =>
    have hc : ¬ property c := fun hc => hleft c rfl ((hranges c).mpr hc)
    rw [List.takeWhile_cons_of_neg hc, List.append_nil]

end Grammar

end AugmentedBnf
