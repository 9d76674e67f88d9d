import AugmentedBnf.Proofs.Derivation.Basic
import Mathlib.Computability.Language
import Mathlib.Order.CompletePartialOrder

/-!
# Rules without Order

What a rule would match if order did not matter: an alternation is the union of its members, and a
repetition may stop after any number of rounds that its bounds allow. This is the reading of
grammars that are written down as productions. The languages of deferred rules are given, so the
language of a rule is an expression in them.

Evaluations commit to one way of matching, and what they match is in the language
(`mem_language`). The converse depends on the rules, since a choice that was made too early may
leave a text unmatched.
-/

namespace AugmentedBnf

variable {κ : Type}

open Computability

/-! ## §1 Stars -/

/-- A word of a star is empty or has a word of the language in front. -/
theorem eq_nil_or_append_of_mem_kstar {language : Language Char} {chars : List Char}
    (h : chars ∈ language∗) : chars = [] ∨ ∃ front ∈ language, front ≠ [] ∧
      ∃ back ∈ language∗, chars = front ++ back := by
  obtain ⟨words, rfl, hwords⟩ := Language.mem_kstar_iff_exists_nonempty.mp h
  cases words with
  | nil => exact .inl rfl
  | cons front words =>
    obtain ⟨⟨hfront, hne⟩, hwords⟩ := List.forall_mem_cons.mp hwords
    refine .inr ⟨front, hfront, hne, words.flatten, ?_, List.flatten_cons⟩
    exact Language.join_mem_kstar fun word hword => (hwords word hword).1

/-- A star goes on behind its words. -/
theorem append_mem_kstar {language : Language Char} {front back : List Char}
    (hfront : front ∈ language) (hback : back ∈ language∗) : front ++ back ∈ language∗ := by
  obtain ⟨words, rfl, hwords⟩ := Language.mem_kstar.mp hback
  rw [← List.flatten_cons]
  exact Language.join_mem_kstar (List.forall_mem_cons.mpr ⟨hfront, hwords⟩)

namespace Rule

/-! ## §2 Languages -/

mutual

/-- The language of a rule, given those of deferred rules. -/
def language (calls : κ → Language Char) : Rule κ → Language Char
  | .character _ expected => {[expected]}
  | .range _ low high => {chars : List Char | ∃ c, (low ≤ c ∧ c ≤ high) ∧ chars = [c]}
  | .endOfText _ => 1
  | .concatenation _ first rest => language calls first * product calls rest
  | .alternation _ first rest => language calls first + sum calls rest
  | .repetition _ bounds element =>
    {chars : List Char | ∃ count, bounds.min ≤ count ∧ (∀ max ∈ bounds.max, count ≤ max) ∧
      chars ∈ language calls element ^ count}
  | .deferred _ key => calls key

/-- The language of rules one after the other. -/
def product (calls : κ → Language Char) : List (Rule κ) → Language Char
  | [] => 1
  | rule :: rest => language calls rule * product calls rest

/-- The language of any one of some rules. -/
def sum (calls : κ → Language Char) : List (Rule κ) → Language Char
  | [] => 0
  | rule :: rest => language calls rule + sum calls rest

end

section Equations

variable (calls : κ → Language Char)

@[simp] theorem language_character (name : String) (expected : Char) :
    (Rule.character name expected).language calls = {[expected]} := rfl

@[simp] theorem language_concatenation (name : String) (first : Rule κ) (rest : List (Rule κ)) :
    (Rule.concatenation name first rest).language calls = product calls (first :: rest) := rfl

@[simp] theorem language_alternation (name : String) (first : Rule κ) (rest : List (Rule κ)) :
    (Rule.alternation name first rest).language calls = sum calls (first :: rest) := rfl

@[simp] theorem language_deferred (name : String) (key : κ) :
    (Rule.deferred name key).language calls = calls key := rfl

@[simp] theorem product_nil : product calls [] = 1 := rfl

@[simp] theorem product_cons (rule : Rule κ) (rest : List (Rule κ)) :
    product calls (rule :: rest) = rule.language calls * product calls rest := rfl

@[simp] theorem sum_nil : sum calls [] = 0 := rfl

@[simp] theorem sum_cons (rule : Rule κ) (rest : List (Rule κ)) :
    sum calls (rule :: rest) = rule.language calls + sum calls rest := rfl

theorem mem_sum {rules : List (Rule κ)} {chars : List Char} :
    chars ∈ sum calls rules ↔ ∃ rule ∈ rules, chars ∈ rule.language calls := by
  induction rules with
  | nil => simp [Language.notMem_zero]
  | cons rule rest ih =>
    rw [sum_cons, Language.mem_add, ih]
    simp only [List.mem_cons, exists_eq_or_imp]

theorem mem_language_repetition {name : String} {bounds : Bounds} {element : Rule κ}
    {chars : List Char} : chars ∈ (Rule.repetition name bounds element).language calls ↔
      ∃ count, bounds.min ≤ count ∧ (∀ max ∈ bounds.max, count ≤ max) ∧
        chars ∈ element.language calls ^ count := Iff.rfl

/-- Any number of rounds is the star of one. -/
@[simp] theorem language_many (name : String) (element : Rule κ) :
    (many name element).language calls = (element.language calls)∗ := by
  ext chars
  rw [Language.kstar_eq_iSup_pow, Language.mem_iSup]
  apply (mem_language_repetition calls).trans
  simp [Bounds.atLeast]

/-- One round or more is a round and any number of them. -/
@[simp] theorem language_many1 (name : String) (element : Rule κ) :
    (many1 name element).language calls = element.language calls * (element.language calls)∗ := by
  ext chars
  rw [Language.kstar_eq_iSup_pow, Language.mul_iSup, Language.mem_iSup]
  apply (mem_language_repetition calls).trans
  constructor
  · -- One of the rounds is the first, and the others are as many as there are.
    rintro ⟨count, hmin, -, hchars⟩
    obtain ⟨count, rfl⟩ := Nat.exists_eq_add_of_le' hmin
    exact ⟨count, pow_succ' (element.language calls) count ▸ hchars⟩
  · rintro ⟨count, hchars⟩
    refine ⟨count + 1, Nat.le_add_left 1 count, by simp [Bounds.atLeast], ?_⟩
    exact (pow_succ' (element.language calls) count).symm ▸ hchars

/-- An optional rule is one that may be left out. -/
@[simp] theorem language_optional (name : String) (element : Rule κ) :
    (optional name element).language calls = 1 + element.language calls := by
  ext chars
  rw [Language.mem_add]
  apply (mem_language_repetition calls).trans
  constructor
  · rintro ⟨count, -, hmax, hchars⟩
    have hle : count ≤ 1 := hmax 1 rfl
    rcases Nat.le_one_iff_eq_zero_or_eq_one.mp hle with rfl | rfl
    · exact .inl (by simpa using hchars)
    · exact .inr (by simpa using hchars)
  · rintro (hchars | hchars)
    · exact ⟨0, Nat.zero_le _, by simp, by simpa using hchars⟩
    · exact ⟨1, Nat.zero_le _, by simp [Bounds.optional], by simpa using hchars⟩

end Equations

end Rule

/-! ## §3 Matches -/

namespace Grammar

variable {grammar : Grammar κ} {calls : κ → Language Char}

/-- Parts from one language make up a power of it. -/
theorem charsAmong_mem_pow {language : Language Char} {parts : List Tree}
    (h : ∀ part ∈ parts, part.chars ∈ language) :
    Tree.charsAmong parts ∈ language ^ parts.length := by
  induction parts with
  | nil => exact Language.nil_mem_one
  | cons part rest ih =>
    obtain ⟨hpart, hrest⟩ := List.forall_mem_cons.mp h
    rw [List.length_cons, pow_succ', Tree.charsAmong_cons]
    exact Language.append_mem_mul hpart (ih hrest)

/-- Where a part may be without code points, there may be more parts. -/
theorem mem_pow_of_le {language : Language Char} {chars : List Char} {count count' : Nat}
    (hnil : [] ∈ language) (hle : count ≤ count') (h : chars ∈ language ^ count) :
    chars ∈ language ^ count' := by
  induction hle with
  | refl => exact h
  | step _ ih =>
    rw [pow_succ', ← List.nil_append chars]
    exact Language.append_mem_mul hnil ih

mutual

/-- **Matches are in the language** of their rule, if the languages of deferred rules contain those
    of the rules that they stand for. -/
theorem Matches.mem_language
    (hcalls : ∀ key rule, grammar.define key = .ok rule → rule.language calls ≤ calls key) :
    ∀ {rule : Rule κ} {chars left : List Char} {tree : Tree},
      grammar.Matches rule chars tree left → tree.chars ∈ rule.language calls
  | _, _, _, _, .character _ _ _ => rfl
  | _, _, _, _, .range _ hc _ => ⟨_, hc, rfl⟩
  | _, _, _, _, .endOfText _ => rfl
  | _, _, _, _, .concatenation hparts => (hparts.mem_language hcalls).1
  | _, _, _, _, .alternation hmembers _ hmember => by
    rw [Rule.language_alternation, hmembers, Rule.mem_sum, Tree.chars_node, Tree.charsAmong_cons,
      Tree.charsAmong_nil, List.append_nil]
    exact ⟨_, List.mem_append_right _ List.mem_cons_self, hmember.mem_language hcalls⟩
  | _, _, _, _, .repetition hparts hmax _ hmin _ => by
    have heach := (hparts.mem_language hcalls).2 _ fun _ => List.eq_of_mem_replicate
    have hpow := charsAmong_mem_pow heach
    rw [Rule.mem_language_repetition]
    rcases hmin with hmin | ⟨last, hlast, hempty⟩
    · exact ⟨_, hmin, hmax, hpow⟩
    · -- The last part has no code points, so it stands for the rounds that are missing.
      have hnil := heach last (List.mem_of_getLast? hlast)
      rw [hempty] at hnil
      refine ⟨max _ _, Nat.le_max_left _ _, fun max hmember => ?_,
        mem_pow_of_le hnil (Nat.le_max_right _ _) hpow⟩
      exact Nat.max_le.mpr ⟨Bounds.ordered _ max hmember, hmax max hmember⟩
  | _, _, _, _, .deferred hdefine hrule => hcalls _ _ hdefine (hrule.mem_language hcalls)

theorem MatchesEach.mem_language
    (hcalls : ∀ key rule, grammar.define key = .ok rule → rule.language calls ≤ calls key) :
    ∀ {rules : List (Rule κ)} {chars left : List Char} {parts : List Tree},
      grammar.MatchesEach rules chars parts left →
      Tree.charsAmong parts ∈ Rule.product calls rules ∧
        ∀ element, (∀ rule ∈ rules, rule = element) →
          ∀ part ∈ parts, part.chars ∈ element.language calls
  | _, _, _, _, .nil _ => ⟨Language.nil_mem_one, fun _ _ _ hpart => by cases hpart⟩
  | _, _, _, _, .cons hfirst hrest => by
    obtain ⟨hproduct, heach⟩ := hrest.mem_language hcalls
    refine ⟨Language.append_mem_mul (hfirst.mem_language hcalls) hproduct, ?_⟩
    intro element hrules
    obtain ⟨rfl, hrules⟩ := List.forall_mem_cons.mp hrules
    exact List.forall_mem_cons.mpr ⟨hfirst.mem_language hcalls, heach _ hrules⟩

end

end Grammar

end AugmentedBnf
