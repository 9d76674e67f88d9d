import AugmentedBnf.Proofs.Derivation.Language
import AugmentedBnf.Proofs.Failure.Locality

/-!
# Failures Leave Viable Beginnings

Wherever an evaluation fails, what it has passed until then can be completed: a part is tried behind
parts that have matched, so it stands where the productions have a word go on. This holds of all
failures, also of those that are recovered from, and in whatever branch they are met
(`Misses.viable`).

It takes rules that have words at all. A rule without words cannot be completed, and the only rules
without words are ranges that end before they start, and what needs one of these.
-/

namespace AugmentedBnf

variable {κ : Type}

open Text (width)

/-! ## §1 Words of rules -/

namespace Rule

/-- The rule is not a range that ends before it starts. -/
def isInhabited : Rule κ → Bool
  | .range _ low high => low ≤ high
  | _ => true

variable {calls : κ → Language Char}

/-- Rules one after the other have words if each of them does. -/
theorem exists_mem_product {rules : List (Rule κ)}
    (h : ∀ rule ∈ rules, ∃ word, word ∈ rule.language calls) :
    ∃ word, word ∈ product calls rules := by
  induction rules with
  | nil => exact ⟨[], Language.nil_mem_one⟩
  | cons rule rest ih =>
    obtain ⟨hfirst, hrest⟩ := List.forall_mem_cons.mp h
    obtain ⟨word, hword⟩ := hfirst
    obtain ⟨later, hlater⟩ := ih hrest
    exact ⟨word ++ later, Language.append_mem_mul hword hlater⟩

theorem exists_mem_pow {language : Language Char} (h : ∃ word, word ∈ language) (count : Nat) :
    ∃ word, word ∈ language ^ count := by
  obtain ⟨word, hword⟩ := h
  induction count with
  | zero => exact ⟨[], Language.nil_mem_one⟩
  | succ count ih =>
    obtain ⟨more, hmore⟩ := ih
    refine ⟨word ++ more, ?_⟩
    rw [pow_succ']
    exact Language.append_mem_mul hword hmore

/-- **Rules have words** if the rules that they defer to have some and no range is empty. -/
theorem exists_mem_language (hcalls : ∀ key, ∃ word, word ∈ calls key) {rule : Rule κ}
    (h : rule.all isInhabited) : ∃ word, word ∈ rule.language calls := by
  induction rule using Rule.inductionOn with
  | character name expected => exact ⟨[expected], rfl⟩
  | range name low high =>
    have hle : low ≤ high := of_decide_eq_true h
    exact ⟨[low], low, ⟨Char.le_refl low, hle⟩, rfl⟩
  | endOfText name => exact ⟨[], Language.nil_mem_one⟩
  | concatenation name first rest ih =>
    rw [language_concatenation]
    exact exists_mem_product fun member hmember =>
      ih member hmember (all_of_mem_concatenation h hmember)
  | alternation name first rest ih =>
    -- The first member has a word.
    obtain ⟨word, hword⟩ :=
      ih first List.mem_cons_self (all_of_mem_alternation h List.mem_cons_self)
    rw [language_alternation, sum_cons]
    exact ⟨word, .inl hword⟩
  | repetition name bounds element ih =>
    obtain ⟨word, hword⟩ := exists_mem_pow (ih (all_element h)) bounds.min
    exact ⟨word, bounds.min, Nat.le_refl _, bounds.ordered, hword⟩
  | deferred name key => exact hcalls key

/-- The words of two groups of rules, one behind the other. -/
theorem product_append (rules rules' : List (Rule κ)) :
    product calls (rules ++ rules') = product calls rules * product calls rules' := by
  induction rules with
  | nil => rw [List.nil_append, product_nil, one_mul]
  | cons rule rest ih => rw [List.cons_append, product_cons, ih, product_cons, mul_assoc]

/-- What the earlier members of a concatenation have matched goes on to a word of it, behind any
    word of the next member. -/
theorem exists_append_mem_concatenation (hcalls : ∀ key, ∃ word, word ∈ calls key) {name : String}
    {first member : Rule κ} {rest earlier later : List (Rule κ)}
    (h : (Rule.concatenation name first rest).all isInhabited)
    (hmembers : first :: rest = earlier ++ member :: later) {passed word : List Char}
    (hpassed : passed ∈ product calls earlier) (hword : word ∈ member.language calls) :
    ∃ more, passed ++ (word ++ more) ∈ (Rule.concatenation name first rest).language calls := by
  have hlater : ∀ rule ∈ later, rule.all isInhabited := by
    intro rule hrule
    apply all_of_mem_concatenation h
    rw [hmembers]
    exact List.mem_append_right earlier (List.mem_cons_of_mem member hrule)
  -- The members behind have words, and any of these will do.
  obtain ⟨more, hmore⟩ := exists_mem_product fun rule hrule =>
    exists_mem_language hcalls (hlater rule hrule)
  refine ⟨more, ?_⟩
  rw [language_concatenation, hmembers, product_append, product_cons]
  exact Language.append_mem_mul hpassed (Language.append_mem_mul hword hmore)

/-- The rounds of a repetition go on to a word of it, behind any word of one more round. -/
theorem exists_append_mem_repetition {name : String} {bounds : Bounds} {element : Rule κ}
    {count : Nat} (hroom : ∀ max ∈ bounds.max, count + 1 ≤ max) {passed word : List Char}
    (hpassed : passed ∈ element.language calls ^ count) (hword : word ∈ element.language calls) :
    ∃ more, passed ++ (word ++ more) ∈ (Rule.repetition name bounds element).language calls := by
  -- This round and further ones make up as many as are asked for.
  obtain ⟨more, hmore⟩ := exists_mem_pow ⟨word, hword⟩ (bounds.min - (count + 1))
  refine ⟨more, max bounds.min (count + 1), Nat.le_max_left _ _, fun max hmax => ?_, ?_⟩
  · exact Nat.max_le.mpr ⟨bounds.ordered max hmax, hroom max hmax⟩
  · have hcount : max bounds.min (count + 1) = count + (bounds.min - (count + 1) + 1) := by
      omega
    rw [hcount, pow_add, pow_succ']
    exact Language.append_mem_mul hpassed (Language.append_mem_mul hword hmore)

end Rule

/-! ## §2 Viable beginnings -/

/-- What is passed between `before` and the failure is the beginning of a word. -/
def Failure.Viable (language : Language Char) (before chars : List Char) (failure : Failure) :
    Prop :=
  ∃ passed rest more, chars = passed ++ rest ∧ failure.position = width (before ++ passed) ∧
    passed ++ more ∈ language

namespace Failure

variable {language language' : Language Char} {before chars left : List Char} {failure : Failure}

/-- What is viable for a part is so for all, if the words of the part can be completed. -/
theorem Viable.completed {passed : List Char}
    (h : failure.Viable language (before ++ passed) left) (hchars : chars = passed ++ left)
    (hwords : ∀ word ∈ language, ∃ more, passed ++ (word ++ more) ∈ language') :
    failure.Viable language' before chars := by
  obtain ⟨ahead, rest, more, rfl, hposition, hword⟩ := h
  obtain ⟨later, hlater⟩ := hwords _ hword
  refine ⟨passed ++ ahead, rest, more ++ later, ?_, ?_, ?_⟩
  · rw [hchars, List.append_assoc]
  · rw [hposition, List.append_assoc]
  · simpa only [List.append_assoc] using hlater

/-- Where a word begins, nothing is passed yet. -/
theorem viable_here {word : List Char} (hposition : failure.position = width before)
    (hword : word ∈ language) : failure.Viable language before chars :=
  ⟨[], chars, word, rfl, by rw [hposition, List.append_nil], hword⟩

end Failure

namespace Grammar

variable {grammar : Grammar κ} {rule : Rule κ} {calls : κ → Language Char}

section Viable

variable (hcalls : ∀ key rule, grammar.define key = .ok rule → rule.language calls ≤ calls key)
  (hwords : ∀ key, ∃ word, word ∈ calls key)
  (hdefine : ∀ key rule, grammar.define key = .ok rule → rule.all Rule.isInhabited)

include hcalls hwords hdefine

/-- **What is passed up to a failure is viable**: it is the beginning of a word of the rule. -/
theorem Misses.viable {before chars : List Char} {failure : Failure}
    (h : grammar.Misses rule before chars failure) (hrule : rule.all Rule.isInhabited) :
    failure.Viable (rule.language calls) before chars := by
  induction h with
  | character_end name expected before => exact Failure.viable_here rfl rfl
  | character_mismatch name hc before rest => exact Failure.viable_here rfl rfl
  | range_end name low high before =>
    obtain ⟨word, hword⟩ := Rule.exists_mem_language hwords hrule
    exact Failure.viable_here rfl hword
  | range_mismatch name hc before rest =>
    obtain ⟨word, hword⟩ := Rule.exists_mem_language hwords hrule
    exact Failure.viable_here rfl hword
  | endOfText name c before rest => exact Failure.viable_here rfl Language.nil_mem_one
  | @concatenation name first member rest earlier later before chars left parts failure hmembers
      hparts hmember ih =>
    have hmem : member ∈ first :: rest := by
      rw [hmembers]
      exact List.mem_append_cons_self
    apply (ih (Rule.all_of_mem_concatenation hrule hmem)).completed hparts.chars_eq
    intro word hword
    exact Rule.exists_append_mem_concatenation hwords hrule hmembers
      (hparts.mem_language hcalls).1 hword
  | @alternation name first member rest earlier later before chars failure hmembers hearlier
      hmember ih =>
    have hmem : member ∈ first :: rest := by
      rw [hmembers]
      exact List.mem_append_cons_self
    obtain ⟨passed, rest', more, hchars, hposition, hword⟩ :=
      ih (Rule.all_of_mem_alternation hrule hmem)
    refine ⟨passed, rest', more, hchars, hposition, ?_⟩
    rw [Rule.language_alternation, Rule.mem_sum]
    exact ⟨member, hmem, hword⟩
  | @repetition name bounds element before chars left parts failure hparts hroom hadvance helement
      ih =>
    apply (ih (Rule.all_element hrule)).completed hparts.chars_eq
    intro word hword
    have hrounds : Tree.charsAmong parts ∈ element.language calls ^ parts.length :=
      charsAmong_mem_pow ((hparts.mem_language hcalls).2 element fun _ =>
        List.eq_of_mem_replicate)
    exact Rule.exists_append_mem_repetition hroom hrounds hword
  | deferred hkey hmisses ih =>
    obtain ⟨passed, rest, more, hchars, hposition, hword⟩ := ih (hdefine _ _ hkey)
    exact ⟨passed, rest, more, hchars, hposition, hcalls _ _ hkey hword⟩

/-- **What is read of a text up to any failure is viable**, also where the failure is that the text
    goes on. -/
theorem viable_of_mem_missedInAll {text : String} {failure : Failure}
    (h : failure ∈ grammar.missedInAll rule text) (hrule : rule.all Rule.isInhabited) :
    failure.Viable (rule.language calls) [] text.toList := by
  rcases misses_of_mem_missedInAll h with hmisses | ⟨tree, c, rest, htree, rfl⟩
  · exact hmisses.viable hcalls hwords hdefine hrule
  · -- The match is a word itself.
    refine ⟨tree.chars, c :: rest, [], htree.chars_eq, rfl, ?_⟩
    rw [List.append_nil]
    exact htree.mem_language hcalls

end Viable

end Grammar

end AugmentedBnf
