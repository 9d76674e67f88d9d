import AugmentedBnf.Proofs.Derivation.Lookahead

/-!
# Predictive Rules

Where each choice of a rule is settled by the next code point, order plays no part: the
alternatives begin with different code points, and a repetition goes on with other ones than those
that may follow it. `Rule.predictive` checks that, given what may follow the rule. A predictive rule
matches every word of its language (`takes_of_predictive`), so for such rules there is nothing more
to be shown about greediness and commitment.
-/

namespace AugmentedBnf

variable {κ : Type}

namespace Rule

/-- What may come behind a rule: what the rules after it can begin with, and what follows all of
    them if they may be left out. -/
def behind (rules : List (Rule κ)) (follow : List (Char × Char)) : List (Char × Char) :=
  firstAll rules ++ if nullableAll rules then follow else []

/-- What may come behind a round of a repetition: another round, if there may be one, and what
    follows the repetition. -/
def behindRound (bounds : Bounds) (element : Rule κ) (follow : List (Char × Char)) :
    List (Char × Char) :=
  if bounds.max = some 1 then follow else first element ++ follow

mutual

/-- Whether the next code point settles each choice of the rule, with `follow` coming behind it. -/
def predictive (follow : List (Char × Char)) : Rule κ → Bool
  | .character _ _ => true
  | .range _ _ _ => true
  | .endOfText _ => false
  | .concatenation _ member rest =>
    visibleAll rest && predictive (behind rest follow) member && predictiveAll follow rest
  | .alternation name member rest =>
    visible (.alternation name member rest) && (predictive follow member &&
      apart (first member) (firstAny rest) && predictiveAny follow rest)
  | .repetition name bounds element =>
    visible (.repetition name bounds element) && apart (first element) follow &&
      predictive (behindRound bounds element follow) element
  | .deferred _ _ => false

/-- Whether the next code point settles each choice of rules one after the other. -/
def predictiveAll (follow : List (Char × Char)) : List (Rule κ) → Bool
  | [] => true
  | rule :: rest =>
    visibleAll rest && predictive (behind rest follow) rule && predictiveAll follow rest

/-- Whether the next code point settles which one of some rules is chosen. -/
def predictiveAny (follow : List (Char × Char)) : List (Rule κ) → Bool
  | [] => true
  | rule :: rest =>
    predictive follow rule && apart (first rule) (firstAny rest) && predictiveAny follow rest

end

end Rule

namespace Grammar

open Rule (visibleAll visibleAny behind behindRound)

variable {grammar : Grammar κ} {calls : κ → Language Char} {follow : List (Char × Char)}
  {chars left : List Char}

/-- Behind a rule comes a word of the rules after it. -/
theorem ahead_behind {rules : List (Rule κ)} (hvisible : visibleAll rules)
    (hchars : chars ∈ Rule.product calls rules) (hleft : Ahead follow left) :
    Ahead (behind rules follow) (chars ++ left) := by
  obtain ⟨hnil, hahead⟩ := Rule.begins_of_mem_product
    (fun _ _ hvis _ => Rule.begins_of_mem_language hvis) hvisible hchars
  -- With no code points from the rules, what follows them is ahead.
  cases chars with
  | nil =>
    intro c hc
    refine covers_append.mpr (.inr ?_)
    rw [if_pos (hnil rfl)]
    exact hleft c hc
  | cons c rest => exact fun d hd => covers_append.mpr (.inl (hahead d hd))

/-- Words of rules one after the other are matched rule by rule. -/
theorem takesEach_of_predictive {rules : List (Rule κ)}
    (h : ∀ rule ∈ rules, ∀ {follow chars left}, rule.predictive follow →
      chars ∈ rule.language calls → Ahead follow left → grammar.Takes rule chars left)
    (hpredictive : Rule.predictiveAll follow rules) (hchars : chars ∈ Rule.product calls rules)
    (hleft : Ahead follow left) : grammar.TakesEach rules chars left := by
  induction rules generalizing chars with
  | nil =>
    obtain rfl : chars = [] := hchars
    exact .nil left
  | cons rule rest ih =>
    obtain ⟨hrule, hrest⟩ := List.forall_mem_cons.mp h
    unfold Rule.predictiveAll at hpredictive
    simp only [Bool.and_eq_true] at hpredictive
    obtain ⟨⟨hvisible, hfirst⟩, hlater⟩ := hpredictive
    obtain ⟨front, hfront, back, hback, rfl⟩ := hchars
    exact .cons (hrule hfirst hfront (ahead_behind hvisible hback hleft)) (ih hrest hlater hback)

/-- A word of one of some rules is one of a rule that the earlier ones leave it to, since they
    cannot begin there. -/
theorem exists_chosen_of_predictive {rules : List (Rule κ)} (hvisible : visibleAny rules)
    (hpredictive : Rule.predictiveAny follow rules) (hchars : chars ∈ Rule.sum calls rules)
    (left : List Char) : ∃ earlier member later, rules = earlier ++ member :: later ∧
      (∀ other ∈ earlier, grammar.Fails other (chars ++ left)) ∧ member.predictive follow ∧
        chars ∈ member.language calls := by
  induction rules with
  | nil => cases hchars
  | cons rule rest ih =>
    obtain ⟨hvis, hnull, -⟩ := Rule.visible_of_mem hvisible List.mem_cons_self
    unfold Rule.visibleAny at hvisible
    unfold Rule.predictiveAny at hpredictive
    simp only [Bool.and_eq_true] at hvisible hpredictive
    obtain ⟨⟨hfirst, hapart⟩, hlater⟩ := hpredictive
    rcases hchars with hchars | hchars
    · exact ⟨[], rule, rest, rfl, by simp, hfirst, hchars⟩
    · obtain ⟨earlier, member, later, rfl, hearlier, hmember⟩ := ih hvisible.2 hlater hchars
      refine ⟨rule :: earlier, member, later, rfl, ?_, hmember⟩
      refine List.forall_mem_cons.mpr ⟨?_, hearlier⟩
      -- The word begins as a later rule does, so this one cannot.
      obtain ⟨chosen, hchosen, hword⟩ := (Rule.mem_sum calls).mp hchars
      obtain ⟨hvis', hnull', hcovers⟩ := Rule.visible_of_mem hvisible.2 hchosen
      have hahead := Rule.ahead_of_mem_language hvis' hnull' hword left
      refine (skips_or_fails hvis ?_).2 hnull
      exact Ahead.notAhead (fun d hd => hcovers d (hahead d hd)) hapart

/-- Behind a round comes another one or what follows all of them. -/
theorem ahead_behindRound {bounds : Bounds} {element : Rule κ} (hvisible : element.visible)
    (hnull : element.nullable = false) {more : Nat}
    (hchars : chars ∈ element.language calls ^ more) (hmax : ∀ max ∈ bounds.max, more < max)
    (hleft : Ahead follow left) : Ahead (behindRound bounds element follow) (chars ++ left) := by
  unfold behindRound
  cases more with
  | zero =>
    obtain rfl : chars = [] := hchars
    split
    · exact hleft
    · exact fun c hc => covers_append.mpr (.inr (hleft c hc))
  | succ more =>
    -- Another round comes, so there may be one.
    have hone : bounds.max ≠ some 1 := fun hone => absurd (hmax 1 hone) (by omega)
    rw [if_neg hone]
    rw [pow_succ'] at hchars
    obtain ⟨front, hfront, back, -, rfl⟩ := hchars
    have hahead := Rule.ahead_of_mem_language hvisible hnull hfront (back ++ left)
    rw [← List.append_assoc] at hahead
    exact fun c hc => covers_append.mpr (.inl (hahead c hc))

/-- The rounds that a word is made of are matched one by one, and then the element cannot begin. -/
theorem takesRounds_of_predictive {bounds : Bounds} {element : Rule κ} {count more : Nat}
    (h : ∀ {chars left}, chars ∈ element.language calls →
      Ahead (behindRound bounds element follow) left → grammar.Takes element chars left)
    (hvisible : element.visible) (hnull : element.nullable = false)
    (hapart : apart element.first follow) (hmin : bounds.min ≤ count + more)
    (hmax : ∀ max ∈ bounds.max, count + more ≤ max)
    (hchars : chars ∈ element.language calls ^ more) (hleft : Ahead follow left) :
    grammar.TakesRounds bounds element count chars left := by
  induction more generalizing count chars with
  | zero =>
    -- What follows the repetition tells that no round begins there.
    obtain rfl : chars = [] := hchars
    exact .ended hmin hmax ((skips_or_fails hvisible (hleft.notAhead hapart)).2 hnull)
  | succ more ih =>
    rw [pow_succ'] at hchars
    obtain ⟨front, hfront, back, hback, rfl⟩ := hchars
    have hroom : ∀ max ∈ bounds.max, more < max := by
      intro max hmember
      have hle := hmax max hmember
      omega
    rw [← Nat.add_assoc, Nat.add_right_comm] at hmin hmax
    apply TakesRounds.cons
    · exact h hfront (ahead_behindRound hvisible hnull hback hroom hleft)
    · exact Rule.ne_nil_of_mem_language hvisible hnull hfront
    · exact ih hmin hmax hback

/-- **Predictive rules match every word** of their language, whatever comes behind it that may. -/
theorem takes_of_predictive {rule : Rule κ} (hpredictive : rule.predictive follow)
    (hchars : chars ∈ rule.language calls) (hleft : Ahead follow left) :
    grammar.Takes rule chars left := by
  induction rule using Rule.inductionOn generalizing follow chars left with
  | character name expected =>
    obtain rfl : chars = [expected] := hchars
    exact ⟨.leaf name expected, .character name expected left⟩
  | range name low high =>
    obtain ⟨c, hc, rfl⟩ := hchars
    exact ⟨.leaf name c, .range name hc left⟩
  | endOfText name => cases hpredictive
  | concatenation name member rest ih =>
    have hpredictive : Rule.predictiveAll follow (member :: rest) := hpredictive
    exact (takesEach_of_predictive ih hpredictive hchars hleft).concatenation
  | alternation name member rest ih =>
    unfold Rule.predictive at hpredictive
    rw [Bool.and_eq_true] at hpredictive
    have hvisible : visibleAny (member :: rest) := hpredictive.1
    have hany : Rule.predictiveAny follow (member :: rest) := hpredictive.2
    obtain ⟨earlier, chosen, later, hmembers, hearlier, hchosen, hword⟩ :=
      exists_chosen_of_predictive hvisible hany hchars left
    have hmem : chosen ∈ member :: rest := hmembers ▸ List.mem_append_cons_self
    exact (ih chosen hmem hchosen hword hleft).alternation earlier later hmembers hearlier
  | repetition name bounds element ih =>
    unfold Rule.predictive at hpredictive
    simp only [Bool.and_eq_true] at hpredictive
    obtain ⟨⟨hvisible, hapart⟩, helement⟩ := hpredictive
    unfold Rule.visible at hvisible
    simp only [Bool.and_eq_true, Bool.not_eq_true'] at hvisible
    obtain ⟨count, hmin, hmax, hchars⟩ := hchars
    rw [← Nat.zero_add count] at hmin hmax
    exact (takesRounds_of_predictive (ih helement) hvisible.1 hvisible.2 hapart hmin hmax hchars
      hleft).repetition
  | deferred name key => cases hpredictive

/-- A rule that is predictive whatever follows it matches its words wherever they stand. -/
theorem takes_of_forall_predictive {rule : Rule κ} (hpredictive : ∀ follow, rule.predictive follow)
    (hchars : chars ∈ rule.language calls) (left : List Char) : grammar.Takes rule chars left := by
  -- What is ahead is the next code point, so that one is taken as what may follow.
  apply takes_of_predictive (hpredictive (left.head?.toList.map fun c => (c, c))) hchars
  intro c hc
  exact ⟨(c, c), by simpa using hc, Char.le_refl c, Char.le_refl c⟩

end Grammar

end AugmentedBnf
