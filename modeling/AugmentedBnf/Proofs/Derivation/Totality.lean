import AugmentedBnf.Proofs.Grammar.Reach

/-!
# Derivations Decide

In a grammar without left recursion a rule matches a beginning of any code points or fails on them;
there is no third way. Rules unfold without bound, so neither their structure nor the code points
ahead get smaller all the time. Three things together do. Behind a match of some code points fewer
are ahead. Where nothing has been passed, deferred rules lead on to keys that come earlier in the
order of left positions. And between two deferred rules it is the structure of a rule that is left.

**Main statement**: `decides`.
-/

namespace AugmentedBnf.Grammar

variable {κ : Type} {grammar : Grammar κ} {rule element : Rule κ} {rules : List (Rule κ)}
  {bounds : Bounds} {count : Nat} {chars middle : List Char} {part : Tree}

/-! ## §1 Decided lists of code points -/

/-- The rule matches a beginning of the code points, or it fails on them. -/
def Decides (grammar : Grammar κ) (rule : Rule κ) (chars : List Char) : Prop :=
  (∃ tree left, grammar.Matches rule chars tree left) ∨ grammar.Fails rule chars

/-- The rule matches or fails wherever fewer than `length` code points are ahead. -/
def DecidesBelow (grammar : Grammar κ) (rule : Rule κ) (length : Nat) : Prop :=
  ∀ chars : List Char, chars.length < length → grammar.Decides rule chars

theorem DecidesBelow.mono {length length' : Nat} (h : grammar.DecidesBelow rule length)
    (hle : length' ≤ length) : grammar.DecidesBelow rule length' :=
  fun chars hchars => h chars (Nat.lt_of_lt_of_le hchars hle)

/-- A match of some code points leaves fewer of them. -/
theorem Matches.length_left_lt (h : grammar.Matches rule chars part middle)
    (hadvance : part.chars ≠ []) : middle.length < chars.length := by
  have hpos := List.length_pos_iff.mpr hadvance
  have hlength := congrArg List.length h.chars_eq
  rw [List.length_append] at hlength
  omega

/-! ## §2 Members of a rule -/

/-- Rules one after the other match, or one fails behind those before it. Where the earlier rules
    have matched nothing, they may be empty, and the next one is at the left. -/
theorem decides_sequence
    (hhere : ∀ earlier member later, rules = earlier ++ member :: later →
      (∀ other ∈ earlier, grammar.MayBeEmpty other) → grammar.Decides member chars)
    (hbelow : ∀ rule ∈ rules, grammar.DecidesBelow rule chars.length) :
    (∃ parts left, grammar.MatchesEach rules chars parts left) ∨
      ∃ earlier member later parts left, rules = earlier ++ member :: later ∧
        grammar.MatchesEach earlier chars parts left ∧ grammar.Fails member left := by
  induction rules generalizing chars with
  | nil => exact .inl ⟨[], chars, .nil chars⟩
  | cons first rest ih =>
    obtain ⟨hfirst, hrest⟩ := List.forall_mem_cons.mp hbelow
    rcases hhere [] first rest rfl (by simp) with ⟨part, middle, hpart⟩ | hfails
    · -- The rest is decided behind the match, wherever that is.
      have hlater : (∃ parts left, grammar.MatchesEach rest middle parts left) ∨
          ∃ earlier member later parts left, rest = earlier ++ member :: later ∧
            grammar.MatchesEach earlier middle parts left ∧ grammar.Fails member left := by
        by_cases hempty : part.chars = []
        · have hmiddle : chars = middle := by
            rw [hpart.chars_eq, hempty, List.nil_append]
          subst hmiddle
          refine ih (fun earlier member later hmembers hearlier => ?_) hrest
          refine hhere (first :: earlier) member later ?_ ?_
          · rw [hmembers, List.cons_append]
          · exact List.forall_mem_cons.mpr ⟨hpart.mayBeEmpty hempty, hearlier⟩
        · have hshorter := hpart.length_left_lt hempty
          refine ih (fun earlier member later hmembers _ => ?_) fun rule hrule =>
            (hrest rule hrule).mono (Nat.le_of_lt hshorter)
          have hmember : member ∈ rest := by
            rw [hmembers]
            exact List.mem_append_cons_self
          exact hrest member hmember middle hshorter
      rcases hlater with ⟨parts, left, hparts⟩ | ⟨earlier, member, later, parts, left, hmembers,
        hparts, hmember⟩
      · exact .inl ⟨part :: parts, left, .cons hpart hparts⟩
      · refine .inr ⟨first :: earlier, member, later, part :: parts, left, ?_,
          .cons hpart hparts, hmember⟩
        rw [hmembers, List.cons_append]
    · exact .inr ⟨[], first, rest, [], chars, rfl, .nil chars, hfails⟩

/-- One of several rules is the first that matches, or all of them fail. -/
theorem decides_choice (h : ∀ rule ∈ rules, grammar.Decides rule chars) :
    (∃ earlier member later part left, rules = earlier ++ member :: later ∧
      (∀ other ∈ earlier, grammar.Fails other chars) ∧ grammar.Matches member chars part left) ∨
      ∀ rule ∈ rules, grammar.Fails rule chars := by
  induction rules with
  | nil => exact .inr (by simp)
  | cons first rest ih =>
    obtain ⟨hfirst, hrest⟩ := List.forall_mem_cons.mp h
    rcases hfirst with ⟨part, left, hpart⟩ | hfails
    · exact .inl ⟨[], first, rest, part, left, rfl, by simp, hpart⟩
    · rcases ih hrest with ⟨earlier, member, later, part, left, hmembers, hearlier, hmember⟩ | hall
      · refine .inl ⟨first :: earlier, member, later, part, left, ?_, ?_, hmember⟩
        · rw [hmembers, List.cons_append]
        · exact List.forall_mem_cons.mpr ⟨hfails, hearlier⟩
      · exact .inr (List.forall_mem_cons.mpr ⟨hfails, hall⟩)

/-- A repetition goes on until it stops or fails. A round without code points is the last one, and
    behind any other fewer of them are ahead. -/
theorem decides_rounds (hcount : ∀ max ∈ bounds.max, count ≤ max)
    (hhere : grammar.Decides element chars) (hbelow : grammar.DecidesBelow element chars.length) :
    (∃ parts left, grammar.Repeats bounds element count chars parts left) ∨
      ∃ parts left, grammar.RepeatsTooFew bounds element count chars parts left := by
  induction hlength : chars.length using Nat.strongRecOn generalizing chars count with
  | ind length ih =>
    by_cases hmore : bounds.allowsMore count
    · have hroom : ∀ max ∈ bounds.max, count + 1 ≤ max := Bounds.allowsMore_iff.mp hmore
      rcases hhere with ⟨part, middle, hpart⟩ | hfails
      · by_cases hempty : part.chars = []
        · exact .inl ⟨[part], middle, .stalled hroom hpart hempty⟩
        · have hshorter := hpart.length_left_lt hempty
          have hlater := ih middle.length (hlength ▸ hshorter) hroom (hbelow middle hshorter)
            (hbelow.mono (Nat.le_of_lt hshorter)) rfl
          rcases hlater with ⟨parts, left, hparts⟩ | ⟨parts, left, hparts⟩
          · exact .inl ⟨part :: parts, left, .cons hpart hempty hparts⟩
          · exact .inr ⟨part :: parts, left, .cons hpart hempty hparts⟩
      · by_cases hfew : count < bounds.min
        · exact .inr ⟨[], chars, .ended hfew hfails⟩
        · exact .inl ⟨[], chars, .ended (Nat.not_lt.mp hfew) hcount hfails⟩
    · exact .inl ⟨[], chars, .full (Bounds.max_eq_of_not_allowsMore hcount hmore)⟩

/-! ## §3 Rules of a grammar -/

/-- A rule is decided if what it defers to at the left is, and if with fewer code points ahead all
    rules of the grammar are. -/
theorem decides_of_atLeft (hkeys : rule.keys ⊆ grammar.keys)
    (hleft : ∀ name key, grammar.AtLeft key rule → grammar.Decides (.deferred name key) chars)
    (hbelow : ∀ rule : Rule κ, rule.keys ⊆ grammar.keys →
      grammar.DecidesBelow rule chars.length) : grammar.Decides rule chars := by
  induction rule using Rule.inductionOn with
  | character name expected =>
    cases chars with
    | nil => exact .inr (.character_end name expected)
    | cons c rest =>
      by_cases hc : c = expected
      · subst hc
        exact .inl ⟨.leaf name c, rest, .character name c rest⟩
      · exact .inr (.character_mismatch name hc rest)
  | range name low high =>
    cases chars with
    | nil => exact .inr (.range_end name low high)
    | cons c rest =>
      by_cases hc : low ≤ c ∧ c ≤ high
      · exact .inl ⟨.leaf name c, rest, .range name hc rest⟩
      · exact .inr (.range_mismatch name hc rest)
  | endOfText name =>
    cases chars with
    | nil => exact .inl ⟨.node name [], [], .endOfText name⟩
    | cons c rest => exact .inr (.endOfText name c rest)
  | concatenation name first rest ih =>
    have hmember : ∀ member ∈ first :: rest, member.keys ⊆ grammar.keys :=
      fun member hmember key hkey =>
        hkeys (Rule.mem_keys_concatenation.mpr ⟨member, hmember, hkey⟩)
    have hhere : ∀ earlier member later, first :: rest = earlier ++ member :: later →
        (∀ other ∈ earlier, grammar.MayBeEmpty other) → grammar.Decides member chars := by
      intro earlier member later hmembers hearlier
      have hmem : member ∈ first :: rest := by
        rw [hmembers]
        exact List.mem_append_cons_self
      refine ih member hmem (hmember member hmem) fun name key hkey => ?_
      exact hleft name key (.concatenation hmembers hearlier hkey)
    have hlater : ∀ member ∈ first :: rest, grammar.DecidesBelow member chars.length :=
      fun member hmem => hbelow member (hmember member hmem)
    rcases decides_sequence hhere hlater with ⟨parts, left, hparts⟩ | ⟨earlier, member, later,
      parts, left, hmembers, hparts, hfails⟩
    · exact .inl ⟨.node name parts, left, .concatenation hparts⟩
    · exact .inr (.concatenation hmembers hparts hfails)
  | alternation name first rest ih =>
    have hmember : ∀ member ∈ first :: rest, grammar.Decides member chars := by
      intro member hmem
      refine ih member hmem (fun key hkey => ?_) fun name key hkey => ?_
      · exact hkeys (Rule.mem_keys_alternation.mpr ⟨member, hmem, hkey⟩)
      · exact hleft name key (.alternation hmem hkey)
    rcases decides_choice hmember with ⟨earlier, member, later, part, left, hmembers, hearlier,
      hmember⟩ | hall
    · exact .inl ⟨.node name [part], left, .alternation hmembers hearlier hmember⟩
    · exact .inr (.alternation hall)
  | repetition name bounds element ih =>
    have hhere := ih hkeys fun name key hkey => hleft name key (.repetition hkey)
    have hcount : ∀ max ∈ bounds.max, 0 ≤ max := fun max _ => Nat.zero_le max
    rcases decides_rounds hcount hhere (hbelow element hkeys) with ⟨parts, left, hparts⟩ | hfew
    · exact .inl ⟨.node name parts, left, matches_repetition_iff.mpr ⟨parts, rfl, hparts⟩⟩
    · exact .inr (fails_repetition_iff.mpr hfew)
  | deferred name key => exact hleft name key (.deferred name)

/-- A deferred rule is decided as the rule that it stands for. -/
theorem Decides.deferred {name : String} {key : κ} (hdefine : grammar.define key = .ok rule)
    (h : grammar.Decides rule chars) : grammar.Decides (.deferred name key) chars := by
  rcases h with ⟨tree, left, htree⟩ | hfails
  · exact .inl ⟨tree, left, .deferred hdefine htree⟩
  · exact .inr (.deferred hdefine hfails)

/-- **Grammars without left recursion decide**: each rule matches or fails on any code points. -/
theorem decides (hlists : grammar.ListsKeys rule) (hbuildable : grammar.Buildable)
    (hnone : ¬ grammar.LeftRecursive) (chars : List Char) : grammar.Decides rule chars := by
  induction hlength : chars.length using Nat.strongRecOn generalizing chars rule with
  | ind length ih =>
    have hbelow : ∀ rule : Rule κ, rule.keys ⊆ grammar.keys →
        grammar.DecidesBelow rule chars.length :=
      fun rule hkeys chars' hchars =>
        ih chars'.length (hlength ▸ hchars) ⟨hlists.closed, hkeys⟩ chars' rfl
    -- With these code points ahead, keys are decided in the order of left positions.
    have hdeferred : ∀ (key : {key // key ∈ grammar.keys}) (name : String),
        grammar.Decides (.deferred name key.1) chars := by
      intro key
      induction key using (wellFounded_leftReaches hnone).induction with
      | h key ihkey =>
        intro name
        obtain ⟨rule, hdefine⟩ := hbuildable key.1 key.2
        have hscope := hlists.closed key.1 key.2 rule hdefine
        refine .deferred hdefine (decides_of_atLeft hscope (fun name key' hkey => ?_) hbelow)
        exact ihkey ⟨key', hscope hkey.mem_keys⟩ ⟨rule, hdefine, hkey⟩ name
    refine decides_of_atLeft hlists.keys (fun name key hkey => ?_) hbelow
    exact hdeferred ⟨key, hlists.keys hkey.mem_keys⟩ name

end AugmentedBnf.Grammar
