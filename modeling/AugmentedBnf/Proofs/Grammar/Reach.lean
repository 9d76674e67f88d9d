import AugmentedBnf.Proofs.Derivation.Basic
import AugmentedBnf.Proofs.Grammar.Unfolding
import Mathlib.Data.Fintype.Card
import Mathlib.Data.Set.Finite.List

/-!
# What a Rule Leads To

A rule leads to the rules that it is made of, and through deferred rules to those that they stand
for. Three questions about that can be asked without a text. `Contains` asks which rules occur in
a rule at all. `MayBeEmpty` asks whether the rule may match no code points. `AtLeft` asks which keys
the rule may defer to before anything has been passed.

A grammar is left-recursive if a key leads back to itself at the left. Otherwise there is an order
of keys in which those at the left of a key come before it, as there are only finitely many
(`wellFounded_leftReaches`).
-/

namespace AugmentedBnf

variable {κ : Type}

/-! ## §1 Occurrence -/

namespace Rule

mutual

/-- The check holds of the rule and of all rules that it is made of, deferred rules as they are. -/
def all (check : Rule κ → Bool) : Rule κ → Bool
  | .character name expected => check (.character name expected)
  | .range name low high => check (.range name low high)
  | .endOfText name => check (.endOfText name)
  | .concatenation name first rest =>
    check (.concatenation name first rest) && (all check first && allAmong check rest)
  | .alternation name first rest =>
    check (.alternation name first rest) && (all check first && allAmong check rest)
  | .repetition name bounds element =>
    check (.repetition name bounds element) && all check element
  | .deferred name key => check (.deferred name key)

/-- The check holds of some rules and of all rules that they are made of. -/
def allAmong (check : Rule κ → Bool) : List (Rule κ) → Bool
  | [] => true
  | rule :: rest => all check rule && allAmong check rest

end

theorem allAmong_iff {check : Rule κ → Bool} {rules : List (Rule κ)} :
    allAmong check rules ↔ ∀ rule ∈ rules, rule.all check := by
  induction rules with
  | nil => simp [allAmong]
  | cons rule rest ih => rw [allAmong, Bool.and_eq_true, ih, List.forall_mem_cons]

/-- What holds of all rules that a rule is made of holds of the rule itself. -/
theorem check_of_all {check : Rule κ → Bool} {rule : Rule κ} (h : rule.all check) : check rule := by
  cases rule with
  | character name expected => exact h
  | range name low high => exact h
  | endOfText name => exact h
  | concatenation name first rest =>
    rw [all, Bool.and_eq_true] at h
    exact h.1
  | alternation name first rest =>
    rw [all, Bool.and_eq_true] at h
    exact h.1
  | repetition name bounds element =>
    rw [all, Bool.and_eq_true] at h
    exact h.1
  | deferred name key => exact h

section Members

variable {check : Rule κ → Bool} {name : String} {first member element : Rule κ}
  {rest : List (Rule κ)} {bounds : Bounds}

theorem all_of_mem_concatenation (h : (Rule.concatenation name first rest).all check)
    (hmember : member ∈ first :: rest) : member.all check := by
  rw [all, Bool.and_eq_true] at h
  have hall : allAmong check (first :: rest) := h.2
  exact allAmong_iff.mp hall member hmember

theorem all_of_mem_alternation (h : (Rule.alternation name first rest).all check)
    (hmember : member ∈ first :: rest) : member.all check := by
  rw [all, Bool.and_eq_true] at h
  have hall : allAmong check (first :: rest) := h.2
  exact allAmong_iff.mp hall member hmember

theorem all_element (h : (Rule.repetition name bounds element).all check) :
    element.all check := by
  rw [all, Bool.and_eq_true] at h
  exact h.2

end Members

/-- The rule is not an end of the text. -/
def isNoEnd : Rule κ → Bool
  | .endOfText _ => false
  | _ => true

end Rule

namespace Grammar

/-- `Contains grammar rule part`: the rule `part` occurs in `rule`, where deferred rules are taken
    for the rules that they stand for. -/
inductive Contains (grammar : Grammar κ) : Rule κ → Rule κ → Prop where
  | refl (rule : Rule κ) : Contains grammar rule rule
  | concatenation {name : String} {first member part : Rule κ} {rest : List (Rule κ)}
      (hmember : member ∈ first :: rest) (hpart : Contains grammar member part) :
      Contains grammar (.concatenation name first rest) part
  | alternation {name : String} {first member part : Rule κ} {rest : List (Rule κ)}
      (hmember : member ∈ first :: rest) (hpart : Contains grammar member part) :
      Contains grammar (.alternation name first rest) part
  | repetition {name : String} {bounds : Bounds} {element part : Rule κ}
      (hpart : Contains grammar element part) :
      Contains grammar (.repetition name bounds element) part
  | deferred {name : String} {key : κ} {rule part : Rule κ}
      (hdefine : grammar.define key = .ok rule) (hpart : Contains grammar rule part) :
      Contains grammar (.deferred name key) part

/-- What holds of all rules as they are written holds of all that occur. -/
theorem Contains.all {grammar : Grammar κ} {check : Rule κ → Bool}
    (hdefine : ∀ key rule, grammar.define key = .ok rule → rule.all check) {rule part : Rule κ}
    (h : grammar.Contains rule part) (hrule : rule.all check) : part.all check := by
  induction h with
  | refl rule => exact hrule
  | concatenation hmember _ ih => exact ih (Rule.all_of_mem_concatenation hrule hmember)
  | alternation hmember _ ih => exact ih (Rule.all_of_mem_alternation hrule hmember)
  | repetition _ ih => exact ih (Rule.all_element hrule)
  | deferred hkey _ ih => exact ih (hdefine _ _ hkey)

/-- What occurs in a part occurs in the whole. -/
theorem Contains.trans {grammar : Grammar κ} {rule part part' : Rule κ}
    (h : grammar.Contains rule part) (h' : grammar.Contains part part') :
    grammar.Contains rule part' := by
  induction h with
  | refl rule => exact h'
  | concatenation hmember _ ih => exact .concatenation hmember (ih h')
  | alternation hmember _ ih => exact .alternation hmember (ih h')
  | repetition _ ih => exact .repetition (ih h')
  | deferred hkey _ ih => exact .deferred hkey (ih h')

/-- A rule contains a place for each key that it defers to. -/
theorem exists_contains_of_mem_keys (grammar : Grammar κ) {key : κ} {rule : Rule κ}
    (h : key ∈ rule.keys) : ∃ name, grammar.Contains rule (.deferred name key) := by
  induction rule using Rule.inductionOn with
  | character => cases h
  | range => cases h
  | endOfText => cases h
  | concatenation name first rest ih =>
    obtain ⟨member, hmember, hkey⟩ := Rule.mem_keys_concatenation.mp h
    obtain ⟨name, hcontains⟩ := ih member hmember hkey
    exact ⟨name, .concatenation hmember hcontains⟩
  | alternation name first rest ih =>
    obtain ⟨member, hmember, hkey⟩ := Rule.mem_keys_alternation.mp h
    obtain ⟨name, hcontains⟩ := ih member hmember hkey
    exact ⟨name, .alternation hmember hcontains⟩
  | repetition name bounds element ih =>
    obtain ⟨name, hcontains⟩ := ih h
    exact ⟨name, .repetition hcontains⟩
  | deferred name key' =>
    obtain rfl := Rule.mem_keys_deferred.mp h
    exact ⟨name, .refl _⟩

/-- No end of the text occurs where none is written. -/
theorem not_contains_endOfText {grammar : Grammar κ}
    (hdefine : ∀ key rule, grammar.define key = .ok rule → rule.all Rule.isNoEnd) {rule : Rule κ}
    (hrule : rule.all Rule.isNoEnd) (name : String) :
    ¬ grammar.Contains rule (.endOfText name) := by
  intro hcontains
  cases hcontains.all hdefine hrule

/-! ## §2 Rules that may be empty -/

/-- The rule may match no code points. This is the least assignment that its laws allow: a rule that
    is deferred to in a circle is not empty for that reason alone. -/
inductive MayBeEmpty (grammar : Grammar κ) : Rule κ → Prop where
  | endOfText (name : String) : MayBeEmpty grammar (.endOfText name)
  | concatenation {name : String} {first : Rule κ} {rest : List (Rule κ)}
      (hmembers : ∀ member ∈ first :: rest, MayBeEmpty grammar member) :
      MayBeEmpty grammar (.concatenation name first rest)
  | alternation {name : String} {first member : Rule κ} {rest : List (Rule κ)}
      (hmember : member ∈ first :: rest) (hempty : MayBeEmpty grammar member) :
      MayBeEmpty grammar (.alternation name first rest)
  | leftOut {name : String} {bounds : Bounds} {element : Rule κ} (hmin : bounds.min = 0) :
      MayBeEmpty grammar (.repetition name bounds element)
  | repetition {name : String} {bounds : Bounds} {element : Rule κ}
      (helement : MayBeEmpty grammar element) :
      MayBeEmpty grammar (.repetition name bounds element)
  | deferred {name : String} {key : κ} {rule : Rule κ} (hdefine : grammar.define key = .ok rule)
      (hrule : MayBeEmpty grammar rule) : MayBeEmpty grammar (.deferred name key)

variable {grammar : Grammar κ}

mutual

/-- **Only rules that may be empty match no code points.** -/
theorem Matches.mayBeEmpty : ∀ {rule : Rule κ} {chars left : List Char} {tree : Tree},
    grammar.Matches rule chars tree left → tree.chars = [] → grammar.MayBeEmpty rule
  | _, _, _, _, .character _ _ _, hempty => by
    rw [Tree.chars_leaf] at hempty
    cases hempty
  | _, _, _, _, .range _ _ _, hempty => by
    rw [Tree.chars_leaf] at hempty
    cases hempty
  | _, _, _, _, .endOfText name, _ => .endOfText name
  | _, _, _, _, .concatenation hparts, hempty => .concatenation (hparts.mayBeEmpty hempty)
  | _, _, _, _, @Matches.alternation _ _ _ _ member _ earlier later _ _ _ hmembers _ hmember,
      hempty => by
    have hchosen := hmember.mayBeEmpty (by simpa using hempty)
    refine .alternation ?_ hchosen
    rw [hmembers]
    exact List.mem_append_cons_self
  | _, _, _, _, @Matches.repetition _ _ _ bounds element _ _ parts hparts _ _ hmin _, hempty => by
    have heach := hparts.mayBeEmpty hempty
    cases parts with
    | nil =>
      -- Without parts, none was asked for.
      have hzero := hmin.resolve_right Tree.not_endsEmpty_nil
      exact .leftOut (Nat.le_zero.mp hzero)
    | cons part parts => exact .repetition (heach element List.mem_cons_self)
  | _, _, _, _, .deferred hdefine hrule, hempty => .deferred hdefine (hrule.mayBeEmpty hempty)

theorem MatchesEach.mayBeEmpty : ∀ {rules : List (Rule κ)} {chars left : List Char}
    {parts : List Tree}, grammar.MatchesEach rules chars parts left →
    Tree.charsAmong parts = [] → ∀ rule ∈ rules, grammar.MayBeEmpty rule
  | _, _, _, _, .nil _, _ => by
    intro rule hrule
    cases hrule
  | _, _, _, _, .cons hfirst hrest, hempty => by
    rw [Tree.charsAmong_cons, List.append_eq_nil_iff] at hempty
    exact List.forall_mem_cons.mpr
      ⟨hfirst.mayBeEmpty hempty.1, hrest.mayBeEmpty hempty.2⟩

end

/-! ## §3 Left positions -/

/-- `AtLeft grammar key rule`: the rule defers to the key at a left position, so that the deferred
    rule may be entered before any code point has been passed. -/
inductive AtLeft (grammar : Grammar κ) (key : κ) : Rule κ → Prop where
  | deferred (name : String) : AtLeft grammar key (.deferred name key)
  /-- A member of a concatenation is at the left if all members before it may be empty. -/
  | concatenation {name : String} {first member : Rule κ} {rest earlier later : List (Rule κ)}
      (hmembers : first :: rest = earlier ++ member :: later)
      (hearlier : ∀ other ∈ earlier, MayBeEmpty grammar other)
      (hmember : AtLeft grammar key member) :
      AtLeft grammar key (.concatenation name first rest)
  | alternation {name : String} {first member : Rule κ} {rest : List (Rule κ)}
      (hmember : member ∈ first :: rest) (hleft : AtLeft grammar key member) :
      AtLeft grammar key (.alternation name first rest)
  | repetition {name : String} {bounds : Bounds} {element : Rule κ}
      (helement : AtLeft grammar key element) :
      AtLeft grammar key (.repetition name bounds element)

/-- The rule defined for `key` defers to `key'` at a left position. -/
def LeftReaches (grammar : Grammar κ) (key key' : κ) : Prop :=
  ∃ rule, grammar.define key = .ok rule ∧ grammar.AtLeft key' rule

/-- Some key of the grammar leads back to itself through left positions. -/
def LeftRecursive (grammar : Grammar κ) : Prop :=
  ∃ key ∈ grammar.keys, Relation.TransGen grammar.LeftReaches key key

/-- All rules that the grammar's rules defer to can be built. -/
def Buildable (grammar : Grammar κ) : Prop :=
  ∀ key ∈ grammar.keys, ∃ rule, grammar.define key = .ok rule

/-- What a rule has at the left is among the keys that it defers to. -/
theorem AtLeft.mem_keys {key : κ} {rule : Rule κ} (h : grammar.AtLeft key rule) :
    key ∈ rule.keys := by
  induction h with
  | deferred name => exact Rule.mem_keys_deferred.mpr rfl
  | @concatenation name first member rest earlier later hmembers hearlier hmember ih =>
    refine Rule.mem_keys_concatenation.mpr ⟨member, ?_, ih⟩
    rw [hmembers]
    exact List.mem_append_cons_self
  | alternation hmember hleft ih => exact Rule.mem_keys_alternation.mpr ⟨_, hmember, ih⟩
  | repetition helement ih => exact ih

/-- **Without left recursion the keys are in order**: from each key only finitely many steps lead
    to the left. -/
theorem wellFounded_leftReaches (hnone : ¬ grammar.LeftRecursive) :
    WellFounded fun key' key : {key // key ∈ grammar.keys} =>
      grammar.LeftReaches key.1 key'.1 := by
  have hfinite : Finite {key // key ∈ grammar.keys} := grammar.keys.finite_toSet
  -- A chain of steps between listed keys is one of the grammar.
  let step := fun key' key : {key // key ∈ grammar.keys} => grammar.LeftReaches key.1 key'.1
  let chain := Relation.TransGen step
  have hchain : ∀ key' key, chain key' key →
      Relation.TransGen grammar.LeftReaches key.1 key'.1 := by
    intro key' key h
    induction h with
    | single hstep => exact .single hstep
    | tail _ hstep ih => exact .head hstep ih
  have htrans : IsTrans _ chain := ⟨fun _ _ _ => Relation.TransGen.trans⟩
  have hirrefl : Std.Irrefl chain := ⟨fun key h => hnone ⟨key.1, key.2, hchain key key h⟩⟩
  have hwf : WellFounded chain := Finite.wellFounded_of_trans_of_irrefl chain
  have hsub : Subrelation step chain := fun hstep => .single hstep
  exact hsub.wf hwf

/-- A grammar in which each step to the left lowers a rank is not left-recursive. -/
theorem not_leftRecursive_of_rank (rank : κ → Nat)
    (hrank : ∀ key key', grammar.LeftReaches key key' → rank key' < rank key) :
    ¬ grammar.LeftRecursive := by
  have hlower : ∀ {key key'}, Relation.TransGen grammar.LeftReaches key key' →
      rank key' < rank key := by
    intro key key' h
    induction h with
    | single hstep => exact hrank _ _ hstep
    | tail _ hstep ih => exact Nat.lt_trans (hrank _ _ hstep) ih
  intro ⟨key, _, hcircle⟩
  exact Nat.lt_irrefl _ (hlower hcircle)

end Grammar

end AugmentedBnf
