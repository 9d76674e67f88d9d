import AugmentedBnf.Grammar.Basic

/-!
# Induction over Rules

A rule holds lists of rules, and a deferred rule leads to another one that is no part of it. There
are thus two ways to argue about all rules. `Rule.inductionOn` follows the structure of one rule
and stops where it defers. `Grammar.unfoldingInduction` also follows deferred rules, as an
evaluation does: each one that is entered uses up one of the unfoldings that are left.
-/

namespace AugmentedBnf

variable {κ τ : Type}

/-! ## §1 Structure of a rule -/

/-- What holds of a rule as soon as it holds of its members holds of every rule. -/
@[elab_as_elim]
theorem Rule.inductionOn {motive : Rule κ → Prop} (rule : Rule κ)
    (character : ∀ name expected, motive (.character name expected))
    (range : ∀ name low high, motive (.range name low high))
    (endOfText : ∀ name, motive (.endOfText name))
    (concatenation : ∀ name first rest, (∀ member ∈ first :: rest, motive member) →
      motive (.concatenation name first rest))
    (alternation : ∀ name first rest, (∀ member ∈ first :: rest, motive member) →
      motive (.alternation name first rest))
    (repetition : ∀ name bounds element, motive element →
      motive (.repetition name bounds element))
    (deferred : ∀ name key, motive (.deferred name key)) : motive rule := by
  -- The members of a rule are a list, about which the recursor asks for a motive of its own.
  refine @Rule.rec κ motive (fun rules => ∀ member ∈ rules, motive member) character range
    endOfText ?_ ?_ repetition deferred ?_ ?_ rule
  · intro name first rest hfirst hrest
    exact concatenation name first rest (List.forall_mem_cons.mpr ⟨hfirst, hrest⟩)
  · intro name first rest hfirst hrest
    exact alternation name first rest (List.forall_mem_cons.mpr ⟨hfirst, hrest⟩)
  · intro member hmember
    cases hmember
  · intro first rest hfirst hrest
    exact List.forall_mem_cons.mpr ⟨hfirst, hrest⟩

/-! ## §2 Deferred rules -/

/-- What holds of a rule as soon as it holds of its members, and of a deferred rule as soon as it
    holds of the rule defined for its key with one unfolding less, holds of every rule and any
    number of unfoldings. -/
@[elab_as_elim]
theorem Grammar.unfoldingInduction (grammar : Grammar κ) {motive : Nat → Rule κ → Prop}
    (depth : Nat) (rule : Rule κ)
    (character : ∀ depth name expected, motive depth (.character name expected))
    (range : ∀ depth name low high, motive depth (.range name low high))
    (endOfText : ∀ depth name, motive depth (.endOfText name))
    (concatenation : ∀ depth name first rest, (∀ member ∈ first :: rest, motive depth member) →
      motive depth (.concatenation name first rest))
    (alternation : ∀ depth name first rest, (∀ member ∈ first :: rest, motive depth member) →
      motive depth (.alternation name first rest))
    (repetition : ∀ depth name bounds element, motive depth element →
      motive depth (.repetition name bounds element))
    (exhausted : ∀ name key, motive 0 (.deferred name key))
    (unbuildable : ∀ depth name key fault, grammar.define key = .error fault →
      motive (depth + 1) (.deferred name key))
    (unfolded : ∀ depth name key rule, grammar.define key = .ok rule → motive depth rule →
      motive (depth + 1) (.deferred name key)) : motive depth rule := by
  induction depth generalizing rule with
  | zero =>
    induction rule using Rule.inductionOn with
    | character name expected => exact character 0 name expected
    | range name low high => exact range 0 name low high
    | endOfText name => exact endOfText 0 name
    | concatenation name first rest ih => exact concatenation 0 name first rest ih
    | alternation name first rest ih => exact alternation 0 name first rest ih
    | repetition name bounds element ih => exact repetition 0 name bounds element ih
    | deferred name key => exact exhausted name key
  | succ depth ihdepth =>
    induction rule using Rule.inductionOn with
    | character name expected => exact character _ name expected
    | range name low high => exact range _ name low high
    | endOfText name => exact endOfText _ name
    | concatenation name first rest ih => exact concatenation _ name first rest ih
    | alternation name first rest ih => exact alternation _ name first rest ih
    | repetition name bounds element ih => exact repetition _ name bounds element ih
    | deferred name key =>
      cases hdefine : grammar.define key with
      | error fault => exact unbuildable depth name key fault hdefine
      | ok rule => exact unfolded depth name key rule hdefine (ihdepth rule)

/-! ## §3 Keys that a rule defers to -/

namespace Rule

mutual

/-- The keys that the rule itself defers to. -/
def keys : Rule κ → List κ
  | .character _ _ => []
  | .range _ _ _ => []
  | .endOfText _ => []
  | .concatenation _ first rest => keys first ++ keysAmong rest
  | .alternation _ first rest => keys first ++ keysAmong rest
  | .repetition _ _ element => keys element
  | .deferred _ key => [key]

/-- The keys that some rules defer to, rule by rule. -/
def keysAmong : List (Rule κ) → List κ
  | [] => []
  | rule :: rest => keys rule ++ keysAmong rest

end

/-- Keys of several rules are collected rule by rule. -/
theorem keysAmong_eq_flatMap (rules : List (Rule κ)) : keysAmong rules = rules.flatMap keys := by
  induction rules with
  | nil => rfl
  | cons rule rest ih => rw [keysAmong, ih, List.flatMap_cons]

theorem mem_keys_concatenation {name : String} {first : Rule κ} {rest : List (Rule κ)} {key : κ} :
    key ∈ (Rule.concatenation name first rest).keys ↔
      ∃ member ∈ first :: rest, key ∈ member.keys := by
  rw [keys, keysAmong_eq_flatMap, ← List.flatMap_cons, List.mem_flatMap]

theorem mem_keys_alternation {name : String} {first : Rule κ} {rest : List (Rule κ)} {key : κ} :
    key ∈ (Rule.alternation name first rest).keys ↔
      ∃ member ∈ first :: rest, key ∈ member.keys := by
  rw [keys, keysAmong_eq_flatMap, ← List.flatMap_cons, List.mem_flatMap]

theorem mem_keys_deferred {name : String} {key key' : κ} :
    key' ∈ (Rule.deferred name key).keys ↔ key' = key := by
  rw [keys, List.mem_singleton]

end Rule

/-! ## §4 Matchers of rules -/

section Matchers

variable [Journal τ] (call : String → κ → Matcher τ Node)

theorem Rule.matcher_concatenation (name : String) (first : Rule κ) (rest : List (Rule κ)) :
    (Rule.concatenation name first rest).matcher call
      = .node name (.sequence ((first :: rest).map (Rule.matcher call))) := by
  rw [Rule.matcher, Rule.matchers_eq_map, List.map_cons]

theorem Rule.matcher_alternation (name : String) (first : Rule κ) (rest : List (Rule κ)) :
    (Rule.alternation name first rest).matcher call
      = .node name (.choice (first.matcher call) (rest.map (Rule.matcher call))) := by
  rw [Rule.matcher, Rule.matchers_eq_map]

theorem Rule.matcher_repetition (name : String) (bounds : Bounds) (element : Rule κ) :
    (Rule.repetition name bounds element).matcher call
      = .node name (.repetition bounds (element.matcher call)) := by
  rw [Rule.matcher]

/-- A deferred rule with nothing left to unfold is abandoned. -/
theorem Grammar.matcher_exhausted (grammar : Grammar κ) (name : String) (key : κ) :
    (Rule.deferred name key).matcher (grammar.call 0 : String → κ → Matcher τ Node)
      = fun _ trail => .aborted .unfoldings trail := by
  rw [Rule.matcher, Grammar.call]

/-- A deferred rule that cannot be built is abandoned. -/
theorem Grammar.matcher_unbuildable (grammar : Grammar κ) (depth : Nat) (name : String) {key : κ}
    {fault : ConstructionFault} (hdefine : grammar.define key = .error fault) :
    (Rule.deferred name key).matcher (grammar.call (depth + 1) : String → κ → Matcher τ Node)
      = fun _ trail => .aborted (.construction fault) trail := by
  rw [Rule.matcher, Grammar.call, hdefine]

/-- A deferred rule does as the rule that it stands for. -/
theorem Grammar.matcher_unfolded (grammar : Grammar κ) (depth : Nat) (name : String) {key : κ}
    {rule : Rule κ} (hdefine : grammar.define key = .ok rule) :
    (Rule.deferred name key).matcher (grammar.call (depth + 1) : String → κ → Matcher τ Node)
      = rule.matcher (grammar.call depth) := by
  rw [Rule.matcher, Grammar.call, hdefine]

end Matchers

end AugmentedBnf
