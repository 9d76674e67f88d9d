import AugmentedBnf.Matching.Matcher

/-!
# What Rules Match

A rule is evaluated along its structure. Only a deferred rule needs more than the rule itself:
`call` says what the rule with a given key does, and the deferred rule does the same without
adding a node.
-/

namespace AugmentedBnf.Rule

variable {κ τ : Type} [Journal τ]

mutual

/-- What a rule matches, given what deferred rules match. -/
def matcher (call : String → κ → Matcher τ Node) : Rule κ → Matcher τ Node
  | .character name expected => .codePoint name (Text.quoteChar expected) (· = expected)
  | .range name low high =>
    .codePoint name (Text.codePoint low ++ "..=" ++ Text.codePoint high)
      fun c => low ≤ c ∧ c ≤ high
  | .endOfText name => .endOfText name
  | .concatenation name first rest =>
    .node name (.sequence (matcher call first :: matchers call rest))
  | .alternation name first rest => .node name (.choice (matcher call first) (matchers call rest))
  | .repetition name bounds element => .node name (.repetition bounds (matcher call element))
  | .deferred name key => call name key

/-- What each of some rules matches. -/
def matchers (call : String → κ → Matcher τ Node) : List (Rule κ) → List (Matcher τ Node)
  | [] => []
  | rule :: rest => matcher call rule :: matchers call rest

end

/-- The matchers of several rules are the matchers of each. -/
theorem matchers_eq_map (call : String → κ → Matcher τ Node) (rules : List (Rule κ)) :
    matchers call rules = rules.map (matcher call) := by
  induction rules with
  | nil => rfl
  | cons rule rest ih => rw [matchers, ih, List.map_cons]

end AugmentedBnf.Rule
