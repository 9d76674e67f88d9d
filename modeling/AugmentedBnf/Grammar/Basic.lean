import AugmentedBnf.Matching.Rule

/-!
# Grammars

A grammar gives the rules that deferred rules stand for. A rule is evaluated in a grammar: where
it defers to a key, the rule defined for the key takes over.

Deferred rules may lead to each other for ever. An evaluation counts how many of them it has
entered within each other and is abandoned when there are more than `depth` allows. In a grammar
without left recursion no key comes twice within itself before the cursor moves on, so `depth`
leaves room for every key at every offset of the text.
-/

namespace AugmentedBnf

/-- The rules that deferred rules stand for. A rule that cannot be built has a fault instead. `keys`
    is there to be counted: if it does not list all keys that rules of the grammar defer to,
    evaluations may be abandoned that would come to an end. -/
structure Grammar (κ : Type) where
  keys : List κ
  define : κ → Except ConstructionFault (Rule κ)

namespace Grammar

variable {κ τ : Type} [Journal τ]

/-- What a deferred rule matches when at most `depth` deferred rules may be entered within each
    other. It adds no node of its own. -/
def call (grammar : Grammar κ) : Nat → String → κ → Matcher τ Node
  | 0, _, _ => fun _ trail => .aborted .unfoldings trail
  | depth + 1, _, key =>
    match grammar.define key with
    | .ok rule => rule.matcher (grammar.call depth)
    | .error fault => fun _ trail => .aborted (.construction fault) trail

/-- How many deferred rules may be entered within each other while matching a text. -/
def depth (grammar : Grammar κ) (text : String) : Nat :=
  (text.utf8ByteSize + 1) * grammar.keys.length

/-- What a rule matches in the grammar. -/
def matcher (grammar : Grammar κ) (rule : Rule κ) : Matcher τ Node :=
  fun cursor => rule.matcher (grammar.call (grammar.depth cursor.text)) cursor

end Grammar

end AugmentedBnf
