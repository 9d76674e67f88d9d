import AugmentedBnf.Rule.Fault
import AugmentedBnf.Text.Quoted

/-!
# Rules

A rule is a named description of what a text may look like. Concatenations and alternations have
a first member and further ones, so they are never empty, and a repetition carries bounds that
are in order. A deferred rule stands for another one that is found by its key when it is needed;
that is how rules refer to themselves.

`concatenation?`, `alternation?` and `repetition?` build rules from parts that may be wrong.
-/

namespace AugmentedBnf

/-! ## §1 Bounds of a repetition -/

/-- How often a repetition has to occur, and how often it may; no `max` means any number. -/
structure Bounds where
  min : Nat
  max : Option Nat
  ordered : ∀ m ∈ max, min ≤ m
deriving DecidableEq

namespace Bounds

/-- At least `min` times. -/
def atLeast (min : Nat) : Bounds := ⟨min, none, by simp⟩

/-- Once or not at all. -/
def optional : Bounds := ⟨0, some 1, by simp⟩

/-- Whether a repetition that has occurred `count` times may occur again. -/
def allowsMore (bounds : Bounds) (count : Nat) : Bool :=
  match bounds.max with
  | none => true
  | some max => count < max

end Bounds

/-! ## §2 Rules -/

/-- A rule whose deferred parts are found by keys of type `κ`. -/
inductive Rule (κ : Type) where
  /-- The character `expected` alone. -/
  | character (name : String) (expected : Char)
  /-- One code point from `low` to `high`, both included. -/
  | range (name : String) (low high : Char)
  /-- The end of the text. -/
  | endOfText (name : String)
  /-- All members, one after the other. -/
  | concatenation (name : String) (first : Rule κ) (rest : List (Rule κ))
  /-- The first member that matches. -/
  | alternation (name : String) (first : Rule κ) (rest : List (Rule κ))
  /-- The element as often as it matches, within bounds. -/
  | repetition (name : String) (bounds : Bounds) (element : Rule κ)
  /-- The rule found by `key`, under a name of its own. -/
  | deferred (name : String) (key : κ)

namespace Rule

variable {κ ι : Type}

/-- The name of the rule, which its nodes carry. -/
def name : Rule κ → String
  | .character name _ => name
  | .range name _ _ => name
  | .endOfText name => name
  | .concatenation name _ _ => name
  | .alternation name _ _ => name
  | .repetition name _ _ => name
  | .deferred name _ => name

/-- The rule in brief: its name, quoted. -/
def display (rule : Rule κ) : String := "Rule(" ++ Text.quoteString rule.name ++ ")"

/-! ## §3 Repetitions by use -/

/-- Any number of times. -/
def many (name : String) (element : Rule κ) : Rule κ := .repetition name (.atLeast 0) element

/-- Once or more. -/
def many1 (name : String) (element : Rule κ) : Rule κ := .repetition name (.atLeast 1) element

/-- Once or not at all. -/
def optional (name : String) (element : Rule κ) : Rule κ := .repetition name .optional element

/-! ## §4 Construction from parts that may be wrong -/

/-- A concatenation of the members, unless there are none. -/
def concatenation? (name : String) : List (Rule κ) → Except ConstructionFault (Rule κ)
  | [] => .error (.emptyConcatenation name)
  | first :: rest => .ok (.concatenation name first rest)

/-- An alternation of the members, unless there are none. -/
def alternation? (name : String) : List (Rule κ) → Except ConstructionFault (Rule κ)
  | [] => .error (.emptyAlternation name)
  | first :: rest => .ok (.alternation name first rest)

/-- A repetition from `min` to `max` times, unless `min` is above `max`. -/
def repetition? (name : String) (min : Nat) (max : Option Nat) (element : Rule κ) :
    Except ConstructionFault (Rule κ) :=
  match max with
  | none => .ok (.repetition name (.atLeast min) element)
  | some max =>
    if h : min ≤ max then
      .ok (.repetition name ⟨min, some max, by simpa using h⟩ element)
    else .error (.reversedBounds name min max)

/-! ## §5 Change of keys -/

mutual

/-- The same rule with every key replaced. -/
def map (f : κ → ι) : Rule κ → Rule ι
  | .character name expected => .character name expected
  | .range name low high => .range name low high
  | .endOfText name => .endOfText name
  | .concatenation name first rest => .concatenation name (map f first) (mapAll f rest)
  | .alternation name first rest => .alternation name (map f first) (mapAll f rest)
  | .repetition name bounds element => .repetition name bounds (map f element)
  | .deferred name key => .deferred name (f key)

/-- The same rules with every key replaced. -/
def mapAll (f : κ → ι) : List (Rule κ) → List (Rule ι)
  | [] => []
  | rule :: rest => map f rule :: mapAll f rest

end

/-- Keys of several rules are replaced rule by rule. -/
theorem mapAll_eq_map (f : κ → ι) (rules : List (Rule κ)) :
    mapAll f rules = rules.map (map f) := by
  induction rules with
  | nil => rfl
  | cons rule rest ih => rw [mapAll, ih, List.map_cons]

end Rule

end AugmentedBnf
