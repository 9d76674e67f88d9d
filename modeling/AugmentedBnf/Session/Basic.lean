import AugmentedBnf.Matching.Rule

/-!
# Sessions

Within a session a deferred rule is built once, when it is first needed, and kept for later
evaluations. Every place in a rule that defers has a cell of its own, also when two places defer
to the same key, and building a rule makes cells for the places in it. A session also keeps the
log of what happened.
-/

namespace AugmentedBnf

/-! ## §1 Places that defer -/

/-- A place in a rule that defers to `key` and finds what was built for it in cell `cell`. -/
structure Occurrence (κ : Type) where
  key : κ
  cell : Nat
deriving DecidableEq, Repr

namespace Rule

variable {κ : Type}

mutual

/-- The rule with its deferring places numbered from `cell` on, and the number after the last. -/
def number (cell : Nat) : Rule κ → Rule (Occurrence κ) × Nat
  | .character name expected => (.character name expected, cell)
  | .range name low high => (.range name low high, cell)
  | .endOfText name => (.endOfText name, cell)
  | .concatenation name first rest =>
    let (first, cell) := number cell first
    let (rest, cell) := numberAll cell rest
    (.concatenation name first rest, cell)
  | .alternation name first rest =>
    let (first, cell) := number cell first
    let (rest, cell) := numberAll cell rest
    (.alternation name first rest, cell)
  | .repetition name bounds element =>
    let (element, cell) := number cell element
    (.repetition name bounds element, cell)
  | .deferred name key => (.deferred name ⟨key, cell⟩, cell + 1)

/-- The rules with their deferring places numbered from `cell` on, and the number after the
    last. -/
def numberAll (cell : Nat) : List (Rule κ) → List (Rule (Occurrence κ)) × Nat
  | [] => ([], cell)
  | rule :: rest =>
    let (rule, cell) := number cell rule
    let (rest, cell) := numberAll cell rest
    (rule :: rest, cell)

end

end Rule

/-! ## §2 Cells and events -/

/-- The rules built so far, by cell, and the events so far, the latest first. -/
structure Session (κ : Type) where
  cells : Array (Option (Rule (Occurrence κ)))
  events : List Event

namespace Session

variable {κ : Type}

/-- A session in which nothing was built. -/
def empty : Session κ := ⟨#[], []⟩

/-- The rule in a cell, if it was built. -/
def built (session : Session κ) (cell : Nat) : Option (Rule (Occurrence κ)) :=
  (session.cells[cell]?).join

/-- Makes cells for the deferring places of a rule, all yet to be built. -/
def enrol (session : Session κ) (rule : Rule κ) : Rule (Occurrence κ) × Session κ :=
  let (numbered, cell) := rule.number session.cells.size
  let added := cell - session.cells.size
  (numbered, { session with cells := session.cells ++ Array.replicate added none })

/-- Keeps what was built for a cell. -/
def keep (session : Session κ) (cell : Nat) (rule : Rule (Occurrence κ)) : Session κ :=
  { session with cells := session.cells.setIfInBounds cell (some rule) }

instance : Journal (Session κ) where
  happened event session := { session with events := event :: session.events }

end Session

end AugmentedBnf
