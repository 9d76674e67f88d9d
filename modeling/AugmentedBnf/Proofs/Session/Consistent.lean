import AugmentedBnf.Proofs.Session.Numbering

/-!
# What a Session Keeps

The cells of a session belong to keys: `Session.Consistent` lists, cell by cell, the key that the
place with that cell defers to. A rule that was kept is the one that the grammar defines for the
key, with numbered places that have cells of their own, and the log tells of the building of just
the cells that were built, of each once.

Two things may happen to a session. Cells are made for a rule (`Consistent.enrol`), and a rule is
built for a cell that has none (`Consistent.build`). Both keep the session consistent, and neither
changes what was built before.
-/

namespace AugmentedBnf

variable {κ : Type}

/-- The rules of all needed keys can be built, and need only such keys themselves. -/
def Grammar.Provides (grammar : Grammar κ) (needed : κ → Prop) : Prop :=
  ∀ key, needed key → ∃ rule, grammar.define key = .ok rule ∧ ∀ key' ∈ rule.keys, needed key'

/-! ## §1 The log -/

/-- The cell that the event tells the building of. -/
def Event.cell? : Event → Option Nat
  | .building _ cell _ => some cell
  | _ => none

/-- Building is the only finer detail that the log tells. -/
theorem Event.level_eq_iff (event : Event) : event.level = "DEBUG" ↔ event.cell? = none := by
  cases event <;> simp [level, cell?]

namespace Session

/-- The cells whose building the log tells, the latest first. A cell is told once for each time that
    the rule for it is made, since making it and logging it are one step. -/
def told (session : Session κ) : List Nat := session.events.filterMap Event.cell?

/-! ## §2 Cells -/

section Cells

variable (session : Session κ)

/-- The new cells hold nothing. -/
theorem built_enrol (rule : Rule κ) (cell : Nat) :
    (session.enrol rule).2.built cell = session.built cell := by
  simp only [enrol, built, Array.getElem?_append]
  split
  case isTrue => rfl
  case isFalse hnew =>
    rw [Array.getElem?_replicate, Array.getElem?_eq_none (by omega)]
    split <;> rfl

theorem size_enrol (rule : Rule κ) :
    (session.enrol rule).2.cells.size = session.cells.size + rule.keys.length := by
  simp only [enrol, Array.size_append, Array.size_replicate, Rule.snd_number,
    Nat.add_sub_cancel_left]

theorem built_keep {cell : Nat} (hcell : cell < session.cells.size)
    (rule : Rule (Occurrence κ)) (cell' : Nat) :
    (session.keep cell rule).built cell'
      = if cell = cell' then some rule else session.built cell' := by
  simp only [keep, built, Array.getElem?_setIfInBounds]
  split
  · simp
  · rfl

end Cells

/-- What was built before is still there afterwards. -/
def Before (session later : Session κ) : Prop :=
  ∀ cell rule, session.built cell = some rule → later.built cell = some rule

theorem Before.refl (session : Session κ) : session.Before session := fun _ _ h => h

theorem Before.trans {session later latest : Session κ} (h : session.Before later)
    (h' : later.Before latest) : session.Before latest :=
  fun cell rule hbuilt => h' cell rule (h cell rule hbuilt)

/-! ## §3 Consistency -/

/-- The session is consistent with a grammar: `keys` are the keys of its cells, all of which are
    `needed`, and what was built is what the grammar defines for them. -/
structure Consistent (grammar : Grammar κ) (needed : κ → Prop) (keys : List κ)
    (session : Session κ) : Prop where
  size : keys.length = session.cells.size
  needed : ∀ key ∈ keys, needed key
  defined : ∀ {cell rule}, session.built cell = some rule → ∃ key, keys[cell]? = some key ∧
    grammar.define key = .ok (rule.map Occurrence.key) ∧ rule.Enrolled keys
  mem_told : ∀ {cell}, cell ∈ session.told ↔ ∃ rule, session.built cell = some rule
  nodup_told : session.told.Nodup

namespace Consistent

variable {grammar : Grammar κ} {needed : κ → Prop} {keys : List κ} {session : Session κ}

theorem empty (grammar : Grammar κ) (needed : κ → Prop) :
    Consistent grammar needed [] (empty : Session κ) where
  size := rfl
  needed := nofun
  defined := nofun
  mem_told := ⟨nofun, fun ⟨_, hbuilt⟩ => nomatch hbuilt⟩
  nodup_told := .nil

/-- What the log tells beside building is nothing to the cells. -/
theorem of_told_eq (h : Consistent grammar needed keys session) {later : Session κ}
    (hcells : later.cells = session.cells) (htold : later.told = session.told) :
    Consistent grammar needed keys later := by
  have hbuilt : later.built = session.built := by
    funext cell
    rw [built, built, hcells]
  constructor
  case size => rw [hcells, h.size]
  case needed => exact h.needed
  case defined =>
    rw [hbuilt]
    exact h.defined
  case mem_told =>
    rw [hbuilt, htold]
    exact h.mem_told
  case nodup_told =>
    rw [htold]
    exact h.nodup_told

/-- Making cells for a rule adds its keys to those of the session. -/
theorem enrol (h : Consistent grammar needed keys session) {rule : Rule κ}
    (hneeded : ∀ key ∈ rule.keys, needed key) :
    Consistent grammar needed (keys ++ rule.keys) (session.enrol rule).2 where
  size := by rw [List.length_append, h.size, size_enrol]
  needed := List.forall_mem_append.mpr ⟨h.needed, hneeded⟩
  defined := by
    intro cell built hbuilt
    rw [built_enrol] at hbuilt
    obtain ⟨key, hkey, hdefine, henrolled⟩ := h.defined hbuilt
    have hextends : keys <+: keys ++ rule.keys := List.prefix_append _ _
    exact ⟨key, getElem?_of_prefix hextends hkey, hdefine, henrolled.of_prefix hextends⟩
  mem_told := by
    intro cell
    simp only [built_enrol]
    exact h.mem_told
  nodup_told := h.nodup_told

/-- The rule that is given back has its places among the new cells. -/
theorem enrolled (h : Consistent grammar needed keys session) (rule : Rule κ) :
    (session.enrol rule).1.Enrolled (keys ++ rule.keys) := by
  have henrolled := rule.enrolled_number keys
  rw [h.size] at henrolled
  exact henrolled

section Build

variable (h : Consistent grammar needed keys session) {cell : Nat} {key : κ}
  (hkey : keys[cell]? = some key) (hnone : session.built cell = none)
  {rule : Rule (Occurrence κ)} (name : String) (position : Nat)

include h hkey

/-- A cell that has a key holds what is built for it. -/
theorem built_build (rule : Rule (Occurrence κ)) (cell' : Nat) :
    ((Journal.happened (.building name cell position) session).keep cell rule).built cell'
      = if cell = cell' then some rule else session.built cell' := by
  obtain ⟨hlt, -⟩ := List.getElem?_eq_some_iff.mp hkey
  rw [h.size] at hlt
  exact built_keep (Journal.happened (.building name cell position) session) hlt rule cell'

include hnone

/-- Building the rule for a cell that has none leaves the other cells. -/
theorem before_build (rule : Rule (Occurrence κ)) : session.Before
    ((Journal.happened (.building name cell position) session).keep cell rule) := by
  intro cell' rule' hbuilt
  rw [h.built_build hkey]
  split
  case isTrue hsame =>
    rw [← hsame, hnone] at hbuilt
    cases hbuilt
  case isFalse => exact hbuilt

/-- Building the rule for a cell that has none is told once. -/
theorem build (hdefine : grammar.define key = .ok (rule.map Occurrence.key))
    (henrolled : rule.Enrolled keys) :
    Consistent grammar needed keys
      ((Journal.happened (.building name cell position) session).keep cell rule) := by
  have hbuilt := h.built_build hkey name position rule
  constructor
  case size =>
    rw [h.size]
    exact Array.size_setIfInBounds.symm
  case needed => exact h.needed
  case defined =>
    intro cell' rule' hbuilt'
    rw [hbuilt] at hbuilt'
    split at hbuilt'
    case isTrue hsame =>
      subst hsame
      cases hbuilt'
      exact ⟨key, hkey, hdefine, henrolled⟩
    case isFalse => exact h.defined hbuilt'
  case mem_told =>
    intro cell'
    have htold : cell' ∈ cell :: session.told ↔ cell' = cell ∨ cell' ∈ session.told :=
      List.mem_cons
    refine htold.trans ?_
    rw [hbuilt, h.mem_told]
    by_cases hsame : cell = cell'
    · simp [hsame]
    · simp [hsame, Ne.symm hsame]
  case nodup_told =>
    -- A cell without a rule was not told of before.
    refine List.nodup_cons.mpr ⟨fun htold => ?_, h.nodup_told⟩
    obtain ⟨rule', hbuilt'⟩ := h.mem_told.mp htold
    rw [hnone] at hbuilt'
    cases hbuilt'

end Build

end Consistent

end Session

end AugmentedBnf
