import AugmentedBnf.Cursor
import AugmentedBnf.Failure.Deepest
import AugmentedBnf.Matching.Event

/-!
# Outcomes and Trails

An evaluation ends in one of three ways: it matches and says where it got to, it fails, or it is
abandoned. Beside that it leaves a trail: the deepest failure that it recovered from, and a
journal. What a journal keeps is its own affair; an evaluation only writes to it.
-/

namespace AugmentedBnf

/-! ## §1 Journals -/

/-- What an evaluation may tell while it runs. The default is to keep nothing. -/
class Journal (τ : Type) where
  /-- A character, a range or the end of the text was tried and did not match. -/
  missed : Failure → τ → τ := fun _ journal => journal
  /-- An event for the log. -/
  happened : Event → τ → τ := fun _ journal => journal

/-- A journal that keeps nothing. -/
instance : Journal Unit where

/-- A journal that keeps every failure of a character, a range or the end of the text, whether it
    was recovered from or not; the latest stands first. -/
structure Transcript where
  failures : List Failure
deriving DecidableEq, Repr

instance : Journal Transcript where
  missed failure transcript := ⟨failure :: transcript.failures⟩

/-! ## §2 Trails -/

/-- What an evaluation leaves behind beside its outcome. -/
structure Trail (τ : Type) where
  deepest : Deepest
  journal : τ
deriving DecidableEq, Repr

namespace Trail

variable {τ : Type}

/-- The trail before anything was tried. -/
def fresh (journal : τ) : Trail τ := ⟨.empty, journal⟩

/-- The trail after recovering from a failure. -/
def recover (trail : Trail τ) (failure : Failure) : Trail τ :=
  { trail with deepest := trail.deepest.record failure }

/-- The trail after a character, a range or the end of the text did not match. -/
def miss [Journal τ] (trail : Trail τ) (failure : Failure) : Trail τ :=
  { trail with journal := Journal.missed failure trail.journal }

end Trail

/-! ## §3 Outcomes -/

/-- How an evaluation ends. -/
inductive Outcome (τ α : Type) where
  /-- The text matches up to the cursor `next`. -/
  | matched (value : α) (next : Cursor) (trail : Trail τ)
  /-- The text does not match. -/
  | failed (failure : Failure) (trail : Trail τ)
  /-- There is no answer. -/
  | aborted (cause : Abort) (trail : Trail τ)
deriving DecidableEq

namespace Outcome

variable {τ α : Type}

/-- What the evaluation leaves behind. -/
def trail : Outcome τ α → Trail τ
  | .matched _ _ trail => trail
  | .failed _ trail => trail
  | .aborted _ trail => trail

end Outcome

end AugmentedBnf
