import AugmentedBnf.Cursor
import AugmentedBnf.Proofs.Text.Width

/-!
# Cursors between Code Points

A cursor that a start cursor reaches by moving stands between two lists of code points, those it
has passed and those ahead of it. `between` is that cursor. It determines everything else: where
the cursor stands, what it reads, and where it moves to. Cursors that may stand anywhere in a text
play no part in an evaluation, so later modules speak of `between` only.

**Main statement**: `reached_iff` says that the reached cursors are exactly these.
-/

namespace AugmentedBnf.Cursor

open Text (width)

/-- The cursor that has passed the code points `before` and has `after` ahead of it. -/
def between (before : List Char) : List Char → Cursor
  | [] => .ended (.ofList before)
  | c :: rest => .within (.ofList (before ++ c :: rest)) (width before)

/-- A cursor that the start cursor of some text reaches by moving. -/
def Reached (cursor : Cursor) : Prop :=
  ∃ text count, (start text).advance count = .ok cursor

/-! ## §1 Where the cursor stands -/

section Standing

variable (before after : List Char)

@[simp] theorem text_between : (between before after).text = .ofList (before ++ after) := by
  cases after <;> simp [between, text]

@[simp] theorem position_between : (between before after).position = width before := by
  cases after <;> simp [between, position, Text.utf8ByteSize_ofList]

@[simp] theorem atEnd_between : (between before after).atEnd = after.isEmpty := by
  cases after <;> rfl

/-- What remains is the width of the code points ahead. -/
@[simp] theorem remaining_between : (between before after).remaining = width after := by
  rw [remaining, text_between, position_between, Text.utf8ByteSize_ofList, Text.width_append]
  omega

@[simp] theorem location_between :
    (between before after).location = ⟨.ofList (before ++ after), width before⟩ := by
  simp [location]

/-- The span from a cursor to one that has passed `passed` more. -/
theorem spanTo_between (passed rest : List Char) :
    (between before (passed ++ rest)).spanTo (between (before ++ passed) rest)
      = ⟨.ofList (before ++ (passed ++ rest)), width before, width before + width passed⟩ := by
  simp [spanTo]

end Standing

/-- A cursor determines what it has passed and what it has ahead. -/
theorem between_injective {before before' after after' : List Char}
    (h : between before after = between before' after') : before = before' ∧ after = after' := by
  have htext : before ++ after = before' ++ after' := by
    have := congrArg text h
    simpa [← String.toList_inj] using this
  have hwidth : width before = width before' := by
    simpa using congrArg position h
  -- The cursors stand at one offset of one text, so what they have passed is the same.
  have hbefore : before = before' := Text.eq_of_width_eq htext hwidth
  subst hbefore
  exact ⟨rfl, List.append_cancel_left htext⟩

/-! ## §2 Reading -/

/-- A cursor reads the first code point ahead. -/
@[simp] theorem value_between_cons (before : List Char) (c : Char) (rest : List Char) :
    (between before (c :: rest)).value = .ok c := by
  simp only [between, value, Text.charAt_width, List.head?_cons]

/-- With nothing ahead there is nothing to read. -/
@[simp] theorem value_between_nil (before : List Char) :
    (between before []).value
      = .error (.failure (.unexpectedEnd ⟨.ofList before, width before⟩)) := by
  simp [between, value, location, text, position, Text.utf8ByteSize_ofList]

/-! ## §3 Moving -/

/-- Skipping the code point that is read passes it. -/
@[simp] theorem skip_between (before : List Char) (c : Char) (rest : List Char) :
    (between before (c :: rest)).skip c.utf8Size = between (before ++ [c]) rest := by
  have hsize : (String.ofList (before ++ c :: rest)).utf8ByteSize
      = width before + c.utf8Size + width rest := by
    rw [Text.utf8ByteSize_ofList, Text.width_append, Text.width_cons, Nat.add_assoc]
  -- The cursor ends where the code point was the last one, which is seen by its width.
  cases rest with
  | nil =>
    have hlast : (String.ofList (before ++ [c])).utf8ByteSize ≤ width before + c.utf8Size := by
      simp only [hsize, Text.width_nil, Nat.add_zero, Nat.le_refl]
    simp only [between, skip, if_pos hlast]
  | cons d rest =>
    have hd := d.utf8Size_pos
    have hshort : ¬ (String.ofList (before ++ c :: d :: rest)).utf8ByteSize
        ≤ width before + c.utf8Size := by
      rw [hsize, Text.width_cons]
      omega
    simp only [between, skip, if_neg hshort, Text.width_append, Text.width_cons, Text.width_nil,
      Nat.add_zero, List.append_assoc, List.cons_append, List.nil_append]

/-- Moving passes the first code point ahead, and stays where there is none. -/
theorem next_between (before after : List Char) :
    (between before after).next = .ok (between (before ++ after.take 1) (after.drop 1)) := by
  cases after with
  | nil => simp [between, next]
  | cons c rest =>
    have hmoved : (between before (c :: rest)).next
        = .ok ((between before (c :: rest)).skip c.utf8Size) := by
      simp only [between, next, Text.charAt_width, List.head?_cons]
    simpa using hmoved

/-- Moving several times passes as many code points, as far as there are any. -/
theorem advance_between (count : Nat) (before after : List Char) :
    (between before after).advance count
      = .ok (between (before ++ after.take count) (after.drop count)) := by
  induction count generalizing before after with
  | zero => simp [advance]
  | succ count ih =>
    rw [advance, next_between]
    simp only [ih]
    cases after <;> simp

/-- The start cursor has passed nothing. -/
theorem start_eq_between (text : String) : start text = between [] text.toList := by
  rw [start]
  cases htext : text.toList with
  | nil =>
    have hempty : text = "" := by simpa using htext
    subst hempty
    rfl
  | cons c rest =>
    have hne : text.isEmpty = false := by
      simp only [String.isEmpty_eq_false_iff]
      rintro rfl
      simp at htext
    -- A text that is not empty has a first code point, and nothing is in front of it.
    rw [if_neg (by simp [hne])]
    simp [between, ← htext]

/-- **The reached cursors** are those between two lists of code points. -/
theorem reached_iff {cursor : Cursor} :
    cursor.Reached ↔ ∃ before after, cursor = between before after := by
  constructor
  · rintro ⟨text, count, hadvance⟩
    rw [start_eq_between, advance_between, Except.ok.injEq] at hadvance
    exact ⟨_, _, hadvance.symm⟩
  · rintro ⟨before, after, rfl⟩
    refine ⟨.ofList (before ++ after), before.length, ?_⟩
    rw [start_eq_between, advance_between]
    simp

end AugmentedBnf.Cursor
