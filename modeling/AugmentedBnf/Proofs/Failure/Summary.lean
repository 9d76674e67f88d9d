import AugmentedBnf.Failure.Deepest

/-!
# Failures that Stand for Others

Of many failures an evaluation keeps a few, and reports one. The few summarise the many if they are
some of them and get as far into the text as any of them. Keeping the deeper of two failures,
recording one and merging one with the recorded are ways to summarise, and a summary of a summary
is one. What is reported in the end is a summary by a single failure.
-/

namespace AugmentedBnf

namespace Failure

variable {kept all most failures failures' : List Failure}

/-! ## §1 Summaries -/

/-- The failures `kept` are some of `all`, and for each of `all` one that is as deep is kept. -/
structure Summarise (kept all : List Failure) : Prop where
  subset : kept ⊆ all
  deep : ∀ failure ∈ all, ∃ other ∈ kept, failure.position ≤ other.position

theorem Summarise.refl (all : List Failure) : Summarise all all :=
  ⟨List.Subset.refl all, fun failure hfailure => ⟨failure, hfailure, Nat.le_refl _⟩⟩

theorem Summarise.trans (h : Summarise kept most) (h' : Summarise most all) :
    Summarise kept all := by
  refine ⟨List.Subset.trans h.subset h'.subset, fun failure hfailure => ?_⟩
  -- A failure is bounded by one of the summary between, and that one by one that is kept.
  obtain ⟨other, hother, hle⟩ := h'.deep failure hfailure
  obtain ⟨last, hlast, hle'⟩ := h.deep other hother
  exact ⟨last, hlast, Nat.le_trans hle hle'⟩

/-- What is to be summarised may be given in any order. -/
theorem Summarise.congr (h : Summarise kept all)
    (hall : ∀ failure, failure ∈ all ↔ failure ∈ most) : Summarise kept most :=
  ⟨fun failure hfailure => (hall failure).mp (h.subset hfailure),
    fun failure hfailure => h.deep failure ((hall failure).mpr hfailure)⟩

/-- Two groups of failures may be summarised apart. -/
theorem Summarise.append (h : Summarise kept all) (h' : Summarise failures failures') :
    Summarise (kept ++ failures) (all ++ failures') := by
  constructor
  case subset =>
    exact List.append_subset.mpr ⟨List.Subset.trans h.subset (List.subset_append_left _ _),
      List.Subset.trans h'.subset (List.subset_append_right _ _)⟩
  case deep =>
    intro failure hfailure
    rcases List.mem_append.mp hfailure with hfailure | hfailure
    · obtain ⟨other, hother, hle⟩ := h.deep failure hfailure
      exact ⟨other, List.mem_append_left _ hother, hle⟩
    · obtain ⟨other, hother, hle⟩ := h'.deep failure hfailure
      exact ⟨other, List.mem_append_right _ hother, hle⟩

/-- Nothing summarises nothing, and only that. -/
theorem summarise_nil_iff : Summarise [] all ↔ all = [] := by
  constructor
  · intro h
    refine List.eq_nil_iff_forall_not_mem.mpr fun failure hfailure => ?_
    obtain ⟨other, hother, -⟩ := h.deep failure hfailure
    cases hother
  · rintro rfl
    exact .refl []

/-! ## §2 One failure for all -/

/-- The failure is one of `failures`, and none of them is deeper. -/
def IsDeepest (failure : Failure) (failures : List Failure) : Prop :=
  failure ∈ failures ∧ ∀ other ∈ failures, other.position ≤ failure.position

theorem isDeepest_iff {failure : Failure} :
    failure.IsDeepest all ↔ Summarise [failure] all := by
  constructor
  · rintro ⟨hmem, hdeep⟩
    exact ⟨List.cons_subset.mpr ⟨hmem, List.nil_subset _⟩,
      fun other hother => ⟨failure, List.mem_singleton.mpr rfl, hdeep other hother⟩⟩
  · intro h
    refine ⟨h.subset (List.mem_singleton.mpr rfl), fun other hother => ?_⟩
    obtain ⟨last, hlast, hle⟩ := h.deep other hother
    rw [List.mem_singleton] at hlast
    exact hlast ▸ hle

/-- The deeper of two failures is as deep as either. -/
theorem position_deeper (first second : Failure) :
    (first.deeper second).position = max first.position second.position := by
  unfold deeper
  split <;> omega

/-- The deeper of two failures stands for both. -/
theorem summarise_deeper (first second : Failure) :
    Summarise [first.deeper second] [first, second] := by
  rw [← isDeepest_iff]
  unfold deeper IsDeepest
  by_cases hlt : first.position < second.position
  · rw [if_pos hlt]
    simp [Nat.le_of_lt hlt]
  · rw [if_neg hlt]
    simpa using Nat.not_lt.mp hlt

end Failure

/-! ## §3 The deepest failure so far -/

namespace Deepest

open Failure (Summarise)

/-- The failures that are kept: one or none. -/
def kept (deepest : Deepest) : List Failure := deepest.failure.toList

/-- Recording a failure keeps the deeper one of it and the one kept so far. -/
theorem summarise_record (deepest : Deepest) (failure : Failure) :
    Summarise (deepest.record failure).kept (failure :: deepest.kept) := by
  rcases deepest with ⟨_ | recorded⟩
  · exact .refl [failure]
  · -- Recording prefers what was there before, and a summary does not mind the order.
    refine (Failure.summarise_deeper recorded failure).congr fun other => ?_
    exact List.Perm.mem_iff (List.Perm.swap failure recorded [])

/-- A merged failure is the deeper one of it and the one kept so far. -/
theorem summarise_merge (deepest : Deepest) (failure : Failure) :
    Summarise [deepest.merge failure] (failure :: deepest.kept) := by
  rcases deepest with ⟨_ | recorded⟩
  · exact .refl [failure]
  · exact Failure.summarise_deeper failure recorded

/-- Where the failure that is kept occurred; without one, the beginning of the text. -/
def position (deepest : Deepest) : Nat := (deepest.failure.map Failure.position).getD 0

/-- A merged failure is as deep as the deeper one of the two. -/
theorem position_merge (deepest : Deepest) (failure : Failure) :
    (deepest.merge failure).position = max failure.position deepest.position := by
  rcases deepest with ⟨_ | recorded⟩
  · exact (Nat.max_eq_left (Nat.zero_le _)).symm
  · exact failure.position_deeper recorded

end Deepest

end AugmentedBnf
