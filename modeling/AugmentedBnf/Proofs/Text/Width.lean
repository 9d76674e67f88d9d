import AugmentedBnf.Text.Slice

/-!
# Offsets as Widths

An offset that is a place in a text is the width of the code points in front of it. So a place is
given by the two lists of code points that it lies between, and reading and cutting a text become
operations on lists: `charAt_width` is the head of what follows, and `slice_width` is what lies
between two places.
-/

namespace AugmentedBnf.Text

/-! ## §1 Width -/

/-- The number of bytes that code points take in UTF-8. -/
def width : List Char → Nat
  | [] => 0
  | c :: rest => c.utf8Size + width rest

@[simp] theorem width_nil : width [] = 0 := rfl

@[simp] theorem width_cons (c : Char) (chars : List Char) :
    width (c :: chars) = c.utf8Size + width chars := rfl

@[simp] theorem width_append (front back : List Char) :
    width (front ++ back) = width front + width back := by
  induction front with
  | nil => simp
  | cons c rest ih => rw [List.cons_append, width_cons, width_cons, ih, Nat.add_assoc]

/-- Every code point takes at least one byte. -/
theorem width_eq_zero_iff {chars : List Char} : width chars = 0 ↔ chars = [] := by
  cases chars with
  | nil => simp
  | cons c rest =>
    have hc := c.utf8Size_pos
    simp only [width_cons, reduceCtorEq, iff_false]
    omega

/-- Beginnings of one list that have one width are equal. -/
theorem eq_of_width_eq {front front' back back' : List Char} (h : front ++ back = front' ++ back')
    (hwidth : width front = width front') : front = front' := by
  -- The longer beginning would add code points without width.
  have hmiddle : ∀ {front middle : List Char}, width front = width (front ++ middle) →
      middle = [] := by
    intro front middle hwidth
    rw [width_append] at hwidth
    exact width_eq_zero_iff.mp (by omega)
  rcases List.append_eq_append_iff.mp h with ⟨middle, rfl, rfl⟩ | ⟨middle, rfl, rfl⟩
  · rw [hmiddle hwidth, List.append_nil]
  · rw [hmiddle hwidth.symm, List.append_nil]

/-- The first occurrence of a code point cuts a text in one way. -/
theorem eq_of_cut {c : Char} {front front' back back' : List Char} (hfront : c ∉ front)
    (hfront' : c ∉ front') (h : front ++ c :: back = front' ++ c :: back') :
    front = front' ∧ back = back' := by
  -- If one piece in front were longer, it would have the code point as well.
  rcases List.append_eq_append_iff.mp h with ⟨more, rfl, hmore⟩ | ⟨more, rfl, hmore⟩
  · cases more with
    | nil => exact ⟨(List.append_nil front).symm, (List.cons.inj hmore).2⟩
    | cons d more =>
      obtain rfl := (List.cons.inj hmore).1
      exact absurd List.mem_append_cons_self hfront'
  · cases more with
    | nil => exact ⟨List.append_nil front', (List.cons.inj hmore).2.symm⟩
    | cons d more =>
      obtain rfl := (List.cons.inj hmore).1
      exact absurd List.mem_append_cons_self hfront

/-- A text is its first code point and the text of the others. -/
theorem ofList_cons (c : Char) (rest : List Char) :
    String.ofList (c :: rest) = String.singleton c ++ String.ofList rest := by
  simp

/-- The width of code points is the length of the text made of them. -/
theorem utf8ByteSize_ofList (chars : List Char) :
    (String.ofList chars).utf8ByteSize = width chars := by
  induction chars with
  | nil => rfl
  | cons c rest ih =>
    rw [ofList_cons, String.utf8ByteSize_append, String.utf8ByteSize_singleton, ih, width_cons]

/-- The length of a text is the width of its code points. -/
theorem utf8ByteSize_eq_width (text : String) : text.utf8ByteSize = width text.toList := by
  rw [← utf8ByteSize_ofList, String.ofList_toList]

/-! ## §2 Places -/

/-- Where code points meet there is a place, and its offset is the width in front of it. -/
theorem isValid_width (before after : List Char) :
    (⟨width before⟩ : String.Pos.Raw).IsValid (String.ofList (before ++ after)) := by
  rw [String.Pos.Raw.isValid_iff_exists_append]
  refine ⟨String.ofList before, String.ofList after, String.ofList_append, ?_⟩
  apply String.Pos.Raw.ext
  show width before = (String.ofList before).utf8ByteSize
  rw [utf8ByteSize_ofList]

/-- The place with the code points `before` in front of it and `after` behind it. -/
theorem place_width (before after : List Char) :
    ∃ place : (String.ofList (before ++ after)).Pos,
      Text.place (String.ofList (before ++ after)) (width before) = .ok place ∧
      place.Splits (String.ofList before) (String.ofList after) := by
  refine ⟨⟨⟨width before⟩, isValid_width before after⟩, ?_, ?_⟩
  · -- The offset is a place, so it passes the check.
    rw [place, dif_pos]
  · exact ⟨String.ofList_append, String.Pos.Raw.ext (utf8ByteSize_ofList before).symm⟩

/-! ## §3 Reading and cutting -/

/-- What is read at a place is the first code point behind it. -/
theorem charAt_width (before after : List Char) :
    charAt (String.ofList (before ++ after)) (width before) = .ok after.head? := by
  obtain ⟨place, hplace, hsplits⟩ := place_width before after
  rw [charAt, hplace]
  cases after with
  | nil =>
    have hend : place = String.endPos _ := hsplits.eq_endPos_iff.mpr rfl
    simp only [Except.map, String.Pos.get?_eq_none hend, List.head?_nil]
  | cons c rest =>
    have hne : place ≠ String.endPos _ := by
      intro hend
      have hempty := hsplits.eq_endPos_iff.mp hend
      simp at hempty
    -- The code point read at the place starts what follows it, and so does `c`.
    have hget : place.get hne = c := by
      have hright := (place.splits_next_right hne).eq_right hsplits
      rw [ofList_cons, ← String.toList_inj] at hright
      simpa using congrArg List.head? hright
    simp only [Except.map, String.Pos.get?_eq_some_get hne, hget, List.head?_cons]

/-- A code point is read where the text is cut in front of it. -/
theorem charAt_eq_some_iff {text : String} {offset : Nat} {c : Char} :
    charAt text offset = .ok (some c) ↔
      ∃ before after, text = .ofList (before ++ c :: after) ∧ offset = width before := by
  constructor
  · intro h
    -- Only a place is read at, and it cuts the text in two.
    by_cases hvalid : (⟨offset⟩ : String.Pos.Raw).IsValid text
    · obtain ⟨front, back, rfl, hoffset⟩ := String.Pos.Raw.isValid_iff_exists_append.mp hvalid
      obtain rfl : offset = width front.toList := by
        rw [← utf8ByteSize_eq_width]
        exact congrArg String.Pos.Raw.byteIdx hoffset
      have htext : front ++ back = .ofList (front.toList ++ back.toList) := by
        rw [← String.toList_append, String.ofList_toList]
      rw [htext, charAt_width, Except.ok.injEq] at h
      obtain ⟨after, hafter⟩ := List.head?_eq_some_iff.mp h
      exact ⟨front.toList, after, by rw [htext, hafter], rfl⟩
    · rw [charAt, place, dif_neg hvalid] at h
      cases h
  · rintro ⟨before, after, rfl, rfl⟩
    rw [charAt_width, List.head?_cons]
/-- What is cut out between two places is the text of the code points between them. -/
theorem slice_width (before middle after : List Char) :
    slice (String.ofList (before ++ (middle ++ after))) (width before) (width before + width middle)
      = .ok (String.ofList middle) := by
  obtain ⟨first, hfirst, hsplits₁⟩ := place_width before (middle ++ after)
  -- The end is a place too: what lies in front of it is `before ++ middle`.
  obtain ⟨last, hlast, hsplits₂⟩ : ∃ place : (String.ofList (before ++ (middle ++ after))).Pos,
      Text.place (String.ofList (before ++ (middle ++ after))) (width before + width middle)
        = .ok place ∧
      place.Splits (String.ofList (before ++ middle)) (String.ofList after) := by
    have h := place_width (before ++ middle) after
    rwa [List.append_assoc, width_append] at h
  have hle : first ≤ last := by
    rw [hsplits₁.le_iff_exists_eq_append hsplits₂]
    exact ⟨String.ofList middle, String.ofList_append, String.ofList_append⟩
  have hslice : (String.slice _ first last hle).copy = String.ofList middle := by
    obtain ⟨_, hcopy⟩ := String.copy_slice_eq_iff_splits.mpr
      ⟨String.ofList before, String.ofList after, by rwa [← String.ofList_append],
        by rwa [← String.ofList_append]⟩
    exact hcopy
  -- Cutting copies the bytes of a slice, which is known by what it splits off.
  have hextract : String.extract first last = String.ofList middle := by
    rw [← hslice, ← String.toByteArray_inj, String.toByteArray_extract,
      String.Slice.toByteArray_copy]
    simp
  simp only [slice, hfirst, hlast, bind, Except.bind, if_pos hle, hextract]

end AugmentedBnf.Text
