import AugmentedBnf.Proofs.Metagrammar.Line
import AugmentedBnf.Proofs.Metagrammar.Longest

/-!
# White Space Is Taken at Its Longest

Blanks, line ends and comments are matched as far as the productions go. A line end belongs to the
blanks if a single blank follows it. If none does, all of the line end is left, together with its
comment: a round that has taken it and misses the blank behind it is undone.

That nothing is taken halfway is seen from what blanks go on with. Wherever they are cut, the piece
behind the cut begins with a single blank, or it runs to the end of the line and has one on the next
line (`blanks_le_resuming`). A line end that no blank follows cannot be such a piece.

In front of a definition the sign is read with its slash, if it has one.

**Main statement**: `whiteSpace_matchesLongest`.
-/

namespace AugmentedBnf.Metagrammar

open Computability
open CoreRules Rule
open AugmentedBnf.Grammar (AtLeast TakesEach takesEach_atLeast_nil skips_or_fails)

variable {word front back before lineEnd after left rest : List Char}

/-! ## §1 What blanks go on with -/

/-- Nothing is ahead, or a single blank in this line or at the beginning of the next one. -/
def Resumes (chars : List Char) : Prop :=
  chars = [] ∨ ∃ line c further, chars = line ++ c :: further ∧ (c = ' ' ∨ c = '\t') ∧
    (line = [] ∨ ∃ content, '\n' ∉ content ∧ line = content ++ ['\n'])

theorem Resumes.append (hfront : Resumes front) (hback : Resumes back) :
    Resumes (front ++ back) := by
  rcases hfront with rfl | ⟨line, c, further, rfl, hblank, hline⟩
  · exact hback
  · refine .inr ⟨line, c, further ++ back, ?_, hblank, hline⟩
    rw [List.append_assoc, List.cons_append]

/-- The words that go on with blanks wherever they are cut. -/
def resuming : Language Char :=
  {word : List Char | ∀ front back, word = front ++ back → Resumes back}

theorem one_le_resuming : 1 ≤ resuming := by
  rintro word rfl front back hsplit
  obtain ⟨-, rfl⟩ := List.append_eq_nil_iff.mp hsplit.symm
  exact .inl rfl

theorem mul_resuming_le : resuming * resuming ≤ resuming := by
  rintro word ⟨first, hfirst, second, hsecond, rfl⟩ front back hsplit
  rcases List.append_eq_append_iff.mp hsplit with ⟨middle, -, hmiddle⟩ | ⟨middle, hmiddle, hback⟩
  · -- The cut is in the second word.
    exact hsecond middle back hmiddle
  · rw [hback]
    exact (hfirst front middle hmiddle).append (hsecond [] second rfl)

/-- Within a blank the line goes on to its end, and behind that there is a single blank. -/
theorem cWsp_le_resuming : Production.cWsp ≤ resuming := by
  have hsingle : ∀ {blank : List Char}, blank ∈ Production.wsp →
      ∃ c, blank = [c] ∧ (c = ' ' ∨ c = '\t') := by
    rintro blank (rfl | rfl)
    · exact ⟨' ', rfl, .inl rfl⟩
    · exact ⟨'\t', rfl, .inr rfl⟩
  rintro word (hword | ⟨lineEnd, hlineEnd, blank, hword, rfl⟩) front back hsplit
  · obtain ⟨c, rfl, hblank⟩ := hsingle hword
    cases front with
    | nil => exact .inr ⟨[], c, [], hsplit.symm, hblank, .inl rfl⟩
    | cons d front =>
      obtain ⟨-, hnil⟩ := List.cons.inj hsplit
      exact .inl (List.append_eq_nil_iff.mp hnil.symm).2
  · obtain ⟨content, hcontent, rfl⟩ := exists_of_mem_cNl hlineEnd
    obtain ⟨c, rfl, hblank⟩ := hsingle hword
    simp only [List.append_assoc, List.cons_append, List.nil_append] at hsplit
    rcases List.append_eq_append_iff.mp hsplit with ⟨middle, -, hmiddle⟩ | ⟨middle, hcut, hback⟩
    · -- The cut is behind the line feed or in front of it.
      cases middle with
      | nil => exact .inr ⟨['\n'], c, [], hmiddle.symm, hblank, .inr ⟨[], by simp, rfl⟩⟩
      | cons d middle =>
        obtain ⟨-, hmiddle⟩ := List.cons.inj hmiddle
        cases middle with
        | nil => exact .inr ⟨[], c, [], hmiddle.symm, hblank, .inl rfl⟩
        | cons e middle =>
          obtain ⟨-, hnil⟩ := List.cons.inj hmiddle
          exact .inl (List.append_eq_nil_iff.mp hnil.symm).2
    · -- The cut is in the line, of which a part is left.
      refine .inr ⟨middle ++ ['\n'], c, [], ?_, hblank, .inr ⟨middle, ?_, rfl⟩⟩
      · rw [hback, List.append_assoc]
        rfl
      · intro hmem
        exact hcontent (hcut ▸ List.mem_append_right front hmem)

theorem blanks_le_resuming : Production.cWsp∗ ≤ resuming :=
  kstar_le_of_closed one_le_resuming mul_resuming_le cWsp_le_resuming

/-- A line end of which blanks take a beginning has a single blank behind it. -/
theorem exists_blank_of_resumes (hlineEnd : lineEnd ∈ Production.cNl)
    (hsplit : lineEnd ++ after = front ++ back) (hne : front ≠ []) (hfront : Resumes front) :
    ∃ c ∈ after.head?, c = ' ' ∨ c = '\t' := by
  obtain ⟨line, c, further, rfl, hblank, hline⟩ := hfront.resolve_left hne
  rcases hline with rfl | ⟨content, hcontent, rfl⟩
  · -- No line end begins with a single blank.
    have hahead := ahead_of_mem_cNl hlineEnd after
    rw [hsplit] at hahead
    have hcovers : Covers (cNl : Rule Deferral).first c := hahead c rfl
    rcases hblank with rfl | rfl
    · exact absurd hcovers (by decide)
    · exact absurd hcovers (by decide)
  · -- The line feed that ends the line is the one before the blank.
    obtain ⟨body, hbody, rfl⟩ := exists_of_mem_cNl hlineEnd
    simp only [List.append_assoc, List.cons_append, List.nil_append] at hsplit
    obtain ⟨-, rfl⟩ := Text.eq_of_cut hbody hcontent hsplit
    exact ⟨c, rfl, hblank⟩

/-- **Nothing is taken halfway**: blanks end in front of each line end that no single blank
    follows. -/
theorem exists_append_of_mem_blanks (hword : word ∈ Production.cWsp∗)
    (hlineEnd : lineEnd ∈ Production.cNl) (hafter : ∀ c ∈ after.head?, c ≠ ' ' ∧ c ≠ '\t')
    (hsplit : word ++ left = before ++ (lineEnd ++ after)) :
    ∃ more, before = word ++ more := by
  rcases List.append_eq_append_iff.mp hsplit with ⟨more, hbefore, -⟩ | ⟨taken, hsplit, htaken⟩
  · exact ⟨more, hbefore⟩
  · by_cases hnil : taken = []
    · subst hnil
      exact ⟨[], by rw [hsplit, List.append_nil, List.append_nil]⟩
    · have hresumes : Resumes taken := blanks_le_resuming hword before taken hsplit
      obtain ⟨c, hc, hblank⟩ := exists_blank_of_resumes hlineEnd htaken hnil hresumes
      obtain ⟨hspace, htab⟩ := hafter c hc
      exact absurd hblank (not_or.mpr ⟨hspace, htab⟩)

/-- Blanks that run over lines without comments are blanks. -/
theorem lwsp_le_blanks : Production.lwsp ≤ Production.cWsp∗ := by
  have hcrlf : Production.crlf ≤ Production.cNl := le_sup_right
  unfold Production.lwsp Production.cWsp
  gcongr

/-- A match from the start of the text ends in front of each line end that no single blank follows,
    where a line end includes the comment before it. -/
def LeavesLineEnds (rule : Rule Deferral) (text : String) : Prop :=
  ∀ node, grammar.parse rule text = .ok node → ∀ before lineEnd after : String,
    text = before ++ (lineEnd ++ after) → lineEnd.toList ∈ Production.cNl →
    (∀ c ∈ after.toList.head?, c ≠ ' ' ∧ c ≠ '\t') → node.stop ≤ before.utf8ByteSize

/-- Rules that match blanks leave line ends. -/
theorem leavesLineEnds {rule : Rule Deferral}
    (hblanks : rule.language deferred ≤ Production.cWsp∗) (text : String) :
    LeavesLineEnds rule text := by
  intro node hnode before lineEnd after htext hlineEnd hafter
  obtain ⟨tree, left, htree, rfl⟩ := Grammar.exists_tree_of_parse hnode
  have hword : tree.chars ∈ Production.cWsp∗ := hblanks (htree.mem_language language_le_deferred)
  have hsplit : tree.chars ++ left = before.toList ++ (lineEnd.toList ++ after.toList) := by
    rw [← htree.chars_eq, htext, String.toList_append, String.toList_append]
  obtain ⟨more, hbefore⟩ := exists_append_of_mem_blanks hword hlineEnd hafter hsplit
  have hstop : (tree.place text 0).stop = Text.width tree.chars := by
    rw [Node.stop, Tree.span_place, Nat.zero_add]
  rw [hstop, Text.utf8ByteSize_eq_width, hbefore, Text.width_append]
  exact Nat.le_add_right _ _

/-! ## §2 Signs of definitions -/

/-- An equals sign goes on with the slash behind it. -/
theorem takes_atLeast_definitionSign
    (h : word ∈ Production.quoted '=' * Production.quoted '/' + Production.quoted '=')
    (rest : List Char) : AtLeast (grammar.Takes definitionSign) word rest := by
  by_cases hslash : word = ['='] ∧ ∃ left, rest = '/' :: left
  · obtain ⟨rfl, left, rfl⟩ := hslash
    refine ⟨['/'], left, rfl, takes_definitionSign (.inl ?_) (by simp)⟩
    exact ⟨['='], .inl rfl, ['/'], .inl rfl, rfl⟩
  · apply AtLeast.of_exact
    apply takes_definitionSign h
    intro hword
    have hnot : NotAhead (literal '/' : Rule Deferral).first rest := by
      intro c hc hcovers
      obtain ⟨left, rfl⟩ := List.head?_eq_some_iff.mp hc
      obtain ⟨range, hrange, hlow, hhigh⟩ := hcovers
      obtain rfl := List.mem_singleton.mp hrange
      obtain rfl : '/' = c := Char.le_antisymm hlow hhigh
      exact hslash ⟨hword, left, rfl⟩
    exact (skips_or_fails rfl hnot).2 rfl

/-- Only the sign may go on where no blanks of the word come behind it. -/
theorem takes_atLeast_definedAs (h : word ∈ Production.definedAs) (rest : List Char) :
    AtLeast (grammar.Takes definedAs) word rest := by
  obtain ⟨_, ⟨before, hbefore, sign, hsign, rfl⟩, after, hafter, rfl⟩ := h
  simp only [List.append_assoc]
  apply AtLeast.concatenation
  apply AtLeast.cons
  · rw [List.append_assoc]
    exact takes_blanks hbefore (cWsp_fails_of_definitionSign hsign (after ++ rest))
  · rcases eq_nil_or_append_of_mem_kstar hafter with rfl | ⟨first, hfirst, -, more, -, rfl⟩
    · rw [List.append_nil]
      exact (takes_atLeast_definitionSign hsign rest).cons_nil
        (takesEach_atLeast_nil decides rfl rfl)
    · have hahead : Ahead blankStart ((first ++ more) ++ rest) := by
        rw [← language_cWsp fun _ : Deferral => 0] at hfirst
        rw [List.append_assoc]
        exact ahead_of_mem_language rfl rfl hfirst (more ++ rest)
      have hslash : grammar.Fails (literal '/') ((first ++ more) ++ rest) :=
        Grammar.fails_of_avoids rfl hahead
      have hblanks : first ++ more ∈ (blanks : Rule Deferral).language deferred := by
        rw [language_blanks]
        exact hafter
      exact .cons (takes_definitionSign hsign fun _ => hslash)
        (takes_atLeast_of_ends rfl hblanks rest).singleton

/-- The sign with the slash is read as one sign wherever it comes behind blanks. -/
def ReadsSlash (text : String) : Prop :=
  ∀ before after : String, text = before ++ ("=/" ++ after) → before.toList ∈ Production.cWsp∗ →
    ∃ node first sign last, grammar.parse definedAs text = .ok node ∧
      node.children = [first, sign, last] ∧ sign.start = before.utf8ByteSize ∧
      sign.covered = .ok "=/"

theorem readsSlash (text : String) : ReadsSlash text := by
  intro before after htext hbefore
  have hahead : text.toList = before.toList ++ (['=', '/'] ++ after.toList) := by
    rw [htext, String.toList_append, String.toList_append]
    rfl
  have hslash : ['=', '/'] ∈ Production.quoted '=' * Production.quoted '/'
      + Production.quoted '=' :=
    .inl ⟨['='], .inl rfl, ['/'], .inl rfl, rfl⟩
  obtain ⟨first, hfirst⟩ :=
    takes_blanks hbefore (cWsp_fails_of_definitionSign hslash after.toList)
  obtain ⟨sign, hsign⟩ : grammar.Takes definitionSign ['=', '/'] after.toList :=
    takes_definitionSign hslash (by simp)
  -- The blanks behind the sign cannot fail.
  obtain ⟨last, left, hlast⟩ := (decides blanks after.toList).resolve_right
    (Grammar.not_fails_repetition rfl)
  have htree : grammar.Matches definedAs text.toList (.node "defined-as" [first, sign, last])
      left := by
    rw [hahead]
    exact .concatenation (.cons hfirst (.cons hsign (.cons hlast (.nil left))))
  have hwidth : Text.width first.chars = before.utf8ByteSize := by
    rw [Grammar.chars_of_matches hfirst, Text.utf8ByteSize_eq_width]
  refine ⟨_, first.place text 0, sign.place text before.utf8ByteSize,
    last.place text (before.utf8ByteSize + Text.width sign.chars),
    Grammar.parse_of_matches (listsKeys definedAs) htree, ?_, ?_, ?_⟩
  · simp only [Tree.place_node, Tree.placeAmong_cons, Tree.placeAmong_nil, Nat.zero_add, hwidth]
  · rw [Node.start, Tree.span_place]
  · have hcovered := sign.covered_place before.toList after.toList
    rw [Grammar.chars_of_matches hsign, ← Text.utf8ByteSize_eq_width, ← hahead,
      String.ofList_toList] at hcovered
    exact hcovered

/-! ## §3 Longest matches -/

/-- **White space is matched at its longest.** Each of these rules matches at the start of a text if
    the text begins with a word that the productions derive, and then the longest such word is
    matched. Line ends that no blank follows are left whole, and a sign with a slash is read as
    one. -/
theorem whiteSpace_matchesLongest (text : String) :
    grammar.MatchesLongest lwsp Production.lwsp text ∧
    grammar.MatchesLongest crlf Production.crlf text ∧
    grammar.MatchesLongest comment Production.comment text ∧
    grammar.MatchesLongest cNl Production.cNl text ∧
    grammar.MatchesLongest cWsp Production.cWsp text ∧
    grammar.MatchesLongest blanks Production.cWsp∗ text ∧
    grammar.MatchesLongest definedAs Production.definedAs text ∧
    LeavesLineEnds lwsp text ∧ LeavesLineEnds blanks text ∧ ReadsSlash text := by
  refine ⟨matchesLongest_of_predictive rfl (language_lwsp _) text,
    matchesLongest_of_predictive rfl (language_crlf _) text,
    matchesLongest_of_predictive rfl (language_comment _) text,
    matchesLongest_of_predictive rfl (language_cNl _) text,
    matchesLongest_of_predictive rfl (language_cWsp _) text,
    matchesLongest_of_predictive rfl (language_blanks _) text,
    matchesLongest (language_definedAs _) (fun _ => takes_atLeast_definedAs) text,
    leavesLineEnds ?_ text, leavesLineEnds ?_ text, readsSlash text⟩
  · rw [language_lwsp]
    exact lwsp_le_blanks
  · exact (language_blanks _).le

end AugmentedBnf.Metagrammar
