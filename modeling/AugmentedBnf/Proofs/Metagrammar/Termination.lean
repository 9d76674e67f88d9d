import AugmentedBnf.Proofs.Derivation.Adequacy
import AugmentedBnf.Proofs.Derivation.Totality
import AugmentedBnf.Proofs.Metagrammar.Rulelist

/-!
# Evaluations Terminate

A rule of a grammar without left recursion is evaluated in finitely many steps, on every text and
from every place in it. Whether deferred rules unfold without end is the only question, since a
repetition stops where a round makes no progress. Derivations answer it: on any code points there is
one, of a match or of a failure, and what is derived is found by an evaluation that ends.

The grammar of ABNF defers within brackets only, and a bracket has been passed then. So it has
nothing at the left, which `Rule.visible` shows by evaluation.

**Main statement**: `evaluation_terminates`.
-/

namespace AugmentedBnf

variable {κ τ : Type}

/-! ## §1 Grammars without left recursion -/

namespace Grammar

/-- The evaluation ends, with a match or a failure, and `Grammar.depth` leaves room for it. -/
structure Terminates [Journal τ] (grammar : Grammar κ) (rule : Rule κ) (cursor : Cursor)
    (trail : Trail τ) : Prop where
  ends : grammar.Ends rule cursor trail (grammar.matcher rule cursor trail)
  answers : ∀ cause trail', grammar.matcher rule cursor trail ≠ .aborted cause trail'

variable {grammar : Grammar κ} {rule : Rule κ}

section Answers

variable [Journal τ] {before after : List Char} {trail : Trail τ}

/-- An evaluation that ends with an answer terminates. -/
theorem Ends.terminates (hlists : grammar.ListsKeys rule) {outcome : Outcome τ Node}
    (h : grammar.Ends rule (.between before after) trail outcome)
    (hanswers : ∀ cause trail', outcome ≠ .aborted cause trail') :
    grammar.Terminates rule (.between before after) trail := by
  have houtcome := ((ends_iff hlists).mp h).1
  subst houtcome
  exact ⟨h, hanswers⟩

/-- What is decided is found, from every place in a text. -/
theorem Decides.terminates (hlists : grammar.ListsKeys rule)
    (h : grammar.Decides rule after) (before : List Char) (trail : Trail τ) :
    grammar.Terminates rule (.between before after) trail := by
  rcases h with ⟨tree, left, htree⟩ | hfails
  · have hmatched : ∃ trail',
        grammar.Ends rule (.between before after) trail (.matched _ _ trail') :=
      ends_matched_iff.mpr ⟨tree, left, htree, rfl, rfl⟩
    obtain ⟨trail', hends⟩ := hmatched
    exact hends.terminates hlists (by simp)
  · have hfailed : ∃ failure trail',
        grammar.Ends rule (.between before after) trail (.failed failure trail') :=
      ends_failed_iff.mpr hfails
    obtain ⟨failure, trail', hends⟩ := hfailed
    exact hends.terminates hlists (by simp)

end Answers

/-- An evaluation that terminates gives the text's parse an answer. -/
theorem Terminates.parse_ne_abort {text : String}
    (h : grammar.Terminates rule (.start text) (.fresh ())) (cause : Abort) :
    grammar.parse rule text ≠ .error (.abort cause) := by
  intro habort
  unfold parse Matcher.parse Matcher.parseFrom at habort
  -- The beginning is an event, of which no journal is kept.
  have hbegan : grammar.evaluate rule (.start text)
      (.fresh (Journal.happened (.began text.utf8ByteSize rule.name) ()))
        = grammar.matcher rule (.start text) (.fresh ()) := rfl
  simp only [hbegan] at habort
  cases houtcome : grammar.matcher rule (.start text) (.fresh ()) with
  | matched node next trail => simp [houtcome] at habort
  | failed failure trail => simp [houtcome] at habort
  | aborted cause' trail => exact h.answers cause' trail houtcome

theorem Terminates.parseAll_ne_abort {text : String}
    (h : grammar.Terminates rule (.start text) (.fresh ())) (cause : Abort) :
    grammar.parseAll rule text ≠ .error (.abort cause) := by
  intro habort
  unfold parseAll Matcher.parseAll at habort
  have hbegan : grammar.evaluate rule (.start text)
      (.fresh (Journal.happened (.beganAll text.utf8ByteSize rule.name) ()))
        = grammar.matcher rule (.start text) (.fresh ()) := rfl
  simp only [hbegan] at habort
  cases houtcome : grammar.matcher rule (.start text) (.fresh ()) with
  | matched node next trail =>
    simp only [houtcome] at habort
    split at habort <;> simp at habort
  | failed failure trail => simp [houtcome] at habort
  | aborted cause' trail => exact h.answers cause' trail houtcome

end Grammar

/-! ## §2 Rules that are seen to begin -/

namespace Rule

variable {grammar : Grammar κ} {key : κ} {rule : Rule κ}

theorem nullableAll_iff {rules : List (Rule κ)} :
    nullableAll rules ↔ ∀ rule ∈ rules, rule.nullable := by
  induction rules with
  | nil => simp [nullableAll]
  | cons rule rest ih => rw [nullableAll, Bool.and_eq_true, ih, List.forall_mem_cons]

theorem nullableAny_iff {rules : List (Rule κ)} :
    nullableAny rules ↔ ∃ rule ∈ rules, rule.nullable := by
  induction rules with
  | nil => simp [nullableAny]
  | cons rule rest ih =>
    rw [nullableAny, Bool.or_eq_true, ih]
    simp only [List.mem_cons, exists_eq_or_imp]

/-- A rule that may be empty is nullable, which takes any deferred rule for empty. -/
theorem nullable_of_mayBeEmpty (h : grammar.MayBeEmpty rule) : rule.nullable := by
  induction h with
  | endOfText name => rfl
  | concatenation _ ih => exact nullableAll_iff.mpr ih
  | alternation hmember _ ih => exact nullableAny_iff.mpr ⟨_, hmember, ih⟩
  | leftOut hmin => simp [nullable, hmin]
  | repetition _ ih => simp [nullable, ih]
  | deferred _ _ _ => rfl

/-- Behind nullable rules the next one is seen to begin as well. -/
theorem visible_of_nullable {earlier later : List (Rule κ)}
    (hvisible : visibleAll (earlier ++ rule :: later))
    (hearlier : ∀ other ∈ earlier, other.nullable) :
    rule.visible := by
  induction earlier with
  | nil =>
    rw [List.nil_append, visibleAll, Bool.and_eq_true] at hvisible
    exact hvisible.1
  | cons other earlier ih =>
    obtain ⟨hnull, hearlier⟩ := List.forall_mem_cons.mp hearlier
    rw [List.cons_append, visibleAll, hnull, Bool.and_eq_true, Bool.not_true, Bool.false_or]
      at hvisible
    exact ih hvisible.2 hearlier

/-- **A rule that is seen to begin defers to nothing at the left.** -/
theorem not_atLeft_of_visible (hvisible : rule.visible) : ¬ grammar.AtLeft key rule := by
  intro hleft
  induction hleft with
  | deferred name => cases hvisible
  | @concatenation name first member rest earlier later hmembers hearlier _ ih =>
    have hvisible : visibleAll (first :: rest) := hvisible
    rw [hmembers] at hvisible
    exact ih (visible_of_nullable hvisible fun other hother =>
      nullable_of_mayBeEmpty (hearlier other hother))
  | @alternation name first member rest hmember _ ih =>
    have hvisible : visibleAny (first :: rest) := hvisible
    exact ih (visible_of_mem hvisible hmember).1
  | repetition _ ih =>
    rw [visible, Bool.and_eq_true] at hvisible
    exact ih hvisible.1

end Rule

/-! ## §3 The grammar of ABNF -/

namespace Metagrammar

theorem buildable_grammar : grammar.Buildable :=
  fun _ _ => ⟨alternation, rfl⟩

/-- An alternation begins with a letter, a digit or a sign, and only brackets nest another one. -/
theorem not_leftRecursive_grammar : ¬ grammar.LeftRecursive := by
  refine Grammar.not_leftRecursive_of_rank (fun _ => 0) fun key key' hreaches => ?_
  obtain ⟨rule, hdefine, hleft⟩ := hreaches
  obtain rfl := eq_alternation_of_define hdefine
  have hvisible : alternation.visible := rfl
  exact absurd hleft (Rule.not_atLeft_of_visible hvisible)

/-- The rules of the grammar match or fail on any code points. -/
theorem decides (rule : Rule Deferral) (chars : List Char) : grammar.Decides rule chars :=
  Grammar.decides (listsKeys rule) buildable_grammar not_leftRecursive_grammar chars

end Metagrammar

/-! ## §4 Termination -/

namespace Grammar

/-- Evaluations terminate from every cursor that a start cursor reaches. -/
theorem terminates_of_not_leftRecursive [Journal τ] {grammar : Grammar κ} {rule : Rule κ}
    (hlists : grammar.ListsKeys rule) (hbuildable : grammar.Buildable)
    (hnone : ¬ grammar.LeftRecursive) {cursor : Cursor} (hcursor : cursor.Reached)
    (trail : Trail τ) : grammar.Terminates rule cursor trail := by
  obtain ⟨before, after, rfl⟩ := Cursor.reached_iff.mp hcursor
  exact (decides hlists hbuildable hnone after).terminates hlists before trail

/-- **Grammars without left recursion terminate**, on every text and from every cursor in it, also
    where repeated rules match nothing and repetitions have no bound. The grammar of ABNF is such a
    grammar, so each of its rules gives an answer on every text. -/
theorem evaluation_terminates [Journal τ] :
    (∀ {κ : Type} (grammar : Grammar κ), grammar.Closed → grammar.Buildable →
      ¬ grammar.LeftRecursive → ∀ rule : Rule κ, rule.keys ⊆ grammar.keys →
      ∀ cursor : Cursor, cursor.Reached → ∀ trail : Trail τ,
        grammar.Terminates rule cursor trail) ∧
    (Metagrammar.grammar.Closed ∧ Metagrammar.grammar.Buildable ∧
      ¬ Metagrammar.grammar.LeftRecursive) ∧
    ∀ rule : Rule Metagrammar.Deferral,
      (∀ cursor : Cursor, cursor.Reached → ∀ trail : Trail τ,
        Metagrammar.grammar.Terminates rule cursor trail) ∧
      ∀ text cause, Metagrammar.grammar.parse rule text ≠ .error (.abort cause) ∧
        Metagrammar.grammar.parseAll rule text ≠ .error (.abort cause) := by
  refine ⟨fun grammar hclosed hbuildable hnone rule hkeys cursor hcursor trail =>
    terminates_of_not_leftRecursive ⟨hclosed, hkeys⟩ hbuildable hnone hcursor trail,
    ⟨Metagrammar.closed_grammar, Metagrammar.buildable_grammar,
      Metagrammar.not_leftRecursive_grammar⟩, fun rule => ?_⟩
  have hterminates : ∀ {ι : Type} [Journal ι] (cursor : Cursor), cursor.Reached →
      ∀ trail : Trail ι, Metagrammar.grammar.Terminates rule cursor trail :=
    fun cursor hcursor trail => terminates_of_not_leftRecursive (Metagrammar.listsKeys rule)
      Metagrammar.buildable_grammar Metagrammar.not_leftRecursive_grammar hcursor trail
  refine ⟨hterminates, fun text cause => ?_⟩
  have hstart := hterminates (.start text) ⟨text, 0, rfl⟩ (.fresh ())
  exact ⟨hstart.parse_ne_abort cause, hstart.parseAll_ne_abort cause⟩

/-- Any number of rows, each of any number of crosses: a repetition of what may be empty. -/
def rows : Grammar Bool where
  keys := [true, false]
  define
    | true => .ok (.many "rows" (.deferred "row" false))
    | false => .ok (.many "row" (.character "x" 'x'))

/-- Rows lead to a row at the left, and a row leads nowhere. -/
theorem not_leftRecursive_rows : ¬ rows.LeftRecursive := by
  refine not_leftRecursive_of_rank (fun key => if key then 1 else 0) fun key key' hreaches => ?_
  obtain ⟨rule, hdefine, hleft⟩ := hreaches
  cases key with
  | true =>
    obtain rfl := Except.ok.inj hdefine
    obtain - | - | - | ⟨⟨⟩⟩ := hleft
    decide
  | false =>
    obtain rfl := Except.ok.inj hdefine
    obtain - | - | - | ⟨⟨⟩⟩ := hleft

theorem rows_evaluation_terminates :
    rows.Closed ∧ rows.Buildable ∧ ¬ rows.LeftRecursive ∧ (Cursor.within "éxxy" 2).Reached ∧
      rows.Terminates (.deferred "rows" true) (.within "éxxy" 2) (.fresh ()) := by
  have hclosed : rows.Closed := by
    intro key _ rule _ key' _
    cases key' <;> decide
  have hbuildable : rows.Buildable := by
    intro key _
    cases key <;> exact ⟨_, rfl⟩
  have hcursor : (Cursor.within "éxxy" 2).Reached := ⟨"éxxy", 1, by decide⟩
  refine ⟨hclosed, hbuildable, not_leftRecursive_rows, hcursor, ?_⟩
  refine evaluation_terminates.1 rows hclosed hbuildable not_leftRecursive_rows _ ?_ _ hcursor _
  intro key _
  cases key <;> decide

end Grammar

end AugmentedBnf
