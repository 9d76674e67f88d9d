import AugmentedBnf.Proofs.Matching.Answer
import AugmentedBnf.Proofs.Matching.Relocation
import AugmentedBnf.Proofs.Node.Tiling

/-!
# Matching Depends on What Remains

What stands in front of a cursor does not matter to an evaluation that begins there. On `front ++
text`, once `front` is passed, a rule gives the answer that it gives on `text` from the start, with
everything in it moved on by the length of `front`: the spans of the whole tree, the cursor behind
it, the failure that is returned and the one that is recorded. The texts have all code points of
`text` in common and both end behind them, so an evaluation cannot get beyond the common part.

**Main statement**: `evaluation_relocates`.
-/

namespace AugmentedBnf

variable {κ τ ι : Type}

open Text (width)
open Cursor (between)

/-! ## §1 Relocated answers -/

/-- The same cursor in the other text. -/
def Cursor.moved (target : Relocation) : Cursor → Cursor
  | .within _ offset => .within target.text (target.shift + offset)
  | .ended _ => .ended target.text

/-- The same answer in the other text. -/
def Answer.moved (target : Relocation) (answer : Answer) : Answer where
  result :=
    match answer.result with
    | .ok (node, next) => .ok (node.moved target, next.moved target)
    | .error failure => .error (failure.moved target)
  deepest := answer.deepest.moved target

/-- Where the things of `text` are once `front` stands before it. -/
def Relocation.behind (front text : String) : Relocation := ⟨front ++ text, front.utf8ByteSize⟩

section Behind

variable (front text : String)

theorem Relocation.behind_eq (before ahead : List Char) :
    Relocation.behind front (.ofList (before ++ ahead))
      = ⟨.ofList (front.toList ++ (before ++ ahead)), width front.toList⟩ := by
  have htext :
      .ofList (front.toList ++ (before ++ ahead)) = front ++ .ofList (before ++ ahead) := by
    rw [String.ofList_append, String.ofList_toList]
  rw [Relocation.behind, Text.utf8ByteSize_eq_width, htext]

/-- A cursor keeps what it has ahead, and has passed `front` as well. -/
theorem Cursor.moved_between (before ahead : List Char) :
    (between before ahead).moved (.behind front (.ofList (before ++ ahead)))
      = between (front.toList ++ before) ahead := by
  rw [Relocation.behind_eq]
  cases ahead with
  | nil => simp [between, moved]
  | cons c rest => simp [between, moved]

end Behind

/-! ## §2 Relocated trees -/

namespace Node

mutual

/-- A relocated tree has the same shape, and each of its nodes is relocated. -/
theorem listingFrom_moved (target : Relocation) (depth : Nat) : ∀ node : Node,
    listingFrom depth (node.moved target)
      = (listingFrom depth node).map (Prod.map id (moved target))
  | ⟨name, span, children⟩ => by
    rw [listingFrom, List.map_cons, ← listingsFrom_moved target (depth + 1) children]
    rfl

theorem listingsFrom_moved (target : Relocation) (depth : Nat) : ∀ nodes : List Node,
    listingsFrom depth (movedAll target nodes)
      = (listingsFrom depth nodes).map (Prod.map id (moved target))
  | [] => rfl
  | child :: rest => by
    rw [movedAll, listingsFrom, listingsFrom, List.map_append,
      listingFrom_moved target depth child, listingsFrom_moved target depth rest]

end

end Node

/-- The span of a relocated node is relocated. -/
@[simp] theorem Node.span_moved (target : Relocation) (node : Node) :
    (node.moved target).span = node.span.moved target := by
  cases node
  rfl

/-- What a placed tree covers does not change when it is moved on. -/
theorem Tree.Placed.covered_moved {text : String} {node : Node} (h : Tree.Placed text node)
    (front : String) : (node.moved (.behind front text)).covered = node.covered := by
  obtain ⟨tree, before, after, rfl, rfl⟩ := h
  rw [Tree.covered_place, Node.covered, Node.span_moved, Tree.span_place, Relocation.behind_eq]
  -- In front of the tree's code points there is now `front` as well.
  have hslice := Text.slice_width (front.toList ++ before) tree.chars after
  rw [Text.width_append, List.append_assoc] at hslice
  simpa [Span.covered, Span.moved, Nat.add_assoc] using hslice

/-! ## §3 Evaluations behind a front -/

/-- A text by itself, and the same text behind `front`. -/
def Overlap.behind (front text : String) : Overlap := ⟨front.toList, text.toList, [], []⟩

theorem Overlap.not_cut_behind (front text : String) : ¬ (Overlap.behind front text).Cut := by
  simp [Cut, behind]

/-- Evaluations that agree on such texts give the same answer, relocated. -/
theorem Outcome.Mirrors.answer_eq {front text : String} {outcome : Outcome τ Node}
    {outcome' : Outcome ι Node}
    (h : outcome.Mirrors (.behind front text)
      (Node.moved (Overlap.behind front text).relocation) outcome') :
    outcome'.answer = outcome.answer.map (Answer.moved (.behind front text)) := by
  have htarget : (Overlap.behind front text).relocation = .behind front text := by
    simp [Overlap.relocation, Overlap.behind, Relocation.behind, Text.utf8ByteSize_eq_width]
  cases h with
  | @matched node before ahead trail trail' hshared htrail =>
    have hshared : before ++ ahead = text.toList := hshared
    have htext : .ofList (before ++ ahead) = text := by rw [hshared, String.ofList_toList]
    -- Nothing comes behind the text, so these are the cursors between what is passed and ahead.
    have hhere : (Overlap.behind front text).here before ahead = between before ahead := by
      rw [Overlap.here, Overlap.behind, List.append_nil]
    have hthere : (Overlap.behind front text).there before ahead
        = (between before ahead).moved (.behind front text) := by
      rw [Overlap.there, Overlap.behind, List.append_nil, ← htext, Cursor.moved_between]
    simp only [Outcome.answer, Except.map, Answer.moved, hhere, hthere, htrail, htarget]
  | failed htrail => simp only [Outcome.answer, Except.map, Answer.moved, htrail, htarget]
  | aborted => rfl
  | escaped hcut => exact absurd hcut (Overlap.not_cut_behind front text)

namespace Grammar

section Behind

variable [Journal τ] [Journal ι] (grammar : Grammar κ) (rule : Rule κ) (front text : String)
  (journal : τ) (journal' : ι)

/-- The answer behind a front is the answer at the start, relocated, for any number of
    unfoldings. -/
theorem answer_behind (depth : Nat) :
    (rule.matcher (grammar.call depth) (between front.toList text.toList) (.fresh journal')).answer
      = (rule.matcher (grammar.call depth) (.start text) (.fresh journal)).answer.map
        (Answer.moved (.behind front text)) := by
  have htolerates : (Overlap.behind front text).Tolerates grammar rule := .inl id
  have hmirrors := grammar.matcher_mirrors depth rule htolerates [] text.toList (.fresh journal)
    (.fresh journal') rfl rfl
  have hhere : (Overlap.behind front text).here [] text.toList = .start text := by
    rw [Overlap.here, Overlap.behind, List.append_nil, Cursor.start_eq_between]
  have hthere : (Overlap.behind front text).there [] text.toList
      = between front.toList text.toList := by
    rw [Overlap.there, Overlap.behind, List.append_nil, List.append_nil]
  rw [hhere, hthere] at hmirrors
  exact hmirrors.answer_eq

end Behind

section Bounded

variable [Journal τ] [Journal ι] {grammar : Grammar κ} {rule : Rule κ}
  (hlists : grammar.ListsKeys rule) {before before' after after' : List Char}

include hlists

/-- An answer that some number of unfoldings leads to is that of the bounded evaluation. -/
theorem answer_of_depth {trail : Trail τ} {depth : Nat}
    (hends : (rule.matcher (grammar.call depth) (between before after) trail).answer
      ≠ .error .unfoldings) :
    (grammar.matcher rule (between before after) trail).answer
      = (rule.matcher (grammar.call depth) (between before after) trail).answer := by
  have hends : (rule.matcher (grammar.call depth) (between before after) trail).isExhausted
      = false := by
    rw [← Bool.not_eq_true]
    exact fun hexhausted => hends (Outcome.answer_of_isExhausted hexhausted)
  rw [((ends_iff hlists).mp ⟨depth, rfl, hends⟩).1]

/-- Evaluations whose answers correspond for any number of unfoldings correspond as they are
    bounded, also if their texts allow for different numbers of unfoldings. -/
theorem answer_map_of_forall_depth {f : Answer → Answer} {trail : Trail τ} {trail' : Trail ι}
    (h : ∀ depth, (rule.matcher (grammar.call depth) (between before' after') trail').answer
      = (rule.matcher (grammar.call depth) (between before after) trail).answer.map f) :
    (grammar.matcher rule (between before' after') trail').answer
      = (grammar.matcher rule (between before after) trail).answer.map f := by
  have hmap : ∀ {answer : Except Abort Answer},
      answer.map f = .error .unfoldings ↔ answer = .error .unfoldings := by
    intro answer
    cases answer <;> simp [Except.map]
  by_cases hends : (grammar.matcher rule (between before after) trail).answer = .error .unfoldings
  · -- If the second evaluation came to an answer, so would the first.
    rw [hends]
    by_contra hends'
    have hdepth : (grammar.matcher rule (between before' after') trail').answer = _ :=
      h (grammar.depth (between before' after').text)
    have hfirst := answer_of_depth hlists (mt hmap.mpr (hdepth ▸ hends'))
    rw [hends] at hfirst
    rw [← hfirst] at hdepth
    exact hends' hdepth
  · have hdepth : _ = (grammar.matcher rule (between before after) trail).answer.map f :=
      h (grammar.depth (between before after).text)
    have hends' := mt hmap.mp hends
    rw [← hdepth] at hends'
    exact (answer_of_depth hlists hends').trans hdepth

end Bounded

/-! ## §4 The remaining text -/

/-- **Matching depends on what remains.** Behind any front, a rule gives the answer that it gives on
    the text from its start, relocated, with any number of unfoldings and also as evaluations are
    bounded. A relocated cursor is as far on as the front is long, and is at the end if the other
    one is. A relocated tree has the nodes of the other one in the same shape, and they cover the
    same texts. -/
theorem evaluation_relocates [Journal τ] [Journal ι] (grammar : Grammar κ) (rule : Rule κ)
    (front text : String) (journal : τ) (journal' : ι) :
    ∃ cursor, (Cursor.start (front ++ text)).advance front.length = .ok cursor ∧
      (∀ depth, (rule.matcher (grammar.call depth) cursor (.fresh journal')).answer
        = (rule.matcher (grammar.call depth) (.start text) (.fresh journal)).answer.map
          (Answer.moved (.behind front text))) ∧
      (grammar.Closed → rule.keys ⊆ grammar.keys →
        (grammar.matcher rule cursor (.fresh journal')).answer
          = (grammar.matcher rule (.start text) (.fresh journal)).answer.map
            (Answer.moved (.behind front text))) ∧
      ∀ depth node next trail,
        rule.matcher (grammar.call depth) (.start text) (.fresh journal)
          = .matched node next trail →
        (next.moved (.behind front text)).position = front.utf8ByteSize + next.position ∧
        (next.moved (.behind front text)).atEnd = next.atEnd ∧
        (node.moved (.behind front text)).listing
          = node.listing.map (Prod.map id (Node.moved (.behind front text))) ∧
        ∀ visit ∈ node.listing,
          (visit.2.moved (.behind front text)).covered = visit.2.covered := by
  refine ⟨between front.toList text.toList, ?_, ?_, ?_, ?_⟩
  · rw [Cursor.start_eq_between, Cursor.advance_between, String.toList_append,
      ← String.length_toList, List.take_left, List.drop_left, List.nil_append]
  · exact grammar.answer_behind rule front text journal journal'
  · intro hclosed hkeys
    rw [Cursor.start_eq_between]
    refine answer_map_of_forall_depth ⟨hclosed, hkeys⟩ fun depth => ?_
    rw [← Cursor.start_eq_between]
    exact grammar.answer_behind rule front text journal journal' depth
  · intro depth node next trail houtcome
    have hexplained := grammar.matcher_means depth rule [] text.toList (.fresh journal)
    rw [← Cursor.start_eq_between, houtcome] at hexplained
    cases hexplained with
    | matched tree left htree hchars hvalue hnext =>
      have htext : text = .ofList (tree.chars ++ left) := by
        rw [← hchars, String.ofList_toList]
      subst hvalue hnext
      refine ⟨?_, ?_, Node.listingFrom_moved _ 0 _, fun visit hvisit => ?_⟩
      · rw [List.nil_append, htext, Cursor.moved_between]
        simp [Text.utf8ByteSize_eq_width]
      · cases left <;> rfl
      · -- The nodes are those of a tree placed in the text, and are moved on with it.
        rw [List.nil_append, String.ofList_toList] at hvisit
        rw [← List.nil_append (tree.chars ++ left)] at htext
        exact (Tree.placed_of_mem_listing htext hvisit).covered_moved front

theorem parentheses_evaluation_relocates :
    parentheses.Closed ∧ ∃ node next trail,
      parentheses.matcher (.deferred "outer" ()) (.start "(x)y") (.fresh ())
        = .matched node next trail ∧
      (Cursor.start "é(x)y").advance 1 = .ok (.within "é(x)y" 2) ∧
      (parentheses.matcher (.deferred "outer" ()) (.within "é(x)y" 2) (.fresh ())).answer
        = .ok (Answer.moved ⟨"é(x)y", 2⟩ ⟨.ok (node, next), trail.deepest⟩) ∧
      (node.moved ⟨"é(x)y", 2⟩).listing.length = 6 ∧
      ∀ visit ∈ node.listing, (visit.2.moved ⟨"é(x)y", 2⟩).covered = visit.2.covered := by
  have hclosed : parentheses.Closed := fun _ _ _ _ _ _ => List.mem_singleton.mpr rfl
  have hkeys : (Rule.deferred "outer" ()).keys ⊆ parentheses.keys :=
    fun _ _ => List.mem_singleton.mpr rfl
  obtain ⟨cursor, hcursor, -, hbounded, hmatched⟩ :=
    evaluation_relocates parentheses (.deferred "outer" ()) "é" "(x)y" () ()
  have hplace : (Cursor.start "é(x)y").advance 1 = .ok (.within "é(x)y" 2) := by decide
  obtain rfl : cursor = .within "é(x)y" 2 := Except.ok.inj (hcursor.symm.trans hplace)
  obtain ⟨-, -, hlisting, hcovered⟩ := hmatched 2 _ _ _ rfl
  exact ⟨hclosed, _, _, _, rfl, hplace, hbounded hclosed hkeys, congrArg List.length hlisting,
    hcovered⟩

end Grammar

end AugmentedBnf
