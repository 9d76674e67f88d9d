import AugmentedBnf.Proofs.Cursor
import AugmentedBnf.Proofs.Matching.Approximation
import Mathlib.Data.List.ProdSigma

/-!
# The Number of Unfoldings

An evaluation may enter `Grammar.depth` deferred rules within each other. `Ends` speaks of an
evaluation that ends for some number of unfoldings, that is, of one that does not defer without
end.

**Main statement**: `ends_iff` says that in a grammar that lists its keys (`ListsKeys`) an
evaluation that ends at all ends within `Grammar.depth` unfoldings. What a deferred rule does
depends on its key and its place in the text, and there are only so many pairs of these. Allowing
one more unfolding settles some more pairs, or it settles none and never will again.
-/

namespace AugmentedBnf

variable {κ τ ι α : Type}

/-! ## §1 Evaluations that end -/

/-- The evaluation ran out of unfoldings. -/
def Outcome.isExhausted : Outcome τ α → Bool
  | .aborted .unfoldings _ => true
  | _ => false

/-- The evaluation of a rule ends with an outcome, whatever number of unfoldings it takes. -/
def Grammar.Ends [Journal τ] (grammar : Grammar κ) (rule : Rule κ) (cursor : Cursor)
    (trail : Trail τ) (outcome : Outcome τ Node) : Prop :=
  ∃ depth, rule.matcher (grammar.call depth) cursor trail = outcome ∧ outcome.isExhausted = false

namespace Outcome

variable {C : Cursor → Prop} {R : Trail τ → Trail ι → Prop}

/-- What approximates an exhausted evaluation is exhausted. -/
theorem Approximates.isExhausted {outcome : Outcome τ α} {outcome' : Outcome ι α}
    (h : outcome.Approximates C R outcome') (hexhausted : outcome'.isExhausted) :
    outcome.isExhausted := by
  cases h with
  | matched => simp [Outcome.isExhausted] at hexhausted
  | failed => simp [Outcome.isExhausted] at hexhausted
  | @aborted cause => cases cause <;> simp_all [Outcome.isExhausted]
  | exhausted => rfl

/-- An evaluation with the same trail that did not run out of unfoldings is approximated by itself
    only. -/
theorem Approximates.eq {outcome outcome' : Outcome τ α}
    (h : outcome.Approximates C (· = ·) outcome') (hends : outcome.isExhausted = false) :
    outcome = outcome' := by
  cases h with
  | matched _ htrail => rw [htrail]
  | failed htrail => rw [htrail]
  | aborted htrail => rw [htrail]
  | exhausted => simp [Outcome.isExhausted] at hends

theorem Approximates.of_isExhausted {outcome : Outcome τ α} {outcome' : Outcome ι α}
    (h : outcome.isExhausted) : outcome.Approximates C R outcome' := by
  match outcome, h with
  | .aborted .unfoldings _, _ => exact .exhausted

theorem Approximates.trans {outcome outcome' outcome'' : Outcome τ α}
    (h : outcome.Approximates C (· = ·) outcome')
    (h' : outcome'.Approximates C (· = ·) outcome'') :
    outcome.Approximates C (· = ·) outcome'' := by
  cases hends : outcome.isExhausted with
  | true => exact .of_isExhausted hends
  | false =>
    rw [h.eq hends]
    exact h'

end Outcome

/-! ## §2 Cursors of one text -/

/-- The cursor stands in the text of these code points. -/
def Cursor.Within (chars : List Char) (cursor : Cursor) : Prop :=
  ∃ before after, before ++ after = chars ∧ cursor = between before after

/-- A text is not left by moving, and equal trails stay equal. -/
theorem Cursor.kept_within [Journal τ] (chars : List Char) :
    Kept (Cursor.Within chars) (fun trail trail' : Trail τ => trail = trail') where
  skip := by
    rintro cursor c ⟨before, after, hchars, rfl⟩ hvalue
    cases after with
    | nil => simp at hvalue
    | cons d rest =>
      simp only [value_between_cons, Except.ok.injEq] at hvalue
      subst hvalue
      exact ⟨before ++ [d], rest, by simpa using hchars, skip_between before d rest⟩
  recover := by
    rintro trail trail' failure rfl
    rfl
  miss := by
    rintro trail trail' failure rfl
    rfl

/-- Any set of trails is kept by an evaluation that is not asked about them. -/
theorem Cursor.kept_any [Journal τ] [Journal ι] :
    Kept (fun _ => True) (fun (_ : Trail τ) (_ : Trail ι) => True) where
  skip := by
    intro _ _ _ _
    trivial
  recover := by
    intro _ _ _ _
    trivial
  miss := by
    intro _ _ _ _
    trivial

/-! ## §3 Failures -/

/-- The matcher fails at the cursor with the failure, whatever the trail. -/
def Matcher.FailsWith (cursor : Cursor) (m : Matcher τ Node) (failure : Failure) : Prop :=
  ∀ trail, ∃ left, m cursor trail = .failed failure left

/-- A failure does not depend on the trail, and more unfoldings do not change it. -/
theorem Grammar.failsWith_of_failed [Journal τ] [Journal ι] {grammar : Grammar κ} {rule : Rule κ}
    {cursor : Cursor} {failure : Failure} {depth depth' : Nat} {trail left : Trail τ}
    (hdepth : depth ≤ depth')
    (h : rule.matcher (grammar.call depth) cursor trail = .failed failure left) :
    (rule.matcher (grammar.call depth') : Matcher ι Node).FailsWith cursor failure := by
  intro trail'
  have happrox : Outcome.Approximates (fun _ => True) (fun _ _ => True) _ _ :=
    grammar.matcher_approximates Cursor.kept_any hdepth rule cursor trail trail' trivial trivial
  rw [h] at happrox
  generalize rule.matcher (grammar.call depth') cursor trail' = outcome at happrox ⊢
  cases happrox with
  | failed _ => exact ⟨_, rfl⟩

/-! ## §4 Settled calls -/

namespace Grammar

/-- The keys that the grammar's rules defer to are among those it lists. -/
def Closed (grammar : Grammar κ) : Prop :=
  ∀ key ∈ grammar.keys, ∀ rule, grammar.define key = .ok rule → rule.keys ⊆ grammar.keys

/-- The grammar lists all keys that an evaluation of the rule may come to: those that the rule
    defers to, and with each key those that the rule defined for it defers to. -/
structure ListsKeys (grammar : Grammar κ) (rule : Rule κ) : Prop where
  closed : grammar.Closed
  keys : rule.keys ⊆ grammar.keys

/-- The cursor in a text that has passed `count` code points. -/
def place (chars : List Char) (count : Nat) : Cursor :=
  .between (chars.take count) (chars.drop count)

/-- All pairs of a key and a place. -/
def calls (grammar : Grammar κ) (chars : List Char) : List (κ × Nat) :=
  grammar.keys ×ˢ List.range (chars.length + 1)

/-- The pairs of a key and a place at which `depth` unfoldings suffice. -/
def settled (grammar : Grammar κ) (chars : List Char) (depth : Nat) : List (κ × Nat) :=
  (grammar.calls chars).filter fun call =>
    !((grammar.call depth "" call.1 : Matcher Unit Node) (place chars call.2)
      (.fresh ())).isExhausted

section Settled

variable [Journal τ] (grammar : Grammar κ) (chars : List Char)

/-- Whether a call runs out of unfoldings depends neither on its trail nor on its name. -/
theorem isExhausted_call (depth : Nat) (name : String) (key : κ) (cursor : Cursor)
    (trail : Trail τ) :
    ((grammar.call depth name key : Matcher τ Node) cursor trail).isExhausted
      = ((grammar.call depth "" key : Matcher Unit Node) cursor (.fresh ())).isExhausted := by
  have hname : (grammar.call depth name key : Matcher τ Node) = grammar.call depth "" key := by
    cases depth <;> rfl
  have hforth : Outcome.Approximates (fun _ => True) (fun _ _ => True) _ _ :=
    grammar.call_approximates Cursor.kept_any (Nat.le_refl depth) "" key cursor trail
      (Trail.fresh ()) trivial trivial
  have hback : Outcome.Approximates (fun _ => True) (fun _ _ => True) _ _ :=
    grammar.call_approximates Cursor.kept_any (Nat.le_refl depth) "" key cursor (Trail.fresh ())
      trail trivial trivial
  rw [hname, Bool.eq_iff_iff]
  exact ⟨hback.isExhausted, hforth.isExhausted⟩

/-- A pair is settled when the deferred rule does not run out of unfoldings there. -/
theorem mem_settled {depth : Nat} {key : κ} {count : Nat} (trail : Trail τ) (name : String) :
    (key, count) ∈ grammar.settled chars depth ↔ key ∈ grammar.keys ∧ count ≤ chars.length ∧
      ((grammar.call depth name key : Matcher τ Node) (place chars count) trail).isExhausted
        = false := by
  rw [isExhausted_call, settled, List.mem_filter, calls, List.mem_product, List.mem_range,
    Nat.lt_succ_iff, Bool.not_eq_true', and_assoc]

/-- More unfoldings settle more. -/
theorem settled_sublist {depth depth' : Nat} (hdepth : depth ≤ depth') :
    (grammar.settled chars depth).Sublist (grammar.settled chars depth') := by
  refine List.monotone_filter_right _ fun call hsettled => ?_
  have happrox : Outcome.Approximates (fun _ => True) (fun _ _ => True) _ _ :=
    grammar.call_approximates (Cursor.kept_any (τ := Unit) (ι := Unit)) hdepth "" call.1
      (place chars call.2) (.fresh ()) (.fresh ()) trivial trivial
  simp only [Bool.not_eq_true'] at hsettled ⊢
  rw [← Bool.not_eq_true] at hsettled ⊢
  -- What runs out with more unfoldings runs out with fewer.
  exact fun hexhausted => hsettled (happrox.isExhausted hexhausted)

theorem length_settled_le (depth : Nat) :
    (grammar.settled chars depth).length ≤ grammar.keys.length * (chars.length + 1) := by
  have hcalls : (grammar.calls chars).length = grammar.keys.length * (chars.length + 1) := by
    rw [calls, List.length_product, List.length_range]
  rw [← hcalls]
  exact List.length_filter_le _ _

/-- Some number of unfoldings, at most the number of pairs, settles all that one more would. -/
theorem exists_settled_succ_eq :
    ∃ depth ≤ grammar.keys.length * (chars.length + 1),
      grammar.settled chars (depth + 1) = grammar.settled chars depth := by
  by_contra hnone
  push Not at hnone
  -- Each unfolding would settle a further pair, and in the end more than there are.
  have hgrowth : ∀ depth ≤ grammar.keys.length * (chars.length + 1) + 1,
      depth ≤ (grammar.settled chars depth).length := by
    intro depth hdepth
    induction depth with
    | zero => exact Nat.zero_le _
    | succ depth ih =>
      have hsub := grammar.settled_sublist chars (Nat.le_add_right depth 1)
      have hne : (grammar.settled chars depth).length
          ≠ (grammar.settled chars (depth + 1)).length :=
        fun hlength => hnone depth (by omega) (hsub.eq_of_length hlength).symm
      have hle := hsub.length_le
      have := ih (by omega)
      omega
  have hfull := hgrowth _ (Nat.le_refl _)
  have hbound := grammar.length_settled_le chars (grammar.keys.length * (chars.length + 1) + 1)
  omega

/-- With `depth` unfoldings, deferred rules approximate what they match with `depth'`, at every
    place of the text. -/
def CallsApproximate (depth depth' : Nat) : Prop :=
  ∀ name, ∀ key ∈ grammar.keys,
    (grammar.call depth name key : Matcher τ Node).Approximates (Cursor.Within chars) (· = ·)
      (grammar.call depth' name key)

variable {grammar chars}

/-- What more unfoldings settle no further, they do not change. -/
theorem callsApproximate_of_settled_eq {depth : Nat}
    (hsettled : grammar.settled chars (depth + 1) = grammar.settled chars depth) :
    grammar.CallsApproximate (τ := τ) chars (depth + 1) depth := by
  rintro name key hkey cursor trail _ hwithin rfl
  obtain ⟨before, after, hchars, hcursor⟩ := id hwithin
  have happrox := grammar.call_approximates (Cursor.kept_within chars) (Nat.le_succ depth) name key
    cursor trail trail hwithin rfl
  by_cases hexhausted :
      ((grammar.call (depth + 1) name key : Matcher τ Node) cursor trail).isExhausted
  · exact .of_isExhausted hexhausted
  · -- The pair of the key and this place is settled, so both evaluations are the same.
    have hplace : cursor = place chars before.length := by
      rw [hcursor, place, ← hchars, List.take_left, List.drop_left]
    have hcount : before.length ≤ chars.length := by
      rw [← hchars, List.length_append]
      omega
    have hmem : (key, before.length) ∈ grammar.settled chars (depth + 1) := by
      rw [grammar.mem_settled chars trail name, ← hplace]
      exact ⟨hkey, hcount, by simpa using hexhausted⟩
    rw [hsettled, grammar.mem_settled chars trail name, ← hplace] at hmem
    obtain ⟨_, _, hends⟩ := hmem
    have heq := happrox.eq hends
    rw [← heq]
    rw [← heq] at happrox
    exact happrox

/-- Calls that one more unfolding does not change are not changed by yet another one. -/
theorem CallsApproximate.succ (hclosed : grammar.Closed) {depth depth' : Nat}
    (h : grammar.CallsApproximate (τ := τ) chars depth depth') :
    grammar.CallsApproximate (τ := τ) chars (depth + 1) (depth' + 1) := by
  intro name key hkey
  simp only [call]
  cases hdefine : grammar.define key with
  | error fault =>
    intro cursor trail trail' _ htrail
    exact .aborted htrail
  | ok rule =>
    refine Rule.matcher_approximates (Cursor.kept_within chars) rule fun name key' hkey' => ?_
    exact h name key' (hclosed key hkey rule hdefine hkey')

/-- Once there is a number of unfoldings after which nothing changes, nothing ever does. -/
theorem callsApproximate_of_stable (hclosed : grammar.Closed) {stable : Nat}
    (hstable : grammar.CallsApproximate (τ := τ) chars (stable + 1) stable) {enough : Nat}
    (henough : stable ≤ enough) (depth : Nat) :
    grammar.CallsApproximate (τ := τ) chars depth enough := by
  -- From the stable number on, each unfolding changes as little as the first one.
  have hstep : ∀ more, grammar.CallsApproximate (τ := τ) chars (stable + more + 1)
      (stable + more) := by
    intro more
    induction more with
    | zero => exact hstable
    | succ more ih => exact ih.succ hclosed
  rcases Nat.le_total depth enough with hle | hle
  · intro name key _
    exact grammar.call_approximates (Cursor.kept_within chars) hle name key
  · -- The unfoldings beyond `enough` are taken back one at a time.
    obtain ⟨more, rfl⟩ := Nat.exists_eq_add_of_le hle
    induction more with
    | zero =>
      intro name key _
      exact grammar.call_approximates (Cursor.kept_within chars) (Nat.le_refl _) name key
    | succ more ih =>
      rintro name key hkey cursor trail _ hwithin rfl
      obtain ⟨since, rfl⟩ := Nat.exists_eq_add_of_le henough
      have hlast := hstep (since + more) name key hkey cursor trail trail hwithin rfl
      have hrest := ih (by omega) name key hkey cursor trail trail hwithin rfl
      exact .trans (by simpa only [Nat.add_assoc] using hlast) hrest

end Settled

/-! ## §5 Enough unfoldings -/

section Enough

variable [Journal τ] {grammar : Grammar κ}

/-- The number of pairs is at most the number of unfoldings that a text allows for. -/
theorem length_calls_le_depth (grammar : Grammar κ) (chars : List Char) :
    grammar.keys.length * (chars.length + 1) ≤ grammar.depth (.ofList chars) := by
  -- Every code point takes a byte at least.
  have hlength : chars.length ≤ Text.width chars := by
    induction chars with
    | nil => simp
    | cons c rest ih =>
      have hc := c.utf8Size_pos
      simp only [List.length_cons, Text.width_cons]
      omega
  rw [depth, Text.utf8ByteSize_ofList, Nat.mul_comm]
  exact Nat.mul_le_mul_right _ (by omega)

/-- **No evaluation needs more unfoldings** than `Grammar.depth`: with any number of them a rule
    approximates what it matches with that one. -/
theorem matcher_approximates_depth {rule : Rule κ} (hlists : grammar.ListsKeys rule)
    (chars : List Char) (depth : Nat) :
    (rule.matcher (grammar.call depth) : Matcher τ Node).Approximates (Cursor.Within chars)
      (· = ·) (rule.matcher (grammar.call (grammar.depth (.ofList chars)))) := by
  obtain ⟨stable, hle, hsettled⟩ := grammar.exists_settled_succ_eq chars
  have hcalls := callsApproximate_of_stable (τ := τ) hlists.closed
    (callsApproximate_of_settled_eq hsettled)
    (Nat.le_trans hle (grammar.length_calls_le_depth chars)) depth
  exact Rule.matcher_approximates (Cursor.kept_within chars) rule fun name key hkey =>
    hcalls name key (hlists.keys hkey)

/-- **An evaluation that ends, ends within `Grammar.depth` unfoldings.** -/
theorem ends_iff {rule : Rule κ} (hlists : grammar.ListsKeys rule) {before after : List Char}
    {trail : Trail τ} {outcome : Outcome τ Node} :
    grammar.Ends rule (.between before after) trail outcome ↔
      grammar.matcher rule (.between before after) trail = outcome ∧
        outcome.isExhausted = false := by
  constructor
  · rintro ⟨depth, rfl, hends⟩
    have happrox := matcher_approximates_depth (τ := τ) hlists (before ++ after) depth
      (.between before after) trail trail ⟨before, after, rfl, rfl⟩ rfl
    refine ⟨?_, hends⟩
    rw [matcher, Cursor.text_between]
    exact (happrox.eq hends).symm
  · rintro ⟨houtcome, hends⟩
    exact ⟨_, houtcome, hends⟩

end Enough

end Grammar

end AugmentedBnf
