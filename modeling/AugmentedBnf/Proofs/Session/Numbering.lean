import AugmentedBnf.Proofs.Rule.Induction
import AugmentedBnf.Session.Basic

/-!
# Numbered Places

A session gives every place in a rule that defers a cell of its own. The places are numbered in the
order of the keys that the rule defers to, without gaps (`keys_number`), and but for the numbers the
rule is the same (`map_number`), so it matches the same where each place matches what its key does
(`matcher_map`).
-/

namespace AugmentedBnf

variable {κ ι τ : Type}

/-- The places of some keys, numbered from `cell` on. -/
def Occurrence.number (cell : Nat) : List κ → List (Occurrence κ)
  | [] => []
  | key :: keys => ⟨key, cell⟩ :: number (cell + 1) keys

namespace Occurrence

theorem number_append (cell : Nat) (keys keys' : List κ) :
    number cell (keys ++ keys') = number cell keys ++ number (cell + keys.length) keys' := by
  induction keys generalizing cell with
  | nil => rfl
  | cons key keys ih =>
    rw [List.cons_append, number, number, ih, List.length_cons, List.cons_append,
      Nat.add_right_comm, Nat.add_assoc]

/-- Behind the keys that there are, a number leads to the key that it was given for. -/
theorem getElem?_of_mem_number {keys keys' : List κ} {occurrence : Occurrence κ}
    (h : occurrence ∈ number keys.length keys') :
    (keys ++ keys')[occurrence.cell]? = some occurrence.key := by
  induction keys' generalizing keys with
  | nil => cases h
  | cons key keys' ih =>
    rw [number] at h
    rcases List.mem_cons.mp h with rfl | h
    · simp
    · rw [List.append_cons]
      exact ih (by simpa using h)

end Occurrence

/-- What stands in a list stands in every longer one. -/
theorem getElem?_of_prefix {keys keys' : List κ} (hextends : keys <+: keys') {cell : Nat} {key : κ}
    (h : keys[cell]? = some key) : keys'[cell]? = some key := by
  obtain ⟨further, rfl⟩ := hextends
  obtain ⟨hlt, -⟩ := List.getElem?_eq_some_iff.mp h
  rw [List.getElem?_append_left hlt, h]

namespace Rule

/-! ## §1 The numbers of a rule -/

mutual

theorem map_number (cell : Nat) (rule : Rule κ) :
    (rule.number cell).1.map Occurrence.key = rule := by
  cases rule with
  | character name expected => rfl
  | range name low high => rfl
  | endOfText name => rfl
  | concatenation name first rest =>
    simp only [number, map, map_number _ first, mapAll_numberAll _ rest]
  | alternation name first rest =>
    simp only [number, map, map_number _ first, mapAll_numberAll _ rest]
  | repetition name bounds element => simp only [number, map, map_number _ element]
  | deferred name key => rfl

theorem mapAll_numberAll (cell : Nat) (rules : List (Rule κ)) :
    mapAll Occurrence.key (numberAll cell rules).1 = rules := by
  cases rules with
  | nil => rfl
  | cons rule rest => simp only [numberAll, mapAll, map_number _ rule, mapAll_numberAll _ rest]

end

mutual

theorem snd_number (cell : Nat) (rule : Rule κ) :
    (rule.number cell).2 = cell + rule.keys.length := by
  cases rule with
  | character name expected => rfl
  | range name low high => rfl
  | endOfText name => rfl
  | concatenation name first rest =>
    simp only [number, keys, snd_number _ first, snd_numberAll _ rest, List.length_append,
      Nat.add_assoc]
  | alternation name first rest =>
    simp only [number, keys, snd_number _ first, snd_numberAll _ rest, List.length_append,
      Nat.add_assoc]
  | repetition name bounds element => exact snd_number cell element
  | deferred name key => rfl

theorem snd_numberAll (cell : Nat) (rules : List (Rule κ)) :
    (numberAll cell rules).2 = cell + (keysAmong rules).length := by
  cases rules with
  | nil => rfl
  | cons rule rest =>
    simp only [numberAll, keysAmong, snd_number _ rule, snd_numberAll _ rest, List.length_append,
      Nat.add_assoc]

end

mutual

theorem keys_number (cell : Nat) (rule : Rule κ) :
    (rule.number cell).1.keys = Occurrence.number cell rule.keys := by
  cases rule with
  | character name expected => rfl
  | range name low high => rfl
  | endOfText name => rfl
  | concatenation name first rest =>
    simp only [number, keys, Occurrence.number_append, keys_number _ first, snd_number,
      keysAmong_numberAll _ rest]
  | alternation name first rest =>
    simp only [number, keys, Occurrence.number_append, keys_number _ first, snd_number,
      keysAmong_numberAll _ rest]
  | repetition name bounds element => exact keys_number cell element
  | deferred name key => rfl

theorem keysAmong_numberAll (cell : Nat) (rules : List (Rule κ)) :
    keysAmong (numberAll cell rules).1 = Occurrence.number cell (keysAmong rules) := by
  cases rules with
  | nil => rfl
  | cons rule rest =>
    simp only [numberAll, keysAmong, Occurrence.number_append, keys_number _ rule, snd_number,
      keysAmong_numberAll _ rest]

end

/-! ## §2 Cells with their keys -/

/-- Each place of the rule has one of the cells that `keys` lists, and its key is listed there. -/
def Enrolled (keys : List κ) (rule : Rule (Occurrence κ)) : Prop :=
  ∀ occurrence ∈ rule.keys, keys[occurrence.cell]? = some occurrence.key

/-- Further cells change nothing for the rules that have theirs. -/
theorem Enrolled.of_prefix {keys keys' : List κ} {rule : Rule (Occurrence κ)}
    (h : rule.Enrolled keys) (hextends : keys <+: keys') : rule.Enrolled keys' := by
  intro occurrence hmem
  exact getElem?_of_prefix hextends (h occurrence hmem)

theorem enrolled_number (keys : List κ) (rule : Rule κ) :
    (rule.number keys.length).1.Enrolled (keys ++ rule.keys) := by
  intro occurrence hmem
  rw [keys_number] at hmem
  exact Occurrence.getElem?_of_mem_number hmem

/-! ## §3 Matchers of rules with other keys -/

/-- With its keys replaced a rule matches what it does if each place goes by the new key. -/
theorem matcher_map [Journal τ] (f : κ → ι) (call : String → ι → Matcher τ Node) (rule : Rule κ) :
    (rule.map f).matcher call = rule.matcher fun name key => call name (f key) := by
  induction rule using Rule.inductionOn with
  | character name expected => rfl
  | range name low high => rfl
  | endOfText name => rfl
  | concatenation name first rest ih =>
    rw [map, matcher_concatenation, matcher_concatenation, mapAll_eq_map, ← List.map_cons,
      List.map_map]
    exact congrArg (fun members => Matcher.node name (.sequence members)) (List.map_congr_left ih)
  | alternation name first rest ih =>
    obtain ⟨hfirst, hrest⟩ := List.forall_mem_cons.mp ih
    rw [map, matcher_alternation, matcher_alternation, mapAll_eq_map, List.map_map, hfirst]
    exact congrArg (fun members => Matcher.node name (.choice _ members))
      (List.map_congr_left hrest)
  | repetition name bounds element ih => rw [map, matcher_repetition, matcher_repetition, ih]
  | deferred name key => rfl

end Rule

end AugmentedBnf
