import AugmentedBnf.Node.Search
import AugmentedBnf.Proofs.Grammar.Reach

/-!
# Names in Production Trees

Nodes carry the names of the rules that matched them. So a search of the tree of a rule has only to
be about names of the rules that occur in it: a search for any other name comes back without a node
(`Matches.findAll_eq_nil`), however large the tree.
-/

namespace AugmentedBnf

variable {κ : Type}

/-! ## §1 Searches and listings -/

namespace Node

mutual

/-- A search for all nodes of a name picks them from the listing. -/
theorem findAll_eq_filter_listing (name : String) (depth : Nat) : ∀ node : Node,
    findAll name node = ((listingFrom depth node).map Prod.snd).filter (·.name = name)
  | ⟨own, span, children⟩ => by
    rw [findAll, listingFrom, List.map_cons, List.filter_cons,
      findAllAmong_eq_filter_listings name (depth + 1)]
    simp only [decide_eq_true_eq]

theorem findAllAmong_eq_filter_listings (name : String) (depth : Nat) : ∀ nodes : List Node,
    findAllAmong name nodes = ((listingsFrom depth nodes).map Prod.snd).filter (·.name = name)
  | [] => rfl
  | child :: rest => by
    rw [findAllAmong, listingsFrom, List.map_append, List.filter_append,
      findAll_eq_filter_listing name depth, findAllAmong_eq_filter_listings name depth]

end

/-- A search for a name that no node has comes back without a node. -/
theorem findAll_eq_nil {name : String} {node : Node}
    (h : ∀ visit ∈ node.listing, visit.2.name ≠ name) : findAll name node = [] := by
  rw [findAll_eq_filter_listing name 0, List.filter_eq_nil_iff]
  intro found hfound
  obtain ⟨visit, hvisit, rfl⟩ := List.mem_map.mp hfound
  simpa using h visit hvisit

end Node

/-! ## §2 Names of matches -/

namespace Grammar

variable {grammar : Grammar κ}

mutual

/-- **Nodes are named for rules** that occur in the rule that was matched. -/
theorem Matches.exists_contains : ∀ {rule : Rule κ} {chars left : List Char} {tree : Tree},
    grammar.Matches rule chars tree left → ∀ {text : String} {offset depth : Nat}
      {visit : Nat × Node}, visit ∈ Node.listingFrom depth (tree.place text offset) →
      ∃ part, grammar.Contains rule part ∧ visit.2.name = part.name
  | _, _, _, _, .character name c _ => fun hvisit => by
    obtain rfl := List.mem_singleton.mp hvisit
    exact ⟨_, .refl _, rfl⟩
  | _, _, _, _, .range name _ _ => fun hvisit => by
    obtain rfl := List.mem_singleton.mp hvisit
    exact ⟨_, .refl _, rfl⟩
  | _, _, _, _, .endOfText name => fun hvisit => by
    obtain rfl := List.mem_singleton.mp hvisit
    exact ⟨_, .refl _, rfl⟩
  | _, _, _, _, .concatenation hparts => fun hvisit => by
    rcases List.mem_cons.mp hvisit with rfl | hvisit
    · exact ⟨_, .refl _, rfl⟩
    · obtain ⟨member, hmember, part, hpart, hname⟩ := hparts.exists_contains hvisit
      exact ⟨part, .concatenation hmember hpart, hname⟩
  | _, _, _, _, .alternation hmembers _ hmember => fun hvisit => by
    rcases List.mem_cons.mp hvisit with rfl | hvisit
    · exact ⟨_, .refl _, rfl⟩
    · rw [Tree.placeAmong_cons, Tree.placeAmong_nil, Node.listingsFrom, Node.listingsFrom,
        List.append_nil] at hvisit
      obtain ⟨part, hpart, hname⟩ := hmember.exists_contains hvisit
      refine ⟨part, .alternation ?_ hpart, hname⟩
      rw [hmembers]
      exact List.mem_append_cons_self
  | _, _, _, _, .repetition hparts _ _ _ _ => fun hvisit => by
    rcases List.mem_cons.mp hvisit with rfl | hvisit
    · exact ⟨_, .refl _, rfl⟩
    · obtain ⟨member, hmember, part, hpart, hname⟩ := hparts.exists_contains hvisit
      obtain rfl := List.eq_of_mem_replicate hmember
      exact ⟨part, .repetition hpart, hname⟩
  -- A deferred rule adds no node of its own.
  | _, _, _, _, .deferred hdefine hrule => fun hvisit => by
    obtain ⟨part, hpart, hname⟩ := hrule.exists_contains hvisit
    exact ⟨part, .deferred hdefine hpart, hname⟩

theorem MatchesEach.exists_contains : ∀ {rules : List (Rule κ)} {chars left : List Char}
    {parts : List Tree}, grammar.MatchesEach rules chars parts left → ∀ {text : String}
      {offset depth : Nat} {visit : Nat × Node},
      visit ∈ Node.listingsFrom depth (Tree.placeAmong text offset parts) →
      ∃ rule ∈ rules, ∃ part, grammar.Contains rule part ∧ visit.2.name = part.name
  | _, _, _, _, .nil _ => fun hvisit => absurd hvisit List.not_mem_nil
  | _, _, _, _, .cons hfirst hrest => fun hvisit => by
    rw [Tree.placeAmong_cons, Node.listingsFrom, List.mem_append] at hvisit
    rcases hvisit with hvisit | hvisit
    · exact ⟨_, List.mem_cons_self, hfirst.exists_contains hvisit⟩
    · obtain ⟨rule, hrule, hpart⟩ := hrest.exists_contains hvisit
      exact ⟨rule, List.mem_cons_of_mem _ hrule, hpart⟩

end

/-- **A name that no rule has is not found**, where no rule means none that is written in the rule
    or in one that the grammar defines. -/
theorem Matches.findAll_eq_nil {name : String}
    (hdefine : ∀ key rule, grammar.define key = .ok rule → rule.all (·.name ≠ name))
    {rule : Rule κ} (hrule : rule.all (·.name ≠ name)) {chars left : List Char} {tree : Tree}
    (h : grammar.Matches rule chars tree left) (text : String) (offset : Nat) :
    (tree.place text offset).findAll name = [] := by
  apply Node.findAll_eq_nil
  intro visit hvisit
  obtain ⟨part, hpart, hname⟩ := h.exists_contains hvisit
  have hcheck := Rule.check_of_all (hpart.all hdefine hrule)
  rw [hname]
  exact of_decide_eq_true hcheck

theorem MatchesEach.findAllAmong_eq_nil {name : String}
    (hdefine : ∀ key rule, grammar.define key = .ok rule → rule.all (·.name ≠ name))
    {rules : List (Rule κ)} (hrules : ∀ rule ∈ rules, rule.all (·.name ≠ name))
    {chars left : List Char} {parts : List Tree}
    (h : grammar.MatchesEach rules chars parts left) (text : String) (offset : Nat) :
    Node.findAllAmong name (Tree.placeAmong text offset parts) = [] := by
  induction rules generalizing chars parts offset with
  | nil =>
    cases h
    rfl
  | cons rule rules ih =>
    obtain ⟨hrule, hrules⟩ := List.forall_mem_cons.mp hrules
    cases h with
    | cons hfirst hrest =>
      rw [Tree.placeAmong_cons, Node.findAllAmong, hfirst.findAll_eq_nil hdefine hrule,
        ih hrules hrest, List.append_nil]

end Grammar

end AugmentedBnf
