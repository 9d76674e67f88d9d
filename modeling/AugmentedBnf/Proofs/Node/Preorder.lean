import AugmentedBnf.Proofs.Matching.Continuation
import AugmentedBnf.Proofs.Matching.Escape
import AugmentedBnf.Proofs.Derivation.Adequacy
import AugmentedBnf.Proofs.Node.Naming

/-!
# Searches Follow the Order of the Text

A node of a tree has an address: the numbers of the children to descend to, from the tree's root
down to it. Pre-order is the order of the addresses as words, with a node in front of those below it
and in front of those below later children. So there is a way to say which nodes a search has to
find, and in which order, that does not go through the tree as the search does: those at the
addresses where there is a node of the name, in the order of the addresses.

In the tree of a match a listing in pre-order also follows the text. A node begins where its first
child does, and a child where the one in front of it stops, whatever the matchers are that were put
together (`Matcher.Arranges`). So what comes later in the listing lies within what comes earlier, or
behind it.

**Main statement**: `findAll_follows_text`.
-/

namespace AugmentedBnf

variable {κ τ α β : Type}

/-! ## §1 Addresses -/

namespace Node

variable {name : String} {node : Node} {nodes : List Node} {address : List Nat}

/-- The node at an address, if there is one: every number in it is that of a child to descend to. -/
def descend (node : Node) : List Nat → Option Node
  | [] => some node
  | index :: rest => node.children[index]?.bind fun child => child.descend rest

mutual

/-- The addresses of all nodes of a tree in pre-order. -/
def addresses : Node → List (List Nat)
  | ⟨_, _, children⟩ => [] :: addressesFrom 0 children

/-- The addresses of all nodes below a node in pre-order, in those of its children that begin with
    the child numbered `index`. -/
def addressesFrom (index : Nat) : List Node → List (List Nat)
  | [] => []
  | child :: rest => (addresses child).map (index :: ·) ++ addressesFrom (index + 1) rest

end

/-- An address below a node is that of a child, and behind it one in the child's tree. -/
theorem mem_addressesFrom {index : Nat} : address ∈ addressesFrom index nodes ↔
    ∃ number child rest, nodes[number]? = some child ∧ rest ∈ child.addresses ∧
      address = (index + number) :: rest := by
  induction nodes generalizing index with
  | nil => simp [addressesFrom]
  | cons child nodes ih =>
    rw [addressesFrom, List.mem_append, List.mem_map, ih]
    constructor
    · rintro (⟨rest, hrest, rfl⟩ | ⟨number, found, rest, hfound, hrest, rfl⟩)
      · exact ⟨0, child, rest, rfl, hrest, rfl⟩
      · exact ⟨number + 1, found, rest, hfound, hrest, by rw [Nat.add_right_comm, Nat.add_assoc]⟩
    · rintro ⟨_ | number, found, rest, hfound, hrest, rfl⟩
      · obtain rfl := Option.some.inj hfound
        exact .inl ⟨rest, hrest, rfl⟩
      · exact .inr ⟨number, found, rest, hfound, hrest, by rw [Nat.add_right_comm, Nat.add_assoc]⟩

/-- The addresses are those that there is a node at. -/
theorem mem_addresses : address ∈ node.addresses ↔ (node.descend address).isSome := by
  -- Each number of an address goes down to a child, so the induction is on the address.
  induction address generalizing node with
  | nil =>
    cases node
    simp [addresses, descend]
  | cons index rest ih =>
    cases node with
    | mk own span children =>
      rw [addresses, List.mem_cons, mem_addressesFrom, descend, Option.isSome_bind]
      simp only [reduceCtorEq, false_or, Nat.zero_add, List.cons.injEq, Option.any_eq_true]
      constructor
      · rintro ⟨_, child, _, hchild, hrest, rfl, rfl⟩
        exact ⟨child, hchild, ih.mp hrest⟩
      · rintro ⟨child, hchild, hrest⟩
        exact ⟨index, child, rest, hchild, ih.mpr hrest, rfl, rfl⟩

mutual

/-- **Pre-order is the order of the addresses.** -/
theorem pairwise_addresses : ∀ node : Node, node.addresses.Pairwise (· < ·)
  | ⟨_, _, children⟩ => by
    rw [addresses, List.pairwise_cons]
    refine ⟨fun address haddress => ?_, pairwise_addressesFrom 0 children⟩
    obtain ⟨_, _, _, _, _, rfl⟩ := mem_addressesFrom.mp haddress
    exact List.nil_lt_cons _ _

theorem pairwise_addressesFrom (index : Nat) : ∀ nodes : List Node,
    (addressesFrom index nodes).Pairwise (· < ·)
  | [] => .nil
  | child :: rest => by
    rw [addressesFrom, List.pairwise_append, List.pairwise_map]
    refine ⟨?_, pairwise_addressesFrom (index + 1) rest, ?_⟩
    · exact (pairwise_addresses child).imp fun hlt => List.cons_lt_cons_iff.mpr (.inr ⟨rfl, hlt⟩)
    · -- The first number of the address is that of the child, and later ones have greater numbers.
      intro address haddress later hlater
      obtain ⟨behind, _, rfl⟩ := List.mem_map.mp haddress
      obtain ⟨number, _, _, _, _, rfl⟩ := mem_addressesFrom.mp hlater
      exact List.cons_lt_cons_iff.mpr (.inl (by omega))

end

mutual

/-- The nodes at the addresses are those of the listing. -/
theorem map_descend_addresses (depth : Nat) : ∀ node : Node,
    node.addresses.map node.descend = ((listingFrom depth node).map Prod.snd).map some
  | ⟨own, span, children⟩ => by
    rw [addresses, listingFrom, List.map_cons, List.map_cons, List.map_cons,
      map_descend_addressesFrom (depth + 1) children ⟨own, span, children⟩ 0 rfl]
    rfl

theorem map_descend_addressesFrom (depth : Nat) : ∀ (nodes : List Node) (node : Node)
    (index : Nat), node.children.drop index = nodes →
    (addressesFrom index nodes).map node.descend
      = ((listingsFrom depth nodes).map Prod.snd).map some
  | [], _, _, _ => rfl
  | child :: rest, node, index, hchildren => by
    have hchild : node.children[index]? = some child := by
      rw [← List.head?_drop, hchildren, List.head?_cons]
    have hrest : node.children.drop (index + 1) = rest := by
      rw [← List.tail_drop, hchildren, List.tail_cons]
    -- An address in the first child's tree is looked up in that tree.
    have hfirst : (child.addresses.map (index :: ·)).map node.descend
        = child.addresses.map child.descend := by
      rw [List.map_map]
      apply List.map_congr_left
      intro address _
      rw [Function.comp_apply, descend, hchild, Option.bind_some]
    rw [addressesFrom, listingsFrom, List.map_append, List.map_append, List.map_append, hfirst,
      map_descend_addresses depth child, map_descend_addressesFrom depth rest node _ hrest]

end

/-! ## §2 Searches by name -/

/-- Whether there is a node of the name at the address. -/
def hasNamed (node : Node) (name : String) (address : List Nat) : Bool :=
  (node.descend address).any (·.name = name)

/-- A search for all nodes of a name finds those at the addresses that have one. -/
theorem map_descend_filter_addresses (name : String) (node : Node) :
    (node.addresses.filter (node.hasNamed name)).map node.descend
      = (findAll name node).map some := by
  calc (node.addresses.filter (node.hasNamed name)).map node.descend
      = (node.addresses.map node.descend).filter (·.any (·.name = name)) := List.filter_map.symm
    _ = (((listingFrom 0 node).map Prod.snd).map some).filter (·.any (·.name = name)) := by
      rw [map_descend_addresses 0]
    _ = (((listingFrom 0 node).map Prod.snd).filter (·.name = name)).map some := List.filter_map
    _ = (findAll name node).map some := by rw [findAll_eq_filter_listing name 0]

mutual

/-- The search for one node of a name finds the first of all those that there are. -/
theorem find_eq_head?_findAll (name : String) : ∀ node : Node,
    find name node = (findAll name node).head?
  | ⟨own, span, children⟩ => by
    unfold find findAll
    split
    case isTrue => rfl
    case isFalse => exact findAmong_eq_head?_findAllAmong name children

theorem findAmong_eq_head?_findAllAmong (name : String) : ∀ nodes : List Node,
    findAmong name nodes = (findAllAmong name nodes).head?
  | [] => rfl
  | child :: rest => by
    rw [findAmong, findAllAmong, List.head?_append, ← find_eq_head?_findAll name child,
      ← findAmong_eq_head?_findAllAmong name rest]
    cases find name child <;> rfl

end

/-! ## §3 Arranged listings -/

/-- The node's span lies within that of the other. -/
def LiesWithin (inner outer : Node) : Prop := outer.start ≤ inner.start ∧ inner.stop ≤ outer.stop

/-- Of two nodes the later one does not start before the earlier one, and lies within it if it does
    not lie behind it. -/
def Follows (earlier later : Node) : Prop :=
  earlier.start ≤ later.start ∧ (later.LiesWithin earlier ∨ earlier.stop ≤ later.start)

/-- The listed nodes have spans between two offsets, and each of them follows those before it. -/
structure Arranged (start stop : Nat) (visits : List (Nat × Node)) : Prop where
  le : start ≤ stop
  between : ∀ visit ∈ visits,
    start ≤ visit.2.start ∧ visit.2.start ≤ visit.2.stop ∧ visit.2.stop ≤ stop
  follows : visits.Pairwise fun earlier later => earlier.2.Follows later.2

namespace Arranged

variable {start middle stop : Nat} {visits later : List (Nat × Node)}

theorem nil (hle : start ≤ stop) : Arranged start stop [] := ⟨hle, nofun, .nil⟩

/-- What is listed behind the first nodes lies behind them. -/
theorem append (h : Arranged start middle visits) (hlater : Arranged middle stop later) :
    Arranged start stop (visits ++ later) := by
  constructor
  case le => exact Nat.le_trans h.le hlater.le
  case between =>
    intro visit hvisit
    rcases List.mem_append.mp hvisit with hvisit | hvisit
    · obtain ⟨hstart, hle, hstop⟩ := h.between visit hvisit
      exact ⟨hstart, hle, Nat.le_trans hstop hlater.le⟩
    · obtain ⟨hstart, hle, hstop⟩ := hlater.between visit hvisit
      exact ⟨Nat.le_trans h.le hstart, hle, hstop⟩
  case follows =>
    refine List.pairwise_append.mpr ⟨h.follows, hlater.follows, fun visit hvisit other hother => ?_⟩
    obtain ⟨-, hle, hstop⟩ := h.between visit hvisit
    obtain ⟨hstart, -, -⟩ := hlater.between other hother
    -- The earlier node stops before the middle, and the later one starts behind it.
    have hbehind := Nat.le_trans hstop hstart
    exact ⟨Nat.le_trans hle hbehind, .inr hbehind⟩

/-- What is listed below a node lies within it. -/
theorem cons (node : Node) (h : Arranged node.start node.stop visits) (depth : Nat) :
    Arranged node.start node.stop ((depth, node) :: visits) := by
  constructor
  case le => exact h.le
  case between =>
    exact List.forall_mem_cons.mpr ⟨⟨Nat.le_refl _, h.le, Nat.le_refl _⟩, h.between⟩
  case follows =>
    refine List.pairwise_cons.mpr ⟨fun visit hvisit => ?_, h.follows⟩
    obtain ⟨hstart, -, hstop⟩ := h.between visit hvisit
    exact ⟨hstart, .inl ⟨hstart, hstop⟩⟩

end Arranged

end Node

/-! ## §4 Matchers that arrange what they match -/

open Node (Arranged listingFrom listingsFrom)

/-- What was matched from an offset is arranged from there up to where the match ends, if listed
    this way at any depth. -/
def Outcome.Arranges (listed : Nat → α → List (Nat × Node)) (start : Nat) : Outcome τ α → Prop
  | .matched value next _ => ∀ depth, Arranged start next.position (listed depth value)
  | .failed _ _ => True
  | .aborted _ _ => True

/-- Where an outcome is gone on from, it is enough to know how its match is arranged. -/
theorem Outcome.Arranges.andThen {listed : Nat → α → List (Nat × Node)}
    {listed' : Nat → β → List (Nat × Node)} {start start' : Nat} {outcome : Outcome τ α}
    {onMatch : α → Cursor → Trail τ → Outcome τ β} {onFail : Failure → Trail τ → Outcome τ β}
    (h : outcome.Arranges listed start)
    (hmatch : ∀ value next trail, (∀ depth, Arranged start next.position (listed depth value)) →
      (onMatch value next trail).Arranges listed' start')
    (hfail : ∀ failure trail, (onFail failure trail).Arranges listed' start') :
    (outcome.andThen onMatch onFail).Arranges listed' start' := by
  cases outcome with
  | matched value next trail => exact hmatch value next trail h
  | failed failure trail => exact hfail failure trail
  | aborted cause trail => trivial

/-- All that the matcher matches is arranged from the cursor on. -/
def Matcher.Arranges (listed : Nat → α → List (Nat × Node)) (m : Matcher τ α) : Prop :=
  ∀ cursor trail, (m cursor trail).Arranges listed cursor.position

namespace Matcher

section Primitive

variable [Journal τ]

/-- A leaf from one cursor up to another is arranged between them. -/
theorem arranged_leaf {cursor next : Cursor} (hle : cursor.position ≤ next.position)
    (name : String) (depth : Nat) : Arranged cursor.position next.position
      (listingFrom depth (.leaf name (cursor.spanTo next))) :=
  Arranged.cons (.leaf name (cursor.spanTo next)) (.nil hle) depth

theorem codePoint_arranges (name expected : String) (accepts : Char → Bool) :
    (codePoint name expected accepts : Matcher τ Node).Arranges listingFrom := by
  intro cursor trail
  unfold codePoint
  rcases hvalue : cursor.value with (failure | cause) | found
  · trivial
  · trivial
  · by_cases hfound : accepts found
    · simp only [hfound, if_true]
      exact arranged_leaf (Cursor.position_le_skip hvalue) name
    · simp only [hfound, if_false, Bool.false_eq_true]
      trivial

theorem endOfText_arranges (name : String) :
    (endOfText name : Matcher τ Node).Arranges listingFrom := by
  intro cursor trail
  unfold endOfText
  cases cursor.atEnd with
  | true => exact arranged_leaf (Nat.le_refl _) name
  | false => trivial

end Primitive

section Composite

variable {m : Matcher τ Node} {ms : List (Matcher τ Node)}

theorem failed_arranges (listed : Nat → α → List (Nat × Node)) (start : Nat) (failure : Failure)
    (trail : Trail τ) : (Outcome.failed failure trail : Outcome τ α).Arranges listed start := trivial

/-- A single node is listed alone. -/
theorem singleton_arranges {start : Nat} {child : Node} {next : Cursor} (trail : Trail τ)
    (h : ∀ depth, Arranged start next.position (listingFrom depth child)) :
    (Outcome.matched [child] next trail).Arranges listingsFrom start := by
  intro depth
  rw [listingsFrom, listingsFrom, List.append_nil]
  exact h depth

/-- A node spans what its children are arranged in. -/
theorem node_arranges {m : Matcher τ (List Node)} (h : m.Arranges listingsFrom) (name : String) :
    (node name m).Arranges listingFrom := by
  intro cursor trail
  rw [node_andThen]
  refine (h cursor trail).andThen (fun nodes next trail hnodes depth => ?_) (failed_arranges _ _)
  rw [listingFrom]
  exact Arranged.cons ⟨name, cursor.spanTo next, nodes⟩ (hnodes (depth + 1)) depth

/-- What the rest of the matchers match is listed behind what the first one does. -/
theorem sequence_arranges (h : ∀ m ∈ ms, m.Arranges listingFrom) :
    (sequence ms).Arranges listingsFrom := by
  induction ms with
  | nil => exact fun cursor trail depth => .nil (Nat.le_refl _)
  | cons m ms ih =>
    intro cursor trail
    obtain ⟨hm, hms⟩ := List.forall_mem_cons.mp h
    rw [sequence_andThen]
    refine (hm cursor trail).andThen (fun child next trail hchild => ?_) (failed_arranges _ _)
    refine (ih hms next trail).andThen (fun children last _ hchildren => ?_) (failed_arranges _ _)
    exact fun depth => (hchild depth).append (hchildren depth)

theorem choiceAfter_arranges (h : ∀ m ∈ ms, m.Arranges listingFrom) (failure : Failure) :
    (choiceAfter failure ms).Arranges listingsFrom := by
  induction ms generalizing failure with
  | nil => exact fun cursor trail => trivial
  | cons m ms ih =>
    intro cursor trail
    obtain ⟨hm, hms⟩ := List.forall_mem_cons.mp h
    rw [choiceAfter_andThen]
    exact (hm cursor trail).andThen (fun child next trail => singleton_arranges _)
      (fun other => ih hms (failure.deeper other) cursor)

theorem choice_arranges (hm : m.Arranges listingFrom) (hms : ∀ m ∈ ms, m.Arranges listingFrom) :
    (choice m ms).Arranges listingsFrom := by
  intro cursor trail
  rw [choice_andThen]
  exact (hm cursor trail).andThen (fun child next trail => singleton_arranges _)
    (fun failure => choiceAfter_arranges hms failure cursor)

/-- What later rounds match is listed behind what the first one does. -/
theorem repeatFrom_arranges (h : m.Arranges listingFrom) (bounds : Bounds) (count : Nat) :
    (repeatFrom bounds m count).Arranges listingsFrom := by
  intro cursor
  -- A further round begins where less of the text remains.
  induction hremaining : cursor.remaining using Nat.strongRecOn generalizing cursor count with
  | ind remaining ih =>
    intro trail
    rw [repeatFrom_andThen]
    split
    case isTrue =>
      refine (h cursor trail).andThen (fun child next trail hchild => ?_) (fun failure trail => ?_)
      · split
        case isTrue hprogress =>
          have hrest := ih next.remaining (hremaining ▸ hprogress) (count + 1) next rfl trail
          refine hrest.andThen (fun children last _ hchildren => ?_) (failed_arranges _ _)
          exact fun depth => (hchild depth).append (hchildren depth)
        case isFalse => exact singleton_arranges _ hchild
      · split
        case isTrue => trivial
        case isFalse => exact fun depth => .nil (Nat.le_refl _)
    case isFalse => exact fun depth => .nil (Nat.le_refl _)

end Composite

end Matcher

/-! ## §5 Evaluations -/

namespace Grammar

/-- **The tree of a match is arranged** between the cursors, with any number of unfoldings. -/
theorem matcher_arranges [Journal τ] (grammar : Grammar κ) (depth : Nat) (rule : Rule κ) :
    (rule.matcher (grammar.call depth) : Matcher τ Node).Arranges listingFrom := by
  induction depth, rule using grammar.unfoldingInduction with
  | character depth name expected => exact Matcher.codePoint_arranges name _ _
  | range depth name low high => exact Matcher.codePoint_arranges name _ _
  | endOfText depth name => exact Matcher.endOfText_arranges name
  | concatenation depth name first rest ih =>
    rw [Rule.matcher_concatenation]
    apply Matcher.node_arranges
    apply Matcher.sequence_arranges
    exact List.forall_mem_map.mpr ih
  | alternation depth name first rest ih =>
    rw [Rule.matcher_alternation]
    obtain ⟨hfirst, hrest⟩ := List.forall_mem_cons.mp ih
    apply Matcher.node_arranges
    apply Matcher.choice_arranges hfirst
    exact List.forall_mem_map.mpr hrest
  | repetition depth name bounds element ih =>
    rw [Rule.matcher_repetition]
    apply Matcher.node_arranges
    exact Matcher.repeatFrom_arranges ih bounds 0
  | exhausted name key =>
    rw [Grammar.matcher_exhausted]
    exact fun _ _ => trivial
  | unbuildable depth name key fault hdefine =>
    rw [Grammar.matcher_unbuildable grammar depth name hdefine]
    exact fun _ _ => trivial
  | unfolded depth name key rule hdefine ih =>
    rw [Grammar.matcher_unfolded grammar depth name hdefine]
    exact ih

variable [Journal τ] {grammar : Grammar κ} {rule : Rule κ} {cursor next : Cursor}
  {trail trail' : Trail τ} {node : Node}

theorem Ends.arranged (h : grammar.Ends rule cursor trail (.matched node next trail')) :
    Arranged cursor.position next.position node.listing := by
  obtain ⟨depth, houtcome, -⟩ := h
  have harranges := grammar.matcher_arranges depth rule cursor trail
  rw [houtcome] at harranges
  exact harranges 0

/-- What a search finds in the tree of a match follows the text. -/
theorem Ends.pairwise_findAll (h : grammar.Ends rule cursor trail (.matched node next trail'))
    (name : String) : (node.findAll name).Pairwise Node.Follows := by
  rw [Node.findAll_eq_filter_listing name 0]
  apply List.Pairwise.filter
  exact List.pairwise_map.mpr h.arranged.follows

/-- **Searches go through trees in pre-order, and so through the text.** In every tree, the search
    for all nodes of a name picks them from the listing in pre-order; that is, it finds the nodes at
    the addresses that have one of the name, in the order of the addresses. The search for one node
    finds the first of these, and none if there are none. In the tree of a match, whatever the
    cursor it began at, of two nodes found the later one does not start before the earlier one, and
    lies within its span or behind it. -/
theorem findAll_follows_text (grammar : Grammar κ) :
    (∀ (name : String) (node : Node),
      node.findAll name = (node.listing.map Prod.snd).filter (·.name = name) ∧
      (∃ addresses : List (List Nat), addresses.Pairwise (· < ·) ∧
        (∀ address, address ∈ addresses ↔ ∃ found ∈ node.descend address, found.name = name) ∧
        addresses.map node.descend = (node.findAll name).map some) ∧
      node.find name = (node.findAll name).head? ∧
      (node.find name = none ↔ node.findAll name = [])) ∧
    ∀ (rule : Rule κ) (cursor next : Cursor) (trail trail' : Trail τ) (node : Node),
      grammar.Ends rule cursor trail (.matched node next trail') →
      ∀ name, (node.findAll name).Pairwise fun earlier later =>
        earlier.start ≤ later.start ∧
          (later.LiesWithin earlier ∨ earlier.stop ≤ later.start) := by
  refine ⟨fun name node => ⟨Node.findAll_eq_filter_listing name 0 node, ?_,
    Node.find_eq_head?_findAll name node, ?_⟩, fun _ _ _ _ _ _ hends => hends.pairwise_findAll⟩
  · refine ⟨_, (Node.pairwise_addresses node).filter _, fun address => ?_,
      Node.map_descend_filter_addresses name node⟩
    rw [List.mem_filter, Node.mem_addresses, Node.hasNamed, Option.any_eq_true]
    simp only [decide_eq_true_eq, Option.mem_def]
    constructor
    · exact fun h => h.2
    · rintro ⟨found, hfound, hname⟩
      exact ⟨Option.isSome_of_mem hfound, found, hfound, hname⟩
  · rw [Node.find_eq_head?_findAll, List.head?_eq_none_iff]

/-- The `x` is nested, and so are the parentheses around it. Both are found, these first. -/
theorem parentheses_findAll_follows_text :
    ∃ node next trail,
      parentheses.Ends (.deferred "outer" ()) (.start "(x)") (.fresh ())
        (.matched node next trail) ∧
      (node.findAll "nested").map Node.span = [⟨"(x)", 0, 3⟩, ⟨"(x)", 1, 2⟩] ∧
      node.find "nested" = (node.findAll "nested").head? ∧
      (node.findAll "nested").Pairwise fun earlier later =>
        earlier.start ≤ later.start ∧
          (later.LiesWithin earlier ∨ earlier.stop ≤ later.start) := by
  have hends : parentheses.Ends (.deferred "outer" ()) (.start "(x)") (.fresh ()) _ :=
    ⟨2, rfl, rfl⟩
  obtain ⟨hfind, hfollows⟩ := findAll_follows_text (τ := Unit) parentheses
  exact ⟨_, _, _, hends, rfl, (hfind "nested" _).2.2.1, hfollows _ _ _ _ _ _ hends "nested"⟩

end Grammar

end AugmentedBnf
