import AugmentedBnf.Node.Search
import AugmentedBnf.Proofs.Derivation.Adequacy

/-!
# Production Trees Tile the Text

The nodes of a production tree have spans of their own, next to those of their children. All of them
fit: every span is one of the text, children lie next to each other from where their node starts up
to where it stops, and a node without children covers nothing or a single code point.

An evaluation gives a tree without places put at a place, and so is every node in it
(`placed_of_mem_listing`). What is claimed of the nodes is thus a matter of the definition of
`Tree.place`, and not of the order in which an evaluation makes its spans.

**Main statement**: `evaluation_tiles`.
-/

namespace AugmentedBnf

variable {κ τ : Type}

open Text (width)

/-! ## §1 Spans that fit -/

namespace Node

/-- The nodes follow each other without gaps, from `start` up to `stop`. -/
def Abut (start : Nat) : List Node → Nat → Prop
  | [], stop => start = stop
  | child :: rest, stop => child.start = start ∧ Abut child.stop rest stop

/-- The nodes of the tree that have no children, in the order of the text. -/
def leaves (node : Node) : List Node := (node.listing.map Prod.snd).filter isLeaf

/-- The node's span fits the text, its children and the leaves below it. -/
structure Fits (text : String) (node : Node) : Prop where
  text_eq : node.span.text = text
  start_le : node.start ≤ node.stop
  stop_le : node.stop ≤ text.utf8ByteSize
  start_valid : (⟨node.start⟩ : String.Pos.Raw).IsValid text
  stop_valid : (⟨node.stop⟩ : String.Pos.Raw).IsValid text
  children : node.children ≠ [] → Abut node.start node.children node.stop
  childless : node.children = [] →
    node.start = node.stop ∨ ∃ c, node.covered = .ok (String.singleton c)
  leaves : ∃ texts, node.leaves.mapM covered = .ok texts ∧ node.covered = .ok (.join texts)

end Node

/-! ## §2 Nodes of a placed tree -/

namespace Tree

/-- The node is a tree put at a place of the text where its code points are. -/
def Placed (text : String) (node : Node) : Prop :=
  ∃ tree before after, text = .ofList (before ++ (chars tree ++ after)) ∧
    node = tree.place text (width before)

variable {text : String}

mutual

/-- The nodes of a placed tree are placed trees. -/
theorem placed_of_mem_listing : ∀ {tree : Tree} {before after : List Char} {depth : Nat}
    {visit : Nat × Node}, text = .ofList (before ++ (tree.chars ++ after)) →
    visit ∈ Node.listingFrom depth (tree.place text (width before)) → Placed text visit.2
  | .leaf name c, before, after, depth, visit, htext, hvisit => by
    rw [place_leaf, Node.leaf, Node.listingFrom, Node.listingsFrom, List.mem_singleton] at hvisit
    subst hvisit
    exact ⟨.leaf name c, before, after, htext, rfl⟩
  | .node name parts, before, after, depth, visit, htext, hvisit => by
    rw [place_node, Node.listingFrom, List.mem_cons] at hvisit
    rcases hvisit with rfl | hvisit
    · exact ⟨.node name parts, before, after, htext, rfl⟩
    · exact placed_of_mem_listings htext hvisit

theorem placed_of_mem_listings : ∀ {parts : List Tree} {before after : List Char} {depth : Nat}
    {visit : Nat × Node}, text = .ofList (before ++ (charsAmong parts ++ after)) →
    visit ∈ Node.listingsFrom depth (placeAmong text (width before) parts) → Placed text visit.2
  | [], _, _, _, _, _, hvisit => by
    rw [placeAmong_nil, Node.listingsFrom] at hvisit
    cases hvisit
  | part :: rest, before, after, depth, visit, htext, hvisit => by
    rw [charsAmong_cons, List.append_assoc] at htext
    rw [placeAmong_cons, Node.listingsFrom, List.mem_append, ← Text.width_append] at hvisit
    rcases hvisit with hvisit | hvisit
    · exact placed_of_mem_listing htext hvisit
    · -- The other parts are placed behind the first one.
      rw [← List.append_assoc] at htext
      exact placed_of_mem_listings htext hvisit

end

/-- Parts are placed one behind the other, so they leave no gaps. -/
theorem abut_placeAmong (text : String) (offset : Nat) (parts : List Tree) :
    Node.Abut offset (placeAmong text offset parts) (offset + width (charsAmong parts)) := by
  induction parts generalizing offset with
  | nil => rfl
  | cons part rest ih =>
    unfold placeAmong Node.Abut
    have hrest := ih (offset + width part.chars)
    rw [Nat.add_assoc, ← Text.width_append, ← charsAmong_cons] at hrest
    rw [Node.start, Node.stop, span_place]
    exact ⟨rfl, hrest⟩

/-- A placed tree covers its code points. -/
theorem covered_place (tree : Tree) (before after : List Char) :
    (tree.place (.ofList (before ++ (tree.chars ++ after))) (width before)).covered
      = .ok (.ofList tree.chars) := by
  rw [Node.covered, span_place, Span.covered]
  exact Text.slice_width before tree.chars after

/-- A childless node is the only leaf of its tree. -/
theorem mapM_covered_leaf {depth : Nat} {name : String} {span : Span} {text : String}
    (hcovered : span.covered = .ok text) :
    (((Node.listingFrom depth ⟨name, span, []⟩).map Prod.snd).filter Node.isLeaf).mapM Node.covered
      = .ok [text] := by
  unfold Node.listingFrom Node.listingsFrom
  rw [List.map_singleton, List.filter_cons_of_pos rfl, List.filter_nil, List.mapM_cons,
    List.mapM_nil, Node.covered, hcovered]
  rfl

mutual

/-- What the leaves of a placed tree cover, one after the other, is what the tree covers. -/
theorem covered_leaves (depth : Nat) : ∀ (tree : Tree) {before after : List Char},
    text = .ofList (before ++ (tree.chars ++ after)) →
    ∃ texts, (((Node.listingFrom depth (tree.place text (width before))).map Prod.snd).filter
      Node.isLeaf).mapM Node.covered = .ok texts ∧ String.join texts = .ofList tree.chars
  | .leaf name c, before, after, htext => by
    have hcovered := covered_place (.leaf name c) before after
    rw [← htext] at hcovered
    refine ⟨[.ofList [c]], mapM_covered_leaf hcovered, ?_⟩
    rw [String.join_cons, String.join_nil, String.append_empty, chars_leaf]
  | .node name [], before, after, htext => by
    have hcovered := covered_place (.node name []) before after
    rw [← htext] at hcovered
    refine ⟨[.ofList []], mapM_covered_leaf hcovered, ?_⟩
    rw [String.join_cons, String.join_nil, String.append_empty, chars_node, charsAmong_nil]
  | .node name (part :: rest), before, after, htext => by
    -- A node with children is no leaf, so its leaves are those of its children.
    obtain ⟨texts, htexts, hjoin⟩ := covered_leaves_among (depth + 1) (part :: rest) htext
    refine ⟨texts, ?_, hjoin⟩
    rw [← htexts, place_node, Node.listingFrom, List.map_cons, List.filter_cons_of_neg]
    simp [Node.isLeaf]

theorem covered_leaves_among (depth : Nat) : ∀ (parts : List Tree) {before after : List Char},
    text = .ofList (before ++ (charsAmong parts ++ after)) →
    ∃ texts, (((Node.listingsFrom depth (placeAmong text (width before) parts)).map
      Prod.snd).filter Node.isLeaf).mapM Node.covered = .ok texts ∧
      String.join texts = .ofList (charsAmong parts)
  | [], _, _, _ => ⟨[], rfl, by rw [String.join_nil, charsAmong_nil, String.ofList_nil]⟩
  | part :: rest, before, after, htext => by
    rw [charsAmong_cons, List.append_assoc] at htext
    obtain ⟨texts, htexts, hjoin⟩ := covered_leaves depth part htext
    rw [← List.append_assoc] at htext
    obtain ⟨texts', htexts', hjoin'⟩ := covered_leaves_among depth rest htext
    refine ⟨texts ++ texts', ?_, ?_⟩
    · rw [placeAmong_cons, Node.listingsFrom, List.map_append, List.filter_append, List.mapM_append,
        htexts, ← Text.width_append, htexts']
      rfl
    · rw [String.join_append, hjoin, hjoin', charsAmong_cons, String.ofList_append]

end

/-- The spans of placed trees fit. -/
theorem Placed.fits {node : Node} (hplaced : Placed text node) : node.Fits text := by
  obtain ⟨tree, before, after, htext, rfl⟩ := hplaced
  -- Everything but the leaves follows from the span of a placed tree.
  have hcovered := covered_place tree before after
  have hspan := span_place text (width before) tree
  rw [← htext] at hcovered
  constructor
  case text_eq => rw [hspan]
  case start_le =>
    rw [Node.start, Node.stop, hspan]
    exact Nat.le_add_right _ _
  case stop_le =>
    rw [Node.stop, hspan]
    show width before + width tree.chars ≤ text.utf8ByteSize
    rw [htext, Text.utf8ByteSize_ofList, Text.width_append, Text.width_append]
    omega
  case start_valid =>
    rw [Node.start, hspan, htext]
    exact Text.isValid_width before (tree.chars ++ after)
  case stop_valid =>
    -- The stop is the place behind the code points of the tree.
    have hvalid := Text.isValid_width (before ++ tree.chars) after
    rw [List.append_assoc, ← htext, Text.width_append] at hvalid
    rw [Node.stop, hspan]
    exact hvalid
  case children =>
    intro hne
    cases tree with
    | leaf name c => exact absurd rfl hne
    | node name parts => exact abut_placeAmong text (width before) parts
  case childless =>
    intro hnone
    cases tree with
    | leaf name c => exact .inr ⟨c, by simpa using hcovered⟩
    | node name parts =>
      cases parts with
      | nil => exact .inl rfl
      | cons part rest => simp at hnone
  case leaves =>
    obtain ⟨texts, htexts, hjoin⟩ := covered_leaves 0 tree htext
    exact ⟨texts, htexts, hjoin ▸ hcovered⟩

end Tree

/-! ## §3 Evaluations -/

namespace Grammar

/-- **Production trees tile the text.** Where an evaluation from a reached cursor matches, the node
    spans what lies between the two cursors, and every node of the tree fits: its span is one of
    the text, its children leave no gaps, without children it is empty or a single code point, and
    its leaves cover what it covers. -/
theorem evaluation_tiles [Journal τ] (grammar : Grammar κ) (rule : Rule κ) {text : String}
    {count : Nat} {cursor : Cursor} (hcursor : (Cursor.start text).advance count = .ok cursor)
    {trail trail' : Trail τ} {node : Node} {next : Cursor}
    (hmatched : grammar.Ends rule cursor trail (.matched node next trail')) :
    node.start = cursor.position ∧ node.stop = next.position ∧
      ∀ visit ∈ node.listing, visit.2.Fits text := by
  rw [Cursor.start_eq_between, Cursor.advance_between, Except.ok.injEq] at hcursor
  subst hcursor
  obtain ⟨tree, left, htree, hnode, hnext⟩ := ends_matched_iff.mp ⟨trail', hmatched⟩
  have htext : text
      = .ofList ([] ++ text.toList.take count ++ (tree.chars ++ left)) := by
    rw [← htree.chars_eq, List.nil_append, List.take_append_drop, String.ofList_toList]
  rw [htree.chars_eq, ← htext] at hnode
  subst hnode hnext
  refine ⟨?_, ?_, fun visit hvisit => ?_⟩
  · rw [Node.start, Tree.span_place, Cursor.position_between]
  · rw [Node.stop, Tree.span_place, Cursor.position_between]
    exact (Text.width_append _ _).symm
  · exact (Tree.placed_of_mem_listing htext hvisit).fits

theorem parentheses_evaluation_tiles :
    (Cursor.start "é(x)y").advance 1 = .ok (.within "é(x)y" 2) ∧
      ∃ node trail, parentheses.Ends (.deferred "outer" ()) (.within "é(x)y" 2) (.fresh ())
          (.matched node (.within "é(x)y" 5) trail) ∧
        node.start = 2 ∧ node.stop = 5 ∧ node.listing.length = 6 ∧
        ∀ visit ∈ node.listing, visit.2.Fits "é(x)y" := by
  have hcursor : (Cursor.start "é(x)y").advance 1 = .ok (.within "é(x)y" 2) := by decide
  have hends : parentheses.Ends (.deferred "outer" ()) (.within "é(x)y" 2) (.fresh ()) _ :=
    ⟨2, rfl, rfl⟩
  obtain ⟨hstart, hstop, hfits⟩ := evaluation_tiles parentheses _ hcursor hends
  exact ⟨hcursor, _, _, hends, hstart, hstop, rfl, hfits⟩

end Grammar

end AugmentedBnf
