import AugmentedBnf.CoreRules
import AugmentedBnf.Proofs.Derivation.Lookahead
import AugmentedBnf.Proofs.Node.Tiling
import AugmentedBnf.Proofs.Text.LineEnding

/-!
# Derivations and Line Endings

Some rules see the end of a line only as `CRLF`, which takes a carriage return with a line feed as
well as a line feed alone. What such a rule matches it matches in the other spelling too, and where
it fails it fails there (`Matches.respelt`, `Fails.respelt`). The trees have the same nodes with the
same names, but for what is below `CRLF`.

The two spellings are not matched step by step in the same way. A line feed alone is matched by the
second alternative of `CRLF`, after the first one has failed, and both characters together by the
first one. Everything else only has to tell that neither of the two is what it asks for.

The words of such rules may have either line end wherever they have one, and the languages do not
tell the two apart (`Rule.speltFreely_language`).
-/

namespace AugmentedBnf

variable {κ : Type}

open CoreRules
open Text (width respell withReturns)

/-! ## §1 Rules that see line ends only as a whole -/

namespace Rule

/-- The rule is `CRLF`. -/
def isCrlf : Rule κ → Bool
  | .alternation name (.concatenation pair (.character first c) [.character second d])
      [.character third e] =>
    name = "CRLF" && pair = "CR LF" && first = "CR" && c = '\r' && second = "LF" && d = '\n' &&
      third = "LF" && e = '\n'
  | _ => false

theorem eq_crlf_of_isCrlf {rule : Rule κ} (h : rule.isCrlf) : rule = crlf := by
  unfold isCrlf at h
  split at h
  · simp only [Bool.and_eq_true, decide_eq_true_eq] at h
    obtain ⟨⟨⟨⟨⟨⟨⟨rfl, rfl⟩, rfl⟩, rfl⟩, rfl⟩, rfl⟩, rfl⟩, rfl⟩ := h
    rfl
  · cases h

mutual

/-- Apart from `CRLF` no rule in the rule asks for a carriage return or a line feed, and none has
    that name. -/
def seesLines : Rule κ → Bool
  | .character name expected => name ≠ "CRLF" && expected ≠ '\r' && expected ≠ '\n'
  | .range name low high =>
    name ≠ "CRLF" && !(low ≤ '\r' && '\r' ≤ high) && !(low ≤ '\n' && '\n' ≤ high)
  | .endOfText name => name ≠ "CRLF"
  | .concatenation name first rest => name ≠ "CRLF" && (seesLines first && seesLinesAmong rest)
  | .alternation name first rest =>
    isCrlf (.alternation name first rest) ||
      name ≠ "CRLF" && (seesLines first && seesLinesAmong rest)
  | .repetition name _ element => name ≠ "CRLF" && seesLines element
  | .deferred _ _ => true

def seesLinesAmong : List (Rule κ) → Bool
  | [] => true
  | rule :: rest => seesLines rule && seesLinesAmong rest

end

theorem seesLinesAmong_iff {rules : List (Rule κ)} :
    seesLinesAmong rules ↔ ∀ rule ∈ rules, rule.seesLines := by
  induction rules with
  | nil => simp [seesLinesAmong]
  | cons rule rest ih => rw [seesLinesAmong, Bool.and_eq_true, ih, List.forall_mem_cons]

section SeesLines

variable {name : String} {first : Rule κ} {rest : List (Rule κ)}

theorem seesLines_concatenation (h : (Rule.concatenation name first rest).seesLines) :
    name ≠ "CRLF" ∧ ∀ member ∈ first :: rest, member.seesLines := by
  unfold seesLines at h
  rw [Bool.and_eq_true, Bool.and_eq_true, seesLinesAmong_iff, decide_eq_true_eq] at h
  exact ⟨h.1, List.forall_mem_cons.mpr h.2⟩

theorem seesLines_alternation (h : (Rule.alternation name first rest).seesLines) :
    Rule.alternation name first rest = crlf ∨
      name ≠ "CRLF" ∧ ∀ member ∈ first :: rest, member.seesLines := by
  unfold seesLines at h
  rw [Bool.or_eq_true, Bool.and_eq_true, Bool.and_eq_true, seesLinesAmong_iff,
    decide_eq_true_eq] at h
  exact h.imp eq_crlf_of_isCrlf fun h => ⟨h.1, List.forall_mem_cons.mpr h.2⟩

theorem seesLines_repetition {bounds : Bounds} {element : Rule κ}
    (h : (Rule.repetition name bounds element).seesLines) :
    name ≠ "CRLF" ∧ element.seesLines := by
  unfold seesLines at h
  rwa [Bool.and_eq_true, decide_eq_true_eq] at h

theorem seesLines_character {expected : Char}
    (h : (Rule.character name expected : Rule κ).seesLines) :
    name ≠ "CRLF" ∧ expected ≠ '\r' ∧ expected ≠ '\n' := by
  unfold seesLines at h
  rwa [Bool.and_eq_true, Bool.and_eq_true, decide_eq_true_eq, decide_eq_true_eq,
    decide_eq_true_eq, and_assoc] at h

theorem seesLines_range {low high : Char} (h : (Rule.range name low high : Rule κ).seesLines) :
    name ≠ "CRLF" ∧ ¬ (low ≤ '\r' ∧ '\r' ≤ high) ∧ ¬ (low ≤ '\n' ∧ '\n' ≤ high) := by
  unfold seesLines at h
  rwa [Bool.and_eq_true, Bool.and_eq_true, Bool.not_eq_true', Bool.not_eq_true',
    ← Bool.not_eq_true, ← Bool.not_eq_true, Bool.and_eq_true, Bool.and_eq_true,
    decide_eq_true_eq, decide_eq_true_eq, decide_eq_true_eq, decide_eq_true_eq,
    decide_eq_true_eq, and_assoc] at h

end SeesLines

end Rule

/-! ## §2 Trees in the other spelling -/

namespace Tree

mutual

/-- The second tree is the first one with lines that end in carriage return and line feed: it has
    the same nodes, but below `CRLF`. -/
inductive Respelt : Tree → Tree → Prop where
  | leaf {name : String} (hname : name ≠ "CRLF") {c : Char} (hc : c ≠ '\n') :
      Respelt (.leaf name c) (.leaf name c)
  | node {name : String} (hname : name ≠ "CRLF") {parts parts' : List Tree}
      (hparts : RespeltEach parts parts') : Respelt (.node name parts) (.node name parts')
  | lineEnd : Respelt (.node "CRLF" [.leaf "LF" '\n'])
      (.node "CRLF" [.node "CR LF" [.leaf "CR" '\r', .leaf "LF" '\n']])

inductive RespeltEach : List Tree → List Tree → Prop where
  | nil : RespeltEach [] []
  | cons {part part' : Tree} (hpart : Respelt part part') {rest rest' : List Tree}
      (hrest : RespeltEach rest rest') : RespeltEach (part :: rest) (part' :: rest')

end

mutual

/-- The code points of the trees are spelt in the two ways. -/
theorem Respelt.chars_eq : ∀ {tree tree' : Tree}, Respelt tree tree' →
    tree'.chars = respell tree.chars
  | _, _, .leaf _ hc => (Text.respell_cons hc []).symm
  | _, _, .node _ hparts => hparts.charsAmong_eq
  | _, _, .lineEnd => rfl

theorem RespeltEach.charsAmong_eq : ∀ {parts parts' : List Tree}, RespeltEach parts parts' →
    charsAmong parts' = respell (charsAmong parts)
  | _, _, .nil => rfl
  | _, _, .cons hpart hrest => by
    rw [charsAmong_cons, charsAmong_cons, Text.respell_append, hpart.chars_eq,
      hrest.charsAmong_eq]

end

theorem RespeltEach.map_chars {parts parts' : List Tree} (h : RespeltEach parts parts') :
    parts'.map chars = (parts.map chars).map respell := by
  induction parts generalizing parts' with
  | nil =>
    cases h
    rfl
  | cons part rest ih =>
    obtain - | ⟨hpart, hrest⟩ := h
    rw [List.map_cons, List.map_cons, List.map_cons, hpart.chars_eq, ih hrest]

theorem endsEmpty_iff_getLast? {parts : List Tree} :
    EndsEmpty parts ↔ (parts.map chars).getLast? = some [] := by
  unfold EndsEmpty
  rw [List.getLast?_map, Option.map_eq_some_iff]
  rfl

section Parts

variable {parts parts' : List Tree} (h : RespeltEach parts parts')

include h

theorem RespeltEach.length_eq : parts'.length = parts.length := by
  have hlength := congrArg List.length h.map_chars
  rwa [List.length_map, List.length_map, List.length_map] at hlength

/-- The other spelling of no code points is no code points. -/
theorem RespeltEach.endsEmpty_iff : EndsEmpty parts' ↔ EndsEmpty parts := by
  rw [endsEmpty_iff_getLast?, endsEmpty_iff_getLast?, h.map_chars, List.getLast?_map,
    Option.map_eq_some_iff]
  simp only [Text.respell_eq_nil_iff, exists_eq_right]

theorem RespeltEach.forall_ne_nil (hne : ∀ part ∈ parts, part.chars ≠ []) :
    ∀ part ∈ parts', part.chars ≠ [] := by
  intro part' hpart'
  have hmem : part'.chars ∈ (parts.map chars).map respell :=
    h.map_chars ▸ List.mem_map_of_mem hpart'
  rw [List.map_map] at hmem
  obtain ⟨part, hpart, hchars⟩ := List.mem_map.mp hmem
  rw [← hchars]
  exact mt Text.respell_eq_nil_iff.mp (hne part hpart)

end Parts

theorem RespeltEach.dropLast {parts parts' : List Tree} (h : RespeltEach parts parts') :
    RespeltEach parts.dropLast parts'.dropLast := by
  induction parts generalizing parts' with
  | nil =>
    cases h
    exact .nil
  | cons part rest ih =>
    obtain - | ⟨hpart, hrest⟩ := h
    cases hrest with
    | nil => exact .nil
    | cons hnext hrest => exact .cons hpart (ih (.cons hnext hrest))

end Tree

/-! ## §3 Production trees in the other spelling -/

namespace Node

/-- What can be told of a node without its offsets: its name, its text and its children. -/
structure Is (node : Node) (name text : String) (children : List Node) : Prop where
  name_eq : node.name = name
  covered_eq : node.covered = .ok text
  children_eq : node.children = children

mutual

/-- The second production tree is the first one with lines that end in carriage return and line
    feed. Nodes have the same names, as many children and the text in the other spelling. Only the
    child of a `CRLF` node is the pair `CR LF` instead of `LF`. -/
inductive Respelt : Node → Node → Prop where
  | node {node node' : Node} {name text : String} {children children' : List Node}
      (hname : name ≠ "CRLF") (hnode : node.Is name text children)
      (hnode' : node'.Is name (withReturns text) children')
      (hchildren : RespeltEach children children') : Respelt node node'
  | lineEnd {node node' feed feed' pair carriage : Node} (hnode : node.Is "CRLF" "\n" [feed])
      (hfeed : feed.Is "LF" "\n" []) (hnode' : node'.Is "CRLF" "\r\n" [pair])
      (hpair : pair.Is "CR LF" "\r\n" [carriage, feed']) (hcarriage : carriage.Is "CR" "\r" [])
      (hfeed' : feed'.Is "LF" "\n" []) : Respelt node node'

inductive RespeltEach : List Node → List Node → Prop where
  | nil : RespeltEach [] []
  | cons {node node' : Node} (hnode : Respelt node node') {rest rest' : List Node}
      (hrest : RespeltEach rest rest') : RespeltEach (node :: rest) (node' :: rest')

end

end Node

namespace Tree

/-- A tree put at the place of its code points covers them. -/
theorem isNode_place {text : String} (name : String) (parts : List Tree) {before after : List Char}
    (htext : text = .ofList (before ++ (charsAmong parts ++ after))) :
    ((node name parts).place text (width before)).Is name (.ofList (charsAmong parts))
      (placeAmong text (width before) parts) :=
  ⟨rfl, htext ▸ covered_place (node name parts) before after, rfl⟩

theorem isLeaf_place {text : String} (name : String) (c : Char) {before after : List Char}
    (htext : text = .ofList (before ++ (c :: after))) :
    ((leaf name c).place text (width before)).Is name (.ofList [c]) [] :=
  ⟨rfl, htext ▸ covered_place (leaf name c) before after, rfl⟩

variable {text text' : String}

mutual

/-- **Trees in the two spellings give such production trees**, wherever they are in their texts. -/
theorem Respelt.place : ∀ {tree tree' : Tree} {before before' after after' : List Char},
    Respelt tree tree' → text = .ofList (before ++ (tree.chars ++ after)) →
    text' = .ofList (before' ++ (tree'.chars ++ after')) →
    (tree.place text (width before)).Respelt (tree'.place text' (width before'))
  | _, _, _, _, _, _, @Respelt.leaf name hname c hc, htext, htext' => by
    have hchars : Text.withReturns (.ofList [c]) = .ofList [c] := by
      rw [withReturns, String.toList_ofList, Text.respell_cons hc, Text.respell_nil]
    have hnode' := isLeaf_place name c htext'
    rw [← hchars] at hnode'
    exact .node hname (isLeaf_place name c htext) hnode' .nil
  | _, _, _, _, _, _, @Respelt.node name hname parts parts' hparts, htext, htext' => by
    have hchars : Text.withReturns (.ofList (charsAmong parts)) = .ofList (charsAmong parts') := by
      rw [withReturns, String.toList_ofList, hparts.charsAmong_eq]
    have hnode' := isNode_place name parts' htext'
    rw [← hchars] at hnode'
    exact .node hname (isNode_place name parts htext) hnode' (hparts.placeAmong htext htext')
  | _, _, before, before', after, after', .lineEnd, htext, htext' => by
    have hsecond : text' = .ofList ((before' ++ ['\r']) ++ '\n' :: after') := by
      rw [htext', List.append_assoc]
      rfl
    have hfeed' := isLeaf_place "LF" '\n' hsecond
    rw [Text.width_append] at hfeed'
    exact .lineEnd (isNode_place "CRLF" [.leaf "LF" '\n'] htext) (isLeaf_place "LF" '\n' htext)
      (isNode_place "CRLF" [.node "CR LF" [.leaf "CR" '\r', .leaf "LF" '\n']] htext')
      (isNode_place "CR LF" [.leaf "CR" '\r', .leaf "LF" '\n'] htext')
      (isLeaf_place "CR" '\r' htext') hfeed'

theorem RespeltEach.placeAmong : ∀ {parts parts' : List Tree}
    {before before' after after' : List Char}, RespeltEach parts parts' →
    text = .ofList (before ++ (charsAmong parts ++ after)) →
    text' = .ofList (before' ++ (charsAmong parts' ++ after')) →
    Node.RespeltEach (Tree.placeAmong text (width before) parts)
      (Tree.placeAmong text' (width before') parts')
  | _, _, _, _, _, _, .nil, _, _ => .nil
  | _, _, _, _, _, _, .cons hpart hrest, htext, htext' => by
    rw [charsAmong_cons, List.append_assoc] at htext htext'
    have hpart' := hpart.place htext htext'
    rw [← List.append_assoc] at htext htext'
    have hrest' := hrest.placeAmong htext htext'
    rw [Text.width_append, Text.width_append] at hrest'
    exact .cons hpart' hrest'

end

end Tree

/-! ## §4 Derivations -/

namespace Grammar

open AugmentedBnf.Tree (Respelt RespeltEach)

variable {grammar : Grammar κ} {rule : Rule κ} {chars left : List Char} {tree : Tree}

theorem Matches.not_mem_left (h : grammar.Matches rule chars tree left) {c : Char}
    (hc : c ∉ chars) : c ∉ left := by
  rw [h.chars_eq] at hc
  exact fun hmem => hc (List.mem_append_right _ hmem)

theorem MatchesEach.not_mem_left {rules : List (Rule κ)} {parts : List Tree}
    (h : grammar.MatchesEach rules chars parts left) {c : Char} (hc : c ∉ chars) : c ∉ left := by
  rw [h.chars_eq] at hc
  exact fun hmem => hc (List.mem_append_right _ hmem)

/-- `CRLF` fails where neither a carriage return nor a line feed is ahead. -/
theorem fails_crlf (h : ∀ c ∈ chars.head?, c ≠ '\r' ∧ c ≠ '\n') : grammar.Fails crlf chars := by
  refine (skips_or_fails rfl fun c hc hcovers => ?_).2 rfl
  obtain ⟨hreturn, hfeed⟩ := h c hc
  obtain ⟨range, hrange, hlow, hhigh⟩ := hcovers
  rcases List.mem_pair.mp hrange with rfl | rfl
  · exact hreturn (Char.le_antisymm hhigh hlow)
  · exact hfeed (Char.le_antisymm hhigh hlow)

/-- A line feed alone is a line end by the second alternative. -/
theorem matches_crlf_lineFeed (left : List Char) :
    grammar.Matches crlf ('\n' :: left) (.node "CRLF" [.leaf "LF" '\n']) left := by
  have hreturn : grammar.Fails (.concatenation "CR LF" cr [lf]) ('\n' :: left) := by
    have hmembers : [cr, lf] = [] ++ (cr : Rule κ) :: [lf] := rfl
    exact .concatenation hmembers (.nil _) (.character_mismatch "CR" (by decide) left)
  have hmembers : [.concatenation "CR LF" cr [lf], lf]
      = [.concatenation "CR LF" cr [lf]] ++ (lf : Rule κ) :: [] := rfl
  exact .alternation hmembers (List.forall_mem_singleton.mpr hreturn) (.character "LF" '\n' left)

/-- A carriage return with a line feed is a line end by the first alternative. -/
theorem matches_crlf_return (left : List Char) :
    grammar.Matches crlf ('\r' :: '\n' :: left)
      (.node "CRLF" [.node "CR LF" [.leaf "CR" '\r', .leaf "LF" '\n']]) left := by
  have hmembers : [.concatenation "CR LF" cr [lf], lf]
      = [] ++ (.concatenation "CR LF" cr [lf] : Rule κ) :: [lf] := rfl
  refine .alternation hmembers (by simp) (.concatenation ?_)
  exact .cons (.character "CR" '\r' _) (.cons (.character "LF" '\n' left) (.nil left))

theorem Matches.respelt_crlf (h : grammar.Matches crlf chars tree left) (hchars : '\r' ∉ chars) :
    ∃ tree', grammar.Matches crlf (respell chars) tree' (respell left) ∧ Respelt tree tree' := by
  by_cases hhead : ∃ rest, chars = '\n' :: rest
  · obtain ⟨rest, rfl⟩ := hhead
    obtain ⟨rfl, rfl⟩ := h.unique (matches_crlf_lineFeed rest)
    exact ⟨_, matches_crlf_return (respell left), .lineEnd⟩
  · -- Nothing else begins a line end.
    refine absurd (fails_crlf fun c hc => ⟨?_, ?_⟩) h.not_fails
    · rintro rfl
      exact hchars (List.mem_of_mem_head? hc)
    · rintro rfl
      exact hhead (List.head?_eq_some_iff.mp hc)

/-- Where `CRLF` fails something else is ahead, and it is so in the other spelling. -/
theorem Fails.respelt_crlf (h : grammar.Fails crlf chars) (hchars : '\r' ∉ chars) :
    grammar.Fails crlf (respell chars) := by
  cases chars with
  | nil => exact h
  | cons c rest =>
    have hfeed : c ≠ '\n' := by
      rintro rfl
      exact (matches_crlf_lineFeed rest).not_fails h
    have hreturn : c ≠ '\r' := by
      rintro rfl
      exact hchars List.mem_cons_self
    rw [Text.respell_cons hfeed]
    refine fails_crlf fun d hd => ?_
    obtain rfl := Option.some.inj hd
    exact ⟨hreturn, hfeed⟩

/-- What begins with a code point begins with the same one, or with a carriage return for a line
    feed. -/
theorem exists_respell_cons (c : Char) (rest : List Char) :
    ∃ rest', respell (c :: rest) = (if c = '\n' then '\r' else c) :: rest' := by
  by_cases hc : c = '\n'
  · exact ⟨'\n' :: respell rest, by rw [hc, if_pos rfl, Text.respell_lineFeed]⟩
  · exact ⟨respell rest, by rw [if_neg hc, Text.respell_cons hc]⟩

mutual

/-- **What is matched is matched in the other spelling**, as the same tree but for the line ends. -/
theorem Matches.respelt (hdefine : ∀ key rule, grammar.define key = .ok rule → rule.seesLines) :
    ∀ {rule : Rule κ} {chars left : List Char} {tree : Tree},
    grammar.Matches rule chars tree left → rule.seesLines → '\r' ∉ chars →
    ∃ tree', grammar.Matches rule (respell chars) tree' (respell left) ∧ Respelt tree tree'
  | _, _, _, _, .character name c left, hrule, _ => by
    obtain ⟨hname, -, hc⟩ := Rule.seesLines_character hrule
    rw [Text.respell_cons hc]
    exact ⟨.leaf name c, .character name c _, .leaf hname hc⟩
  | _, _, _, _, @Matches.range _ _ name low high c hc left, hrule, _ => by
    obtain ⟨hname, -, hfeed⟩ := Rule.seesLines_range hrule
    have hne : c ≠ '\n' := by
      rintro rfl
      exact hfeed hc
    rw [Text.respell_cons hne]
    exact ⟨.leaf name c, .range name hc _, .leaf hname hne⟩
  | _, _, _, _, .endOfText name, hrule, _ => by
    have hname : name ≠ "CRLF" := of_decide_eq_true hrule
    exact ⟨.node name [], .endOfText name, .node hname .nil⟩
  | _, _, _, _, .concatenation hparts, hrule, hchars => by
    obtain ⟨hname, hmembers⟩ := Rule.seesLines_concatenation hrule
    obtain ⟨parts', hparts', hrespelt⟩ := hparts.respelt hdefine hmembers hchars
    exact ⟨.node _ parts', .concatenation hparts', .node hname hrespelt⟩
  | _, _, _, _, @Matches.alternation _ _ name _ _ _ _ _ _ _ _ hmembers hearlier hmember, hrule,
      hchars => by
    rcases Rule.seesLines_alternation hrule with hcrlf | ⟨hname, hrules⟩
    · -- Here alone another alternative is taken.
      have hmatches : grammar.Matches (.alternation name _ _) _ _ _ :=
        .alternation hmembers hearlier hmember
      rw [hcrlf] at hmatches ⊢
      exact hmatches.respelt_crlf hchars
    · rw [hmembers] at hrules
      have hearlier' := fun other hother => (hearlier other hother).respelt hdefine
        (hrules other (List.mem_append_left _ hother)) hchars
      obtain ⟨part', hmember', hrespelt⟩ :=
        hmember.respelt hdefine (hrules _ (List.mem_append_right _ List.mem_cons_self)) hchars
      exact ⟨.node _ [part'], .alternation hmembers hearlier' hmember',
        .node hname (.cons hrespelt .nil)⟩
  | _, _, _, _, .repetition hparts hmax hadvance hmin hstop, hrule, hchars => by
    obtain ⟨hname, helement⟩ := Rule.seesLines_repetition hrule
    obtain ⟨parts', hparts', hrespelt⟩ := hparts.respelt hdefine
      (fun rule hrule => List.eq_of_mem_replicate hrule ▸ helement) hchars
    -- Parts are empty where their other spellings are, so the rounds go on and end alike.
    have hstop' := fun hne hempty =>
      (hstop hne hempty).respelt hdefine helement (hparts.not_mem_left hchars)
    rw [← hrespelt.length_eq] at hparts' hmax hmin hstop'
    rw [← hrespelt.endsEmpty_iff] at hmin hstop'
    exact ⟨.node _ parts', .repetition hparts' hmax (hrespelt.dropLast.forall_ne_nil hadvance) hmin
      hstop', .node hname hrespelt⟩
  | _, _, _, _, .deferred hkey hmatches, _, hchars => by
    obtain ⟨tree', htree', hrespelt⟩ := hmatches.respelt hdefine (hdefine _ _ hkey) hchars
    exact ⟨tree', .deferred hkey htree', hrespelt⟩

theorem MatchesEach.respelt
    (hdefine : ∀ key rule, grammar.define key = .ok rule → rule.seesLines) :
    ∀ {rules : List (Rule κ)} {chars left : List Char} {parts : List Tree},
    grammar.MatchesEach rules chars parts left →
    (∀ rule ∈ rules, rule.seesLines) → '\r' ∉ chars →
    ∃ parts', grammar.MatchesEach rules (respell chars) parts' (respell left) ∧
      RespeltEach parts parts'
  | _, _, _, _, .nil chars, _, _ => ⟨[], .nil _, .nil⟩
  | _, _, _, _, .cons hfirst hrest, hrules, hchars => by
    obtain ⟨hrule, hrules⟩ := List.forall_mem_cons.mp hrules
    obtain ⟨part', hfirst', hpart⟩ := hfirst.respelt hdefine hrule hchars
    obtain ⟨parts', hrest', hparts⟩ := hrest.respelt hdefine hrules (hfirst.not_mem_left hchars)
    exact ⟨part' :: parts', .cons hfirst' hrest', .cons hpart hparts⟩

/-- **Where a rule fails it fails in the other spelling.** -/
theorem Fails.respelt (hdefine : ∀ key rule, grammar.define key = .ok rule → rule.seesLines) :
    ∀ {rule : Rule κ} {chars : List Char}, grammar.Fails rule chars → rule.seesLines →
    '\r' ∉ chars → grammar.Fails rule (respell chars)
  | _, _, .character_end name expected, _, _ => .character_end name expected
  | _, _, @Fails.character_mismatch _ _ name expected c hc rest, hrule, _ => by
    obtain ⟨-, hreturn, -⟩ := Rule.seesLines_character hrule
    obtain ⟨rest', hrest⟩ := exists_respell_cons c rest
    rw [hrest]
    refine .character_mismatch name ?_ rest'
    split
    · exact hreturn.symm
    · exact hc
  | _, _, .range_end name low high, _, _ => .range_end name low high
  | _, _, @Fails.range_mismatch _ _ name low high c hc rest, hrule, _ => by
    obtain ⟨-, hreturn, -⟩ := Rule.seesLines_range hrule
    obtain ⟨rest', hrest⟩ := exists_respell_cons c rest
    rw [hrest]
    refine .range_mismatch name ?_ rest'
    split
    · exact hreturn
    · exact hc
  | _, _, .endOfText name c rest, _, _ => by
    obtain ⟨rest', hrest⟩ := exists_respell_cons c rest
    rw [hrest]
    exact .endOfText name _ rest'
  | _, _, .concatenation hmembers hparts hmember, hrule, hchars => by
    obtain ⟨-, hrules⟩ := Rule.seesLines_concatenation hrule
    rw [hmembers] at hrules
    obtain ⟨parts', hparts', -⟩ := hparts.respelt hdefine
      (fun rule hmem => hrules rule (List.mem_append_left _ hmem)) hchars
    exact .concatenation hmembers hparts' (hmember.respelt hdefine
      (hrules _ (List.mem_append_right _ List.mem_cons_self)) (hparts.not_mem_left hchars))
  | _, _, @Fails.alternation _ _ name _ _ _ hmembers, hrule, hchars => by
    rcases Rule.seesLines_alternation hrule with hcrlf | ⟨-, hrules⟩
    · have hfails : grammar.Fails (.alternation name _ _) _ := .alternation hmembers
      rw [hcrlf] at hfails ⊢
      exact hfails.respelt_crlf hchars
    · exact .alternation fun member hmember =>
        (hmembers member hmember).respelt hdefine (hrules member hmember) hchars
  | _, _, .repetition hparts hfew hadvance helement, hrule, hchars => by
    obtain ⟨-, hseen⟩ := Rule.seesLines_repetition hrule
    obtain ⟨parts', hparts', hrespelt⟩ := hparts.respelt hdefine
      (fun rule hrule => List.eq_of_mem_replicate hrule ▸ hseen) hchars
    rw [← hrespelt.length_eq] at hparts' hfew
    exact .repetition hparts' hfew (hrespelt.forall_ne_nil hadvance)
      (helement.respelt hdefine hseen (hparts.not_mem_left hchars))
  | _, _, .deferred hkey hfails, _, hchars =>
    .deferred hkey (hfails.respelt hdefine (hdefine _ _ hkey) hchars)

end

end Grammar

/-! ## §5 Words -/

open Text (Spelling)

/-- Words of the first language spell code points of which the second one has all spellings. -/
def SpeltFreely (language language' : Language Char) : Prop :=
  ∀ word ∈ language, ∃ chars, Spelling chars word ∧
    ∀ word', Spelling chars word' → word' ∈ language'

section Languages

variable {language language' : Language Char}

theorem speltFreely_one : SpeltFreely 1 1 := by
  rintro word rfl
  refine ⟨[], .nil, fun word' hword' => ?_⟩
  cases hword'
  exact Language.nil_mem_one

/-- Code points within a line have one spelling. -/
theorem speltFreely_within (h : ∀ word ∈ language, ∃ c, c ≠ '\r' ∧ c ≠ '\n' ∧ word = [c]) :
    SpeltFreely language language := by
  intro word hword
  obtain ⟨c, hreturn, hfeed, rfl⟩ := h word hword
  refine ⟨[c], .within hreturn hfeed .nil, fun word' hword' => ?_⟩
  cases hword' with
  | within _ _ hnil =>
    cases hnil
    exact hword
  | lineFeed _ => exact absurd rfl hfeed
  | returned _ => exact absurd rfl hfeed

theorem SpeltFreely.mul {behind behind' : Language Char} (h : SpeltFreely language language')
    (hbehind : SpeltFreely behind behind') :
    SpeltFreely (language * behind) (language' * behind') := by
  rintro word ⟨front, hfront, back, hback, rfl⟩
  obtain ⟨chars, hspelling, hall⟩ := h front hfront
  obtain ⟨later, hspelling', hall'⟩ := hbehind back hback
  refine ⟨chars ++ later, hspelling.append hspelling', fun word' hword' => ?_⟩
  obtain ⟨front', back', rfl, hfront', hback'⟩ := hword'.split
  exact Language.append_mem_mul (hall front' hfront') (hall' back' hback')

theorem SpeltFreely.pow (h : SpeltFreely language language') (count : Nat) :
    SpeltFreely (language ^ count) (language' ^ count) := by
  induction count with
  | zero => exact speltFreely_one
  | succ count ih =>
    rw [pow_succ', pow_succ']
    exact h.mul ih

end Languages

namespace Rule

variable {calls calls' : κ → Language Char}

/-- Both spellings of a line end are words of `CRLF`. -/
theorem speltFreely_crlf : SpeltFreely ((crlf : Rule κ).language calls) (crlf.language calls') := by
  have hpair : ∀ calls : κ → Language Char, ['\r', '\n'] ∈ crlf.language calls := fun calls =>
    .inl ⟨['\r'], rfl, ['\n'], ⟨['\n'], rfl, [], rfl, rfl⟩, rfl⟩
  have hfeed : ∀ calls : κ → Language Char, ['\n'] ∈ crlf.language calls := fun calls =>
    .inr (.inl rfl)
  have hall : ∀ word, Spelling ['\n'] word → word ∈ crlf.language calls' := by
    intro word hword
    cases hword with
    | within _ hne _ => exact absurd rfl hne
    | lineFeed h =>
      cases h
      exact hfeed calls'
    | returned h =>
      cases h
      exact hpair calls'
  rintro word (⟨_, rfl, _, ⟨_, rfl, _, rfl, rfl⟩, rfl⟩ | rfl | hnone)
  · exact ⟨['\n'], .returned .nil, hall⟩
  · exact ⟨['\n'], .lineFeed .nil, hall⟩
  · exact absurd hnone (Language.notMem_zero _)

theorem speltFreely_product {rules : List (Rule κ)}
    (h : ∀ rule ∈ rules, SpeltFreely (rule.language calls) (rule.language calls')) :
    SpeltFreely (product calls rules) (product calls' rules) := by
  induction rules with
  | nil => exact speltFreely_one
  | cons rule rest ih =>
    obtain ⟨hrule, hrest⟩ := List.forall_mem_cons.mp h
    exact hrule.mul (ih hrest)

/-- **Lines may end in either way within words** of rules that see line ends only as a whole, if it
    is so for the rules that they defer to. -/
theorem speltFreely_language (hcalls : ∀ key, SpeltFreely (calls key) (calls' key)) {rule : Rule κ}
    (h : rule.seesLines) : SpeltFreely (rule.language calls) (rule.language calls') := by
  induction rule using Rule.inductionOn with
  | character name expected =>
    obtain ⟨-, hreturn, hfeed⟩ := seesLines_character h
    refine speltFreely_within fun word hword => ⟨expected, hreturn, hfeed, ?_⟩
    exact Set.mem_singleton_iff.mp hword
  | range name low high =>
    obtain ⟨-, hreturn, hfeed⟩ := seesLines_range h
    apply speltFreely_within
    rintro word ⟨c, hc, rfl⟩
    refine ⟨c, ?_, ?_, rfl⟩
    · rintro rfl
      exact hreturn hc
    · rintro rfl
      exact hfeed hc
  | endOfText name => exact speltFreely_one
  | concatenation name first rest ih =>
    obtain ⟨-, hmembers⟩ := seesLines_concatenation h
    rw [language_concatenation, language_concatenation]
    exact speltFreely_product fun member hmember => ih member hmember (hmembers member hmember)
  | alternation name first rest ih =>
    rcases seesLines_alternation h with hcrlf | ⟨-, hmembers⟩
    · rw [hcrlf]
      exact speltFreely_crlf
    · intro word hword
      rw [language_alternation, mem_sum] at hword
      obtain ⟨member, hmember, hword⟩ := hword
      obtain ⟨chars, hspelling, hall⟩ := ih member hmember (hmembers member hmember) word hword
      refine ⟨chars, hspelling, fun word' hword' => ?_⟩
      rw [language_alternation, mem_sum]
      exact ⟨member, hmember, hall word' hword'⟩
  | repetition name bounds element ih =>
    obtain ⟨-, helement⟩ := seesLines_repetition h
    rintro word ⟨count, hmin, hmax, hword⟩
    obtain ⟨chars, hspelling, hall⟩ := (ih helement).pow count word hword
    exact ⟨chars, hspelling, fun word' hword' => ⟨count, hmin, hmax, hall word' hword'⟩⟩
  | deferred name key => exact hcalls key

end Rule

end AugmentedBnf
