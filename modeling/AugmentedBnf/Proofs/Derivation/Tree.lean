import AugmentedBnf.Node.Basic
import AugmentedBnf.Proofs.Text.Width

/-!
# Trees without Places

What a rule matched, apart from where: a tree that has the matched code points at its leaves. Put
at an offset of a text it becomes a production tree, `Tree.place`. The spans of that tree follow
from the widths of the leaves, so nothing about them has to be known of an evaluation.
-/

namespace AugmentedBnf

/-- A production tree without spans. A node without parts has matched nothing. -/
inductive Tree where
  | leaf (name : String) (c : Char)
  | node (name : String) (parts : List Tree)

namespace Tree

/-! ## §1 Matched code points -/

mutual

/-- The code points at the leaves, from left to right. -/
def chars : Tree → List Char
  | .leaf _ c => [c]
  | .node _ parts => charsAmong parts

/-- The code points at the leaves of several trees, tree by tree. -/
def charsAmong : List Tree → List Char
  | [] => []
  | part :: rest => chars part ++ charsAmong rest

end

@[simp] theorem chars_leaf (name : String) (c : Char) : (leaf name c).chars = [c] := rfl

@[simp] theorem chars_node (name : String) (parts : List Tree) :
    (node name parts).chars = charsAmong parts := rfl

@[simp] theorem charsAmong_nil : charsAmong [] = [] := rfl

@[simp] theorem charsAmong_cons (part : Tree) (rest : List Tree) :
    charsAmong (part :: rest) = part.chars ++ charsAmong rest := rfl

/-- The last tree has no code points. -/
def EndsEmpty (parts : List Tree) : Prop := ∃ part ∈ parts.getLast?, part.chars = []

theorem not_endsEmpty_nil : ¬ EndsEmpty [] := by
  simp [EndsEmpty]

/-- A tree with code points in front does not change whether the last one has any. -/
theorem endsEmpty_cons {part : Tree} (hpart : part.chars ≠ []) (rest : List Tree) :
    EndsEmpty (part :: rest) ↔ EndsEmpty rest := by
  cases rest with
  | nil => simp [EndsEmpty, hpart]
  | cons other rest => simp [EndsEmpty]

theorem endsEmpty_singleton {part : Tree} : EndsEmpty [part] ↔ part.chars = [] := by
  simp [EndsEmpty]

/-! ## §2 Places -/

open Text (width)

mutual

/-- The production tree at an offset of a text. -/
def place (text : String) (offset : Nat) : Tree → Node
  | .leaf name c => .leaf name ⟨text, offset, offset + c.utf8Size⟩
  | .node name parts =>
    ⟨name, ⟨text, offset, offset + width (charsAmong parts)⟩, placeAmong text offset parts⟩

/-- The production trees of several trees, each where the one before it stops. -/
def placeAmong (text : String) (offset : Nat) : List Tree → List Node
  | [] => []
  | part :: rest => place text offset part :: placeAmong text (offset + width part.chars) rest

end

section Place

variable (text : String) (offset : Nat)

@[simp] theorem place_leaf (name : String) (c : Char) :
    (leaf name c).place text offset = .leaf name ⟨text, offset, offset + c.utf8Size⟩ := rfl

@[simp] theorem place_node (name : String) (parts : List Tree) :
    (node name parts).place text offset
      = ⟨name, ⟨text, offset, offset + width (charsAmong parts)⟩, placeAmong text offset parts⟩ :=
  rfl

@[simp] theorem placeAmong_nil : placeAmong text offset [] = [] := rfl

@[simp] theorem placeAmong_cons (part : Tree) (rest : List Tree) :
    placeAmong text offset (part :: rest)
      = part.place text offset :: placeAmong text (offset + width part.chars) rest := rfl

/-- The tree spans its code points. -/
theorem span_place (tree : Tree) :
    (tree.place text offset).span = ⟨text, offset, offset + width tree.chars⟩ := by
  cases tree with
  | leaf name c => simp [Node.leaf]
  | node name parts => simp

end Place

/-! ## §3 Trees in one place -/

mutual

/-- Trees with the same code points that give one production tree are equal. -/
theorem place_injective {text : String} {offset : Nat} : ∀ {tree tree' : Tree},
    tree.chars = tree'.chars → tree.place text offset = tree'.place text offset → tree = tree'
  | .leaf name c, .leaf name' c', hchars, hplace => by
    simp only [chars_leaf, List.cons.injEq, and_true] at hchars
    simp only [place_leaf, Node.leaf, Node.mk.injEq] at hplace
    rw [hchars, hplace.1]
  -- A node with one part has a child, which a leaf has not.
  | .leaf name c, .node name' parts', hchars, hplace => by
    cases parts' with
    | nil => simp at hchars
    | cons part rest => simp [Node.leaf] at hplace
  | .node name parts, .leaf name' c', hchars, hplace => by
    cases parts with
    | nil => simp at hchars
    | cons part rest => simp [Node.leaf] at hplace
  | .node name parts, .node name' parts', hchars, hplace => by
    simp only [place_node, Node.mk.injEq] at hplace
    rw [hplace.1, placeAmong_injective hchars hplace.2.2]

theorem placeAmong_injective {text : String} {offset : Nat} : ∀ {parts parts' : List Tree},
    charsAmong parts = charsAmong parts' →
    placeAmong text offset parts = placeAmong text offset parts' → parts = parts'
  | [], [], _, _ => rfl
  | [], _ :: _, _, hplace => by simp at hplace
  | _ :: _, [], _, hplace => by simp at hplace
  | part :: rest, part' :: rest', hchars, hplace => by
    simp only [charsAmong_cons] at hchars
    simp only [placeAmong_cons, List.cons.injEq] at hplace
    obtain ⟨hpart, hrest⟩ := hplace
    -- The spans of the first parts tell how much of the code points belongs to them.
    have hspan := congrArg Node.span hpart
    simp only [span_place, Span.mk.injEq, true_and, Nat.add_left_cancel_iff] at hspan
    have hfirst : part.chars = part'.chars := Text.eq_of_width_eq hchars hspan
    rw [hfirst] at hchars hrest
    rw [place_injective hfirst hpart, placeAmong_injective (List.append_cancel_left hchars) hrest]

end

end Tree

end AugmentedBnf
