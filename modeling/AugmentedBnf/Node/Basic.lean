import AugmentedBnf.Text.Span

/-!
# Production Trees

A match of a rule is a node: the rule's name, the span that it matched, and the nodes of the rules
that contributed to the match, in the order of the text.
-/

namespace AugmentedBnf

/-- A node of a production tree. -/
structure Node where
  name : String
  span : Span
  children : List Node
deriving Repr

namespace Node

/-- A node without children. -/
def leaf (name : String) (span : Span) : Node := ⟨name, span, []⟩

/-- Whether the node has no children. -/
def isLeaf (node : Node) : Bool := node.children.isEmpty

/-- Where the node's span starts. -/
def start (node : Node) : Nat := node.span.start

/-- Where the node's span stops. -/
def stop (node : Node) : Nat := node.span.stop

/-- The text that the node matched. -/
def covered (node : Node) : Except SliceFault String := node.span.covered

/-! ## §1 Equality -/

mutual

/-- Trees are equal when names, spans and children are. -/
def decEq : (a b : Node) → Decidable (a = b)
  | ⟨name, span, children⟩, ⟨name', span', children'⟩ =>
    if hname : name = name' then
      if hspan : span = span' then
        match decEqList children children' with
        | isTrue hchildren => isTrue (by rw [hname, hspan, hchildren])
        | isFalse hchildren => isFalse (by intro h; cases h; exact hchildren rfl)
      else isFalse (by intro h; cases h; exact hspan rfl)
    else isFalse (by intro h; cases h; exact hname rfl)

/-- Lists of trees are equal when they are equal tree by tree. -/
def decEqList : (as bs : List Node) → Decidable (as = bs)
  | [], [] => isTrue rfl
  | [], _ :: _ => isFalse (by intro h; cases h)
  | _ :: _, [] => isFalse (by intro h; cases h)
  | a :: as, b :: bs =>
    match decEq a b with
    | isTrue hhead =>
      match decEqList as bs with
      | isTrue htail => isTrue (by rw [hhead, htail])
      | isFalse htail => isFalse (by intro h; cases h; exact htail rfl)
    | isFalse hhead => isFalse (by intro h; cases h; exact hhead rfl)

end

instance : DecidableEq Node := decEq

end Node

end AugmentedBnf
