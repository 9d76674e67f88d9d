import AugmentedBnf.Node.Basic

/-!
# Searching Production Trees

The nodes of a tree are visited in pre-order: a node before its children, and children in the
order of the text. `find` stops at the first node of a name; `findAll` also enters the nodes that
it finds, so matches nested in a match are found too.
-/

namespace AugmentedBnf.Node

/-! ## §1 Pre-order -/

mutual

/-- All nodes of a tree in pre-order, each with its depth, the tree's root being at `depth`. -/
def listingFrom (depth : Nat) : Node → List (Nat × Node)
  | ⟨name, span, children⟩ => (depth, ⟨name, span, children⟩) :: listingsFrom (depth + 1) children

/-- The listings of trees that have their roots at `depth`, one after the other. -/
def listingsFrom (depth : Nat) : List Node → List (Nat × Node)
  | [] => []
  | child :: rest => listingFrom depth child ++ listingsFrom depth rest

end

/-- Trees are listed one after the other. -/
theorem listingsFrom_eq_flatMap (depth : Nat) (nodes : List Node) :
    listingsFrom depth nodes = nodes.flatMap (listingFrom depth) := by
  induction nodes with
  | nil => rfl
  | cons child rest ih => rw [listingsFrom, ih, List.flatMap_cons]

/-- All nodes of a tree in pre-order, each with its depth. -/
def listing (node : Node) : List (Nat × Node) := listingFrom 0 node

/-! ## §2 Search by name -/

mutual

/-- The first node named `name`, in pre-order. -/
def find (name : String) : Node → Option Node
  | ⟨own, span, children⟩ =>
    if own = name then some ⟨own, span, children⟩ else findAmong name children

/-- The first node named `name` in the first tree that has one. -/
def findAmong (name : String) : List Node → Option Node
  | [] => none
  | child :: rest =>
    match find name child with
    | some found => some found
    | none => findAmong name rest

end

/-- The first tree that has a node of the name decides. -/
theorem findAmong_eq_findSome? (name : String) (nodes : List Node) :
    findAmong name nodes = nodes.findSome? (find name) := by
  induction nodes with
  | nil => rfl
  | cons child rest ih =>
    rw [findAmong, List.findSome?_cons, ih]
    cases find name child <;> rfl

mutual

/-- All nodes named `name`, in pre-order. -/
def findAll (name : String) : Node → List Node
  | ⟨own, span, children⟩ =>
    if own = name then ⟨own, span, children⟩ :: findAllAmong name children
    else findAllAmong name children

/-- All nodes named `name` of some trees, tree by tree. -/
def findAllAmong (name : String) : List Node → List Node
  | [] => []
  | child :: rest => findAll name child ++ findAllAmong name rest

end

/-- Trees are searched one after the other. -/
theorem findAllAmong_eq_flatMap (name : String) (nodes : List Node) :
    findAllAmong name nodes = nodes.flatMap (findAll name) := by
  induction nodes with
  | nil => rfl
  | cons child rest ih => rw [findAllAmong, ih, List.flatMap_cons]

end AugmentedBnf.Node
