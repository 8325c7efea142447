import PageSync.NodeId
import PageSync.Attributes

/-!
# Nodes

A node is described together with its whole subtree: a leaf, or a container with its children in
order. Insertions carry such descriptions to the client, and forests are loaded from them.
-/

namespace PageSync

/-- A node and everything below it. -/
inductive Node
  | leaf (id : NodeId) (tag : String) (attributes : Attributes)
  | container (id : NodeId) (tag : String) (attributes : Attributes) (children : List Node)

namespace Node

instance : Inhabited Node := ⟨.leaf default "" .empty⟩

/-- Decides whether two descriptions are the same. -/
def decEq : (a b : Node) → Decidable (a = b)
  | .leaf i t as, .leaf j u bs =>
    decidable_of_iff (i = j ∧ t = u ∧ as = bs) (by simp)
  | .container i t as cs, .container j u bs ds =>
    have := decEqs cs ds
    decidable_of_iff (i = j ∧ t = u ∧ as = bs ∧ cs = ds) (by simp)
  | .leaf .., .container .. => isFalse (by simp)
  | .container .., .leaf .. => isFalse (by simp)
where
  /-- Decides whether two lists of descriptions are the same. -/
  decEqs : (as bs : List Node) → Decidable (as = bs)
    | [], [] => isTrue rfl
    | a :: as, b :: bs =>
      have := decEq a b
      have := decEqs as bs
      decidable_of_iff (a = b ∧ as = bs) (by simp)
    | [], _ :: _ => isFalse (by simp)
    | _ :: _, [] => isFalse (by simp)

instance : DecidableEq Node := decEq

/-! ### Parts -/

/-- The identifier of the node itself. -/
def id : Node → NodeId
  | .leaf id _ _ => id
  | .container id _ _ _ => id

/-- The element name of the node itself. -/
def tag : Node → String
  | .leaf _ tag _ => tag
  | .container _ tag _ _ => tag

/-- The attributes of the node itself. -/
def attributes : Node → Attributes
  | .leaf _ _ attributes => attributes
  | .container _ _ attributes _ => attributes

/-- The children of a container; a leaf has none to speak of. -/
def children? : Node → Option (List Node)
  | .leaf .. => none
  | .container _ _ _ children => some children

/-- Whether the node can have children. -/
def isContainer : Node → Bool
  | .leaf .. => false
  | .container .. => true

/-- Adds an attribute, in place of one of that name. -/
def addAttribute : Node → String → String → Node
  | .leaf id tag attributes, name, value => .leaf id tag (attributes.insert name value)
  | .container id tag attributes children, name, value =>
    .container id tag (attributes.insert name value) children

/-! ### The whole subtree -/

/-- The nodes of the subtree in document order: each node before its children. -/
def preorder : Node → List Node
  | .leaf id tag attributes => [.leaf id tag attributes]
  | .container id tag attributes children =>
    .container id tag attributes children :: preorders children
where
  /-- The nodes of several subtrees, one after the other. -/
  preorders : List Node → List Node
    | [] => []
    | node :: rest => node.preorder ++ preorders rest

/-- The number of nodes in the subtree. -/
def size : Node → Nat
  | .leaf .. => 1
  | .container _ _ _ children => 1 + sizes children
where
  /-- The number of nodes in several subtrees together. -/
  sizes : List Node → Nat
    | [] => 0
    | node :: rest => node.size + sizes rest

/-- The identifiers of the subtree in document order. -/
def ids (node : Node) : List NodeId := node.preorder.map id

mutual
/-- The subtree lists as many nodes as it has. -/
theorem length_preorder (node : Node) : node.preorder.length = node.size := by
  match node with
  | .leaf .. => simp [preorder, size]
  | .container _ _ _ children =>
    simp [preorder, size, length_preorders children, Nat.add_comm]

theorem length_preorders (nodes : List Node) :
    (preorder.preorders nodes).length = size.sizes nodes := by
  match nodes with
  | [] => simp [preorder.preorders, size.sizes]
  | node :: rest =>
    simp [preorder.preorders, size.sizes, length_preorder node, length_preorders rest]
end

end Node

end PageSync
