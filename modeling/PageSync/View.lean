import PageSync.Node

/-!
# Views of a tree

What a pass gets to see: for every identifier the node as it is now, and as it was when the
client was last brought up to date. A view promises nothing; whether what it says about one node
agrees with what it says about another is for its maker to ensure.
-/

namespace PageSync

/-- One node as a pass sees it. -/
structure Entry where
  /-- The element name. -/
  tag : String := ""
  /-- The current attributes. -/
  attributes : Attributes := .empty
  /-- The current children in order, if the node is a container. -/
  children : Option (List NodeId) := none
  /-- The current parent. -/
  parent : Option NodeId := none
  /-- The children as the client shows them, recorded if they may have changed since. -/
  shownChildren : Option (List NodeId) := none
  /-- The parent under which the client shows the node, if it shows the node at all. -/
  shownParent : Option NodeId := none
  /-- Whether the attributes changed since the client was brought up to date. -/
  attributesChanged : Bool := false
  /-- Whether some node below changed since then. -/
  changedBelow : Bool := false
  /-- Whether a change to the children always sends all of them anew. -/
  replacesChildren : Bool := false
deriving DecidableEq, Inhabited

namespace Entry

/-- Whether the node can have children. -/
def isContainer (entry : Entry) : Bool := entry.children.isSome

/-- The current children in order; a leaf has none. -/
def childList (entry : Entry) : List NodeId := entry.children.getD []

/-- The children as the client shows them: the recorded ones, or else the current ones. -/
def shownChildList (entry : Entry) : List NodeId := entry.shownChildren.getD entry.childList

end Entry

/-- A forest of nodes as a pass sees it. -/
structure View where
  /-- Which identifiers belong to a node. -/
  contains : NodeId → Bool
  /-- The node of an identifier. -/
  entry : NodeId → Entry

namespace View

/-- The current parent of a node. -/
def parent (view : View) (node : NodeId) : Option NodeId := (view.entry node).parent

/-- The parent under which the client shows a node. -/
def shownParent (view : View) (node : NodeId) : Option NodeId := (view.entry node).shownParent

/-- Whether a node can have children. -/
def isContainer (view : View) (node : NodeId) : Bool := (view.entry node).isContainer

/-- The current children of a node. -/
def children (view : View) (node : NodeId) : List NodeId := (view.entry node).childList

/-! ### Chains of parents -/

/-- The first nodes, so many of them, of the chain that starts at a node and goes on with its
parent, the parent of that, and so on. -/
def climb (view : View) : Nat → NodeId → List NodeId
  | 0, _ => []
  | count + 1, node =>
    node :: match view.parent node with
      | none => []
      | some parent => view.climb count parent

/-! ### Descriptions -/

/-- The description of a node's current subtree, down to so many levels. -/
def describeTo (view : View) : Nat → NodeId → Node
  | 0, node => .leaf node (view.entry node).tag (view.entry node).attributes
  | levels + 1, node =>
    match (view.entry node).children with
    | none => .leaf node (view.entry node).tag (view.entry node).attributes
    | some children =>
      .container node (view.entry node).tag (view.entry node).attributes
        (children.map (view.describeTo levels))

/-- The description of a node's current subtree. The number of levels is no limit: there are not
more identifiers than that, so that only a node below itself could be reached beyond them. -/
def describe (view : View) (node : NodeId) : Node := view.describeTo NodeId.count node

end View

end PageSync
