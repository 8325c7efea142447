import PageSync.Node

/-!
# Operations

The steps by which a client changes the page that it shows. Applied in order, the operations of
one pass turn the page as it was shown last into the current one.
-/

namespace PageSync

/-- One change to the page that a client shows. -/
inductive Operation
  /-- Removes a node and its subtree. -/
  | delete (node : NodeId)
  /-- Inserts a subtree into a container, directly after one of its children, or first. -/
  | insertAfter (parent : NodeId) (after : Option NodeId) (content : Node)
  /-- Puts the given subtrees in the place of all children of a container. -/
  | replaceChildren (container : NodeId) (content : List Node)
  /-- Puts the given attributes in the place of all attributes of a node. -/
  | changeAttributes (node : NodeId) (attributes : Attributes)
deriving DecidableEq

namespace Operation

/-- The node that an operation is addressed to: the one removed or changed, or the container that
receives the content. -/
def target : Operation → NodeId
  | .delete node => node
  | .insertAfter parent _ _ => parent
  | .replaceChildren container _ => container
  | .changeAttributes node _ => node

/-- Whether the operation removes a node. -/
def isDelete : Operation → Bool
  | .delete _ => true
  | _ => false

/-- The subtrees that the operation carries to the client. -/
def content : Operation → List Node
  | .insertAfter _ _ content => [content]
  | .replaceChildren _ content => content
  | _ => []

end Operation

end PageSync
