import PageSync.Forest.Edit

/-!
# Loading descriptions

A forest can start from the description of a page that the client shows already; the nodes then
keep their identifiers. Later on, further subtrees can be loaded next to the page as new and
detached; their nodes get fresh identifiers.
-/

namespace PageSync

namespace Forest

/-! ### A page that is shown already -/

/-- Adds a node that the client shows as it is. -/
def addShown (forest : Forest) (node : NodeId) (item : Item) : Except EditError Forest :=
  if forest.contains node then .error (.duplicateId node)
  else
    .ok { forest.put node item with nextNumber := max forest.nextNumber (node.number + 1) }

/-- Adds a described subtree that the client shows as it is, the children of each container
before the container itself. -/
def loadShown : Node → Option NodeId → Forest → Except EditError Forest
  | .leaf id tag attributes, parent, forest => forest.addShown id { tag, attributes, parent }
  | .container id tag attributes children, parent, forest => do
    let forest ← loadAll id children forest
    forest.addShown id { tag, attributes, parent, children := some (children.map Node.id) }
where
  /-- Adds the described children of a container, one after the other. -/
  loadAll (parent : NodeId) : List Node → Forest → Except EditError Forest
    | [], forest => .ok forest
    | child :: rest, forest => do
      let forest ← loadShown child (some parent) forest
      loadAll parent rest forest

/-- The forest that consists of a page which the client shows exactly as described. -/
def ofPage : Node → Except EditError Forest
  | .leaf id _ _ => .error (.notAContainer id)
  | .container id tag attributes children =>
    loadShown (.container id tag attributes children) none (empty id)

/-! ### New subtrees -/

/-- Stores several attributes, one after the other. -/
def setAttributes (forest : Forest) (node : NodeId) : List (String × String) →
    Except EditError Forest
  | [] => .ok forest
  | (name, value) :: rest => do
    let forest ← forest.setAttribute node name value
    forest.setAttributes node rest

/-- Adds a described subtree as new and detached, under fresh identifiers. -/
def graft : Node → Forest → Except EditError (NodeId × Forest)
  | .leaf _ tag attributes, forest => do
    let (id, forest) := forest.addLeaf tag
    let forest ← forest.setAttributes id attributes.entries
    return (id, forest)
  | .container _ tag attributes children, forest => do
    let (id, forest) := forest.addContainer tag
    let forest ← forest.setAttributes id attributes.entries
    let forest ← graftAll id children forest
    return (id, forest)
where
  /-- Adds described subtrees as the last children of a container, one after the other. -/
  graftAll (parent : NodeId) : List Node → Forest → Except EditError Forest
    | [], forest => .ok forest
    | child :: rest, forest => do
      let (id, forest) ← graft child forest
      let forest ← forest.append parent id
      graftAll parent rest forest

end Forest

end PageSync
