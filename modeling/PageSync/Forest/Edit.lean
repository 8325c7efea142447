import PageSync.Forest.Basic

/-!
# Edits

The changes that can be made to a forest between two passes: new nodes, moves, removals,
attributes. An edit either is refused, with a reason, or is carried out together with its entries
in the records of the nodes it concerns. All ancestors of a changed node learn that something
below them changed.
-/

namespace PageSync

/-- Why an edit is refused. -/
inductive EditError
  /-- No node has this identifier. -/
  | unknownNode (node : NodeId)
  /-- The node is a leaf, where a container is needed. -/
  | notAContainer (node : NodeId)
  /-- There is no such position among the other children of the container. -/
  | indexOutOfBounds (container : NodeId) (index length : Nat)
  /-- The top of the page has to stay where it is. -/
  | rootNotMovable (root : NodeId)
  /-- The child is the parent itself or an ancestor of it. -/
  | wouldCycle (parent child : NodeId)
  /-- Two nodes of a page have this identifier. -/
  | duplicateId (node : NodeId)
deriving DecidableEq

/-- The text that reports a refused edit. -/
def EditError.message : EditError → String
  | .unknownNode node => s!"unknown node {node.text}"
  | .notAContainer node => s!"node {node.text} is not a container"
  | .indexOutOfBounds container index length =>
    "index " ++ Nat.repr index ++ " is out of bounds for container " ++ container.text ++ " with " ++
      Nat.repr length ++ " children"
  | .rootNotMovable root => s!"the root node {root.text} can't be moved"
  | .wouldCycle parent child => s!"inserting {child.text} into {parent.text} would create a cycle"
  | .duplicateId node => s!"duplicate node ID {node.text}"

namespace Forest

/-! ### Records -/

/-- Tells a node and all its ancestors that something below them changed. -/
def markChangedBelow (forest : Forest) (node : NodeId) : Forest :=
  (forest.ancestors node).foldl
    (fun forest ancestor =>
      forest.update ancestor fun item =>
        { item with record := { item.record with changedBelow := true } })
    forest

/-- Tells the ancestors of a node that something below them changed. -/
def markAbove (forest : Forest) (node : NodeId) : Forest :=
  match forest.parent? node with
  | none => forest
  | some parent => forest.markChangedBelow parent

/-- Remembers the parent of a node, unless an earlier one is remembered. -/
def recordParent (forest : Forest) (node : NodeId) : Forest :=
  forest.update node fun item =>
    { item with record := { item.record with parent := item.record.parent.or (some item.parent) } }

/-- Remembers the children of a container, unless earlier ones are remembered. -/
def recordChildren (forest : Forest) (container : NodeId) : Forest :=
  (forest.update container fun item =>
    { item with record := { item.record with children := item.record.children.or item.children } }
  ).markAbove container

/-- Remembers that the attributes of a node changed. -/
def recordAttributes (forest : Forest) (node : NodeId) : Forest :=
  (forest.update node fun item =>
    { item with record := { item.record with attributesChanged := true } }).markAbove node

/-! ### Checks -/

/-- The node of an identifier, or else a refusal. -/
def item (forest : Forest) (node : NodeId) : Except EditError Item :=
  match forest.get? node with
  | none => .error (.unknownNode node)
  | some item => .ok item

/-- The parent of a node, if it has one. -/
def parent (forest : Forest) (node : NodeId) : Except EditError (Option NodeId) :=
  (forest.item node).map (·.parent)

/-- How many children a container has besides a given node. The node is one of its children if it has the
container as its parent. -/
def countOthers (forest : Forest) (container child : NodeId) : Except EditError Nat := do
  let moved ← forest.item child
  let item ← forest.item container
  match item.children with
  | none => .error (.notAContainer container)
  | some children =>
    .ok (if moved.parent = some container then children.length - 1 else children.length)

/-! ### New nodes -/

/-- Adds a detached node that the client has never shown. -/
def add (forest : Forest) (tag : String) (children : Option (List NodeId)) : NodeId × Forest :=
  let node : NodeId := ⟨forest.nextNumber⟩
  let item : Item := { tag, children, record := { parent := some none } }
  (node, { forest.put node item with nextNumber := forest.nextNumber + 1 })

/-- Adds a detached leaf that the client has never shown. -/
def addLeaf (forest : Forest) (tag : String) : NodeId × Forest := forest.add tag none

/-- Adds a detached, empty container that the client has never shown. -/
def addContainer (forest : Forest) (tag : String) : NodeId × Forest := forest.add tag (some [])

theorem get?_add (forest : Forest) (tag : String) (children : Option (List NodeId)) (node : NodeId) :
    (forest.add tag children).2.get? node =
      if (⟨forest.nextNumber⟩ : NodeId) = node then
        some { tag, children, record := { parent := some none } }
      else forest.get? node :=
  forest.get?_put ..

/-! ### Moves -/

/-- Takes a node out of its parent's children. Without a parent, it stays as it is. -/
def takeOut (forest : Forest) (node : NodeId) : Forest :=
  match forest.parent? node with
  | none => forest
  | some parent =>
    (((forest.recordParent node).recordChildren parent).update parent fun item =>
      { item with children := item.children.map fun children => children.filter (· ≠ node) }
    ).update node fun item => { item with parent := none }

/-- Moves a node into a container, to a position that is known to exist there. -/
def move (forest : Forest) (container : NodeId) (index : Nat) (child : NodeId) : Forest :=
  ((((forest.takeOut child).recordParent child).recordChildren container).update container fun item =>
    { item with children := item.children.map fun children => children.insertIdx index child }
  ).update child fun item => { item with parent := some container }

/-- Inserts a node so that it stands at the given position among the children of a container,
wherever it was before. -/
def insert (forest : Forest) (container : NodeId) (index : Nat) (child : NodeId) :
    Except EditError Forest := do
  let count ← forest.countOthers container child
  if count < index then .error (.indexOutOfBounds container index count)
  else if child = forest.root then .error (.rootNotMovable child)
  else if child ∈ forest.ancestors container then .error (.wouldCycle container child)
  else .ok (forest.move container index child)

/-- Inserts a node behind all other children of a container, wherever it was before. -/
def append (forest : Forest) (container child : NodeId) : Except EditError Forest := do
  let count ← forest.countOthers container child
  forest.insert container count child

/-- Detaches a node from its parent. The node and its subtree stay in the forest. -/
def remove (forest : Forest) (node : NodeId) : Except EditError Forest := do
  let _ ← forest.item node
  if node = forest.root then .error (.rootNotMovable node) else .ok (forest.takeOut node)

/-! ### Properties of single nodes -/

/-- Stores an attribute. Storing the value that is there already is no change. -/
def setAttribute (forest : Forest) (node : NodeId) (name value : String) :
    Except EditError Forest := do
  let item ← forest.item node
  if item.attributes.get? name = some value then .ok forest
  else
    .ok ((forest.update node fun item =>
      { item with attributes := item.attributes.insert name value }).recordAttributes node)

/-- Removes an attribute. Removing one that is not there is no change. -/
def eraseAttribute (forest : Forest) (node : NodeId) (name : String) : Except EditError Forest := do
  let item ← forest.item node
  if item.attributes.get? name = none then .ok forest
  else
    .ok ((forest.update node fun item =>
      { item with attributes := item.attributes.erase name }).recordAttributes node)

/-- Decides whether a change to the children of a container always sends all of them anew. -/
def setReplacesChildren (forest : Forest) (container : NodeId) (value : Bool) :
    Except EditError Forest := do
  let item ← forest.item container
  match item.children with
  | none => .error (.notAContainer container)
  | some _ => .ok (forest.update container fun item => { item with replacesChildren := value })

/-! ### Descriptions -/

/-- The description of a node's current subtree. -/
def describe (forest : Forest) (node : NodeId) : Except EditError Node := do
  let _ ← forest.item node
  return forest.view.describe node

/-! ### After a pass -/

/-- Forgets what was remembered of a single node. -/
def settle (forest : Forest) (node : NodeId) : Forest := forest.update node Item.settle

/-- Whether a pass over the given top has brought a node to the client: after a pass over the page
that is every node, since what is detached from the page is shown no more; after a pass over a
detached tree only the nodes of that tree. -/
def isDone (forest : Forest) (top node : NodeId) : Bool :=
  top = forest.root ∨ forest.top? node = some top

/-- Forgets what was remembered of the touched nodes that a pass over the given top has brought to the
client. -/
def finish (forest : Forest) (top : NodeId) : Forest :=
  { forest with
    items := forest.items.map fun node item =>
      if node ∈ forest.touched ∧ forest.isDone top node then item.settle else item
    touched := forest.touched.filter fun node => !forest.isDone top node
    tracked := fun node item hitem hnode => by
      rw [Std.TreeMap.getElem?_map] at hitem
      obtain ⟨old, hold, rfl⟩ := Option.map_eq_some_iff.1 hitem
      rw [Std.TreeSet.mem_filter] at hnode
      split
      · rfl
      · next hkept =>
        refine forest.tracked node old hold fun hmem => hkept ⟨hmem, ?_⟩
        simpa [hmem] using hnode }

/-- All nodes that the pass has brought to the client are settled, since nothing was remembered of those
that are not touched. -/
theorem get?_finish (forest : Forest) (top node : NodeId) :
    (forest.finish top).get? node =
      (forest.get? node).map fun item =>
        if top = forest.root ∨ forest.top? node = some top then item.settle else item := by
  rw [get?, finish, Std.TreeMap.getElem?_map, get?]
  apply Option.map_congr
  intro item hitem
  by_cases hmem : node ∈ forest.touched
  · simp [hmem, isDone]
  · have hrecord := forest.tracked node item hitem hmem
    simp [hmem, Item.settle, ← hrecord]

theorem get?_settle (forest : Forest) (node other : NodeId) :
    (forest.settle node).get? other =
      if node = other then (forest.get? node).map Item.settle else forest.get? other :=
  get?_update ..

end Forest

end PageSync
