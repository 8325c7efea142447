import Std.Data.TreeSet
import PageSync.View

/-!
# Forests

A forest holds the nodes of one page and of any number of trees that are detached from it. Each
node carries a record of what it looked like when the client was last brought up to date. The
record is lazy: a part of it is filled in by the first change that makes it necessary. The nodes
whose records have been filled in are listed, so that a pass need not look for them.
-/

namespace PageSync

/-- What is remembered about a node since the client was last brought up to date. -/
structure Record where
  /-- The children at that time, if they have been touched since. -/
  children : Option (List NodeId) := none
  /-- The parent at that time, if it has been touched since. -/
  parent : Option (Option NodeId) := none
  /-- Whether the attributes changed since. -/
  attributesChanged : Bool := false
  /-- Whether some node below changed since. -/
  changedBelow : Bool := false
deriving DecidableEq, Inhabited

/-- A node of a forest. -/
structure Item where
  /-- The element name. -/
  tag : String
  /-- The attributes. -/
  attributes : Attributes := .empty
  /-- The children in order, if the node is a container. -/
  children : Option (List NodeId) := none
  /-- The parent, unless the node is at the top of its tree. -/
  parent : Option NodeId := none
  /-- Whether a change to the children always sends all of them anew. -/
  replacesChildren : Bool := false
  /-- What is remembered of the node's last shown state. -/
  record : Record := {}
deriving DecidableEq, Inhabited

namespace Item

/-- The parent under which the client shows the node. -/
def shownParent (item : Item) : Option NodeId := item.record.parent.getD item.parent

/-- The node as a pass sees it. -/
def entry (item : Item) : Entry where
  tag := item.tag
  attributes := item.attributes
  children := item.children
  parent := item.parent
  shownChildren := item.record.children
  shownParent := item.shownParent
  attributesChanged := item.record.attributesChanged
  changedBelow := item.record.changedBelow
  replacesChildren := item.replacesChildren

/-- Forgets what was remembered: the node is shown as it is now. -/
def settle (item : Item) : Item := { item with record := {} }

end Item

/-- The nodes of one page and of the trees detached from it. -/
structure Forest where
  /-- The nodes by their identifiers. -/
  items : Std.TreeMap NodeId Item
  /-- The top of the page. -/
  root : NodeId
  /-- The number that the next new node gets. -/
  nextNumber : UInt32
  /-- The nodes that may have something in their records. -/
  touched : Std.TreeSet NodeId
  /-- The records of all other nodes are empty. -/
  tracked : ∀ node item, items[node]? = some item → node ∉ touched → item.record = {}

namespace Forest

/-- The forest whose page is to be topped by the given node, before it has any nodes. -/
def empty (root : NodeId) : Forest := ⟨∅, root, root.number + 1, ∅, by simp⟩

/-! ### Queries -/

/-- The node of an identifier. -/
def get? (forest : Forest) (node : NodeId) : Option Item := forest.items[node]?

/-- Whether an identifier belongs to a node, attached to the page or not. -/
def contains (forest : Forest) (node : NodeId) : Bool := (forest.get? node).isSome

/-- The number of nodes, attached to the page or not. -/
def size (forest : Forest) : Nat := forest.items.size

/-- The identifiers of all nodes, in ascending order. -/
def nodes (forest : Forest) : List NodeId := forest.items.keys

/-- The parent of a node, if it has one. -/
def parent? (forest : Forest) (node : NodeId) : Option NodeId := (forest.get? node).bind (·.parent)

/-- The forest as a pass sees it. -/
def view (forest : Forest) : View where
  contains := forest.contains
  entry node := ((forest.get? node).map Item.entry).getD {}

/-! ### Chains of parents -/

/-- A node followed by its parent, the parent of that, and so on to the top of its tree. The chain
may be as long as there are identifiers, and only a node above itself could make it longer. -/
def ancestors (forest : Forest) (node : NodeId) : List NodeId :=
  if forest.contains node then forest.view.climb NodeId.count node else []

/-- The top of the tree that a node is in. -/
def top? (forest : Forest) (node : NodeId) : Option NodeId := (forest.ancestors node).getLast?

/-- Whether a node belongs to the page. -/
def isAttached (forest : Forest) (node : NodeId) : Bool := forest.top? node == some forest.root

/-! ### Changing single nodes -/

/-- The touched nodes after a node has got another item: the node is one of them if something is in
its record. -/
def touch (forest : Forest) (node : NodeId) (item : Item) : Std.TreeSet NodeId :=
  if item.record = {} then forest.touched else forest.touched.insert node

theorem mem_touch_of_mem (forest : Forest) {node other : NodeId} (item : Item)
    (h : other ∈ forest.touched) : other ∈ forest.touch node item := by
  rw [touch]
  split
  · exact h
  · exact Std.TreeSet.mem_insert.2 (.inr h)

theorem record_of_notMem_touch (forest : Forest) (node : NodeId) (item : Item)
    (h : node ∉ forest.touch node item) : item.record = {} := by
  rw [touch] at h
  split at h
  · assumption
  · exact absurd Std.TreeSet.mem_insert_self h

/-- Puts a node into the forest, in place of one of that identifier. -/
def put (forest : Forest) (node : NodeId) (item : Item) : Forest :=
  { forest with
    items := forest.items.insert node item
    touched := forest.touch node item
    tracked := fun other stored hstored hother => by
      rw [Std.TreeMap.getElem?_insert] at hstored
      split at hstored
      · next heq =>
        obtain rfl := Std.LawfulEqCmp.eq_of_compare heq
        cases hstored
        exact forest.record_of_notMem_touch node item hother
      · exact forest.tracked other stored hstored fun hmem =>
          hother (forest.mem_touch_of_mem item hmem) }

theorem get?_put (forest : Forest) (node other : NodeId) (item : Item) :
    (forest.put node item).get? other = if node = other then some item else forest.get? other := by
  simp [put, get?, Std.TreeMap.getElem?_insert, Std.LawfulEqCmp.compare_eq_iff_eq]

/-- A page that consists of an empty container alone, and is shown already. -/
def new (tag : String) : Forest := (empty ⟨0⟩).put ⟨0⟩ { tag, children := some [] }

/-- Changes one node, if there is one of that identifier. It is touched if something is in its record
then. -/
def update (forest : Forest) (node : NodeId) (change : Item → Item) : Forest :=
  { forest with
    items := forest.items.modify node change
    touched := match forest.get? node with
      | none => forest.touched
      | some item => forest.touch node (change item)
    tracked := fun other item hitem hother => by
      rw [Std.TreeMap.getElem?_modify] at hitem
      split at hitem
      · next heq =>
        obtain rfl := Std.LawfulEqCmp.eq_of_compare heq
        obtain ⟨old, hold, rfl⟩ := Option.map_eq_some_iff.1 hitem
        rw [get?, hold] at hother
        exact forest.record_of_notMem_touch node (change old) hother
      · refine forest.tracked other item hitem fun hmem => hother ?_
        split
        · exact hmem
        · exact forest.mem_touch_of_mem _ hmem }

theorem get?_update (forest : Forest) (node other : NodeId) (change : Item → Item) :
    (forest.update node change).get? other =
      if node = other then (forest.get? node).map change else forest.get? other := by
  simp [update, get?, Std.TreeMap.getElem?_modify, Std.LawfulEqCmp.compare_eq_iff_eq]

@[simp] theorem root_update (forest : Forest) (node : NodeId) (change : Item → Item) :
    (forest.update node change).root = forest.root := rfl

@[simp] theorem nextNumber_update (forest : Forest) (node : NodeId) (change : Item → Item) :
    (forest.update node change).nextNumber = forest.nextNumber := rfl

end Forest

end PageSync
