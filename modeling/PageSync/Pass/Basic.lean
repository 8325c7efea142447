import Std.Data.TreeSet
import PageSync.View
import PageSync.Ledger
import PageSync.Pass.Error

/-!
# Passes

A pass compares the tree below one node with what the client shows of it. While it walks the tree
it keeps two tables and a ledger; this module holds them, and the steps by which they change. The
tables are shared by all containers of a pass.
-/

namespace PageSync

/-- What a pass looks at, by which policy, and where it starts. -/
structure Pass where
  /-- The nodes. -/
  view : View
  /-- When to send content anew, and how deep to go. -/
  policy : Policy
  /-- The top of the tree. -/
  root : NodeId

/-- Where a child stands that was shown in its container before and still is. -/
structure Place where
  /-- Its index among the shown children that have stayed. -/
  old : Nat
  /-- Its index among the current children that were shown before. -/
  new : Nat
  /-- Its index among all current children. -/
  target : Nat
deriving DecidableEq, Inhabited

/-- The tables of a pass. -/
structure Tables where
  /-- Where children stand that are shown already. -/
  places : Std.TreeMap NodeId Place := ∅
  /-- Children that are removed and inserted again elsewhere in their container. -/
  moved : Std.TreeSet NodeId := ∅

/-- The tables without any entries. -/
def Tables.emptied (_ : Tables) : Tables := {}

/-- How far a pass has come. -/
structure Progress where
  /-- The tables. -/
  tables : Tables := {}
  /-- The changes so far. -/
  ledger : Ledger := .start
  /-- The nodes that the pass is done with, in this order. -/
  finished : List NodeId := []

/-- A step of a pass: it goes on, with a result, or fails; either way it leaves its tables. -/
abbrev Walk := EStateM PassError Progress

namespace Pass

/-! ### Steps -/

/-- Writes into the ledger. -/
def note (change : Ledger → Ledger) : Walk Unit :=
  modify fun progress => { progress with ledger := change progress.ledger }

/-- Writes on one sheet of the ledger. -/
def noteOn (number : Nat) (change : Sheet → Sheet) : Walk Unit :=
  note fun ledger => ledger.update number change

/-- Reads one sheet of the ledger. -/
def sheet (number : Nat) : Walk Sheet := do return (← get).ledger.sheet number

/-- Notes that the pass is done with a node. -/
def markDone (node : NodeId) : Walk Unit :=
  modify fun progress => { progress with finished := progress.finished ++ [node] }

/-- Notes where a child stands. -/
def setPlace (node : NodeId) (place : Place) : Walk Unit :=
  modify fun progress =>
    { progress with
      tables := { progress.tables with places := progress.tables.places.insert node place } }

/-- Looks up where a child stands. -/
def place? (node : NodeId) : Walk (Option Place) := do return (← get).tables.places[node]?

/-- Where a child stands, which has to be noted. -/
def placeOf (node : NodeId) : Walk Place := do
  match ← place? node with
  | some place => return place
  | none => throw (.noPlace node)

/-- Notes that a child is removed and inserted again. -/
def setMoved (node : NodeId) : Walk Unit :=
  modify fun progress =>
    { progress with
      tables := { progress.tables with moved := progress.tables.moved.insert node } }

/-- Whether a child is removed and inserted again. -/
def isMoved (node : NodeId) : Walk Bool := do return (← get).tables.moved.contains node

variable (pass : Pass)

/-- The nodes from the top of a container's tree down to the container; of a longer path only the
last nodes, one more than the depth limit. The limit counts in 64 bits. -/
def path (container : NodeId) : List NodeId :=
  (pass.view.climb (pass.policy.depthLimit + 1).toNat container).reverse

/-- Fails because the view contradicts itself about a container. -/
def contradict {α : Type} (container : NodeId) (reason : Inconsistency) : Walk α :=
  throw (.inconsistent container reason (pass.path container))

/-- Notes that a node is sent as part of an insertion, if it is a container. -/
def markNew (node : NodeId) : Walk Unit :=
  if pass.view.isContainer node then note (·.markNew node) else pure ()

end Pass

end PageSync
