import PageSync.Pass.Walk
import PageSync.Pass.Emission

/-!
# Running passes

A differ runs one pass after the other under the same policy. It keeps its tables between passes
only to use their storage again: they are emptied at the start of each pass. A pass that succeeds
says which operations bring the client up to date, and which nodes are settled by them.
-/

namespace PageSync

/-- What a successful pass has to tell the maker of the view. -/
inductive Notice
  /-- The pass is done with a node. -/
  | settled (node : NodeId)
  /-- The pass over the tree below a node is over. -/
  | finished (top : NodeId)
deriving DecidableEq

/-- The result of a successful pass. -/
structure Delta where
  /-- The operations that bring the client up to date, in order. -/
  operations : List Operation
  /-- What the maker of the view is told, in order. -/
  notices : List Notice
  /-- The ledger from which the operations were read off. -/
  ledger : Ledger

/-- Runs passes under a policy. -/
structure Differ where
  /-- The policy of all passes. -/
  policy : Policy := {}
  /-- The tables as the last pass left them. -/
  tables : Tables := {}

namespace Differ

/-- Carries out a pass whose policy and top have been checked. -/
def run (differ : Differ) (view : View) (root : NodeId) : Except PassError Delta × Differ :=
  let pass : Pass := ⟨view, differ.policy, root⟩
  match pass.gather.run { tables := differ.tables.emptied } with
  | .ok () progress =>
    ((pass.operations progress.ledger).map fun operations =>
        { operations
          notices := progress.finished.map .settled ++ [.finished root]
          ledger := progress.ledger },
      { differ with tables := progress.tables })
  | .error error progress => (.error error, { differ with tables := progress.tables })

/-- Compares the tree below a top node with what the client shows of it. -/
def pass (differ : Differ) (view : View) (root : NodeId) : Except PassError Delta × Differ :=
  match differ.policy.check with
  | .error error => (.error (.invalidPolicy error), differ)
  | .ok () =>
    if view.contains root then
      match view.parent root with
      | some parent => (.error (.notATop root parent), differ)
      | none => differ.run view root
    else (.error (.unknownTop root), differ)

end Differ

end PageSync
