import PageSync.NodeId
import PageSync.Policy

/-!
# Failures of a pass

A pass fails if it can't be carried out as asked for, or if the view contradicts itself. None of
the failures goes away by trying again, since a pass depends on nothing but its policy, its view
and the top that it starts from.
-/

namespace PageSync

/-- How what a view says of a container contradicts what it says of other nodes. -/
inductive Inconsistency
  /-- The container has changed children, but is sent as part of an insertion as well. -/
  | sentAsWhole
  /-- More or fewer shown children have stayed than there are current children shown before. -/
  | unequalCounts (stayed shownBefore : Nat)
  /-- A child has stayed, but is not one of the current children. -/
  | notCurrent (node : NodeId)
  /-- A child has stayed, but no current child is left for it. -/
  | noCounterpart (node : NodeId)
deriving DecidableEq

/-- The text that reports a contradiction. -/
def Inconsistency.message : Inconsistency → String
  | .sentAsWhole => "tree delta on a container that is being added as a whole"
  | .unequalCounts stayed shownBefore =>
    Nat.repr stayed ++ " previous child(ren) remained, but " ++ Nat.repr shownBefore ++
      " current child(ren) were present before"
  | .notCurrent node => node.text ++ " remained but is not among the current children"
  | .noCounterpart node => node.text ++ " has no counterpart among the current children"

/-- Why a pass failed. The last two constructors stand for look-ups that find nothing, which makers of
views are not told of: no view makes a pass come to the first of them, and only a view that contradicts
itself to the second. -/
inductive PassError
  /-- The view contradicts itself about a container, which is found along the given path from the
  top of its tree. -/
  | inconsistent (container : NodeId) (reason : Inconsistency) (path : List NodeId)
  /-- A container would be below itself. -/
  | cyclic (container : NodeId)
  /-- A node is more levels below the top than the policy allows. -/
  | tooDeep (node : NodeId) (limit : UInt64)
  /-- No node has the identifier of the top. -/
  | unknownTop (top : NodeId)
  /-- The node to start from has a parent. -/
  | notATop (node parent : NodeId)
  /-- The policy can't be followed. -/
  | invalidPolicy (error : PolicyError)
  /-- No place is noted for a child. -/
  | noPlace (node : NodeId)
  /-- A child is to be inserted at a position that its container doesn't reach. -/
  | noSibling (container : NodeId) (position : Nat)

/-- The text that shows a path after the message it belongs to. -/
def pathText (path : List NodeId) : String :=
  if path.isEmpty then ""
  else " (path: " ++ " > ".intercalate (path.map NodeId.text) ++ ")"

/-- The text that reports the failure of a pass. -/
def PassError.message : PassError → String
  | .inconsistent container reason path =>
    "inconsistent snapshot on container " ++ container.text ++ ": " ++ reason.message ++
      pathText path
  | .cyclic container =>
    s!"change set of container {container.text} would become its own descendant"
  | .tooDeep node limit =>
    "depth limit of " ++ Nat.repr limit.toNat ++ " exceeded below container " ++ node.text
  | .unknownTop top => s!"unknown pass root {top.text}"
  | .notATop node parent =>
    s!"pass root {node.text} has the parent {parent.text}, but passes must cover a whole tree"
  | .invalidPolicy error => s!"invalid render policy: {error.message}"
  | .noPlace node => s!"no place noted for {node.text}"
  | .noSibling container position =>
    "no sibling before position " ++ Nat.repr position ++ " of container " ++ container.text

end PageSync
