import PageSync.Pass.Basic

/-!
# Evictions

A container whose children are sent anew takes everything with it that the client shows below it.
Nodes that have moved from there to other parts of the same tree are inserted again elsewhere,
possibly before the container's turn; they have to be removed first, or they would be present
twice for a while.
-/

namespace PageSync

/-- Where a node is now, relative to a container. -/
inductive Whereabouts
  /-- Below the container. -/
  | inside
  /-- In the tree that the pass walks, but not below the container. -/
  | outside
  /-- In no tree that the pass walks. -/
  | elsewhere
deriving DecidableEq

namespace Pass

variable (pass : Pass)

/-- Follows a chain of parents until it comes to the container, to the top of the pass or to an
end, but not over more than so many parents. -/
def findAbove (container : NodeId) : Nat → Option NodeId → Option Whereabouts
  | 0, _ => none
  | _ + 1, none => some .elsewhere
  | count + 1, some ancestor =>
    if ancestor = container then some .inside
    else if ancestor = pass.root then some .outside
    else findAbove container count (pass.view.parent ancestor)

/-- Where a node is now, relative to a container. -/
def whereabouts (container node : NodeId) : Except PassError Whereabouts :=
  match pass.findAbove container (pass.policy.depthLimit.toNat + 1) (pass.view.parent node) with
  | some whereabouts => .ok whereabouts
  | none => .error (.tooDeep node pass.policy.depthLimit)

/-- Whether a node that was shown as a child of `parent` has to leave the container. -/
def leaves (container parent node : NodeId) : Except PassError Bool :=
  if pass.view.parent node = some parent then .ok false
  else (pass.whereabouts container node).map (· == .outside)

/-- The nodes among and below the given ones, shown as children of `parent`, that have to leave
the container: in document order, and none below another. -/
def evicted (container : NodeId) : Nat → NodeId → List NodeId → Except PassError (List NodeId)
  | 0, _, _ => .error (.tooDeep container pass.policy.depthLimit)
  | levels + 1, parent, nodes => do
    let parts ← nodes.mapM fun node => do
      if ← pass.leaves container parent node then return [node]
      else if pass.view.isContainer node then
        evicted container levels node (pass.view.entry node).shownChildList
      else return []
    return parts.flatten

/-- Decides that the children of a container are sent anew, and notes what has to leave it. -/
def replace (levels number : Nat) (container : NodeId) (shown : List NodeId) : Walk Unit := do
  noteOn number Sheet.replace
  match pass.evicted container levels container shown with
  | .ok nodes => noteOn number fun sheet => { sheet with evicted := nodes }
  | .error error => throw error

end Pass

end PageSync
