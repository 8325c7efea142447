import PageSync.Pass.Children
import PageSync.Pass.Eviction

/-!
# Walking the tree

A pass visits a node and then the nodes below it that something has changed at. A container with
changed children gets a sheet in the ledger; other changes go onto the sheet of the nearest
container above that has one.
-/

namespace PageSync

/-- The shown and the current children of a container, if there is something to compare: shown
children are recorded, and the two lists are not both empty. -/
def Entry.compared (entry : Entry) : Option (List NodeId × List NodeId) :=
  match entry.children, entry.shownChildren with
  | some current, some shown =>
    if shown.isEmpty && current.isEmpty then none else some (shown, current)
  | _, _ => none

namespace Pass

variable (pass : Pass)

/-- Hangs a sheet below another one. -/
def hang (into number : Nat) (container : NodeId) : Walk Unit :=
  if into = number then throw (.cyclic container) else noteOn into (·.nest number)

/-- Looks at a node whose children did not change: at its attributes, and at its children if
something below it changed. -/
def walkSettled (descend : Nat → NodeId → Walk Unit) (into : Nat) (node : NodeId) : Walk Unit := do
  let entry := pass.view.entry node
  if entry.attributesChanged then noteOn into (·.alter node)
  if entry.changedBelow then entry.childList.forM (descend into)
  markDone node

/-- Looks at a container whose children changed: opens a sheet for it, and either compares its
children or sends all of them anew. -/
def walkChanged (descend : Nat → NodeId → Walk Unit) (levels into : Nat) (container : NodeId)
    (shown current : List NodeId) : Walk Unit := do
  let entry := pass.view.entry container
  let ledger := (← get).ledger
  match ledger.find? container with
  | some number =>
    if (ledger.sheet number).isNew then pass.contradict container .sentAsWhole
    else throw (.cyclic container)
  | none =>
    let number := ledger.next
    note (·.openSheet container)
    noteOn number fun sheet => { sheet with ownAttributes := entry.attributesChanged }
    if shown.isEmpty || pass.policy.prefersReplacement shown.length current.length ||
        entry.replacesChildren then
      pass.replace levels number container shown
    else
      pass.compareChildren (descend number) number container shown current
      let changes ← sheet number
      if pass.policy.rejectsChanges (changes.removed.length + changes.inserted.length)
          current.length then
        pass.replace levels number container shown
    markDone container
    if (← sheet number).isBlank then return () else hang into number container

/-- Looks at a node and at all that changed below it, down to so many levels, and notes the changes
on the given sheet or on new ones below it. -/
def walk : Nat → Nat → NodeId → Walk Unit
  | 0, _, node => throw (.tooDeep node pass.policy.depthLimit)
  | levels + 1, into, node =>
    match (pass.view.entry node).compared with
    | some (shown, current) =>
      pass.walkChanged (walk levels) (levels + 1) into node shown current
    | none => pass.walkSettled (walk levels) into node

/-- Walks the whole tree of the pass. -/
def gather : Walk Unit := pass.walk (pass.policy.depthLimit.toNat + 1) Ledger.first pass.root

end Pass

end PageSync
