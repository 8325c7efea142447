import PageSync.Pass.Basic

/-!
# From the ledger to operations

The operations of a pass are read off the outline of its ledger. All removals come first, so that
no node is ever present twice; then each sheet contributes its other changes. Insertions come in
ascending order of positions, so that the sibling before each of them is in place already.
-/

namespace PageSync

/-- The removals of a sheet. Where all children are sent anew, only those nodes are removed that
have to leave. -/
def Sheet.deletions (sheet : Sheet) : List Operation :=
  (if sheet.isReplaced then sheet.evicted else sheet.removed).map .delete

namespace Pass

variable (pass : Pass)

/-- Sends all attributes of a node. -/
def alteration (node : NodeId) : Operation :=
  .changeAttributes node (pass.view.entry node).attributes

/-- Inserts a node at a position of a container, behind the child before that position. -/
def insertion (container : NodeId) (position : Nat) (node : NodeId) : Except PassError Operation :=
  match position with
  | 0 => .ok (.insertAfter container none (pass.view.describe node))
  | before + 1 =>
    match (pass.view.children container)[before]? with
    | some sibling => .ok (.insertAfter container (some sibling) (pass.view.describe node))
    | none => .error (.noSibling container position)

/-- The operations of a sheet other than removals. -/
def additions (sheet : Sheet) : Except PassError (List Operation) :=
  match sheet.container with
  | none => .ok (if sheet.isReplaced then [] else sheet.altered.map pass.alteration)
  | some container =>
    let own := if sheet.ownAttributes then [pass.alteration container] else []
    if sheet.isReplaced then
      .ok (.replaceChildren container ((pass.view.children container).map pass.view.describe) :: own)
    else do
      let insertions ← sheet.inserted.mapM fun (position, node) =>
        pass.insertion container position node
      return own ++ sheet.altered.map pass.alteration ++ insertions

/-- The sheets of an outline, which must not be cut off anywhere. -/
def sheets (ledger : Ledger) : Except PassError (List Sheet) :=
  ledger.outline.mapM fun line =>
    if line.isCut then .error (.cyclic ((ledger.sheet line.number).container.getD .last))
    else .ok (ledger.sheet line.number)

/-- The operations that a ledger leads to. -/
def operations (ledger : Ledger) : Except PassError (List Operation) := do
  let sheets ← sheets ledger
  let additions ← sheets.mapM pass.additions
  return sheets.flatMap Sheet.deletions ++ additions.flatten

end Pass

end PageSync
