import PageSync.Operation

/-!
# The ledger of a pass

While a pass walks a tree, it notes what changed in a ledger: one sheet for each container whose
children changed, and a first sheet, without container, above them all. A sheet lists changes to
the children of its container and the sheets of containers further below. Sheets are numbered in
the order in which they are opened.

The outline of a ledger lists the sheets that hang together with the first one, each before those
nested in it. From it the operations of the pass are read off. The text that shows the ledger to a reader
lists the same sheets in the same order, but stops after as many of them as there are.
-/

namespace PageSync

/-! ### Sheets -/

/-- The changes to one container. -/
structure Sheet where
  /-- The container; the first sheet has none. -/
  container : Option NodeId := none
  /-- Children that are to be removed. -/
  removed : List NodeId := []
  /-- Children that are to be inserted, with their positions among the current children, which
  ascend. -/
  inserted : List (Nat × NodeId) := []
  /-- Nodes below of which only the attributes changed. -/
  altered : List NodeId := []
  /-- The numbers of the sheets of containers further below. -/
  nested : List Nat := []
  /-- Nodes that were shown below the container and have to leave before it is sent anew. -/
  evicted : List NodeId := []
  /-- Whether the attributes of the container itself changed. -/
  ownAttributes : Bool := false
  /-- Whether the container is sent as part of an insertion, so that no change below it counts. -/
  isNew : Bool := false
  /-- Whether all children of the container are sent anew. -/
  isReplaced : Bool := false
deriving DecidableEq, Inhabited

namespace Sheet

/-- Whether the content of the container is sent as a whole, so that single changes don't count. -/
def isWhole (sheet : Sheet) : Bool := sheet.isReplaced || sheet.isNew

/-- Whether the sheet leads to no operation at all. -/
def isBlank (sheet : Sheet) : Bool :=
  !sheet.isWhole && !sheet.ownAttributes && sheet.removed.isEmpty && sheet.inserted.isEmpty &&
    sheet.altered.isEmpty && sheet.nested.isEmpty

/-- Notes that a child is to be removed. -/
def remove (sheet : Sheet) (node : NodeId) : Sheet :=
  if sheet.isWhole then sheet else { sheet with removed := sheet.removed ++ [node] }

/-- Puts a position with its node behind those that are not greater. -/
def insertSorted (position : Nat) (node : NodeId) : List (Nat × NodeId) → List (Nat × NodeId)
  | [] => [(position, node)]
  | (other, sibling) :: rest =>
    if position < other then (position, node) :: (other, sibling) :: rest
    else (other, sibling) :: insertSorted position node rest

/-- Notes that a child is to be inserted. -/
def insert (sheet : Sheet) (position : Nat) (node : NodeId) : Sheet :=
  if sheet.isWhole then sheet
  else { sheet with inserted := insertSorted position node sheet.inserted }

/-- Notes that the attributes of a node below changed. -/
def alter (sheet : Sheet) (node : NodeId) : Sheet :=
  if sheet.isWhole then sheet else { sheet with altered := sheet.altered ++ [node] }

/-- Notes the sheet of a container further below. -/
def nest (sheet : Sheet) (number : Nat) : Sheet := { sheet with nested := sheet.nested ++ [number] }

/-- Decides to send all children anew, which makes all single changes pointless. -/
def replace (sheet : Sheet) : Sheet :=
  { sheet with removed := [], inserted := [], altered := [], nested := [], isReplaced := true }

end Sheet

/-! ### Ledgers -/

/-- The sheets of one pass. -/
structure Ledger where
  /-- The sheets by their numbers. -/
  sheets : Array Sheet
  /-- The numbers of the sheets by their containers. -/
  numbers : Std.TreeMap NodeId Nat

namespace Ledger

/-- The ledger with nothing but its first sheet. -/
def start : Ledger := ⟨#[{}], ∅⟩

/-- The number of the first sheet. -/
def first : Nat := 0

/-- The sheet of a number. -/
def sheet (ledger : Ledger) (number : Nat) : Sheet := ledger.sheets.getD number {}

/-- The number of the sheet of a container, if it has one. -/
def find? (ledger : Ledger) (container : NodeId) : Option Nat := ledger.numbers[container]?

/-- The number that the next sheet gets. -/
def next (ledger : Ledger) : Nat := ledger.sheets.size

/-- Opens a sheet for a container that has none. -/
def openSheet (ledger : Ledger) (container : NodeId) : Ledger :=
  ⟨ledger.sheets.push { container := some container },
    ledger.numbers.insert container ledger.sheets.size⟩

/-- Changes one sheet. -/
def update (ledger : Ledger) (number : Nat) (change : Sheet → Sheet) : Ledger :=
  { ledger with sheets := ledger.sheets.modify number change }

/-- Notes that a container is sent as part of an insertion. -/
def markNew (ledger : Ledger) (container : NodeId) : Ledger :=
  match ledger.find? container with
  | some number => ledger.update number fun sheet => { sheet with isNew := true }
  | none =>
    (ledger.openSheet container).update ledger.next fun sheet => { sheet with isNew := true }

theorem sheet_update (ledger : Ledger) (number other : Nat) (change : Sheet → Sheet)
    (h : number < ledger.next) :
    (ledger.update number change).sheet other =
      if number = other then change (ledger.sheet number) else ledger.sheet other := by
  have h : number < ledger.sheets.size := h
  simp only [sheet, update, Array.getD_eq_getD_getElem?, Array.getElem?_modify]
  split
  · next eq => subst eq; simp [h]
  · rfl

theorem next_update (ledger : Ledger) (number : Nat) (change : Sheet → Sheet) :
    (ledger.update number change).next = ledger.next := by
  simp [next, update]

theorem find?_update (ledger : Ledger) (number : Nat) (change : Sheet → Sheet) (container : NodeId) :
    (ledger.update number change).find? container = ledger.find? container := rfl

theorem sheet_openSheet (ledger : Ledger) (container : NodeId) (number : Nat) :
    (ledger.openSheet container).sheet number =
      if number = ledger.next then { container := some container } else ledger.sheet number := by
  simp only [sheet, openSheet, next, Array.getD_eq_getD_getElem?, Array.getElem?_push]
  split <;> simp

theorem next_openSheet (ledger : Ledger) (container : NodeId) :
    (ledger.openSheet container).next = ledger.next + 1 := by
  simp [next, openSheet]

theorem find?_openSheet (ledger : Ledger) (container other : NodeId) :
    (ledger.openSheet container).find? other =
      if container = other then some ledger.next else ledger.find? other := by
  simp [find?, openSheet, next, Std.TreeMap.getElem?_insert, Std.LawfulEqCmp.compare_eq_iff_eq]

/-! ### Outline -/

/-- A line about a sheet, with its depth. A line is cut off where a list of sheets comes to its limit before
it has come to all that is nested in its sheets. -/
structure Line where
  /-- How many sheets the sheet is nested in. -/
  depth : Nat
  /-- The number of the sheet. -/
  number : Nat
  /-- Whether the limit is reached here, so that the list does not go on below the sheet. -/
  isCut : Bool := false
deriving DecidableEq

/-- The outline of a sheet, down to so many levels. -/
def outlineFrom (ledger : Ledger) : Nat → Nat → Nat → List Line
  | 0, depth, number => [{ depth, number, isCut := true }]
  | levels + 1, depth, number =>
    { depth, number } ::
      (ledger.sheet number).nested.flatMap (ledger.outlineFrom levels (depth + 1))

/-- The sheets that hang together with the first one, each before those nested in it. -/
def outline (ledger : Ledger) : List Line := ledger.outlineFrom ledger.sheets.size 0 first

/-! ### Text -/

/-- The lines about sheets that are due, with their depths. Those nested in a sheet come right after it,
before what was due already. When so many sheets have been shown, the ones that are still due are cut
off. -/
def linesFrom (ledger : Ledger) : Nat → List (Nat × Nat) → List Line
  | 0, due => due.map fun (depth, number) => { depth, number, isCut := true }
  | _ + 1, [] => []
  | left + 1, (depth, number) :: due =>
    { depth, number } ::
      ledger.linesFrom left ((ledger.sheet number).nested.map (depth + 1, ·) ++ due)

/-- The lines about the sheets that hang together with the first one. No more sheets are shown than there
are. -/
def lines (ledger : Ledger) : List Line := ledger.linesFrom ledger.sheets.size [(0, first)]

/-- Two blanks for each sheet that a sheet is nested in. -/
def indent (depth : Nat) : String := String.ofList (List.replicate (2 * depth) ' ')

/-- The row that names a sheet by its container. -/
def heading (ledger : Ledger) (depth number : Nat) : String :=
  let sheet := ledger.sheet number
  let title := match sheet.container with
    | none => "root"
    | some container => container.text
  indent depth ++ "[" ++ title ++ "]" ++
    (if sheet.isReplaced then " full-rerender" else "") ++
    (if sheet.isNew then " added" else "") ++
    (if sheet.ownAttributes then " attributes" else "")

/-- The row of a list of nodes after a label, or none if there are no nodes. -/
def labelled (depth : Nat) (label : String) (nodes : List NodeId) : List String :=
  if nodes.isEmpty then []
  else [indent depth ++ "  " ++ label ++ ":" ++ String.join (nodes.map fun node => " " ++ node.text)]

/-- The rows of a sheet: its heading, then the changes noted on it. -/
def block (ledger : Ledger) (depth number : Nat) : List String :=
  let sheet := ledger.sheet number
  ledger.heading depth number ::
    (labelled depth "deleted" sheet.removed ++
      labelled depth "added" (sheet.inserted.map (·.2)) ++
      labelled depth "attributes changed" sheet.altered ++
      labelled depth "evicted" sheet.evicted)

/-- The rows of a line. -/
def rows (ledger : Ledger) (line : Line) : List String :=
  if line.isCut then [indent line.depth ++ "(cycle)"] else ledger.block line.depth line.number

/-- Rows of text, each one ended. -/
def page (rows : List String) : String := String.join (rows.map (· ++ "\n"))

/-- The ledger as indented text. -/
def text (ledger : Ledger) : String := page (ledger.lines.flatMap ledger.rows)

end Ledger

end PageSync
