import PageSync.Pass.Basic

/-!
# Comparing the children of one container

Of the children that a client shows in a container some have stayed and some are gone; of the
current children some were shown there before and some are new. Gone children are removed and new
ones inserted. The others are the same nodes on both sides, but maybe in another order: both lists
are followed side by side, and where they differ the child that has come farther is moved, which
is to say removed and inserted again. A child that both lists come to at the same time stays where
it is, and is looked at in turn.
-/

namespace PageSync

/-- How far two indices are apart. -/
def distance (a b : Nat) : Nat := (a - b) + (b - a)

namespace Pass

variable (pass : Pass)

/-- Removes a child and inserts it again where it belongs. -/
def moveChild (number : Nat) (node : NodeId) : Walk Unit := do
  let place ← placeOf node
  setMoved node
  pass.markNew node
  noteOn number fun sheet => (sheet.remove node).insert place.target node

/-- Notes where those of the current children stand that were shown in the container before, and
inserts the others. The result lists the former. -/
def takeIn (number : Nat) (container : NodeId) : Nat → Nat → List NodeId → Walk (List NodeId)
  | _, _, [] => return []
  | target, new, node :: rest => do
    if pass.view.shownParent node = some container then
      setPlace node { old := 0, new, target }
      return node :: (← takeIn number container (target + 1) (new + 1) rest)
    else
      pass.markNew node
      noteOn number (·.insert target node)
      takeIn number container (target + 1) new rest

/-- Completes the places of the shown children that have stayed. -/
def countStayed (container : NodeId) : Nat → List NodeId → Walk Unit
  | _, [] => return ()
  | old, node :: rest => do
    match ← place? node with
    | none => pass.contradict container (.notCurrent node)
    | some place =>
      setPlace node { place with old }
      countStayed container (old + 1) rest

/-- Follows the current children until a given shown child stays or is moved, and goes on from
there. -/
def alignChild (descend : NodeId → Walk Unit) (number : Nat) (container node : NodeId) (old : Nat)
    (next : Nat → List NodeId → Walk (List NodeId)) : Nat → List NodeId → Walk (List NodeId)
  | _, [] => pass.contradict container (.noCounterpart node)
  | new, other :: rest => do
    if ← isMoved other then
      alignChild descend number container node old next (new + 1) rest
    else if node = other then
      descend other
      next (new + 1) rest
    else
      let nodePlace ← placeOf node
      let otherPlace ← placeOf other
      if distance new otherPlace.old < distance old nodePlace.new then
        pass.moveChild number node
        next new (other :: rest)
      else
        pass.moveChild number other
        alignChild descend number container node old next (new + 1) rest

/-- Follows the shown children that have stayed, and the current ones beside them. The result lists
the current children that are left when all shown ones are dealt with. -/
def align (descend : NodeId → Walk Unit) (number : Nat) (container : NodeId) :
    Nat → List NodeId → Nat → List NodeId → Walk (List NodeId)
  | _, [], _, others => return others
  | old, node :: rest, new, others => do
    if ← isMoved node then align descend number container (old + 1) rest new others
    else
      pass.alignChild descend number container node old
        (align descend number container (old + 1) rest) new others

/-- Compares the shown and the current children of a container, notes the changes on its sheet and
looks at every child that stays where it is. -/
def compareChildren (descend : NodeId → Walk Unit) (number : Nat) (container : NodeId)
    (shown current : List NodeId) : Walk Unit := do
  let stayed := shown.filter fun node => pass.view.parent node = some container
  let gone := shown.filter fun node => pass.view.parent node ≠ some container
  noteOn number fun sheet => gone.foldl Sheet.remove sheet
  let shownBefore ← pass.takeIn number container 0 0 current
  if stayed.length ≠ shownBefore.length then
    pass.contradict container (.unequalCounts stayed.length shownBefore.length)
  else
    pass.countStayed container 0 stayed
    let left ← pass.align descend number container 0 stayed 0 shownBefore
    left.forM fun node => do
      if ← isMoved node then return () else pass.moveChild number node

end Pass

end PageSync
