import PageSync.Forest.Load
import PageSync.Differ
import PageSync.Sink

/-!
# Sessions

A session is a forest together with the differ that keeps its clients up to date. A pass that
succeeds settles the records of the forest; one that fails leaves the forest as it is.
-/

namespace PageSync

/-- Takes note of what a pass over the forest tells. -/
def Forest.heed (forest : Forest) : Notice → Forest
  | .settled node => forest.settle node
  | .finished top => forest.finish top

/-- A forest and the differ for its passes. -/
structure Session where
  /-- The nodes. -/
  forest : Forest
  /-- Runs the passes. -/
  differ : Differ := {}

/-- Why operations did not reach a sink. -/
inductive SyncError (ε : Type)
  /-- The pass failed, and nothing was sent. -/
  | pass (error : PassError)
  /-- The sink failed. -/
  | sink (error : ε)

/-- The text that reports the failure, given how errors of the sink are shown. -/
def SyncError.message {ε : Type} (shown : ε → String) : SyncError ε → String
  | .pass error => error.message
  | .sink error => "delta sink failed: " ++ shown error

namespace Session

/-- Runs a pass over the tree below a node. -/
def pass (session : Session) (top : NodeId) : Except PassError Delta × Session :=
  match session.differ.pass session.forest.view top with
  | (.error error, differ) => (.error error, { session with differ })
  | (.ok delta, differ) => (.ok delta, ⟨delta.notices.foldl Forest.heed session.forest, differ⟩)

/-- Runs a pass over the tree below a node, and sends its operations to a sink in the given state.
The pass counts as successful also if the sink fails. -/
def passInto {ε σ : Type} (sink : Sink ε σ) (state : σ) (session : Session) (top : NodeId) :
    Except (SyncError ε) Unit × σ × Session :=
  match session.pass top with
  | (.error error, session) => (.error (.pass error), state, session)
  | (.ok delta, session) =>
    match (sink.send delta.operations).run state with
    | .ok () state => (.ok (), state, session)
    | .error error state => (.error (.sink error), state, session)

end Session

end PageSync
