import PageSync.Operation

/-!
# Sinks

The operations of a pass go to a sink, one after the other, and at the end the sink is told that
there are no more. A sink may fail; it then keeps the state that it has come to.
-/

namespace PageSync

/-- Where operations go: what a sink does with each of them and at their end. -/
structure Sink (ε σ : Type) where
  /-- Takes one operation. -/
  operation : Operation → EStateM ε σ Unit
  /-- Takes note that there are no more operations. -/
  finish : EStateM ε σ Unit := return ()

namespace Sink

/-- Sends all operations to a sink, then the end. After a failure nothing more is sent. -/
def send {ε σ : Type} (sink : Sink ε σ) (operations : List Operation) : EStateM ε σ Unit := do
  operations.forM sink.operation
  sink.finish

/-- The sink that keeps all operations in a list, and never fails. -/
def list : Sink Empty (List Operation) where
  operation operation := modify (· ++ [operation])

/-! ### A sink with a limit -/

/-- The failure of a sink that has taken as many operations as it may. -/
inductive Full
  /-- No further operation is taken. -/
  | full
deriving DecidableEq

/-- The text that reports a full sink. -/
def Full.message : Full → String
  | .full => "full"

/-- The operations that a sink with a limit has taken. -/
structure Limited where
  /-- How many operations it may take. -/
  limit : Nat
  /-- The operations that it has taken. -/
  taken : List Operation := []
deriving DecidableEq

/-- The sink that takes only so many operations. -/
def limited : Sink Full Limited where
  operation operation := do
    let state ← get
    if state.taken.length < state.limit then
      set { state with taken := state.taken ++ [operation] }
    else throw .full

end Sink

end PageSync
