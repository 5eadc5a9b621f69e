/-
# Errors of a run

A ticker that ends for any other reason than being stopped shows a run error:
the error of a tick, a cancellation, or a panic. A manager combines the errors
of its tickers, and refuses further tickers with the errors it has by then.

Two searches walk these aggregates. `any` offers every run error in it to a
predicate, through combined lists and the causes of refusals; `anyTick` offers
the items of every tick error found on the way.

Key definitions: `Payload`, `Outcome`, `RunError`, `RunError.text`, `RunError.any`,
`RunError.anyTick`, `RunError.ofPanic`.
-/
import TickTree.TickError

namespace TickTree

/-- What a panicking tick carries: a text, or something that is not one. -/
inductive Payload where
  | text (text : String)
  | other
  deriving DecidableEq, Repr, Inhabited

/-- How a call of a tick ended. -/
inductive Outcome where
  | returned (result : TickResult)
  | panicked (payload : Payload)
  deriving Repr, Inhabited

/-- The result of the call, unless it panicked. -/
def Outcome.result? : Outcome → Option TickResult
  | returned result => some result
  | panicked _ => none

/-- The error of a run. -/
inductive RunError where
  /-- A tick ended with an error. -/
  | tick (error : TickError)
  /-- The token above the ticker was cancelled. -/
  | cancelled
  /-- A tick panicked. -/
  | panicked (text : String)
  /-- A manager that had begun to stop refused a ticker; `cause` holds the
  errors it had collected by then. -/
  | managerStopped (cause : Option RunError)
  /-- The errors of several tickers, in the order they were seen. -/
  | combined (errors : List RunError)
  deriving Repr, Inhabited

namespace RunError

mutual

/-- The text shown for an error. -/
def text : RunError → String
  | tick error => error.text
  | cancelled => "ticker cancelled"
  | panicked text => "tick panicked: " ++ text
  | managerStopped none => "manager already stopped"
  | managerStopped (some cause) => "manager already stopped: " ++ cause.text
  | combined errors => " | ".intercalate (texts errors)
termination_by structural e => e

/-- The texts shown for the parts of a combined error. -/
def texts : List RunError → List String
  | [] => []
  | e :: es => e.text :: texts es
termination_by structural es => es

end

theorem texts_eq_map (es : List RunError) : texts es = es.map text := by
  induction es with
  | nil => rfl
  | cons e es ih => rw [texts, ih, List.map_cons]

mutual

/-- Does `p` hold of the error or of one it aggregates? -/
def any (p : RunError → Bool) : RunError → Bool
  | tick error => p (tick error)
  | cancelled => p cancelled
  | panicked text => p (panicked text)
  | managerStopped none => p (managerStopped none)
  | managerStopped (some cause) => p (managerStopped (some cause)) || cause.any p
  | combined errors => p (combined errors) || anyOf p errors
termination_by structural e => e

/-- Does `p` hold in one of the errors? -/
def anyOf (p : RunError → Bool) : List RunError → Bool
  | [] => false
  | e :: es => e.any p || anyOf p es
termination_by structural es => es

end

theorem anyOf_eq_any (p : RunError → Bool) (es : List RunError) :
    anyOf p es = es.any (any p) := by
  induction es with
  | nil => rfl
  | cons e es ih => rw [anyOf, ih, List.any_cons]

/-- Is this the refusal of a manager? -/
def isRefusal : RunError → Bool
  | managerStopped _ => true
  | _ => false

/-- Does the error, or one it aggregates, report a stopped manager? -/
def isManagerStopped (e : RunError) : Bool := e.any isRefusal

/-- Does `p` hold of an item of a tick error that is the error or one it
aggregates? -/
def anyTick (p : TickError → Bool) (e : RunError) : Bool :=
  e.any fun
    | tick error => error.items.any p
    | _ => false

/-- The nearest cause of an error, if it has one. A tick error shows through;
the other errors have none. -/
def source : RunError → Option TickError.Link
  | tick error => error.source
  | _ => none

/-- The causes of an error, nearest first. -/
def chain : RunError → List TickError.Link
  | tick error => error.chain
  | _ => []

/-- The text that a payload is reported with. -/
def payloadText : Payload → String
  | .text text => text
  | .other => "unknown panic payload"

/-- The error of a ticker whose tick panicked. -/
def ofPanic (payload : Payload) : RunError := panicked (payloadText payload)

/-- The error that a tick ends its ticker with, if it does. -/
def ofOutcome : Outcome → Option RunError
  | .returned (.ok _) => none
  | .returned (.error e) => some (tick e)
  | .panicked payload => some (ofPanic payload)

/-- Is this the stop signal of a ticker that ends on failures? -/
def isExit : RunError → Bool
  | tick error => error.isForeign .exitOnFailure
  | _ => false

end RunError
end TickTree
