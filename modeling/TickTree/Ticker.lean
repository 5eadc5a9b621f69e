/-
# Tickers

A ticker ticks a root node once per period, on a driver of its own. Between
ticks the driver looks, in this order, whether its token is cancelled, whether
it was asked to stop, and whether the next tick is due. The first two end it,
with the error for a cancellation and without an error; a tick that returns an
error or panics ends it with that. A status never does.

A ticker that ends records its error, then asks itself to stop, cancels its
token and closes its done signal, in this order and one after the other; so
whoever sees it done sees its final error.

A ticker that ends on failures runs its root under a wrapper that turns a
failure into a stop signal, and shows no error for that signal.

A tick that is in progress ends, with a result or a panic. Left out are a tick
that is given up before it began, as when everything is shut down, and times too
large to add up.

Key definitions: `Ticker`, `Ticker.drive`, `Ticker.tickEnded`,
`Ticker.shownError`.
-/
import TickTree.RunError
import TickTree.Schedule

namespace TickTree

/-- How far the driver of a ticker is. -/
inductive Ticker.Phase where
  /-- The driver has not begun. -/
  | starting
  /-- It waits for the tick due at that time. -/
  | waiting (due : Nat)
  /-- A tick is in progress; the one after it is due at `next`. -/
  | ticking (next : Nat)
  /-- It has left its loop with that error. -/
  | leaving (error : Option RunError)
  /-- It has recorded its error. -/
  | recorded
  /-- It has asked itself to stop. -/
  | halted
  /-- It has cancelled its token. -/
  | released
  /-- It has closed its done signal. -/
  | finished
  deriving Repr, Inhabited

/-- A ticker: its token, its configuration, and what it shows to others. -/
structure Ticker where
  token : Nat
  config : TickerConfig
  endsOnFailure : Bool
  stopRequested : Bool
  error : Option RunError
  isDone : Bool
  phase : Ticker.Phase
  deriving Repr, Inhabited

namespace Ticker

/-- A ticker whose driver has not begun. -/
def start (token : Nat) (config : TickerConfig) (endsOnFailure : Bool) : Ticker :=
  { token, config, endsOnFailure, stopRequested := false, error := none, isDone := false,
    phase := .starting }

/-- The error that the ticker shows. -/
def shownError (t : Ticker) : Option RunError :=
  if t.endsOnFailure then t.error.filter fun e => !e.isExit else t.error

/-- The next step of the driver, or nothing while it waits. The time is `now`,
timers have gone off up to `elapsed`, and `cancelled` says whether the token of
the ticker is cancelled. In the step from `halted` the token is cancelled. -/
def drive (now elapsed : Nat) (cancelled : Bool) (t : Ticker) : Option Ticker :=
  match t.phase with
  | .starting => some { t with phase := .waiting (now + t.config.period) }
  | .waiting due =>
    if cancelled then some { t with phase := .leaving (some .cancelled) }
    else if t.stopRequested then some { t with phase := .leaving none }
    else if due ≤ elapsed then some { t with phase := .ticking (t.config.next due now) }
    else none
  | .ticking _ => none
  | .leaving error => some { t with error, phase := .recorded }
  | .recorded => some { t with stopRequested := true, phase := .halted }
  | .halted => some { t with phase := .released }
  | .released => some { t with isDone := true, phase := .finished }
  | .finished => none

/-- The ticker after the tick in progress has ended. -/
def tickEnded (outcome : Outcome) (t : Ticker) : Option Ticker :=
  match t.phase with
  | .ticking next =>
    match RunError.ofOutcome outcome with
    | some error => some { t with phase := .leaving (some error) }
    | none => some { t with phase := .waiting next }
  | _ => none

/-- Is a tick in progress? -/
def isTicking (t : Ticker) : Bool := t.phase matches .ticking _

end Ticker
end TickTree
