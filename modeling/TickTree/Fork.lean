/-
# Forks

A fork ticks its children in parallel and joins them over as many calls as they
need. A cycle begins with the children of the call that follows a finished
cycle. Each call is a round: every child still running is ticked once, and the
reports are taken in the order in which they arrive. A child that reports
running stays for the next round; any other report is final for the cycle. A
failure makes the status of the cycle failure, an error is joined to the errors
of the cycle, and a round in which a child died without a report adds one error
for that. The cycle ends with the first round after which no child is running:
with the joined errors if there are any, else with the status.

A thread of its own can always be started for a child. The error that a fork
adds where none can be started is left out.

Key definitions: `Round.begin`, `Round.receive`, `Round.absorb`, `Round.verdict`,
`Fork.run`.
-/
import TickTree.Composite

namespace TickTree
variable {I : Interface}

namespace Round

/-- Is the fork between two cycles? -/
def isBetween (r : Round I) : Bool := r.status.isNone && r.error.isNone

/-- A cycle: the one under way, or a new one over `children`. -/
def begin (r : Round I) (children : List (Node I)) : Round I :=
  if r.isBetween then { r with remaining := children, status := some .success } else r

/-- The cycle after an error. -/
def fail (r : Round I) (e : TickError) : Round I :=
  { r with error := some (TickError.join r.error e), status := some .failure }

/-- The cycle after the report of one of its children. -/
def receive (r : Round I) (node : Node I) : TickResult → Round I
  | .error e => r.fail e
  | .ok .running => { r with remaining := r.remaining ++ [node] }
  | .ok .success => r
  | .ok .failure => { r with status := some .failure }

/-- The cycle after a report of one of the nodes `pending`. -/
def take (pending : List (Node I)) (r : Round I) (report : Report) : Round I :=
  match pending[report.position]? with
  | some node => r.receive node report.result
  | none => r

/-- The cycle after a round in which the nodes `pending` were ticked and these
reports arrived. -/
def absorb (r : Round I) (pending : List (Node I)) (reports : List Report) : Round I :=
  let received := reports.foldl (take pending) r
  if reports.length < pending.length then received.fail .forkChildLost else received

/-- The result of a call after its round. -/
def verdict (r : Round I) : TickResult :=
  if r.remaining.isEmpty then
    match r.error with
    | some e => .error e
    | none => .ok (r.status.getD .success)
  else .ok .running

/-- What the fork keeps after the call: the cycle while it lasts. -/
def next (r : Round I) : Round I := if r.remaining.isEmpty then .between else r

end Round

namespace Fork

/-- One call: the next round of the cycle. -/
def run (ref : Ref .round) (children : List (Node I)) : Prog I TickResult := do
  Prog.acquire ref
  let before : Round I ← Prog.read ref
  let cycle := before.begin children
  let pending := cycle.remaining
  let started := { cycle with remaining := [] }
  Prog.write ref started
  let ended ← if pending.isEmpty then pure started
    else (started.absorb pending ·) <$> Prog.parallel pending
  Prog.write ref ended.next
  Prog.release ref
  return ended.verdict

end Fork
end TickTree
