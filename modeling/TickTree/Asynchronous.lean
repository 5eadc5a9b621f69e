/-
# Asynchronous ticks

An asynchronous tick runs the tick inside on a worker. The call that finds no
worker starts one against its children and reports running; calls while the
worker is at work report running and do nothing; the first call after the
worker ended hands its result back, whatever it is, or an error if it died, and
leaves no worker. So every outcome is handed back once, and two runs of the
tick inside never overlap. While the worker is at work its cell is left to it.

A thread for the worker can always be started. The error of a call that cannot
start one, and so leaves no worker, is left out.

Key definitions: `Worker.ended`, `Worker.isPresent`, `Worker.call`,
`Asynchronous.run`.
-/
import TickTree.Composite

namespace TickTree

/-- Has a worker been started whose outcome has not been handed back? -/
def Worker.isPresent : Worker → Bool
  | idle => false
  | _ => true

/-- Is the worker at work? -/
def Worker.isBusy : Worker → Bool
  | busy => true
  | _ => false

/-- A worker that ended with a result, or died. -/
def Worker.ended : Option TickResult → Worker
  | some result => finished result
  | none => lost

/-- The answer of a call that finds the worker so, and how it leaves it. -/
def Worker.call : Worker → TickResult × Worker
  | idle => (.ok .running, busy)
  | busy => (.ok .running, busy)
  | finished result => (result, idle)
  | lost => (.error .workerLost, idle)

namespace Asynchronous
variable {I : Interface}

/-- One call. -/
def run (ref : Ref .worker) (inner : Tick I) (children : List (Node I)) : Prog I TickResult := do
  Prog.acquire ref
  let worker : Worker ← Prog.read ref
  if !worker.isBusy then
    Prog.write ref worker.call.2
  if !worker.isPresent then
    Prog.start ref inner children
  Prog.release ref
  return worker.call.1

/-- Is a worker in flight, or its outcome not yet handed back? -/
def isRunning (heap : Heap I) (ref : Ref .worker) : Bool :=
  let worker : Worker := heap.get ref
  worker.isPresent

end Asynchronous
end TickTree
