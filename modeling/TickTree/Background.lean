/-
# Tasks in the background

A pool ticks its jobs from the oldest to the youngest, each at most once a
call. The first job that does not report running leaves the pool, and its
result is the result of the call. If all report running, a new task is made
against the children of this call and ticked once; it joins the pool as the
youngest job if it reports running, and its result is the result of the call
either way. A job is always ticked against the children of the call that made
it.

Key definitions: `Background.scan`, `Background.run`, `Background.size`.
-/
import TickTree.Composite

namespace TickTree
namespace Background
variable {I : Interface}

/-- Ticks jobs, oldest first, up to the first that does not report running:
its result, and the jobs without it. The jobs `passed` have been ticked. -/
def scan (passed : List (Node I)) : List (Node I) → Prog I (Option (TickResult × List (Node I)))
  | [] => .pure none
  | job :: jobs => .request (.tick job) fun result =>
      if TickResult.isRunning result then scan (passed ++ [job]) jobs
      else .pure (some (result, passed ++ jobs))

/-- One call. -/
def run (ref : Ref .jobs) (generator : Recipe I (Tick I)) (children : List (Node I)) :
    Prog I TickResult := do
  Prog.acquire ref
  let jobs : List (Node I) ← Prog.read ref
  match ← scan [] jobs with
  | some (result, rest) =>
    Prog.write ref rest
    Prog.release ref
    return result
  | none =>
    let job := Node.of (← generator.toProg) children
    let result ← Prog.tick job
    if TickResult.isRunning result then
      Prog.write ref (jobs ++ [job])
    Prog.release ref
    return result

/-- The number of jobs in the pool. -/
def size (heap : Heap I) (ref : Ref .jobs) : Nat :=
  let jobs : List (Node I) := heap.get ref
  jobs.length

end Background
end TickTree
