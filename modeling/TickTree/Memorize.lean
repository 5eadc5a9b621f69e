/-
# Memorized executions

An execution of a memorized tick lasts until the tick inside returns anything
but running. It begins by giving each child a record of its own; the children
that later calls pass are not looked at until the next execution. A child that
has returned anything but running is not run again in the execution: it answers
its record, while its node is still expanded. It does so even if that has no tick
any more.

Two positions never share a record, even if the same node stands at both, and
an execution never sees the records of another.

Key definitions: `Memorize.snapshot`, `Memorize.run`, `Memorize.expand`,
`Memorize.record`.
-/
import TickTree.Composite

namespace TickTree
namespace Memorize
variable {I : Interface}

/-- The children with a fresh record each. -/
def snapshot : List (Node I) → Prog I (List (Node I))
  | [] => .pure []
  | node :: nodes => .request (.alloc .record) fun ref =>
      (snapshot nodes).bind fun rest => .pure (.memorized ref node :: rest)

/-- The children of the execution under way, begun with `children` if there is
none. -/
def execution (ref : Ref .execution) (children : List (Node I)) : Prog I (List (Node I)) := do
  let open? : Option (List (Node I)) ← Prog.read ref
  match open? with
  | some nodes => return nodes
  | none =>
    let nodes ← snapshot children
    Prog.write ref (some nodes)
    return nodes

/-- One call: runs `inner` against the children of the execution, and ends the
execution unless the result is running. -/
def run (ref : Ref .execution) (inner : List (Node I) → Prog I TickResult)
    (children : List (Node I)) : Prog I TickResult := do
  Prog.acquire ref
  let nodes ← execution ref children
  let result ← inner nodes
  if !TickResult.isRunning result then
    Prog.write ref none
  Prog.release ref
  return result

/-- What a child of an execution expands to, given what its node does: its
record if it has one, else the tick of the node with the record to fill. -/
def expand (ref : Ref .record) (inner : Prog I (Option (Tick I) × List (Node I))) :
    Prog I (Option (Tick I) × List (Node I)) := do
  let (tick, children) ← inner
  let recorded : Option TickResult ← Prog.read ref
  match recorded with
  | some result => return (some (.const result), children)
  | none => return (tick.map (.recording ref), children)

/-- Runs the tick of a child and records its result unless it is running. -/
def record (ref : Ref .record) (inner : Prog I TickResult) : Prog I TickResult := do
  let result ← inner
  if !TickResult.isRunning result then
    Prog.write ref (some result)
  return result

end Memorize
end TickTree
