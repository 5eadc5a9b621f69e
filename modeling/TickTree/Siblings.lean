/-
# Siblings that advance one at a time

The siblings of a group remember their last statuses. A sibling may run if it
is itself remembered running, or if no sibling is; otherwise it answers the
status that it is remembered with, or failure if it never finished a tick. A
sibling that runs does so under the lock of the group, and its result is
remembered, an error as a failure.

Key definitions: `Siblings.mayRun`, `Siblings.remembered`, `Siblings.remember`,
`Siblings.expand`, `Siblings.gate`.
-/
import TickTree.Composite

namespace TickTree
namespace Siblings

/-- Is a sibling remembered running? -/
def isRunning (last : List (Nat × Status)) : Bool := last.any fun entry => entry.2.isRunning

/-- May sibling `index` run, given the last statuses? -/
def mayRun (last : List (Nat × Status)) (index : Nat) : Bool :=
  last.lookup index == some .running || !isRunning last

/-- The status that sibling `index` answers while it may not run. -/
def remembered (last : List (Nat × Status)) (index : Nat) : Status :=
  (last.lookup index).getD .failure

/-- Remembers the status of sibling `index`. -/
def remember (last : List (Nat × Status)) (index : Nat) (s : Status) : List (Nat × Status) :=
  (index, s) :: last.filter fun entry => entry.1 != index

/-- The status that a result is remembered as. -/
def statusOf : TickResult → Status
  | .ok s => s
  | .error _ => .failure

variable {I : Interface}

/-- What sibling `index` expands to, given what its node does. -/
def expand (ref : Ref .statuses) (index : Nat) (inner : Prog I (Option (Tick I) × List (Node I))) :
    Prog I (Option (Tick I) × List (Node I)) := do
  Prog.acquire ref
  let (tick, children) ← inner
  let last : List (Nat × Status) ← Prog.read ref
  Prog.release ref
  match tick with
  | none => return (none, children)
  | some tick =>
    if mayRun last index then return (some (.gated ref index tick), children)
    else return (some (.const (.ok (remembered last index))), children)

/-- Runs the tick of sibling `index` under the lock of the group and remembers
the status. -/
def gate (ref : Ref .statuses) (index : Nat) (inner : Prog I TickResult) : Prog I TickResult := do
  Prog.acquire ref
  let result ← inner
  let last : List (Nat × Status) ← Prog.read ref
  Prog.write ref (remember last index (statusOf result))
  Prog.release ref
  return result

end Siblings
end TickTree
