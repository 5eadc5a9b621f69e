/-
# Success of any child

While the tick inside reports running, every success of one of its children
raises a flag; a terminal status of the tick inside is then replaced by success
if the flag is up and by failure if not. Errors pass unchanged. A terminal
status and an error both lower the flag, so nothing is carried over to the next
execution. A child's own children do not count.

Key definitions: `AnySuccess.run`, `AnySuccess.expand`, `AnySuccess.note`.
-/
import TickTree.Composite

namespace TickTree
namespace AnySuccess
variable {I : Interface}

/-- One call: runs `inner` against the children with the flag on each. -/
def run (ref : Ref .flag) (inner : List (Node I) → Prog I TickResult) (children : List (Node I)) :
    Prog I TickResult := do
  match ← inner (children.map (.flagged ref)) with
  | .ok .running => return .ok .running
  | .ok _ =>
    let raised : Bool ← Prog.swap ref false
    return .ok (if raised then .success else .failure)
  | .error e =>
    Prog.write ref false
    return .error e

/-- What a flagged child expands to, given what its node does. -/
def expand (ref : Ref .flag) (inner : Prog I (Option (Tick I) × List (Node I))) :
    Prog I (Option (Tick I) × List (Node I)) := do
  let (tick, children) ← inner
  return (tick.map (.flagging ref), children)

/-- Runs the tick of a child and raises the flag if it succeeds. -/
def note (ref : Ref .flag) (inner : Prog I TickResult) : Prog I TickResult := do
  let result ← inner
  if result matches .ok .success then
    Prog.write ref true
  return result

end AnySuccess
end TickTree
