/-
# Composites

A composite ticks its children from left to right and keeps nothing between
calls. Sequence goes on past success, selector past failure, and `all` past
both; the first status that it does not go on past is its answer, and after the
last child it answers what it has seen so far. An error of a child ends the
composite: sequence and selector tag it with their name and the index of the
child, `all` hands it on as it is.

Key definitions: `Composite.goesPast`, `Composite.answer`, `Composite.runFrom`,
`Composite.run`.
-/
import TickTree.Prog

namespace TickTree

/-- Does the result ask to be ticked again? -/
def TickResult.isRunning : TickResult → Bool
  | .ok s => s.isRunning
  | .error _ => false

theorem TickResult.isRunning_iff {r : TickResult} : r.isRunning ↔ r = .ok .running := by
  cases r with
  | error e => simp [isRunning]
  | ok s => cases s <;> simp [isRunning, Status.isRunning]

namespace Composite

/-- The name that a composite tags errors with. -/
def label : Composite → String
  | sequence => "Sequence"
  | selector => "Selector"
  | all => "All"

/-- The error of child number `index`, as the composite shows it. -/
def tag : Composite → Nat → TickError → TickError
  | all, _, e => e
  | c, index, e => .child c.label index e

/-- The answer over no children. -/
def initial : Composite → Status
  | selector => .failure
  | _ => .success

/-- Does the composite go on to the next child past this status? -/
def goesPast : Composite → Status → Bool
  | sequence, s => s.isSuccess
  | selector, s => s.isFailure
  | all, s => s.isTerminal

/-- The answer so far, after going past a child's status. -/
def answer : Composite → Status → Status → Status
  | all, soFar, s => if s.isFailure then .failure else soFar
  | _, soFar, _ => soFar

variable {I : Interface}

/-- Ticks the children from number `index` on, with the answer so far. -/
def runFrom (c : Composite) : Nat → Status → List (Node I) → Prog I TickResult
  | _, soFar, [] => .pure (.ok soFar)
  | index, soFar, node :: nodes => .request (.tick node) fun
      | .error e => .pure (.error (c.tag index e))
      | .ok s =>
        if c.goesPast s then c.runFrom (index + 1) (c.answer soFar s) nodes else .pure (.ok s)

/-- Ticks the children. -/
def run (c : Composite) (children : List (Node I)) : Prog I TickResult :=
  c.runFrom 0 c.initial children

end Composite
end TickTree
