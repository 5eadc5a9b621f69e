/-
# Expanding and ticking

Expanding a node is a program that yields its tick, if there is one, and its
children. Ticking a node expands it and runs the tick against the children; a
node without a tick answers the error for that. A wrapped node expands the node
inside exactly once and has the same children. An expansion ends with what it
yields: the code of a node makes cells and asks the world, and does not panic.

Both follow the tree of the node or tick. What a tick does to a child is a
request of the program, not a call here.

Key definitions: `Node.expand`, `Tick.run`, `Node.call`.
-/
import TickTree.Memorize
import TickTree.AnySuccess
import TickTree.Siblings
import TickTree.Fork
import TickTree.Background
import TickTree.Asynchronous

namespace TickTree
variable {I : Interface}

/-- What a result becomes under a ticker that ends on failures. -/
def TickResult.exitOnFailure : TickResult → TickResult
  | .ok .failure => .error .exitOnFailure
  | result => result

/-- A result with its status inverted. -/
def TickResult.invert (result : TickResult) : TickResult := result.map Status.invert

mutual

/-- The tick of a node, if there is one, and its children. -/
def Node.expand : Node I → Prog I (Option (Tick I) × List (Node I))
  | plain tick children => .pure (tick, children)
  | made recipe => expandMade recipe
  | memorized ref node => Memorize.expand ref node.expand
  | flagged ref node => AnySuccess.expand ref node.expand
  | sibling ref index node => Siblings.expand ref index node.expand
  | exitOnFailure node => do
    let (tick, children) ← node.expand
    return (tick.map .exitOnFailure, children)
termination_by structural node => node

/-- What the node that a recipe yields expands to. -/
def Node.expandMade : Recipe I (Node I) → Prog I (Option (Tick I) × List (Node I))
  | .yield node => node.expand
  | .ask query next => .request (.ask query) fun reply => expandMade (next reply)
  | .alloc kind next => .request (.alloc kind) fun ref => expandMade (next ref)
termination_by structural recipe => recipe

end

/-- Arbitrary code carried out against children. -/
def Routine.run (children : List (Node I)) : Routine I children.length → Prog I TickResult
  | finish result => .pure result
  | panic payload => .panic payload
  | tick child next => .request (.tick (children.get child)) fun result => (next result).run
  | expand child next => (children.get child).expand.bind fun expansion =>
      (next expansion.1.isSome expansion.2.length).run
  | ask query next => .request (.ask query) fun reply => (next reply).run

/-- Runs a tick against children. -/
def Tick.run : Tick I → List (Node I) → Prog I TickResult
  | const result, _ => .pure result
  | custom code, children => (code children.length).run
  | ask query next, children => .request (.ask query) fun reply => (next reply).run children
  | composite kind, children => kind.run children
  | not inner, children => do return (← inner.run children).invert
  | memorize ref inner, children => Memorize.run ref inner.run children
  | any ref inner, children => AnySuccess.run ref inner.run children
  | fork ref, children => Fork.run ref children
  | background ref generator, children => Background.run ref generator children
  | async ref inner, children => Asynchronous.run ref inner children
  | recording ref inner, children => Memorize.record ref (inner.run children)
  | flagging ref inner, children => AnySuccess.note ref (inner.run children)
  | gated ref index inner, children => Siblings.gate ref index (inner.run children)
  | exitOnFailure inner, children => do
    return TickResult.exitOnFailure (← inner.run children)
termination_by structural tick => tick

/-- Ticks a node: expands it, and runs its tick against its children. -/
def Node.call (node : Node I) : Prog I TickResult := do
  match ← node.expand with
  | (some tick, children) => tick.run children
  | (none, _) => return .error .missingTick

end TickTree
