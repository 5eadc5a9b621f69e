/-
# Ticks and nodes

A tree is made of nodes. A node expands to a tick and to the children that the
tick works on; the tick, run against the children, answers a status or an
error. Ticks that remember something between calls keep it in cells, and name
their cell by a reference, so that one tick used at two places shares what it
remembers. A reference knows the kind of its cell.

The world around the tree enters through an interface: a list of questions
with the type of the answer to each. Arbitrary tick code is a `Routine`, a tree
of its requests to the children it is given and to the world. Code that builds
ticks or nodes is a `Recipe`, which may ask the world and make fresh cells.

Two things that such code could do are left out. The code of a tick uses the
children that it is given only in its calls and only as a routine can: it keeps
none of them for later, and what an expansion yields it counts but does not
tick. The code of a node and that of a generator do not panic.

What expanding and running mean is said in `TickTree.Evaluation`.

Key definitions: `Interface`, `Routine`, `Recipe`, `Composite`, `Tick`, `Node`.
-/
import TickTree.RunError

namespace TickTree

/-- The questions that may be put to the world around a tree, each with the
type of its answers. -/
structure Interface where
  Query : Type
  Reply : Query → Type

/-- What a cell is made to hold. -/
inductive CellKind where
  /-- The children of a memorized execution. -/
  | execution
  /-- The recorded result of one child of an execution. -/
  | record
  /-- Whether a child has succeeded. -/
  | flag
  /-- The last statuses of siblings. -/
  | statuses
  /-- The cycle of a fork. -/
  | round
  /-- The jobs in the background. -/
  | jobs
  /-- The worker of an asynchronous tick. -/
  | worker
  deriving DecidableEq, Repr, Inhabited

/-- The name of a cell. -/
structure Ref (kind : CellKind) where
  index : Nat
  deriving DecidableEq, Repr, Inhabited

/-- The code of a tick against `n` children, as the tree of what it does: it
ticks or expands a child, asks the world, panics, or returns. An expansion
shows the code whether there is a tick and how many children there are, and
gives it neither; no child outlives the call. -/
inductive Routine (I : Interface) (n : Nat) : Type where
  | finish (result : TickResult)
  | panic (payload : Payload)
  | tick (child : Fin n) (next : TickResult → Routine I n)
  | expand (child : Fin n) (next : Bool → Nat → Routine I n)
  | ask (query : I.Query) (next : I.Reply query → Routine I n)

/-- Code that builds an `α`: it asks the world, makes cells, and yields. It does
not panic. -/
inductive Recipe (I : Interface) (α : Type) : Type where
  | yield (value : α)
  | ask (query : I.Query) (next : I.Reply query → Recipe I α)
  | alloc (kind : CellKind) (next : Ref kind → Recipe I α)

/-- The composites, which keep nothing between calls. -/
inductive Composite where
  /-- Ticks children in order until one does not succeed. -/
  | sequence
  /-- Ticks children in order until one does not fail. -/
  | selector
  /-- Ticks children in order past failures. -/
  | all
  deriving DecidableEq, Repr, Inhabited

mutual

/-- The logic of a node. -/
inductive Tick (I : Interface) : Type where
  /-- Answers the same result on every call and looks at no child. -/
  | const (result : TickResult)
  /-- Arbitrary code, given the number of its children. -/
  | custom (code : (n : Nat) → Routine I n)
  /-- Asks the world and goes on as the answer says. -/
  | ask (query : I.Query) (next : I.Reply query → Tick I)
  /-- A sequence, a selector, or all. -/
  | composite (kind : Composite)
  /-- Inverts the terminal statuses of the tick inside. -/
  | not (inner : Tick I)
  /-- Lets each child of an execution finish only once. -/
  | memorize (execution : Ref .execution) (inner : Tick I)
  /-- Ends an execution well if a child succeeded during it. -/
  | any (flag : Ref .flag) (inner : Tick I)
  /-- Ticks the children in parallel and joins them over several calls. -/
  | fork (round : Ref .round)
  /-- Keeps running tasks in the background, oldest first. -/
  | background (jobs : Ref .jobs) (generator : Recipe I (Tick I))
  /-- Runs the tick inside on a worker of its own. -/
  | async (worker : Ref .worker) (inner : Tick I)
  /-- Records the first terminal result of the tick inside. -/
  | recording (record : Ref .record) (inner : Tick I)
  /-- Notes when the tick inside succeeds. -/
  | flagging (flag : Ref .flag) (inner : Tick I)
  /-- Runs the tick inside as sibling number `index` of a group. -/
  | gated (statuses : Ref .statuses) (index : Nat) (inner : Tick I)
  /-- Turns a failure of the tick inside into the stop signal. -/
  | exitOnFailure (inner : Tick I)

/-- A node of a tree: what it expands to. -/
inductive Node (I : Interface) : Type where
  /-- Always the same tick, if any, and the same children. -/
  | plain (tick : Option (Tick I)) (children : List (Node I))
  /-- What the node that a recipe yields expands to. -/
  | made (recipe : Recipe I (Node I))
  /-- A child of a memorized execution, with its record. -/
  | memorized (record : Ref .record) (node : Node I)
  /-- A child whose successes are noted. -/
  | flagged (flag : Ref .flag) (node : Node I)
  /-- Sibling number `index` of a group that advances one at a time. -/
  | sibling (statuses : Ref .statuses) (index : Nat) (node : Node I)
  /-- A root whose failure ends its ticker. -/
  | exitOnFailure (node : Node I)

end

namespace Recipe
variable {I : Interface} {α β : Type}

/-- One recipe after another. -/
def bind : Recipe I α → (α → Recipe I β) → Recipe I β
  | yield a, f => f a
  | ask query next, f => ask query fun reply => (next reply).bind f
  | alloc kind next, f => alloc kind fun ref => (next ref).bind f

instance : Monad (Recipe I) where
  pure := yield
  bind := bind

/-- Makes a cell and yields its name. -/
def cell (kind : CellKind) : Recipe I (Ref kind) := alloc kind yield

/-- Asks the world and yields its answer. -/
def query (q : I.Query) : Recipe I (I.Reply q) := ask q yield

end Recipe

namespace Tick
variable {I : Interface}

/-- Succeeds while every child does, in order. -/
def sequence : Tick I := composite .sequence

/-- Succeeds with the first child that does, in order. -/
def selector : Tick I := composite .selector

/-- Succeeds if every child does, ticking all of them. -/
def all : Tick I := composite .all

/-- A fork with a cycle of its own. -/
def newFork : Recipe I (Tick I) := do return fork (← Recipe.cell .round)

/-- Memorizes the children of `inner`. -/
def newMemorize (inner : Tick I) : Recipe I (Tick I) := do
  return memorize (← Recipe.cell .execution) inner

/-- Succeeds over `inner` if one of its children does. -/
def newAny (inner : Tick I) : Recipe I (Tick I) := do return any (← Recipe.cell .flag) inner

end Tick

namespace Node
variable {I : Interface}

/-- A node that always expands to `tick` and `children`. -/
def of (tick : Tick I) (children : List (Node I)) : Node I := plain (some tick) children

/-- A node without children. -/
def leaf (tick : Tick I) : Node I := of tick []

/-- A sequence over `children`. -/
def sequence (children : List (Node I)) : Node I := of .sequence children

/-- A selector over `children`. -/
def selector (children : List (Node I)) : Node I := of .selector children

/-- A node that ticks all `children`. -/
def all (children : List (Node I)) : Node I := of .all children

/-- A node whose result is the inverse of `tick` over `children`. -/
def not (tick : Tick I) (children : List (Node I)) : Node I := of (.not tick) children

/-- The siblings of one group: `nodes`, of which only those that advance run. -/
def synced (nodes : List (Node I)) : Recipe I (List (Node I)) := do
  let statuses ← Recipe.cell .statuses
  return nodes.mapIdx fun index node => sibling statuses index node

end Node
end TickTree
