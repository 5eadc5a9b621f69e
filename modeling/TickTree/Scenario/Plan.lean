/-
# Plans

A plan describes what a scenario is made of: ticks and nodes by their parts,
with names for those that are shared; tokens, contexts and the kind of clock;
and the steps that its user takes, one after the other.

Key definitions: `TickPlan`, `NodePlan`, `ContextPlan`, `Move`, `Plan`.
-/
import TickTree.Scenario.Script
import TickTree.Context
import TickTree.Schedule

namespace TickTree.Scenario

/-- The description of a tick. -/
inductive TickPlan where
  /-- No tick. A wrapper around no tick is no tick either. -/
  | absent
  | composite (kind : Composite)
  /-- A fork of its own. -/
  | fork
  /-- The shared tick of that name. -/
  | named (name : String)
  | not (inner : TickPlan)
  | memorize (inner : TickPlan)
  | any (inner : TickPlan)
  | async (inner : TickPlan) (id : Option String)
  /-- A pool whose n-th task is the n-th of `tasks`, then the last again; each
  is made afresh, unless `shared`. -/
  | background (tasks : List TickPlan) (id : Option String) (shared : Bool)
  | init (context : String)
  | cancel (context : String)
  | err (context : String)
  | done (context : String)
  | bind (context : String) (live dead : TickPlan)
  | leaf (script : Script)
  deriving Repr, Inhabited

/-- The description of nodes in a list of children. -/
inductive NodePlan where
  /-- The nodes of that name, or one of them. -/
  | named (name : String) (index : Option Nat)
  | plain (tick : TickPlan) (children : List NodePlan)
  /-- The siblings of one group. -/
  | synced (nodes : List NodePlan)
  /-- A node that expands to one option after the other, then to the last again
  or from the first. -/
  | dynamic (options : List NodePlan) (id : String) (loops : Bool)
  /-- `node` inside `depth` nodes with one child, each with a tick of its own. -/
  | wrapped (tick : TickPlan) (depth : Nat) (node : NodePlan)
  deriving Repr, Inhabited

/-- The description of a context. -/
structure ContextPlan where
  name : String
  parent : Option String
  expiry : Option Expiry
  deriving Repr, Inhabited

/-- What a wait or a handle is about. -/
inductive Target where
  | ticker (name : String)
  | handle (name : String)
  | signal (name : String)
  deriving DecidableEq, Repr, Inhabited

/-- One step of the user of a scenario. -/
inductive Move where
  | tick (node : NodePlan)
  | call (tick : TickPlan) (children : List NodePlan)
  | expand (node : NodePlan)
  | count (node : NodePlan)
  | release (gate : String) (permits : Nat)
  | poolSize (background : String)
  | isRunning (async : String)
  | scope (context : String) (asToken : Option String)
  | cancel (token : String)
  | childToken (token : String) (name : String)
  | isCancelled (token : String)
  | spawn (node : NodePlan) (name : String)
  | peek (thread : String)
  | join (thread : String)
  | startTicker (name : String) (node : NodePlan) (parent : Option String)
      (config : TickerConfig) (endsOnFailure : Bool)
  | startManager (name : String)
  /-- A mock: `delay` milliseconds after it is first asked to stop it is done,
  with the error `onStop`. -/
  | startMock (name : String) (onStop : Option RunError) (delay : Nat)
  | add (manager ticker : String)
  | stop (ticker : String)
  | isDone (ticker : String)
  | error (ticker : String)
  | wait (target : Target) (limit : Nat)
  | sleep (ms : Nat)
  | fail (mock : String) (error : Option RunError)
  | wasStopped (mock : String)
  | drop (ticker : String)
  | newSignal (name : String)
  | close (signal : String)
  | handle (name : String) (target : Target)
  | handleDone (handle : String)
  deriving Repr, Inhabited

/-- The clock of a scenario. -/
inductive Clock where
  /-- No timer service is current anywhere. -/
  | none
  /-- Time passes only while nothing else can happen. -/
  | virtual
  /-- Time passes by itself. -/
  | real
  deriving DecidableEq, Repr, Inhabited

/-- A scenario: its clock, what it makes, in this order, and its moves, each
with the number of times that it is made. -/
structure Plan where
  clock : Clock
  tokens : List String
  contexts : List ContextPlan
  ticks : List (String × TickPlan)
  nodes : List (String × NodePlan)
  moves : List (Move × Nat)
  deriving Repr, Inhabited

end TickTree.Scenario
