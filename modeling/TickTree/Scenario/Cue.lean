/-
# Cues

The ticks of a scenario put their questions to the stage: a leaf asks what to
play, a gate when it opens, a dynamic node which option comes next, and what
happens is noted. `Line` is the interface of these questions together with
those of contexts.

Key definitions: `Remark`, `Cue`, `Cue.Reply`, `Line`, `perform`,
`leafTick`.
-/
import TickTree.Scenario.Script
import TickTree.Context

namespace TickTree.Scenario

/-- What a log entry says. -/
inductive Remark where
  /-- A leaf was called with so many children. -/
  | called (children : Nat)
  /-- A leaf ticked a child. -/
  | polled (result : TickResult)
  /-- A leaf expanded a child. -/
  | expanded (hasTick : Bool) (children : Nat)
  /-- A dynamic node was expanded. -/
  | chosen
  deriving Repr, Inhabited

/-- The call that a leaf is asked to play. -/
structure Call where
  id : String
  turn : Nat
  entry : Entry
  deriving Repr, Inhabited

/-- The questions of a scenario's ticks. -/
inductive Cue where
  /-- A new leaf that plays a script. -/
  | newLeaf (script : Script)
  /-- A call of a leaf with so many children: what does it play? -/
  | call (leaf : Nat) (children : Nat)
  | act (deed : Deed)
  /-- Wait for a permit of a gate and take it. -/
  | pass (gate : String)
  /-- Wait until the fork thread of this step that called a leaf has ended. -/
  | behind (leaf : String)
  /-- Let time pass, if the clock is virtual. -/
  | spend (ms : Nat)
  | note (id : String) (turn : Nat) (remark : Remark)
  /-- A new dynamic node. -/
  | newDynamic (id : String) (options : Nat) (loops : Bool)
  /-- Which option does the node expand to this time? -/
  | choose (dynamic : Nat)
  /-- A new pool. -/
  | newPool
  /-- The number of the task that the pool makes now, from 1. -/
  | nextTask (pool : Nat)
  /-- A pool is known by that name from now on. -/
  | namePool (name : String) (jobs : Ref .jobs)
  /-- An asynchronous tick is known by that name from now on. -/
  | nameAsync (name : String) (worker : Ref .worker)
  /-- What the driver of the scenario saw on expanding a node. -/
  | saw (hasTick : Bool) (children : Nat)
  deriving Repr, Inhabited

/-- The type of the answer to a question. -/
def Cue.Reply : Cue → Type
  | newLeaf _ => Nat
  | call _ _ => Option Call
  | choose _ => Nat
  | newDynamic _ _ _ => Nat
  | newPool => Nat
  | nextTask _ => Nat
  | _ => Unit

/-- The interface of the cues alone. -/
def Cues : Interface := { Query := Cue, Reply := Cue.Reply }

/-- The questions of a scenario's ticks, and those of contexts. -/
abbrev Line : Interface := Cues.withContexts

/-- The steps of a routine that only put a question. -/
def tell {n : Nat} (cue : Cue) (next : Routine Line n) : Routine Line n :=
  .ask (.inr cue) fun _ => next

/-- Does something with each of the children that there are. -/
def forChildren {n : Nat} (visit : Fin n → Routine Line n → Routine Line n) (indices : List Nat)
    (next : Routine Line n) : Routine Line n :=
  indices.foldr (fun i next => if h : i < n then visit ⟨i, h⟩ next else next) next

/-- Plays the outcome of a call. -/
def perform {n : Nat} (id : String) (turn : Nat) : Play → Routine Line n
  | .status s => .finish (.ok s)
  | .error e => .finish (.error e)
  | .panic payload => .panic payload
  | .child i => if h : i < n then .tick ⟨i, h⟩ .finish else .finish (.ok .failure)
  | .poll indices =>
    forChildren (fun child next => .tick child fun result =>
      tell (.note id turn (.polled result)) next) indices
      (.finish (.ok .running))
  | .expand indices =>
    forChildren (fun child next => .expand child fun hasTick below =>
      tell (.note id turn (.expanded hasTick below)) next) indices
      (.finish (.ok .running))

/-- Plays a call: its deeds, its waits, and its outcome. -/
def Call.run {n : Nat} (c : Call) : Routine Line n :=
  let outcome := perform c.id c.turn c.entry.play
  let timed := if c.entry.takes = 0 then outcome else tell (.spend c.entry.takes) outcome
  let ordered := match c.entry.behind with
    | some leaf => tell (.behind leaf) timed
    | none => timed
  let gated := match c.entry.gate with
    | some gate => tell (.pass gate) ordered
    | none => ordered
  c.entry.deeds.foldr (fun deed next => tell (.act deed) next) gated

/-- The tick of a leaf. -/
def leafTick (leaf : Nat) : Tick Line :=
  .custom fun n => .ask (.inr (.call leaf n)) fun (call : Option Call) =>
    match call with
    | some call => call.run
    | none => .finish (.ok .failure)

end TickTree.Scenario
