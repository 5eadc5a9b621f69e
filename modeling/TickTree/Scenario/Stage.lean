/-
# The stage

The stage is the world around the ticks of a scenario: the system of tickers
and managers with its clock, the leaves and how often each was called, the
gates, the log, and the tasks of the timer service. What ticks and users do to
the system goes through `Stage.change`, which also finds the tasks that the
change starts and those that it wakes; idle time is the timer service's own.

A task is a driver, a supervisor, a watcher, the timer of a scope, or the
pending end of a mock. It is awake when it could take a step; awake tasks wait
in a queue, in the order in which they woke.

Key definitions: `Task`, `Stage`, `Stage.change`, `Stage.answer`, `environment`.
-/
import TickTree.Scenario.Build
import TickTree.Machine
import TickTree.System

namespace TickTree.Scenario

/-- A log entry: who, which call, what, when, and whether the thread that made
it was that of the scenario's user. -/
structure LogEntry where
  id : String
  turn : Nat
  remark : Remark
  time : Nat
  isOwn : Bool
  deriving Repr, Inhabited

/-- A leaf: its script, and how often it was called. -/
structure Leaf where
  script : Script
  calls : Nat
  deriving Repr, Inhabited

/-- A dynamic node: its name, the number of its options, whether it begins
again, and how often it was expanded. -/
structure Dynamic where
  id : String
  options : Nat
  loops : Bool
  calls : Nat
  deriving Repr, Inhabited

/-- How far the pending end of a mock is. -/
inductive Mock.Phase where
  | untouched
  /-- It was asked to stop. -/
  | asked
  /-- It will be done at that time. -/
  | sleeping (due : Nat)
  | ended
  deriving DecidableEq, Repr, Inhabited

/-- A mock: the member it plays, the error it ends with when it is stopped, and
how long that takes. -/
structure Mock where
  member : Nat
  onStop : Option RunError
  delay : Nat
  phase : Mock.Phase
  deriving Repr, Inhabited

/-- A task of the timer service. -/
inductive Task where
  | driver (ticker : Nat)
  | supervisor (manager : Nat)
  | watcher (manager position : Nat)
  | timer (timer : Nat)
  | mock (member : Nat)
  deriving DecidableEq, Repr, Inhabited

/-- The action that a task takes a step with; the end of a mock is none of the
system's own. -/
def Task.action? : Task → Option Action
  | driver x => some (.drive x)
  | supervisor m => some (.supervise m)
  | watcher m k => some (.watch m k)
  | timer k => some (.runTimer k)
  | mock _ => none

/-- What threads that the scenario starts are for. -/
inductive Part where
  /-- A step of the scenario's user. -/
  | own
  /-- A node ticked on a thread of its own. -/
  | spawned
  /-- A tick of a ticker. -/
  | tick (ticker : Nat)
  deriving DecidableEq, Repr, Inhabited

/-- The tag of the threads of a part. -/
def Part.tag : Part → Nat
  | own => 0
  | spawned => 1
  | tick x => x + 2

/-- The part of the threads of a tag. -/
def Part.ofTag : Nat → Part
  | 0 => own
  | 1 => spawned
  | x + 2 => tick x

@[simp] theorem Part.ofTag_tag (p : Part) : ofTag p.tag = p := by
  cases p <;> rfl

/-- The world around the ticks of a scenario. -/
structure Stage where
  clock : Clock
  system : System := .empty
  leaves : Array Leaf := #[]
  dynamics : Array Dynamic := #[]
  /-- How many tasks each pool has made. -/
  made : Array Nat := #[]
  /-- The permits of each gate that has had one. -/
  permits : List (String × Nat) := []
  /-- The leaves called on fork threads in this step, with their threads. -/
  forked : List (String × Nat) := []
  /-- The fork threads that ended in this step. -/
  joined : List Nat := []
  /-- The log of this step, latest first. -/
  log : List LogEntry := []
  /-- What the user saw on expanding a node. -/
  seen : Bool × Nat := (false, 0)
  names : Names := {}
  tokens : List (String × Nat) := []
  members : List (String × Nat) := []
  pools : List (String × Ref .jobs) := []
  asyncs : List (String × Ref .worker) := []
  /-- Named threads. -/
  threads : List (String × Nat) := []
  /-- Whether each signal is closed. -/
  signals : Array Bool := #[]
  signalNames : List (String × Nat) := []
  /-- What each named handle is a handle of: a signal, or a member. -/
  handles : List (String × (Nat ⊕ Nat)) := []
  /-- The root of each ticker. -/
  roots : List (Nat × Node Line) := []
  mocks : List Mock := []
  /-- The tasks that have not ended, in the order in which they started. -/
  tasks : List Task := []
  /-- The tasks that are awake, in the order in which they woke. -/
  queue : List Task := []
  /-- The task that is running. -/
  current : Option Task := none

namespace Stage

/-- The mock that plays a member. -/
def mock? (s : Stage) (x : Nat) : Option Mock := s.mocks.find? (·.member == x)

/-- Changes the mock that plays a member. -/
def modifyMock (s : Stage) (x : Nat) (f : Mock → Mock) : Stage :=
  { s with mocks := s.mocks.map fun m => if m.member == x then f m else m }

/-- Could the task take a step? -/
def isAwake (s : Stage) : Task → Bool
  | .mock x =>
    match (s.mock? x).map Mock.phase with
    | some .asked => true
    | some (.sleeping due) => due ≤ s.system.elapsed
    | _ => false
  | task =>
    match task.action? with
    | some action => (s.system.step action).isSome
    | none => false

/-- Has the task ended? -/
def isOver (s : Stage) : Task → Bool
  | .driver x => (s.system.ticker? x).any (·.isDone)
  | .supervisor m => (s.system.manager? m).any (·.isDone)
  | .watcher m k =>
    (s.system.manager? m).any fun m => m.watchers[k]?.any (·.phase == .finished)
  | .timer k => s.system.timers[k]?.any (·.isOver)
  | .mock x => (s.mock? x).any (·.phase == .ended)

/-- The tasks that a change of the system starts. -/
def startedTasks (old new : System) : List Task :=
  let members := (List.range' old.members.size (new.members.size - old.members.size)).filterMap
    fun x => match new.members[x]? with
      | some (.ticker _) => some (.driver x)
      | some (.manager _) => some (.supervisor x)
      | _ => none
  let timers := (List.range' old.timers.size (new.timers.size - old.timers.size)).map .timer
  let watchers := (List.range old.members.size).flatMap fun x =>
    match old.manager? x, new.manager? x with
    | some m, some m' =>
      (List.range' m.watchers.length (m'.watchers.length - m.watchers.length)).map (.watcher x)
    | _, _ => []
  let mocks := (List.range old.members.size).filterMap fun x =>
    match old.outsider? x, new.outsider? x with
    | some o, some o' => if o.stops = 0 && o'.stops != 0 then some (.mock x) else none
    | _, _ => none
  members ++ timers ++ watchers ++ mocks

/-- The tasks that are awake but not in the queue yet. The running task goes
back into the queue only after its run. -/
def woken (s : Stage) : List Task :=
  s.tasks.filter fun t => !s.queue.contains t && s.current != some t && s.isAwake t

/-- Queues the tasks that have woken. -/
def wake (s : Stage) : Stage := { s with queue := s.queue ++ s.woken }

/-- The stage after a change of its system. New tasks are awake; where there is
no timer service, there are none. -/
def change (s : Stage) (system : System) : Stage :=
  let started := if s.clock = .none then [] else startedTasks s.system system
  let s := { s with system, tasks := s.tasks ++ started, queue := s.queue ++ started }
  let s := started.foldl (fun s task => match task with
    | .mock x => s.modifyMock x fun m => { m with phase := .asked }
    | _ => s) s
  s.wake

/-- The stage after an action on its system, if that is possible. -/
def act (s : Stage) (a : Action) : Stage := s.change (s.system.act a)

/-- Is a timer service current for a thread? Not on the threads of forks and of
workers. -/
def isTimed (s : Stage) (origin : Origin) : Bool :=
  s.clock != .none && origin matches .outside _

/-- The time that log entries are made at; only a virtual clock shows it. -/
def time (s : Stage) : Nat := if s.clock = .virtual then s.system.now else 0

/-- Makes a log entry. -/
def note (s : Stage) (caller : Caller) (id : String) (turn : Nat) (remark : Remark) : Stage :=
  { s with log := { id, turn, remark, time := s.time,
                    isOwn := caller.origin = .outside Part.own.tag } :: s.log }

/-- The permits of a gate. -/
def permitsOf (s : Stage) (gate : String) : Nat := (s.permits.lookup gate).getD 0

/-- The stage with that number of permits of a gate. -/
def setPermits (s : Stage) (gate : String) (n : Nat) : Stage :=
  { s with permits := (gate, n) :: s.permits.filter (·.1 != gate) }

/-- Adds permits to a gate. -/
def release (s : Stage) (gate : String) (n : Nat) : Stage :=
  s.setPermits gate (s.permitsOf gate + n)

/-- The token of that name. -/
def token? (s : Stage) (name : String) : Option Nat := s.tokens.lookup name

/-- The member of that name. -/
def member? (s : Stage) (name : String) : Option Nat := s.members.lookup name

/-- Carries out the deed of a leaf. -/
def doDeed (s : Stage) : Deed → Stage
  | .release gate => s.release gate 1
  | .cancel token => ((s.token? token).map fun t => s.act (.cancel t)).getD s
  | .cancelScope context => s.act (.cancelScope (s.names.context context))
  | .stop ticker => ((s.member? ticker).map fun x => s.act (.stop x)).getD s

/-- Notes on which fork thread a leaf is called. -/
def enter (s : Stage) (caller : Caller) (leaf : String) : Stage :=
  match caller.origin with
  | .child _ _ => { s with forked := (leaf, caller.id) :: s.forked }
  | _ => s

/-- Has a fork thread of this step that called the leaf ended? -/
def isBehind (s : Stage) (leaf : String) : Bool :=
  s.forked.any fun (id, thread) => id == leaf && s.joined.contains thread

/-- The answer to a cue, or nothing while it has to wait. -/
def answer (s : Stage) (caller : Caller) : (c : Cue) → Option (c.Reply × Stage)
  | .newLeaf script =>
    some (s.leaves.size, { s with leaves := s.leaves.push { script, calls := 0 } })
  | .call leaf children =>
    match s.leaves[leaf]? with
    | none => some (none, s)
    | some l =>
      let turn := l.calls + 1
      let id := l.script.id
      let s := { s with leaves := s.leaves.modify leaf fun l => { l with calls := turn } }
      let s := if l.script.quiet then s else s.note caller id turn (.called children)
      some ((l.script.entry? turn).map fun entry => { id, turn, entry }, s.enter caller id)
  | .act deed => some ((), s.doDeed deed)
  | .pass gate =>
    match s.permitsOf gate with
    | 0 => none
    | n + 1 => some ((), s.setPermits gate n)
  | .behind leaf => if s.isBehind leaf then some ((), s) else none
  | .spend ms => some ((), if s.clock = .virtual then s.act (.pass ms) else s)
  | .note id turn remark => some ((), s.note caller id turn remark)
  | .newDynamic id options loops =>
    let dynamics := s.dynamics.push { id, options, loops, calls := 0 }
    some (s.dynamics.size, { s with dynamics })
  | .choose dynamic =>
    match s.dynamics[dynamic]? with
    | none => some ((0 : Nat), s)
    | some d =>
      let turn := d.calls + 1
      let s := { s with dynamics := s.dynamics.modify dynamic fun d => { d with calls := turn } }
      some (turnPlace d.options d.loops turn, s.note caller d.id turn .chosen)
  | .newPool => some (s.made.size, { s with made := s.made.push 0 })
  | .nextTask pool =>
    let n := s.made.getD pool 0 + 1
    some (n, { s with made := s.made.setIfInBounds pool n })
  | .namePool name jobs => some ((), { s with pools := (name, jobs) :: s.pools })
  | .nameAsync name worker => some ((), { s with asyncs := (name, worker) :: s.asyncs })
  | .saw hasTick children => some ((), { s with seen := (hasTick, children) })

/-- The stage after a thread has ended: the tick of a ticker is over, and the
leaves called on a fork thread are left behind. -/
def threadEnded (s : Stage) (caller : Caller) (outcome : Outcome) : Stage :=
  match caller.origin with
  | .outside tag =>
    match Part.ofTag tag with
    | .tick x => s.act (.tickEnded x outcome)
    | _ => s
  | .child _ _ => { s with joined := caller.id :: s.joined }
  | .worker _ => s

end Stage

/-- How the stage treats the threads of a scenario. -/
def environment : Environment Line Stage where
  answer caller query s :=
    match query with
    | .inl q =>
      (q.answer (s.isTimed caller.origin) s.system.toScopes).map fun (reply, scopes) =>
        (reply, s.change (s.system.withScopes scopes))
    | .inr c => s.answer caller c
  ended caller outcome s := s.threadEnded caller outcome

end TickTree.Scenario
