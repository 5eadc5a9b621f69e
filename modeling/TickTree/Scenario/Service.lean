/-
# The timer service

The tasks of a scenario run while its user sleeps or waits. The service runs the
tasks in its queue one after the other, each until it has to wait again; when
the queue is empty it lets time pass to the next timer, and the tasks whose
timers go off are queued, earliest first. The user is asked first whenever time
has passed, so a task that is due at the end of a sleep runs only in the next
one. While a tick is in progress a virtual clock stands still.

Key definitions: `Scene`, `settle`, `runTask`, `drain`, `Stage.advance`, `await`.
-/
import TickTree.Scenario.Stage

namespace TickTree.Scenario

/-- A machine on the stage of a scenario. -/
abbrev Scene := Machine Line Stage

/-- How many steps are waited for. Every run of a plan ends long before. -/
def patience : Nat := 1000000000000

namespace Stage

/-- The time at which a task is due by its timer. -/
def due? (s : Stage) : Task → Option Nat
  | .driver x =>
    match (s.system.ticker? x).map Ticker.phase with
    | some (.waiting due) => some due
    | _ => none
  | .timer k => s.system.timers[k]?.bind fun t => if t.isOver then none else some t.due
  | .mock x =>
    match (s.mock? x).map Mock.phase with
    | some (.sleeping due) => some due
    | _ => none
  | _ => none

/-- Is a tick in progress? -/
def isTicking (s : Stage) : Bool :=
  s.system.members.any fun
    | .ticker t => t.isTicking
    | _ => false

/-- The stage after its time has passed to the next timer, or to the deadline
of the user if that comes first, and the timers have gone off; nothing if there
is none. A timer that is late goes off at once. -/
def advance (s : Stage) (deadline : Option Nat) : Option Stage :=
  if s.clock = .virtual && s.isTicking then none
  else
    let dues := (deadline.toList ++ s.tasks.filterMap s.due?).filter (s.system.elapsed < ·)
    dues.min?.map fun next =>
      let s := { s with system :=
        (s.system.act (.pass (next - s.system.now))).act .catchUp }
      let woken := s.woken.mergeSort fun a b => (s.due? a).getD 0 ≤ (s.due? b).getD 0
      { s with queue := s.queue ++ woken }

/-- A step of the pending end of a mock: it falls asleep when it was asked to
stop, and is done when it wakes, unless it is done already. -/
def runMock (s : Stage) (x : Nat) : Stage :=
  match s.mock? x with
  | none => s
  | some mock =>
    let due? := match mock.phase with
      | .asked => some (s.system.now + mock.delay)
      | .sleeping due => some due
      | _ => none
    match due? with
    | none => s
    | some due =>
      if due ≤ s.system.elapsed then
        let s := s.modifyMock x fun m => { m with phase := .ended }
        if s.system.isDone x then s else s.act (.settle x mock.onStop)
      else s.modifyMock x fun m => { m with phase := .sleeping due }

/-- The root of the ticker whose tick the task has just started. -/
def startedTick? (s : Stage) : Task → Option (Nat × Node Line)
  | .driver x =>
    if (s.system.ticker? x).any Ticker.isTicking then (s.roots.lookup x).map (x, ·) else none
  | _ => none

end Stage

/-- Is the thread that of a ticker's tick, and has it ended? -/
def isSpentTick (t : Thread Line) : Bool :=
  match t.origin with
  | .outside tag => t.outcome?.isSome && 1 < tag
  | _ => false

/-- Lets the threads run until each is blocked or has ended. -/
def settle (m : Scene) : Scene :=
  let m := m.settle environment patience
  { m with threads := m.threads.filter fun t => !isSpentTick t }

/-- Lets a task take its steps until it has to wait. The driver of a ticker waits
for the tick that it starts. -/
def takeSteps (task : Task) : Nat → Scene → Scene
  | 0, m => m
  | fuel + 1, m =>
    match task.action?.bind m.world.outside.system.step with
    | none => m
    | some system =>
      let m := m.mapOutside (·.change system)
      match m.world.outside.startedTick? task with
      | some (x, root) => settle (m.spawn (Part.tick x).tag root.call).2
      | none => takeSteps task fuel m

/-- Runs a task that was in the queue. -/
def runTask (task : Task) (m : Scene) : Scene :=
  let m := m.mapOutside fun s => { s with current := some task }
  let m := match task with
    | .mock x => m.mapOutside (·.runMock x)
    | _ => takeSteps task patience m
  (settle m).mapOutside fun s =>
    let tasks := if s.isOver task then s.tasks.filter (· != task) else s.tasks
    { s with current := none, tasks }.wake

/-- Runs the tasks in the queue until it is empty. -/
def drain : Nat → Scene → Scene
  | 0, m => m
  | fuel + 1, m =>
    match m.world.outside.queue with
    | [] => m
    | task :: queue => drain fuel (runTask task (m.mapOutside fun s => { s with queue }))

/-- Runs tasks and lets time pass until the goal is reached, the deadline has
come, or nothing more can happen; says whether the goal was reached. -/
def await (goal : Scene → Bool) (deadline : Option Nat) : Nat → Scene → Bool × Scene
  | 0, m => (goal m, m)
  | fuel + 1, m =>
    if goal m then (true, m)
    else if deadline.any (· ≤ m.world.outside.system.elapsed) then (false, m)
    else if !m.world.outside.queue.isEmpty then await goal deadline fuel (drain patience m)
    else match m.world.outside.advance deadline with
      | some s => await goal deadline fuel (m.mapOutside fun _ => s)
      | none => (false, m)

end TickTree.Scenario
