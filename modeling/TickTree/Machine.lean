/-
# The machine

The machine carries programs out on threads. A thread has the program of the
tick it is in and, below it, a frame for every tick that waits for that one. A
frame holds the locks that its tick has taken. A panic drops the frames one by
one, gives their locks back, and ends the thread.

A thread takes one request at a time. It can be blocked: on a lock that another
thread holds, on nodes that it ticks in parallel, or on a question that the
world cannot answer yet. `Thread.step` says what one request does to the thread
and to the world it shares with the others; any order of steps of the threads
is a run. `Machine.settle` is the run in which the first thread that can step
does so, until none can. A thread that is started goes in front of the one that
starts it, so a worker runs before its starter goes on.

The thread of a node ticked in parallel hands its report to the thread that
waits for it when it ends, and the thread of a worker leaves its result in the
cell of the worker. A thread that panicked hands over nothing.

Key definitions: `Thread`, `World`, `World.serve`, `Environment`, `Thread.step`,
`Machine`, `Machine.step`, `Machine.settle`.
-/
import TickTree.Evaluation

namespace TickTree

/-- Where a thread comes from. -/
inductive Origin where
  /-- Started by the world, under a tag of its choice. -/
  | outside (tag : Nat)
  /-- Ticks the node at `position` among those that thread `parent` ticks in
  parallel. -/
  | child (parent : Nat) (position : Nat)
  /-- Runs a worker. -/
  | worker (ref : Ref .worker)
  deriving DecidableEq, Repr, Inhabited

/-- A lock: the cell that it belongs to. -/
structure Lock where
  kind : CellKind
  index : Nat
  deriving DecidableEq, Repr, Inhabited

/-- The lock of a cell. -/
def Ref.lock {kind : CellKind} (ref : Ref kind) : Lock := ⟨kind, ref.index⟩

/-- A thread as the world sees it. -/
structure Caller where
  id : Nat
  origin : Origin
  deriving DecidableEq, Repr, Inhabited

/-- How the world, whose state is a `σ`, treats the threads: it answers their
questions, some of them only later, and takes note of their ends. -/
structure Environment (I : Interface) (σ : Type) where
  answer : Caller → (query : I.Query) → σ → Option (I.Reply query × σ)
  ended : Caller → Outcome → σ → σ

/-- What the threads share: the cells, the locks held, and the world. -/
structure World (I : Interface) (σ : Type) where
  heap : Heap I
  locked : List Lock
  outside : σ

/-- A tick that waits for another: how it goes on, and the locks it holds. -/
structure Frame (I : Interface) where
  next : TickResult → Prog I TickResult
  held : List Lock

/-- What a thread is doing. -/
inductive Activity (I : Interface) where
  /-- It is about to make the first request of a program. -/
  | running (prog : Prog I TickResult)
  /-- It waits for `pending` nodes ticked in parallel, with the reports that
  have arrived. -/
  | joining (pending : Nat) (reports : List Report) (next : List Report → Prog I TickResult)
  /-- It has ended. -/
  | ended (outcome : Outcome)

/-- A thread: its activity, the locks held by the tick it is in, and the ticks
that wait for that one, innermost first. -/
structure Thread (I : Interface) extends Caller where
  activity : Activity I
  held : List Lock
  frames : List (Frame I)

/-- What one step of a thread leaves: the thread, the world, and the threads to
start. -/
structure Step (I : Interface) (σ : Type) where
  thread : Thread I
  world : World I σ
  started : List (Origin × Prog I TickResult)

namespace World
variable {I : Interface} {σ : Type}

/-- Gives locks back. -/
def unlock (w : World I σ) (locks : List Lock) : World I σ :=
  { w with locked := w.locked.filter fun l => !locks.contains l }

/-- Serves a request that takes no other thread: the answer, the locks that the
tick holds after it, and the world. Nothing if the request has to wait, or is
for the machine to carry out. -/
def serve (env : Environment I σ) (caller : Caller) (held : List Lock) (w : World I σ) :
    (r : Request I) → Option (r.Reply × List Lock × World I σ)
  | .read _ ref => some (w.heap.get ref, held, w)
  | .swap _ ref state => some (w.heap.get ref, held, { w with heap := w.heap.set ref state })
  | .alloc kind =>
    let (ref, heap) := w.heap.alloc kind
    some (ref, held, { w with heap })
  | .acquire _ ref =>
    if w.locked.contains ref.lock then none
    else some ((), ref.lock :: held, { w with locked := ref.lock :: w.locked })
  | .release _ ref => some ((), held.filter (· != ref.lock), w.unlock [ref.lock])
  | .ask query =>
    (env.answer caller query w.outside).map fun (reply, outside) =>
      (reply, held, { w with outside })
  | .tick _ | .parallel _ | .start _ _ _ | .panic _ => none

end World

namespace Thread
variable {I : Interface} {σ : Type}

/-- A thread that begins a program. -/
def begin (id : Nat) (origin : Origin) (prog : Prog I TickResult) : Thread I :=
  { id, origin, activity := .running prog, held := [], frames := [] }

/-- How the thread ended, if it has. -/
def outcome? (t : Thread I) : Option Outcome :=
  match t.activity with
  | .ended outcome => some outcome
  | _ => none

/-- Leaves the tick it is in: the tick below goes on as `next` says, and if
there is none the thread ends as `last` says. The locks of the tick are given
back. -/
def leave (t : Thread I) (w : World I σ) (next : Frame I → Prog I TickResult) (last : Outcome) :
    Step I σ :=
  match t.frames with
  | [] => ⟨{ t with activity := .ended last, held := [] }, w.unlock t.held, []⟩
  | frame :: frames =>
    ⟨{ t with activity := .running (next frame), held := frame.held, frames }, w.unlock t.held, []⟩

/-- One request of a running thread, or nothing if it is blocked. -/
def serve (env : Environment I σ) (t : Thread I) (w : World I σ) :
    (r : Request I) → (r.Reply → Prog I TickResult) → Option (Step I σ)
  | .tick node, next =>
    let frames := ⟨next, t.held⟩ :: t.frames
    some ⟨{ t with activity := .running node.call, held := [], frames }, w, []⟩
  | .parallel nodes, next =>
    some ⟨{ t with activity := .joining nodes.length [] next }, w,
      nodes.mapIdx fun position node => (.child t.id position, node.call)⟩
  | .start ref tick children, next =>
    some ⟨{ t with activity := .running (next ()) }, w, [(.worker ref, tick.run children)]⟩
  | .panic payload, _ => some (t.leave w (fun _ => .panic payload) (.panicked payload))
  | r, next =>
    (w.serve env t.toCaller t.held r).map fun (reply, held, world) =>
      ⟨{ t with activity := .running (next reply), held }, world, []⟩

/-- One step of a thread, or nothing if it is blocked or has ended. -/
def step (env : Environment I σ) (t : Thread I) (w : World I σ) : Option (Step I σ) :=
  match t.activity with
  | .running (.pure result) => some (t.leave w (fun frame => frame.next result) (.returned result))
  | .running (.request r next) => t.serve env w r next
  | .joining 0 reports next => some ⟨{ t with activity := .running (next reports) }, w, []⟩
  | .joining (_ + 1) _ _ => none
  | .ended _ => none

/-- The thread after one of the nodes it waits for has ended, with a report or
without. -/
def receive (t : Thread I) (report : Option Report) : Thread I :=
  match t.activity with
  | .joining pending reports next =>
    { t with activity := .joining (pending - 1) (reports ++ report.toList) next }
  | _ => t

end Thread

/-- The threads that have not been collected, in the order in which they are
offered a step, and what they share. -/
structure Machine (I : Interface) (σ : Type) where
  threads : List (Thread I)
  nextId : Nat
  world : World I σ

namespace Machine
variable {I : Interface} {σ : Type}

/-- A machine without threads or cells. -/
def empty (outside : σ) : Machine I σ :=
  { threads := [], nextId := 0, world := { heap := .empty, locked := [], outside } }

/-- Lets the world change by itself. -/
def mapOutside (m : Machine I σ) (f : σ → σ) : Machine I σ :=
  { m with world := { m.world with outside := f m.world.outside } }

/-- Starts a thread for the world. -/
def spawn (m : Machine I σ) (tag : Nat) (prog : Prog I TickResult) : Nat × Machine I σ :=
  (m.nextId, { m with threads := m.threads ++ [.begin m.nextId (.outside tag) prog],
                      nextId := m.nextId + 1 })

/-- How a thread that the world started ended, if it has. -/
def outcome? (m : Machine I σ) (id : Nat) : Option Outcome :=
  (m.threads.find? (·.id == id)).bind (·.outcome?)

/-- Forgets a thread. -/
def forget (m : Machine I σ) (id : Nat) : Machine I σ :=
  { m with threads := m.threads.filter (·.id != id) }

/-- Hands over what the thread `t` leaves at its end. -/
def deliver (env : Environment I σ) (m : Machine I σ) (t : Thread I) (outcome : Outcome) :
    Machine I σ :=
  let m := m.mapOutside (env.ended t.toCaller outcome)
  match t.origin with
  | .outside _ => m
  | .child parent position =>
    let report := outcome.result?.map fun result => ⟨position, result⟩
    let m := m.forget t.id
    { m with threads := m.threads.map fun u => if u.id == parent then u.receive report else u }
  | .worker ref =>
    let m := m.forget t.id
    let worker : Worker := .ended outcome.result?
    { m with world := { m.world with heap := m.world.heap.set ref worker } }

/-- The machine after a step of one of its threads. -/
def commit (env : Environment I σ) (m : Machine I σ) (s : Step I σ) : Machine I σ :=
  let started := s.started.mapIdx fun i (origin, prog) => Thread.begin (m.nextId + i) origin prog
  let m := { m with
    threads := m.threads.flatMap fun t =>
      if t.id == s.thread.id then started ++ [s.thread] else [t]
    nextId := m.nextId + started.length
    world := s.world }
  match s.thread.outcome? with
  | some outcome => m.deliver env s.thread outcome
  | none => m

/-- A step of the thread `t`, or nothing if it is blocked or has ended. -/
def stepThread (env : Environment I σ) (m : Machine I σ) (t : Thread I) : Option (Machine I σ) :=
  (t.step env m.world).map (m.commit env)

/-- A step of the first thread that can take one. -/
def step (env : Environment I σ) (m : Machine I σ) : Option (Machine I σ) :=
  m.threads.findSome? (m.stepThread env)

/-- Steps until every thread is blocked or has ended, or the fuel is spent. -/
def settle (env : Environment I σ) : Nat → Machine I σ → Machine I σ
  | 0, m => m
  | fuel + 1, m =>
    match m.step env with
    | some m => settle env fuel m
    | none => m

/-- Carries a recipe out at once. The world answers what the recipe asks as if
`caller` had asked; a question that it cannot answer yet ends the recipe. -/
def build {α : Type} (env : Environment I σ) (caller : Caller) :
    Recipe I α → Machine I σ → Option α × Machine I σ
  | .yield value, m => (some value, m)
  | .ask query next, m =>
    match env.answer caller query m.world.outside with
    | some (reply, outside) =>
      build env caller (next reply) { m with world := { m.world with outside } }
    | none => (none, m)
  | .alloc kind next, m =>
    let (ref, heap) := m.world.heap.alloc kind
    build env caller (next ref) { m with world := { m.world with heap } }

end Machine
end TickTree
