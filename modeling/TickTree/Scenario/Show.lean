/-
# Running a plan

A plan is run move by move. Each move is answered, and with the answer go the
log entries made during it: those of the user's own thread in their order, and
those of other threads sorted by time, name and call.

A panic out of a tick ends its move only; the following moves are still made.

Key definitions: `Answer`, `MoveReport`, `Scene.make`, `Plan.run`.
-/
import TickTree.Scenario.Service

namespace TickTree.Scenario

/-- The answer to a move. -/
inductive Answer where
  | ok
  /-- There is nothing to show. -/
  | nothing
  | truth (holds : Bool)
  | count (n : Nat)
  /-- How a tick ended. -/
  | outcome (outcome : Outcome)
  /-- What a node expands to: whether there is a tick, and how many children. -/
  | expansion (hasTick : Bool) (children : Nat)
  /-- How many jobs a pool has, and whether it has none. -/
  | size (jobs : Nat) (isEmpty : Bool)
  /-- Whether the token of a scope is live. -/
  | scope (isLive : Bool)
  | error (error : RunError)
  /-- A member was refused, and whether the refusal reports a stopped manager. -/
  | refused (error : RunError) (isStopped : Bool)
  /-- A thread is blocked. -/
  | blocked
  /-- A thread has ended. -/
  | finished (outcome : Outcome)
  deriving Repr, Inhabited

/-- What a move leaves behind: its answer, the time after it if the clock is
virtual, and the log. -/
structure MoveReport where
  answer : Answer
  time : Option Nat
  own : List LogEntry
  others : List LogEntry
  deriving Repr, Inhabited

namespace Scene

/-- The stage of a scene. -/
def stage (m : Scene) : Stage := m.world.outside

/-- The user's own thread, for what it asks outside of ticks. -/
def user : Caller := { id := 0, origin := .outside Part.own.tag }

/-- Carries a recipe out for the user. -/
def build {α : Type} (m : Scene) (r : Recipe Line α) : Option α × Scene :=
  Machine.build environment user r m

/-- The nodes that a plan describes. -/
def buildNodes (m : Scene) (plan : NodePlan) : List (Node Line) × Scene :=
  let (nodes, m) := m.build (Scenario.buildNodes m.stage.names plan)
  (nodes.getD [], m)

/-- The node that a plan describes; the first one, if they are several. -/
def buildNode (m : Scene) (plan : NodePlan) : Node Line × Scene :=
  let (nodes, m) := m.buildNodes plan
  (nodes.headD (.plain none []), m)

/-- How a thread ended; a real clock is let run until it does. -/
def awaitThread (m : Scene) (id : Nat) (deadline : Option Nat) : Option Outcome × Scene :=
  let m := match m.outcome? id, m.stage.clock with
    | none, .real => (await (fun m => (m.outcome? id).isSome) deadline patience m).2
    | _, _ => m
  (m.outcome? id, m)

/-- Runs a program on the user's own thread. -/
def runOwn (m : Scene) (prog : Prog Line TickResult) : Answer × Scene :=
  let (id, m) := m.spawn Part.own.tag prog
  let (outcome, m) := awaitThread (settle m) id none
  match outcome with
  | some outcome => (.outcome outcome, m.forget id)
  | none => (.blocked, m)

/-- The complaint that a task was started where no timer service is current. -/
def noReactor : Answer := .outcome (.panicked (.text TickError.noReactorText))

/-- The complaint about a ticker without a period. -/
def noPeriod : Answer :=
  .outcome (.panicked (.text "TreeTicker period must be greater than zero"))

/-- Starts a member under a name, with an action that makes it. -/
def enroll (m : Scene) (name : String) (action : Action) (f : Nat → Stage → Stage) : Scene :=
  m.mapOutside fun s =>
    let x := s.system.members.size
    let s := f x { s with members := (name, x) :: s.members }
    s.act action

/-- Does something with the member of that name. -/
def withMember (m : Scene) (name : String) (f : Nat → Answer × Scene) : Answer × Scene :=
  match m.stage.member? name with
  | some x => f x
  | none => (.nothing, m)

/-- Is the signal or the member of a handle closed or done? -/
def isClosed (m : Scene) : Nat ⊕ Nat → Bool
  | .inl signal => m.stage.signals.getD signal false
  | .inr x => m.stage.system.isDone x

/-- What a handle of the target is a handle of. -/
def handleOf (m : Scene) : Target → Option (Nat ⊕ Nat)
  | .ticker name => (m.stage.member? name).map .inr
  | .handle name => m.stage.handles.lookup name
  | .signal name => (m.stage.signalNames.lookup name).map .inl

/-- Sleeps or waits: the answer, if anything is waited for, is whether it came. -/
def rest (m : Scene) (goal : Scene → Bool) (limit : Nat) : Bool × Scene :=
  await goal (some (m.stage.system.now + limit)) patience m

/-- Makes a move. -/
def make (m : Scene) : Move → Answer × Scene
  | .tick node =>
    let (node, m) := m.buildNode node
    m.runOwn node.call
  | .call tick children =>
    let (tick, m) := m.build (Scenario.buildTick m.stage.names tick "")
    let (children, m) := m.build (Scenario.buildAll m.stage.names children)
    m.runOwn (Node.plain (tick.getD none) (children.getD [])).call
  | .expand node =>
    let (node, m) := m.buildNode node
    let (answer, m) := m.runOwn do
      let (tick, children) ← node.expand
      let _ ← Prog.ask (I := Line) (.inr (.saw tick.isSome children.length))
      return .ok .success
    match answer with
    | .outcome (.returned _) => (.expansion m.stage.seen.1 m.stage.seen.2, m)
    | answer => (answer, m)
  | .count node =>
    let (nodes, m) := m.buildNodes node
    (.count nodes.length, m)
  | .release gate permits => (.ok, m.mapOutside (·.release gate permits))
  | .poolSize background =>
    match m.stage.pools.lookup background with
    | some ref =>
      let size := Background.size m.world.heap ref
      (.size size (size == 0), m)
    | none => (.nothing, m)
  | .isRunning async =>
    match m.stage.asyncs.lookup async with
    | some ref => (.truth (Asynchronous.isRunning m.world.heap ref), m)
    | none => (.nothing, m)
  | .scope context asToken =>
    match m.stage.system.toScopes.scope? (m.stage.names.context context) with
    | none => (.nothing, m)
    | some scope =>
      let m := match asToken with
        | some name => m.mapOutside fun s => { s with tokens := (name, scope.token) :: s.tokens }
        | none => m
      (.scope (!m.stage.system.tokens.isCancelled scope.token), m)
  | .cancel token =>
    (.ok, m.mapOutside fun s => ((s.token? token).map fun t => s.act (.cancel t)).getD s)
  | .childToken token name =>
    (.ok, m.mapOutside fun s =>
      let parent := s.token? token
      let child := s.system.tokens.entries.size
      { s with tokens := (name, child) :: s.tokens }.act (.newToken parent))
  | .isCancelled token =>
    match m.stage.token? token with
    | some t => (.truth (m.stage.system.tokens.isCancelled t), m)
    | none => (.nothing, m)
  | .spawn node name =>
    let (node, m) := m.buildNode node
    let (id, m) := m.spawn Part.spawned.tag node.call
    (.ok, settle (m.mapOutside fun s => { s with threads := (name, id) :: s.threads }))
  | .peek thread =>
    match m.stage.threads.lookup thread with
    | none => (.nothing, m)
    | some id =>
      match m.awaitThread id (some (m.stage.system.now + 15)) with
      | (some outcome, m) => (.finished outcome, m)
      | (none, m) => (.blocked, m)
  | .join thread =>
    match m.stage.threads.lookup thread with
    | none => (.nothing, m)
    | some id =>
      match m.awaitThread id none with
      | (some outcome, m) => (.outcome outcome, m.forget id)
      | (none, m) => (.blocked, m)
  | .startTicker name node parent config endsOnFailure =>
    let (node, m) := m.buildNode node
    if config.period = 0 then (noPeriod, m)
    else if m.stage.clock = .none then (noReactor, m)
    else
      let root := if endsOnFailure then .exitOnFailure node else node
      (.ok, m.enroll name
        (.newTicker (parent.bind m.stage.token?) config endsOnFailure)
        fun x s => { s with roots := (x, root) :: s.roots })
  | .startManager name =>
    if m.stage.clock = .none then (noReactor, m) else (.ok, m.enroll name .newManager fun _ s => s)
  | .startMock name onStop delay =>
    (.ok, m.enroll name .newOutsider fun x s =>
      { s with mocks := { member := x, onStop, delay, phase := .untouched } :: s.mocks })
  | .add manager ticker =>
    m.withMember manager fun x => m.withMember ticker fun y =>
      match m.stage.system.refusal x with
      | none => (.ok, m.mapOutside fun s =>
          (s.act (.offer x y)).act (.post s.system.offers.length))
      | some e => (.refused e e.isManagerStopped, m)
  | .stop ticker => m.withMember ticker fun x =>
    let isFirst := (m.stage.system.outsider? x).any (·.stops == 0)
    let stopped := m.mapOutside (·.act (.stop x))
    if isFirst && m.stage.clock = .none then (noReactor, stopped) else (.ok, stopped)
  | .isDone ticker => m.withMember ticker fun x => (.truth (m.stage.system.isDone x), m)
  | .error ticker => m.withMember ticker fun x =>
    match m.stage.system.error x with
    | some e => (.error e, m)
    | none => (.nothing, m)
  | .wait target limit =>
    match m.handleOf target with
    | none => (.nothing, m)
    | some handle =>
      let (came, m) := m.rest (isClosed · handle) limit
      (.truth came, m)
  | .sleep ms => (.ok, (m.rest (fun _ => false) ms).2)
  | .fail mock error => m.withMember mock fun x =>
    (.ok, m.mapOutside (·.act (.settle x error)))
  | .wasStopped mock => m.withMember mock fun x =>
    (.truth ((m.stage.system.outsider? x).any (·.stops != 0)), m)
  | .drop ticker => m.withMember ticker fun x =>
    (.ok, m.mapOutside fun s =>
      { s with members := s.members.filter (·.1 != ticker) }.act (.drop x))
  | .newSignal name =>
    (.ok, m.mapOutside fun s =>
      { s with signalNames := (name, s.signals.size) :: s.signalNames,
               signals := s.signals.push false })
  | .close signal =>
    (.ok, m.mapOutside fun s =>
      match s.signalNames.lookup signal with
      | some k => { s with signals := s.signals.setIfInBounds k true }
      | none => s)
  | .handle name target =>
    (.ok, m.mapOutside fun s =>
      match m.handleOf target with
      | some handle => { s with handles := (name, handle) :: s.handles }
      | none => s)
  | .handleDone handle =>
    match m.stage.handles.lookup handle with
    | some handle => (.truth (m.isClosed handle), m)
    | none => (.nothing, m)

/-- Is the first entry to be shown before the second, or may it be? -/
def entryLe (a b : LogEntry) : Bool :=
  if a.time != b.time then a.time < b.time
  else if a.id != b.id then a.id < b.id
  else a.turn ≤ b.turn

/-- Makes a move, lets the threads that it has set free run, and reports. -/
def report (m : Scene) (move : Move) : MoveReport × Scene :=
  let m : Scene := m.mapOutside fun s => { s with log := [], forked := [], joined := [] }
  let (answer, m) := m.make move
  let m : Scene := settle m
  let log := m.stage.log.reverse
  ({ answer
     time := if m.stage.clock = .virtual then some m.stage.system.now else none
     own := log.filter (·.isOwn)
     others := (log.filter (!·.isOwn)).mergeSort entryLe }, m)

/-- Makes moves one after the other. -/
def reports (m : Scene) : List Move → List MoveReport
  | [] => []
  | move :: moves =>
    let (r, m) := m.report move
    r :: m.reports moves

end Scene

namespace Plan

/-- The scene with what the plan makes. -/
def setUp (p : Plan) : Scene :=
  let m : Scene := .empty { clock := p.clock }
  let m := p.tokens.foldl (fun m name => m.mapOutside fun s =>
    { s with tokens := (name, s.system.tokens.entries.size) :: s.tokens }.act (.newToken none)) m
  let m := p.contexts.foldl (fun m c => m.mapOutside fun s =>
    let parent := c.parent.bind s.token?
    { s with names := { s.names with
        contexts := (c.name, s.system.contexts.size) :: s.names.contexts } }.act
      (.newContext parent c.expiry)) m
  let m := p.ticks.foldl (fun m (name, plan) =>
    let (tick, m) := m.build (buildTick m.stage.names plan "")
    m.mapOutside fun s =>
      { s with names := { s.names with ticks := (name, tick.getD none) :: s.names.ticks } }) m
  p.nodes.foldl (fun m (name, plan) =>
    let (nodes, m) := Scene.buildNodes m plan
    m.mapOutside fun s =>
      { s with names := { s.names with nodes := (name, nodes) :: s.names.nodes } }) m

/-- The reports of a plan's moves. -/
def run (p : Plan) : List MoveReport :=
  p.setUp.reports (p.moves.flatMap fun (move, times) => List.replicate times move)

end Plan

end TickTree.Scenario
