/-
# Building what a plan describes

Plans of ticks and nodes become recipes: carrying one out makes the cells,
leaves and pools that it needs, so a plan that is built twice gives ticks that
share nothing, while a name always stands for the same ticks and nodes. The
tasks of a pool are built when the pool generates them, with the number of the
task in the names of their leaves, unless the pool shares them.

Key definitions: `Names`, `buildTick`, `buildNodes`.
-/
import TickTree.Scenario.Plan
import TickTree.Scenario.Cue

namespace TickTree.Scenario

/-- What the names of a plan stand for, latest first. -/
structure Names where
  ticks : List (String × Option (Tick Line)) := []
  nodes : List (String × List (Node Line)) := []
  contexts : List (String × Nat) := []

/-- The context of that name. -/
def Names.context (names : Names) (name : String) : Nat := (names.contexts.lookup name).getD 0

/-- Puts a cue and yields its answer. -/
def cue (c : Cue) : Recipe Line c.Reply := .ask (.inr c) .yield

/-- Puts the cue that makes a part known by its name, if it has one. -/
def cueName (id : Option String) (suffix : String) (f : String → Cue) : Recipe Line Unit :=
  match id with
  | some id => .ask (.inr (f (id ++ suffix))) fun _ => .yield ()
  | none => .yield ()

/-- The tick of a pool's task; a task without a tick answers the error for that. -/
def taskTick (tick : Option (Tick Line)) : Tick Line := tick.getD (.const (.error .missingTick))

/-- Wraps a tick, if there is one. -/
def wrapTick (wrap : Tick Line → Recipe Line (Tick Line)) :
    Option (Tick Line) → Recipe Line (Option (Tick Line))
  | some tick => do return some (← wrap tick)
  | none => .yield none

/-- Carries recipes out one after the other. -/
def sequenceRecipes {α : Type} : List (Recipe Line α) → Recipe Line (List α)
  | [] => .yield []
  | r :: rs => do return (← r) :: (← sequenceRecipes rs)

/-- A pool over task recipes, which are given the suffix for their names. -/
def buildPool (tasks : List (String → Recipe Line (Option (Tick Line)))) (id : Option String)
    (shared : Bool) (suffix : String) : Recipe Line (Tick Line) := do
  let ref ← Recipe.cell .jobs
  let pool : Nat ← cue .newPool
  cueName id suffix (.namePool · ref)
  if shared then
    let ticks ← sequenceRecipes (tasks.map (· suffix))
    return .background ref (.ask (.inr (.nextTask pool)) fun (n : Nat) =>
      .yield (taskTick (ticks.getD (turnPlace ticks.length false n) none)))
  else
    return .background ref (.ask (.inr (.nextTask pool)) fun (n : Nat) =>
      match tasks[turnPlace tasks.length false n]? with
      | some task => do return taskTick (← task (suffix ++ "@" ++ toString n))
      | none => .yield (taskTick none))

mutual

/-- The tick of a plan; `suffix` is put behind the names of leaves. -/
def buildTick (names : Names) : TickPlan → String → Recipe Line (Option (Tick Line))
  | .absent, _ => .yield none
  | .composite kind, _ => .yield (some (.composite kind))
  | .fork, _ => do return some (← Tick.newFork)
  | .named name, _ => .yield ((names.ticks.lookup name).getD none)
  | .not inner, suffix => do return (← buildTick names inner suffix).map .not
  | .memorize inner, suffix => do wrapTick Tick.newMemorize (← buildTick names inner suffix)
  | .any inner, suffix => do wrapTick Tick.newAny (← buildTick names inner suffix)
  | .async inner id, suffix => do
    wrapTick (fun tick => do
      let ref ← Recipe.cell .worker
      cueName id suffix (.nameAsync · ref)
      return .async ref tick) (← buildTick names inner suffix)
  | .background tasks id shared, suffix => do
    return some (← buildPool (buildTasks names tasks) id shared suffix)
  | .init context, _ => .yield (some (Context.initTick (names.context context)))
  | .cancel context, _ => .yield (some (Context.cancelTick (names.context context)))
  | .err context, _ => .yield (some (Context.errTick (names.context context)))
  | .done context, _ => .yield (some (Context.doneTick (names.context context)))
  | .bind context live dead, suffix => do
    let live := taskTick (← buildTick names live suffix)
    let dead := taskTick (← buildTick names dead suffix)
    return some (Context.bindTick (names.context context) fun token =>
      Context.whileLive token live dead)
  | .leaf script, suffix => do
    let leaf : Nat ← cue (.newLeaf { script with id := script.id ++ suffix })
    return some (leafTick leaf)
termination_by structural plan => plan

/-- The recipes of several plans. -/
def buildTasks (names : Names) : List TickPlan → List (String → Recipe Line (Option (Tick Line)))
  | [] => []
  | plan :: plans => buildTick names plan :: buildTasks names plans
termination_by structural plans => plans

end

/-- Puts nodes inside `depth` nodes, each the only child of the next. -/
def wrapNodes (tick : Recipe Line (Option (Tick Line))) :
    Nat → List (Node Line) → Recipe Line (List (Node Line))
  | 0, nodes => .yield nodes
  | depth + 1, nodes => do wrapNodes tick depth [.plain (← tick) nodes]

mutual

/-- The nodes of a plan. -/
def buildNodes (names : Names) : NodePlan → Recipe Line (List (Node Line))
  | .named name index => .yield <|
    let nodes := (names.nodes.lookup name).getD []
    match index with
    | some index => nodes[index]?.toList
    | none => nodes
  | .plain tick children => do
    let tick ← buildTick names tick ""
    return [.plain tick (← buildAll names children)]
  | .synced nodes => do Node.synced (← buildAll names nodes)
  | .dynamic options id loops => do
    let options ← buildAll names options
    let dynamic : Nat ← cue (.newDynamic id options.length loops)
    return [.made (.ask (.inr (.choose dynamic)) fun (option : Nat) =>
      .yield (options.getD option (.plain none [])))]
  | .wrapped tick depth node => do
    wrapNodes (buildTick names tick "") depth (← buildNodes names node)
termination_by structural plan => plan

/-- The nodes of several plans, one after the other. -/
def buildAll (names : Names) : List NodePlan → Recipe Line (List (Node Line))
  | [] => .yield []
  | plan :: plans => do return (← buildNodes names plan) ++ (← buildAll names plans)
termination_by structural plans => plans

end

end TickTree.Scenario
