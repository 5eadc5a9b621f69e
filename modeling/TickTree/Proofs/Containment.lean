/-
# Panics are contained

A tick inside a wrapper may panic. A memorized tick, a tick that succeeds if any child
does, a pool, a sibling, an inverted tick and a composite panic then, with the same payload
(`LetsThrough`); a fork and an asynchronous tick return. No lock stays held, and each can be
called again:

* a pool has the jobs that it had, and a new task that has panicked is not among them; the
  siblings are remembered as they were (`Spared`);
* the flag of a tick that succeeds if any child does tells of the children that have
  succeeded in the execution under way;
* a memorized composite is as if the child had returned running, and the next call comes
  back to it (`Memorize.Survives`);
* a fork goes on without the child, and its cycle ends with an error (`Fork.Survives`);
* the first call of an asynchronous tick after the panic hands back the error for that, and
  the next starts a worker (`Asynchronous.Survives`).

Key definitions: `LetsThrough`, `Spared`, `Memorize.Survives`, `Fork.Survives`,
`Asynchronous.Survives`.
Key theorems: `containment_law`.
-/
import TickTree.Proofs.Unwinding
import TickTree.Proofs.Recovering
import TickTree.Proofs.Losses
import TickTree.Proofs.WorkerRuns

namespace TickTree

section

variable {I : Interface} {σ : Type} (env : Environment I σ) (others : Others I σ) (caller : Caller)

/-- Where a panic of a wrapper comes from, whatever others do meanwhile: it is that of what
the wrapper runs on its own thread. What it runs on others has no part in it. -/
structure LetsThrough : Prop where
  /-- The tick of a node is that of the wrapper at it, and the locks are then given back. -/
  node (node : Node I) {w w' : World I σ} {payload : Payload} :
    node.Ticked env others caller w (.panic payload) w' ↔
      ∃ tick children held w₀ held' w₁,
        node.expand.Among env others caller [] w (.value (some tick, children)) held w₀ ∧
        (tick.run children).Among env others caller held w₀ (.panic payload) held' w₁ ∧
        w' = w₁.unlock held'
  not (inner : Tick I) (children : List (Node I)) {held held' : List Lock} {w w' : World I σ}
    {payload : Payload} :
    ((Tick.not inner).run children).Among env others caller held w (.panic payload) held' w' ↔
      (inner.run children).Among env others caller held w (.panic payload) held' w'
  composite (kind : Composite) (children : List (Node I)) {held held' : List Lock}
    {w w' : World I σ} {payload : Payload} :
    ((Tick.composite kind).run children).Among env others caller held w (.panic payload) held' w' ↔
      held' = held ∧ Node.Broken env others caller kind.LetsPass children payload w w'
  any (flag : Ref .flag) (inner : Tick I) (children : List (Node I)) {held held' : List Lock}
    {w w' : World I σ} {payload : Payload} :
    ((Tick.any flag inner).run children).Among env others caller held w (.panic payload) held' w' ↔
      (inner.run (children.map (.flagged flag))).Among env others caller held w (.panic payload)
        held' w'
  memorize (ref : Ref .execution) (inner : Tick I) (children : List (Node I))
    {held held' : List Lock} {w w' : World I σ} {payload : Payload} :
    ((Tick.memorize ref inner).run children).Among env others caller held w (.panic payload) held'
        w' ↔
      ∃ w₀ nodes held₁ w₁, others.Frees ref w w₀ ∧
        (Memorize.execution ref children).Among env others caller (ref.lock :: held)
          (w₀.hold ref.lock) (.value nodes) held₁ w₁ ∧
        (inner.run nodes).Among env others caller held₁ w₁ (.panic payload) held' w'
  background (ref : Ref .jobs) (generator : Recipe I (Tick I)) (children : List (Node I))
    {held held' : List Lock} {w w' : World I σ} {payload : Payload}
    (hothers : others.Respects ref) :
    ((Tick.background ref generator).run children).Among env others caller held w (.panic payload)
        held' w' ↔
      ∃ w₀, others.Frees ref w w₀ ∧ held' = ref.lock :: held ∧
        Background.Breaks env others caller generator children (w₀.heap.get ref) (ref.lock :: held)
          payload (w₀.hold ref.lock) w'
  gated (ref : Ref .statuses) (index : Nat) (inner : Tick I) (children : List (Node I))
    {held held' : List Lock} {w w' : World I σ} {payload : Payload} :
    ((Tick.gated ref index inner).run children).Among env others caller held w (.panic payload)
        held' w' ↔
      ∃ w₀, others.Frees ref w w₀ ∧ (inner.run children).Among env others caller (ref.lock :: held)
        (w₀.hold ref.lock) (.panic payload) held' w'
  fork (ref : Ref .round) (children : List (Node I)) {held held' : List Lock} {w w' : World I σ}
    {ending : Ending TickResult} :
    ((Tick.fork ref).run children).Among env others caller held w ending held' w' →
      ∃ result, ending = .value result
  async (ref : Ref .worker) (inner : Tick I) (children : List (Node I)) {held held' : List Lock}
    {w w' : World I σ} {ending : Ending TickResult} :
    ((Tick.async ref inner).run children).Among env others caller held w ending held' w' →
      ∃ result, ending = .value result

theorem letsThrough : LetsThrough env others caller where
  node _ := Node.ticked_panic_iff
  not _ _ := Tick.among_not_iff
  composite kind children := (kind.row children 0 kind.initial).among_panic_iff
  any _ _ _ := AnySuccess.among_panic_iff
  memorize _ _ _ := Memorize.among_panic_iff
  background _ _ _ _ _ _ _ _ hothers := Background.among_panic_iff hothers
  gated _ _ _ _ := Siblings.among_gate_iff
  fork ref children _ _ _ _ _ h := (Fork.all_calm ref children).returns h
  async ref inner children _ _ _ _ _ h := (Asynchronous.all_calm ref inner children).returns h

/-- What a wrapper is left with that has taken its lock and has panicked, when the locks of
its tick are given back: its cell is as it was when it took the lock, and the lock is free.
Others leave the cell alone while its lock is held. -/
structure Spared : Prop where
  /-- The execution is the one that was open, or has been begun in the call. -/
  memorize (ref : Ref .execution) (inner : Tick I) (children : List (Node I))
    {held held' : List Lock} {w w' : World I σ} {payload : Payload} (hothers : others.Respects ref)
    (hmade : ∀ w₀, others.Frees ref w w₀ → w₀.heap.Made ref) :
    ((Tick.memorize ref inner).run children).Among env others caller held w (.panic payload) held'
        w' →
      ∃ w₀ nodes, others.Frees ref w w₀ ∧ Memorize.Finds ref children nodes w₀ ∧
        (w'.unlock held').heap.get ref = some nodes ∧ ref.lock ∉ (w'.unlock held').locked
  /-- The same jobs, in the same order. -/
  background (ref : Ref .jobs) (generator : Recipe I (Tick I)) (children : List (Node I))
    {held held' : List Lock} {w w' : World I σ} {payload : Payload}
    (hothers : others.Respects ref) :
    ((Tick.background ref generator).run children).Among env others caller held w (.panic payload)
        held' w' →
      ∃ w₀, others.Frees ref w w₀ ∧ World.Spares ref w₀ (w'.unlock held')
  /-- The same statuses, of every sibling. -/
  gated (ref : Ref .statuses) (index : Nat) (inner : Tick I) (children : List (Node I))
    {held held' : List Lock} {w w' : World I σ} {payload : Payload}
    (hothers : others.Respects ref) :
    ((Tick.gated ref index inner).run children).Among env others caller held w (.panic payload)
        held' w' →
      ∃ w₀, others.Frees ref w w₀ ∧ World.Spares ref w₀ (w'.unlock held')

theorem spared : Spared env others caller where
  memorize ref inner children held held' w w' payload hothers hmade h := by
    obtain ⟨w₀, nodes, held₁, w₁, hfrees, hexec, hinner⟩ := Memorize.among_panic_iff.mp h
    obtain ⟨hfinds, hopen, hfree⟩ :=
      Memorize.kept_by_panic hothers (hmade w₀ hfrees) hexec hinner
    exact ⟨w₀, nodes, hfrees, hfinds, hopen, hfree⟩
  background ref generator children held held' w w' payload hothers h := by
    obtain ⟨w₀, hfrees, rfl, hbreaks⟩ := (Background.among_panic_iff hothers).mp h
    exact ⟨w₀, hfrees, Background.spares_of_breaks hothers hfrees.2 hbreaks⟩
  gated ref index inner children held held' w w' payload hothers h := by
    obtain ⟨w₀, hfrees, hinner⟩ := Siblings.among_gate_iff.mp h
    exact ⟨w₀, hfrees, hinner.spares_given_back hothers rfl (inner.awaits_run rfl ref children)
      hfrees.2⟩

end

/-! ### Memorized composites -/

namespace Memorize

variable {J : Interface} {C T σ : Type}

/-- Calls of a memorized composite. -/
abbrev Composes (env : Environment (Family J C T) σ) (ref : Ref .execution) (kind : Composite) :
    World (Family J C T) σ → List (FamilyCall J C T) → World (Family J C T) σ → Prop :=
  Family.Calls env (Rests ref (.composite kind)) (.memorize ref (.composite kind))

/-- A call of a memorized composite in which a child panics: the execution `e` that it is
in, the turns of the children that have finished, and the turn of the child that panics. -/
structure Survives (env : Environment (Family J C T) σ) (ref : Ref .execution) (kind : Composite)
    (call : FamilyCall J C T) (payload : Payload) (w w' : World (Family J C T) σ)
    (e : Execution J C T) (earlier : List (Turn (Family J C T))) (turn : Turn (Family J C T)) :
    Prop where
  /-- The execution is the one that was open, or begins with this call. -/
  begins : ∃ open? w₀, w.heap.get ref = Option.map Execution.nodes open? ∧
    Rests ref (.composite kind) w w₀ ∧ e.Begins open? call.children w₀
  events : call.events = (earlier ++ [turn]).map .turn
  panics : turn.ending = .panic payload
  /-- It stays open; the children that have finished are recorded, and the one that has
  panicked is not. -/
  interrupted : Interrupted ref kind { e with turns := e.turns ++ call.turns } earlier turn w'
  /-- If the child returns running instead, so does the call, and it leaves the same world. -/
  asRunning : ∃ again : Turn (Family J C T), again.node = turn.node ∧
    again.ending = .value (.ok .running) ∧ Composes env.lenient ref kind w
      [⟨call.children, (earlier ++ [again]).map .turn, .value (.ok .running)⟩] w'
  /-- The next call replays the children that have finished and comes to the one that has
  panicked, which runs again. -/
  resumes : ∀ (env' : Environment (Family J C T) σ) (next : FamilyCall J C T) w'',
    Composes env' ref kind w' [next] w'' →
      ∃ replays again later, next.events = (replays ++ again :: later).map .turn ∧
        List.Forall₂ Replays earlier replays ∧ again.node = turn.node ∧
        ∃ rec c, turn.node = wrapper (rec, c) ∧ Tended c none again.talk again.ending

theorem survives {env : Environment (Family J C T) σ} {ref : Ref .execution} {kind : Composite}
    {past : List (FamilyCall J C T)} {call : FamilyCall J C T} {payload : Payload}
    {w w₁ w₂ : World (Family J C T) σ} (hfresh : w.Fresh ref)
    (hpast : Composes env ref kind w past w₁) (hcall : Composes env ref kind w₁ [call] w₂)
    (hpanic : call.ending = .panic payload) :
    ∃ e earlier turn, Survives env ref kind call payload w₁ w₂ e earlier turn := by
  have hround : ∀ r ∈ (Tick.composite kind : Tick (Family J C T)).round?, w.Fresh r := nofun
  obtain ⟨open?, hrest⟩ := (AtRest.fresh hfresh hround).calls rfl hpast
  obtain ⟨e, earlier, turn, w₀, hrests, hbegins, hevents, hturn, hinterrupted, hlenient⟩ :=
    hrest.interrupted hcall hpanic
  exact ⟨e, earlier, turn, ⟨open?, w₀, hrest.cell, hrests, hbegins⟩, hevents, hturn, hinterrupted,
    hlenient, fun _ _ _ hnext => hinterrupted.resumes hnext⟩

end Memorize

/-! ### Forks -/

/-- A node that a thread waits for panics. The thread is handed no report, and as long as it
waits it never has one; the cells stay as they are, and the locks of the thread that has
died are given back. -/
def Machine.Bereaves {I : Interface} {σ : Type} (env : Environment I σ) (m m₁ : Machine I σ)
    (t u : Thread I) (position : Nat) : Prop :=
  u.receive none ∈ m₁.threads ∧ m₁.world.heap = m.world.heap ∧
    m₁.world.locked = (m.world.unlock t.held).locked ∧
    ∀ m', Runs env (· = u.id) m₁ m' → Unheard u.id position m'.threads

theorem Machine.bereaves {I : Interface} {σ : Type} {env : Environment I σ} {outside : σ}
    {m m₁ : Machine I σ} {t u : Thread I} {position : Nat} {s : Step I σ} {payload : Payload}
    (hreach : Runs env (fun _ => False) (Machine.empty outside) m) (ht : t ∈ m.threads)
    (hu : u ∈ m.threads) (horigin : t.origin = .child u.id position)
    (hstep : m.stepThread env t = some m₁) (hs : t.step env m.world = some s)
    (hpanic : s.thread.outcome? = some (.panicked payload)) : Bereaves env m m₁ t u position := by
  obtain ⟨width, hsound⟩ := hreach.sound_empty
  obtain ⟨hunheard, hreceives, hheap, hlocked⟩ :=
    unheard_of_panic hsound ht horigin hu rfl hstep hs hpanic
  obtain ⟨width₁, hsound₁, -⟩ := hsound.moves (.thread ht hstep)
  exact ⟨hreceives, hheap, hlocked, fun m' hruns => hunheard.runs hsound₁ hruns rfl⟩

namespace Fork

variable {I : Interface}

/-- Calls of a fork, the call `call` of which has lost the child. -/
structure Survives (env : Environment I (List (Note I))) (ref : Ref .round) (past : List (Call I))
    (call : Call I) (rest : List (Call I)) (child : Nat) (w' : World I (List (Note I))) : Prop where
  /-- The call returns, and the others go on as they do when nobody dies. -/
  lawful : Lawful (fixed (cycle past) call.children) (cycle past) call
  /-- The child is ticked no more in the cycle, and that ends with an error. -/
  ends : ∀ more last after, call :: rest = more ++ last :: after →
    (∀ between ∈ more, between.isRunning) →
    (more ≠ [] → child ∉ due (fixed (cycle (past ++ more)) last.children).length
      (cycle (past ++ more))) ∧
    (last.isRunning = false → ∃ e, last.outcome = .returned (.error e))
  free : ref.lock ∉ w'.locked
  /-- The fork can be called again. -/
  again : ∀ id origin children (arrive : List (Node I) → List Report),
    (∀ nodes, Arrivals nodes.length (arrive nodes)) → ∃ (next : Call I) (w'' : _),
      next.children = children ∧
      Thread.Ends env (joins ref) id origin ((Tick.fork ref).run children) w' next.outcome w''

theorem survives {env : Environment I (List (Note I))} {ref : Ref .round}
    {past rest : List (Call I)} {call : Call I} {position child : Nat}
    {w w' : World I (List (Note I))} (hfresh : w.Fresh ref)
    (hcalls : Calls env ref w (past ++ call :: rest) w')
    (hchild : (due (fixed (cycle past) call.children).length (cycle past))[position]? = some child)
    (hnone : position ∉ call.reports.map (·.position)) :
    Survives env ref past call rest child w' := by
  have hfollows := follows_nil hfresh.made hfresh.fresh hfresh.unlocked
  obtain ⟨hafter, hlaw⟩ := hcalls.follows hfollows
  have hlawful := hlaw past call rest rfl
  have hloses := Call.loses_of_getElem? hlawful.distinct hchild hnone
  refine ⟨hlawful, fun more last after hsplit hmore =>
    hcalls.ends_in_error hfollows rfl hloses hsplit hmore, hafter.free,
    fun id origin children arrive harrive => ?_⟩
  obtain ⟨next, w'', hchildren, hends, -⟩ := hafter.ends id origin children harrive
  exact ⟨next, w'', hchildren, hends⟩

end Fork

/-! ### Asynchronous ticks -/

namespace Asynchronous

variable {I : Interface} {σ : Type}

/-- The first call after a worker has panicked, and what comes after it. -/
structure Survives (env : Environment I σ) (ref : Ref .worker) (caller : Nat)
    (next : TickResult → Prog I TickResult) (found : Worker) (rest : List (Entry I))
    (m' : Machine I σ) : Prop where
  found : found = .lost
  /-- The call answers the error for a lost worker, and the next call finds none. -/
  answers : ∀ entry later, rest = entry :: later →
    entry = .answered caller (next (.error .workerLost)) ∧ ∀ entry' later',
      later = entry' :: later' →
        ∃ caller' tick' children' next', entry' = .called caller' tick' children' next' .idle
  /-- No call keeps the lock. -/
  frees : ∃ log m'', Machine.Logs env ref m' log m'' ∧ ref.lock ∉ m''.world.locked

theorem survives {env : Environment I σ} {ref : Ref .worker} {m m' : Machine I σ}
    {log between rest : List (Entry I)} {worker caller : Nat} {payload : Payload} {tick : Tick I}
    {children : List (Node I)} {next : TickResult → Prog I TickResult} {found : Worker}
    (hunused : Machine.Unused ref m)
    (hlogs : Machine.Logs env ref m (log ++ .ended worker (.panicked payload) :: between ++
      .called caller tick children next found :: rest) m')
    (hbetween : ∀ entry ∈ between, entry.isCall = false) :
    Survives env ref caller next found rest m' := by
  obtain ⟨a, holder, hfollows, hagrees⟩ := hlogs.agrees hunused.agrees
  obtain ⟨hfound, hanswers⟩ := hfollows.hands_back_lost hbetween
  exact ⟨hfound, hanswers, hagrees.frees env⟩

end Asynchronous

/-! ### All of it -/

/-- What becomes of panics, for every wrapper, in every state that is reached. -/
structure Containment : Prop where
  /-- Where a panic that comes out of a wrapper comes from. -/
  passes {I : Interface} {σ : Type} (env : Environment I σ) (others : Others I σ)
    (caller : Caller) : LetsThrough env others caller
  /-- What a pool, a sibling and a memorized tick have then. -/
  spares {I : Interface} {σ : Type} (env : Environment I σ) (others : Others I σ)
    (caller : Caller) : Spared env others caller
  /-- The flag of a tick that succeeds if any child does: it is up if a child has succeeded in
  the call that panics, or before it in the execution under way. -/
  flag {J : Interface} {C T σ : Type} (env : Environment (Family J C T) σ) (flag : Ref .flag)
    (t : Tick (Family J C T)) (past : List (FamilyCall J C T)) (call : FamilyCall J C T)
    (payload : Payload) (w w' : World (Family J C T) σ) : t.actsInCalls → ⟨_, flag⟩ ∉ t.cells →
    (∀ cell ∈ (Tick.any flag t).cells, w.Fresh cell.2) →
    Family.Calls env (Tick.any flag t).Rests (.any flag t) w (past ++ [call]) w' →
    call.ending = .panic payload →
    w'.heap.get flag = ((FamilyCall.current past).any FamilyCall.succeeds || call.succeeds)
  /-- A memorized composite. -/
  memorized {J : Interface} {C T σ : Type} (env : Environment (Family J C T) σ)
    (ref : Ref .execution) (kind : Composite) (past : List (FamilyCall J C T))
    (call : FamilyCall J C T) (payload : Payload) (w w₁ w₂ : World (Family J C T) σ) :
    w.Fresh ref → Memorize.Composes env ref kind w past w₁ →
    Memorize.Composes env ref kind w₁ [call] w₂ → call.ending = .panic payload →
    ∃ e earlier turn, Memorize.Survives env ref kind call payload w₁ w₂ e earlier turn
  /-- A thread that ticks nodes in parallel, one of which panics. -/
  joined {I : Interface} {σ : Type} (env : Environment I σ) (outside : σ) (m m₁ : Machine I σ)
    (t u : Thread I) (position : Nat) (s : Step I σ) (payload : Payload) :
    Machine.Runs env (fun _ => False) (Machine.empty outside) m → t ∈ m.threads → u ∈ m.threads →
    t.origin = .child u.id position → m.stepThread env t = some m₁ →
    t.step env m.world = some s → s.thread.outcome? = some (.panicked payload) →
    Machine.Bereaves env m m₁ t u position
  /-- A fork, a call of which has no report of the child that it has ticked at a position. -/
  forked {I : Interface} (env : Environment I (List (Fork.Note I))) (ref : Ref .round)
    (past rest : List (Fork.Call I)) (call : Fork.Call I) (position child : Nat)
    (w w' : World I (List (Fork.Note I))) : w.Fresh ref →
    Fork.Calls env ref w (past ++ call :: rest) w' →
    (Fork.due (Fork.fixed (Fork.cycle past) call.children).length (Fork.cycle past))[position]? =
      some child → position ∉ call.reports.map (·.position) →
    Fork.Survives env ref past call rest child w'
  /-- An asynchronous tick, the worker of which has panicked, and the first call after that. -/
  async {I : Interface} {σ : Type} (env : Environment I σ) (ref : Ref .worker)
    (m m' : Machine I σ) (log between rest : List (Asynchronous.Entry I)) (worker caller : Nat)
    (payload : Payload) (tick : Tick I) (children : List (Node I))
    (next : TickResult → Prog I TickResult) (found : Worker) : Machine.Unused ref m →
    Machine.Logs env ref m (log ++ .ended worker (.panicked payload) :: between ++
      .called caller tick children next found :: rest) m' →
    (∀ entry ∈ between, entry.isCall = false) →
    Asynchronous.Survives env ref caller next found rest m'

/-! ### Children that panic -/

namespace Panicking

/-- Nothing is asked but of the children. -/
abbrev Silent : Interface := ⟨Empty, nofun⟩

/-- The second tick panics, and the others succeed. -/
def outcome : Nat → Outcome
  | 1 => .panicked .other
  | _ => .returned (.ok .success)

/-- The world counts the ticks. -/
def counting : Environment (Family Silent Bool Unit) Nat :=
  ⟨fun _ query calls => match query with
    | .other e => nomatch e
    | .expand _ => some ((some (), 0), calls)
    | .call _ _ => some (outcome calls, calls + 1), fun _ _ calls => calls⟩

/-- The turn of a child, wrapped in that node, which is ticked after `calls` ticks. -/
def ticked (node : Node (Family Silent Bool Unit)) (c : Bool) (calls : Nat) :
    Turn (Family Silent Bool Unit) :=
  ⟨node, [⟨.expand c, (some (), 0)⟩, ⟨.call c (), outcome calls⟩], (outcome calls).ending⟩

/-- The turn of a memorized child. -/
def runs (c : Bool) (calls : Nat) : Turn (Family Silent Bool Unit) :=
  ticked (Memorize.wrapper (⟨c.toNat⟩, c)) c calls

def replays : Turn (Family Silent Bool Unit) :=
  ⟨Memorize.wrapper (⟨0⟩, false), [⟨.expand false, (some (), 0)⟩], .value (.ok .success)⟩

/-- In a memorized sequence of two children the second panics. -/
def first : FamilyCall Silent Bool Unit :=
  ⟨[false, true], [.turn (runs false 0), .turn (runs true 1)], .panic .other⟩

/-- The next call passes no children; it replays the first and runs the second again. -/
def second : FamilyCall Silent Bool Unit :=
  ⟨[], [.turn replays, .turn (runs true 2)], .value (.ok .success)⟩

/-- A memorized tick that has just been made. -/
def memorized : World (Family Silent Bool Unit) Nat := ⟨(Heap.empty.alloc .execution).2, [], 0⟩

theorem memorized_fresh : memorized.Fresh (⟨0⟩ : Ref .execution) :=
  ⟨Nat.zero_lt_one, List.not_mem_nil, rfl⟩

theorem composes : ∃ w₁ w₂, Memorize.Composes counting ⟨0⟩ .sequence memorized [first] w₁ ∧
    Memorize.Composes counting ⟨0⟩ .sequence w₁ [second] w₂ ∧ w₂.outside = 3 := by
  let ref : Ref .execution := ⟨0⟩
  let t : Tick (Family Silent Bool Unit) := .memorize ref (.composite .sequence)
  let nodes : List (Node (Family Silent Bool Unit)) :=
    [Memorize.wrapper (⟨0⟩, false), Memorize.wrapper (⟨1⟩, true)]
  let opened := ((memorized.heap.alloc .record).2.alloc .record).2.set ref (some nodes)
  let heap := opened.set (⟨0⟩ : Ref .record) (some (.ok .success))
  let closed := (heap.set (⟨1⟩ : Ref .record) (some (.ok .success))).set ref none
  have hrests : ∀ w : World (Family Silent Bool Unit) Nat,
      Memorize.Rests ref (.composite .sequence) w w := fun w _ s _ => .refl s w
  have hruns : (runs false 0).Takes counting default ⟨opened, [ref.lock], 0⟩
      ⟨heap, [ref.lock], 1⟩ :=
    ⟨[], _, .serve rfl rfl (.serve rfl rfl (.serve rfl rfl (.serve rfl rfl (.pure rfl)))), rfl⟩
  have hpanics : (runs true 1).Takes counting default ⟨heap, [ref.lock], 1⟩
      ⟨heap, [ref.lock], 2⟩ :=
    ⟨[], _, .serve rfl rfl (.serve rfl rfl (.serve rfl rfl (.panic rfl))), rfl⟩
  have hreplays : replays.Takes counting default ⟨heap, [ref.lock], 2⟩ ⟨heap, [ref.lock], 2⟩ :=
    ⟨[], _, .serve rfl rfl (.serve rfl rfl (.pure rfl)), rfl⟩
  have hagain : (runs true 2).Takes counting default ⟨heap, [ref.lock], 2⟩
      ⟨heap.set (⟨1⟩ : Ref .record) (some (.ok .success)), [ref.lock], 3⟩ :=
    ⟨[], _, .serve rfl rfl (.serve rfl rfl (.serve rfl rfl (.serve rfl rfl (.pure rfl)))), rfl⟩
  have hfirst : (t.run [Family.node false, Family.node true]).Performs counting default [] memorized
      [.turn (runs false 0), .turn (runs true 1)] (.panic .other) [ref.lock]
      ⟨heap, [ref.lock], 2⟩ :=
    .serve rfl (.serve rfl (.serve rfl (.serve rfl (.serve rfl (.tick hruns
      (.tickPanic hpanics))))))
  have hsecond : (t.run []).Performs counting default [] ⟨heap, [], 2⟩
      [.turn replays, .turn (runs true 2)] (.value (.ok .success)) [] ⟨closed, [], 3⟩ :=
    .serve rfl (.serve rfl (.tick hreplays (.tick hagain (.serve rfl (.serve rfl .pure)))))
  exact ⟨⟨heap, [], 2⟩, ⟨closed, [], 3⟩, .call (hrests _) hfirst .none,
    .call (hrests _) hsecond .none, rfl⟩

/-- The same children under a tick that succeeds if one of them does. -/
def flagged : FamilyCall Silent Bool Unit :=
  ⟨[false, true], [.turn (ticked (.flagged ⟨0⟩ (Family.node false)) false 0),
    .turn (ticked (.flagged ⟨0⟩ (Family.node true)) true 1)], .panic .other⟩

/-- A tick that succeeds if a child does, and has just been made. -/
def unflagged : World (Family Silent Bool Unit) Nat := ⟨(Heap.empty.alloc .flag).2, [], 0⟩

theorem unflagged_fresh : unflagged.Fresh (⟨0⟩ : Ref .flag) :=
  ⟨Nat.zero_lt_one, List.not_mem_nil, rfl⟩

theorem calls_flagged : ∃ w', Family.Calls counting (Tick.any ⟨0⟩ (.composite .sequence)).Rests
    (.any ⟨0⟩ (.composite .sequence)) unflagged [flagged] w' := by
  let flag : Ref .flag := ⟨0⟩
  let raised := unflagged.heap.set flag true
  have hruns : (ticked (.flagged flag (Family.node false)) false 0).Takes counting default unflagged
      ⟨raised, [], 1⟩ :=
    ⟨[], _, .serve rfl rfl (.serve rfl rfl (.serve rfl rfl (.pure rfl))), rfl⟩
  have hpanics : (ticked (.flagged flag (Family.node true)) true 1).Takes counting default
      ⟨raised, [], 1⟩ ⟨raised, [], 2⟩ :=
    ⟨[], _, .serve rfl rfl (.serve rfl rfl (.panic rfl)), rfl⟩
  have hcall : ((Tick.any flag (.composite .sequence)).run
      [Family.node false, Family.node true]).Performs counting default [] unflagged flagged.events
      (.panic .other) [] ⟨raised, [], 2⟩ :=
    .tick hruns (.tickPanic hpanics)
  exact ⟨_, .call (fun _ _ => .refl _ _) hcall .none⟩

end Panicking

/-! ### The law -/

/-- **A panic is contained.** -/
theorem containment_law : Containment where
  passes := letsThrough
  spares := spared
  flag env flag t past call payload w w' ht hflag hfresh hcalls hpanic := by
    rw [AnySuccess.flag_of_calls ht hflag hfresh hcalls, FamilyCall.any_succeeds_concat, hpanic]
    rfl
  memorized _ _ _ _ _ _ _ _ _ hfresh hpast hcall hpanic :=
    Memorize.survives hfresh hpast hcall hpanic
  joined _ _ _ _ _ _ _ _ _ hreach ht hu horigin hstep hs hpanic :=
    Machine.bereaves hreach ht hu horigin hstep hs hpanic
  forked _ _ _ _ _ _ _ _ _ hfresh hcalls hchild hnone := Fork.survives hfresh hcalls hchild hnone
  async _ _ _ _ _ _ _ _ _ _ _ _ _ _ hunused hlogs hbetween :=
    Asynchronous.survives hunused hlogs hbetween

/-- A memorized child panics and is ticked again in the next call; a child panics after
another has succeeded; a node panics that a fork ticks, on the machine and over two calls;
and so does the worker of an asynchronous tick. -/
theorem containment_law_replay :
    (∃ w₁ w₂ e earlier turn,
      Memorize.Composes Panicking.counting ⟨0⟩ .sequence Panicking.memorized [Panicking.first] w₁ ∧
      Memorize.Survives Panicking.counting ⟨0⟩ .sequence Panicking.first .other
        Panicking.memorized w₁ e earlier turn ∧
      Memorize.Composes Panicking.counting ⟨0⟩ .sequence w₁ [Panicking.second] w₂ ∧
      w₂.outside = 3) ∧
    (∃ w', Family.Calls Panicking.counting (Tick.any ⟨0⟩ (.composite .sequence)).Rests
        (.any ⟨0⟩ (.composite .sequence)) Panicking.unflagged [Panicking.flagged] w' ∧
      w'.heap.get (⟨0⟩ : Ref .flag) = true) ∧
    (∃ m m₁ t u, Machine.Runs Fork.Losing.notebook (fun _ => False)
        (.empty Fork.Losing.first.notes) m ∧ m.stepThread Fork.Losing.notebook t = some m₁ ∧
      Machine.Bereaves Fork.Losing.notebook m m₁ t u 0) ∧
    (∃ w', Fork.Calls Fork.Losing.notebook ⟨0⟩ Fork.Losing.world
        [Fork.Losing.first, Fork.Losing.second] w' ∧
      Fork.Survives Fork.Losing.notebook ⟨0⟩ [Fork.Losing.first] Fork.Losing.second [] 1 w') ∧
    ∃ m', Machine.Logs Panicking.counting ⟨0⟩ (Machine.unused 0)
        (Machine.twoCalls (.panicked .other)) m' ∧
      Asynchronous.Survives Panicking.counting ⟨0⟩ 2 .pure .lost
        [.answered 2 (.pure (.error .workerLost))] m' := by
  refine ⟨?memorized, ?flag, ?joined, ?forked, ?async⟩
  case memorized =>
    obtain ⟨w₁, w₂, hcall, hnext, hcount⟩ := Panicking.composes
    obtain ⟨e, earlier, turn, hsurvives⟩ := containment_law.memorized Panicking.counting ⟨0⟩
      .sequence [] Panicking.first .other _ _ w₁ Panicking.memorized_fresh .none hcall rfl
    exact ⟨w₁, w₂, e, earlier, turn, hcall, hsurvives, hnext, hcount⟩
  case flag =>
    obtain ⟨w', hcalls⟩ := Panicking.calls_flagged
    have hcells : ∀ cell ∈ (Tick.any ⟨0⟩ (.composite .sequence) :
        Tick (Family Panicking.Silent Bool Unit)).cells, Panicking.unflagged.Fresh cell.2 := by
      intro cell hcell
      rw [List.mem_singleton.mp hcell]
      exact Panicking.unflagged_fresh
    exact ⟨w', hcalls, containment_law.flag Panicking.counting ⟨0⟩ (.composite .sequence) []
      Panicking.flagged .other _ w' rfl List.not_mem_nil hcells hcalls rfl⟩
  case joined =>
    exact ⟨_, _, _, _, Fork.Losing.runs_dying, rfl, containment_law.joined Fork.Losing.notebook
      Fork.Losing.first.notes _ _ _ _ 0 _ .other Fork.Losing.runs_dying (.head _)
      (.tail _ (.head _)) rfl rfl rfl rfl⟩
  case forked =>
    obtain ⟨w', hcalls⟩ := Fork.Losing.called_twice
    exact ⟨w', hcalls, containment_law.forked Fork.Losing.notebook ⟨0⟩ [Fork.Losing.first] []
      Fork.Losing.second 0 1 _ w' Fork.Losing.fresh hcalls rfl List.not_mem_nil⟩
  case async =>
    obtain ⟨m', hlogs⟩ :=
      Machine.logs_twoCalls Panicking.counting (0 : Nat) (.panicked .other)
    refine ⟨m', hlogs, containment_law.async Panicking.counting ⟨0⟩ _ m'
      [.called 0 _ [] .pure .idle, .started 1 _ []] [.answered 0 (.pure (.ok .running))] _ 1 2 .other
      (Machine.tickOf (.panicked .other)) [] .pure .lost (Machine.unused_fresh 0) hlogs ?_⟩
    intro entry hentry
    rw [List.mem_singleton.mp hentry]
    rfl

end TickTree
