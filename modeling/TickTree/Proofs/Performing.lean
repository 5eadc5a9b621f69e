/-
# What is seen of a tick

A program is evaluated here together with what it does that others can see: the
questions that it puts to the world, and the ticks of nodes, each with the questions
put meanwhile and with its ending. Nodes ticked in parallel have a lane each. Any
lane may go on at any time, so what is seen of a round of them is one of the ways in
which their beats can be interleaved, and reports arrive in the order in which the
lanes come to their ends.

The nodes are expected to be such that a tick of them ticks no other nodes in turn:
all that it does is put requests that the world serves.

Key definitions: `Said`, `Turn`, `Prog.Speaks`, `Lane`, `Interleaves`, `Event`,
`Prog.Performs`.
Key theorems: `Prog.Performs.bind_iff`, `Prog.performs_iff_evaluates`, `Interleaves.lane`.
-/
import TickTree.Proofs.Locking
import Mathlib.Data.List.Perm.Subperm

namespace TickTree

variable {I : Interface} {σ α β : Type}

/-- A question put to the world, and its answer. -/
structure Said (I : Interface) where
  query : I.Query
  reply : I.Reply query

/-- What a request says to the world. -/
def Request.said : (r : Request I) → r.Reply → List (Said I)
  | .ask query, reply => [⟨query, reply⟩]
  | _, _ => []

/-! ### One tick -/

/-- The program does nothing but put requests that the world serves. It says this
meanwhile, and ends so; between two requests the world may change. -/
inductive Prog.Speaks (env : Environment I σ) (others : World I σ → World I σ → Prop)
    (caller : Caller) : {α : Type} → Prog I α → List Lock → World I σ → List (Said I) →
      Ending α → List Lock → World I σ → Prop
  | pure {α : Type} {a : α} {held w w'} :
      others w w' → Speaks env others caller (.pure a) held w [] (.value a) held w'
  | serve {α : Type} {r : Request I} {next : r.Reply → Prog I α} {reply talk ending}
      {held held₁ held' : List Lock} {w w₀ w₁ w' : World I σ} :
      others w w₀ → w₀.serve env caller held r = some (reply, held₁, w₁) →
      Speaks env others caller (next reply) held₁ w₁ talk ending held' w' →
      Speaks env others caller (.request r next) held w (r.said reply ++ talk) ending held' w'
  | panic {α : Type} {payload} {next : (Request.panic payload).Reply → Prog I α} {held w w'} :
      others w w' →
      Speaks env others caller (.request (.panic payload) next) held w [] (.panic payload) held w'

namespace Prog.Speaks

variable {env : Environment I σ} {others : World I σ → World I σ → Prop} {caller : Caller}
  {held held' : List Lock} {w w₁ w' : World I σ} {talk : List (Said I)} {ending : Ending α}

/-- Changes that come first. -/
theorem change {p : Prog I α} (htrans : ∀ {u v w}, others u v → others v w → others u w)
    (h : p.Speaks env others caller held w₁ talk ending held' w') (hchange : others w w₁) :
    p.Speaks env others caller held w talk ending held' w' := by
  cases h with
  | pure ho => exact .pure (htrans hchange ho)
  | serve ho hserve hnext => exact .serve (htrans hchange ho) hserve hnext
  | panic ho => exact .panic (htrans hchange ho)

theorem pure_iff {a : α} : (Prog.pure a).Speaks env others caller held w talk ending held' w' ↔
    talk = [] ∧ ending = .value a ∧ held' = held ∧ others w w' := by
  constructor
  · intro h
    cases h with
    | pure ho => exact ⟨rfl, rfl, rfl, ho⟩
  · rintro ⟨rfl, rfl, rfl, ho⟩
    exact .pure ho

theorem panic_iff {payload : Payload} {next : (Request.panic payload).Reply → Prog I α} :
    (Prog.request (.panic payload) next).Speaks env others caller held w talk ending held' w' ↔
      talk = [] ∧ ending = .panic payload ∧ held' = held ∧ others w w' := by
  constructor
  · intro h
    cases h with
    | serve _ hserve _ => cases hserve
    | panic ho => exact ⟨rfl, rfl, rfl, ho⟩
  · rintro ⟨rfl, rfl, rfl, ho⟩
    exact .panic ho

/-- A request that the world serves. -/
theorem serve_iff {r : Request I} {next : r.Reply → Prog I α} (hserved : r.isServed) :
    (Prog.request r next).Speaks env others caller held w talk ending held' w' ↔
      ∃ w₀ reply held₁ w₁ talk', others w w₀ ∧
        w₀.serve env caller held r = some (reply, held₁, w₁) ∧
        (next reply).Speaks env others caller held₁ w₁ talk' ending held' w' ∧
        talk = r.said reply ++ talk' := by
  constructor
  · intro h
    cases h with
    | serve ho hserve hnext => exact ⟨_, _, _, _, _, ho, hserve, hnext, rfl⟩
    | panic => cases hserved
  · rintro ⟨w₀, reply, held₁, w₁, talk', ho, hserve, hnext, rfl⟩
    exact .serve ho hserve hnext

end Prog.Speaks

/-- One tick of a node: what was said meanwhile, and how it ended. -/
structure Turn (I : Interface) where
  node : Node I
  talk : List (Said I)
  ending : Ending TickResult

/-- The node has such a turn, on the thread of the caller. -/
def Turn.Takes (env : Environment I σ) (caller : Caller) (turn : Turn I) (w w' : World I σ) :
    Prop :=
  ∃ held w₁, turn.node.call.Speaks env Eq caller [] w turn.talk turn.ending held w₁ ∧
    w' = w₁.unlock held

/-! ### Ticks in parallel -/

/-- The thread of one of several nodes that are ticked in parallel: what it has yet
to do, and the locks that it holds. -/
structure Lane (I : Interface) where
  caller : Caller
  position : Nat
  prog : Prog I TickResult
  held : List Lock

/-- What is seen of a lane, one by one: what it says, and how it ends. -/
inductive Beat (I : Interface) where
  | said (position : Nat) (said : Said I)
  | ended (position : Nat) (ending : Ending TickResult)

/-- What a lane says. -/
def talkOf (p : Nat) (beats : List (Beat I)) : List (Said I) :=
  beats.filterMap fun
    | .said q said => if q = p then some said else none
    | .ended _ _ => none

/-- How a lane ends. -/
def endingOf (p : Nat) (beats : List (Beat I)) : Option (Ending TickResult) :=
  beats.findSome? fun
    | .said _ _ => none
    | .ended q ending => if q = p then some ending else none

/-- What is reported of a lane that ends so. -/
def Lane.report (lane : Lane I) (ending : Ending TickResult) : List Report :=
  (ending.outcome.result?.map (⟨lane.position, ·⟩)).toList

/-- The world when a lane has ended. -/
def Lane.leave (env : Environment I σ) (lane : Lane I) (ending : Ending TickResult)
    (w : World I σ) : World I σ :=
  { w.unlock lane.held with outside := env.ended lane.caller ending.outcome w.outside }

/-- The lanes go on, now one and now another, until all have ended; the reports
arrive in the order of their ends. -/
inductive Interleaves (env : Environment I σ) :
    List (Lane I) → World I σ → List (Beat I) → List Report → World I σ → Prop
  | none {w} : Interleaves env [] w [] [] w
  | serve {before after : List (Lane I)} {lane : Lane I} {r : Request I}
      {next : r.Reply → Prog I TickResult} {reply beats reports} {held : List Lock}
      {w w₁ w' : World I σ} :
      lane.prog = .request r next →
      w.serve env lane.caller lane.held r = some (reply, held, w₁) →
      Interleaves env (before ++ { lane with prog := next reply, held } :: after) w₁ beats reports
        w' →
      Interleaves env (before ++ lane :: after) w
        ((r.said reply).map (.said lane.position) ++ beats) reports w'
  | ends {before after : List (Lane I)} {lane : Lane I} {ending beats reports}
      {w w' : World I σ} :
      lane.prog = ending.resume .pure →
      Interleaves env (before ++ after) (lane.leave env ending w) beats reports w' →
      Interleaves env (before ++ lane :: after) w (.ended lane.position ending :: beats)
        (lane.report ending ++ reports) w'

/-- The lanes of nodes that are about to be ticked. -/
def lanes (callers : Nat → Caller) (nodes : List (Node I)) : List (Lane I) :=
  nodes.mapIdx fun p node => ⟨callers p, p, node.call, []⟩

/-! ### Programs that tick nodes -/

/-- What is seen of a program, one by one: what it says itself, the turns of nodes,
and the rounds of nodes ticked in parallel. -/
inductive Event (I : Interface) where
  | said (said : Said I)
  | turn (turn : Turn I)
  | round (nodes : List (Node I)) (beats : List (Beat I))

/-- The turns of nodes among what is seen: those of a round are listed by position. -/
def Event.turns : Event I → List (Turn I)
  | .said _ => []
  | .turn taken => [taken]
  | .round nodes beats => nodes.zipIdx.filterMap fun (node, p) =>
      (endingOf p beats).map (⟨node, talkOf p beats, ·⟩)

/-- The program, evaluated by a tick that holds the locks `held` in the world `w`, is
seen to do this and ends so, and leaves those locks and that world. -/
inductive Prog.Performs (env : Environment I σ) (caller : Caller) :
    {α : Type} → Prog I α → List Lock → World I σ → List (Event I) → Ending α → List Lock →
      World I σ → Prop
  | pure {α : Type} {a : α} {held w} : Performs env caller (.pure a) held w [] (.value a) held w
  | serve {α : Type} {r : Request I} {next : r.Reply → Prog I α} {reply events ending}
      {held held₁ held' : List Lock} {w w₁ w' : World I σ} :
      w.serve env caller held r = some (reply, held₁, w₁) →
      Performs env caller (next reply) held₁ w₁ events ending held' w' →
      Performs env caller (.request r next) held w ((r.said reply).map .said ++ events) ending
        held' w'
  | tick {α : Type} {node : Node I} {next : TickResult → Prog I α} {talk result events ending}
      {held held' : List Lock} {w w₁ w' : World I σ} :
      Turn.Takes env caller ⟨node, talk, .value result⟩ w w₁ →
      Performs env caller (next result) held w₁ events ending held' w' →
      Performs env caller (.request (.tick node) next) held w
        (.turn ⟨node, talk, .value result⟩ :: events) ending held' w'
  | tickPanic {α : Type} {node : Node I} {next : TickResult → Prog I α} {talk payload}
      {held : List Lock} {w w₁ : World I σ} :
      Turn.Takes env caller ⟨node, talk, .panic payload⟩ w w₁ →
      Performs env caller (.request (.tick node) next) held w [.turn ⟨node, talk, .panic payload⟩]
        (.panic payload) held w₁
  | parallel {α : Type} {nodes : List (Node I)} {next : List Report → Prog I α}
      {callers beats reports events ending} {held held' : List Lock} {w w₁ w' : World I σ} :
      Interleaves env (lanes callers nodes) w beats reports w₁ →
      Performs env caller (next reports) held w₁ events ending held' w' →
      Performs env caller (.request (.parallel nodes) next) held w (.round nodes beats :: events)
        ending held' w'
  | panic {α : Type} {payload} {next : (Request.panic payload).Reply → Prog I α} {held w} :
      Performs env caller (.request (.panic payload) next) held w [] (.panic payload) held w

namespace Prog.Performs

variable {env : Environment I σ} {caller : Caller} {held held₁ held' : List Lock}
  {w w₁ w' : World I σ} {events events' : List (Event I)}

theorem pure_iff {a : α} {ending : Ending α} :
    Performs env caller (.pure a) held w events ending held' w' ↔
      events = [] ∧ ending = .value a ∧ held' = held ∧ w' = w := by
  constructor
  · intro h
    cases h with
    | pure => exact ⟨rfl, rfl, rfl, rfl⟩
  · rintro ⟨rfl, rfl, rfl, rfl⟩
    exact .pure

/-- A request that the world serves in one way. -/
theorem serve_iff {r : Request I} {next : r.Reply → Prog I α} {reply : r.Reply} {ending : Ending α}
    (hserve : w.serve env caller held r = some (reply, held₁, w₁)) :
    Performs env caller (.request r next) held w events ending held' w' ↔
      ∃ events', events = (r.said reply).map .said ++ events' ∧
        Performs env caller (next reply) held₁ w₁ events' ending held' w' := by
  constructor
  · intro h
    cases h with
    | serve hserve' hnext =>
      obtain ⟨⟩ := hserve.symm.trans hserve'
      exact ⟨_, rfl, hnext⟩
    | tick | tickPanic | parallel | panic => cases hserve
  · rintro ⟨events', rfl, hnext⟩
    exact .serve hserve hnext

theorem bind {p : Prog I α} {f : α → Prog I β} {a : α} {ending : Ending β}
    (hp : Performs env caller p held w events (.value a) held₁ w₁)
    (hf : Performs env caller (f a) held₁ w₁ events' ending held' w') :
    Performs env caller (p.bind f) held w (events ++ events') ending held' w' := by
  generalize he : Ending.value a = first at hp
  induction hp with
  | pure =>
    cases he
    exact hf
  | serve hserve _ ih =>
    rw [List.append_assoc]
    exact .serve hserve (ih hf he)
  | tick hturn _ ih => exact .tick hturn (ih hf he)
  | tickPanic => cases he
  | parallel hround _ ih => exact .parallel hround (ih hf he)
  | panic => cases he

theorem bind_panic {p : Prog I α} {f : α → Prog I β} {payload : Payload}
    (hp : Performs env caller p held w events (.panic payload) held' w') :
    Performs env caller (p.bind f) held w events (.panic payload) held' w' := by
  generalize he : Ending.panic payload = first at hp
  induction hp with
  | pure => cases he
  | serve hserve _ ih => exact .serve hserve (ih he)
  | tick hturn _ ih => exact .tick hturn (ih he)
  | tickPanic hturn =>
    cases he
    exact .tickPanic hturn
  | parallel hround _ ih => exact .parallel hround (ih he)
  | panic =>
    cases he
    exact .panic

/-- One program after another: the first panics, or it ends with a value and the
second goes on with that. -/
theorem bind_iff {p : Prog I α} {f : α → Prog I β} {ending : Ending β} :
    Performs env caller (p.bind f) held w events ending held' w' ↔
      (∃ payload, ending = .panic payload ∧
        Performs env caller p held w events (.panic payload) held' w') ∨
      ∃ a held₁ w₁ first second, events = first ++ second ∧
        Performs env caller p held w first (.value a) held₁ w₁ ∧
        Performs env caller (f a) held₁ w₁ second ending held' w' := by
  constructor
  · intro h
    induction p generalizing held w events with
    | pure a => exact .inr ⟨a, held, w, [], events, rfl, .pure, h⟩
    | request r next ih =>
      cases h with
      | serve hserve hnext =>
        rcases ih _ hnext with ⟨payload, rfl, hp⟩ | ⟨a, held₁, w₁, first, second, rfl, hp, hf⟩
        · exact .inl ⟨payload, rfl, .serve hserve hp⟩
        · exact .inr ⟨a, held₁, w₁, _, second, (List.append_assoc _ _ _).symm,
            .serve hserve hp, hf⟩
      | tick hturn hnext =>
        rcases ih _ hnext with ⟨payload, rfl, hp⟩ | ⟨a, held₁, w₁, first, second, rfl, hp, hf⟩
        · exact .inl ⟨payload, rfl, .tick hturn hp⟩
        · exact .inr ⟨a, held₁, w₁, _, second, rfl, .tick hturn hp, hf⟩
      | tickPanic hturn => exact .inl ⟨_, rfl, .tickPanic hturn⟩
      | parallel hround hnext =>
        rcases ih _ hnext with ⟨payload, rfl, hp⟩ | ⟨a, held₁, w₁, first, second, rfl, hp, hf⟩
        · exact .inl ⟨payload, rfl, .parallel hround hp⟩
        · exact .inr ⟨a, held₁, w₁, _, second, rfl, .parallel hround hp, hf⟩
      | panic => exact .inl ⟨_, rfl, .panic⟩
  · rintro (⟨payload, rfl, hp⟩ | ⟨a, held₁, w₁, first, second, rfl, hp, hf⟩)
    · exact hp.bind_panic
    · exact hp.bind hf

/-- Nobody takes a lock that is taken. -/
theorem acquire_iff {kind : CellKind} {ref : Ref kind} {next : Unit → Prog I α}
    {ending : Ending α} :
    (Prog.request (.acquire kind ref) next).Performs env caller held w events ending held' w' ↔
      ref.lock ∉ w.locked ∧ (next ()).Performs env caller (ref.lock :: held) (w.hold ref.lock)
        events ending held' w' := by
  constructor
  · intro h
    cases h with
    | serve hserve hnext =>
      obtain ⟨hfree, rfl, rfl⟩ := World.serve_acquire_iff.mp hserve
      exact ⟨hfree, hnext⟩
  · rintro ⟨hfree, hnext⟩
    exact .serve (World.serve_acquire_hold hfree) hnext

/-- A last look at a cell, which leaves this in it, is not seen. -/
theorem swap_iff {kind : CellKind} {ref : Ref kind} {state : kind.State I}
    {answer : kind.State I → α} {ending : Ending α} :
    (Prog.request (.swap kind ref state) fun old => .pure (answer old)).Performs env caller held w
        events ending held' w' ↔
      events = [] ∧ ending = .value (answer (w.heap.get ref)) ∧ held' = held ∧
        w' = { w with heap := w.heap.set ref state } := by
  refine (serve_iff rfl).trans ?_
  constructor
  · rintro ⟨_, rfl, hp⟩
    obtain ⟨rfl, rfl, rfl, rfl⟩ := pure_iff.mp hp
    exact ⟨rfl, rfl, rfl, rfl⟩
  · rintro ⟨rfl, rfl, rfl, rfl⟩
    exact ⟨[], rfl, .pure⟩

/-- A program, and then another of which nothing is seen: it has an answer to how the first
has ended, and leaves a change. -/
theorem bind_unseen_iff {p : Prog I α} {f : α → Prog I β} {ending : Ending β}
    {answer : Ending α → World I σ → Ending β} {change : Ending α → World I σ → World I σ}
    (hf : ∀ a {held : List Lock} {w : World I σ} {events},
      (f a).Performs env caller held w events ending held' w' ↔ events = [] ∧
        ending = answer (.value a) w ∧ held' = held ∧ w' = change (.value a) w)
    (hpanic : ∀ payload w, answer (.panic payload) w = .panic payload ∧
      change (.panic payload) w = w) :
    (p.bind f).Performs env caller held w events ending held' w' ↔
      ∃ first w₁, p.Performs env caller held w events first held' w₁ ∧ ending = answer first w₁ ∧
        w' = change first w₁ := by
  rw [bind_iff]
  constructor
  · rintro (⟨payload, rfl, hp⟩ | ⟨a, held₁, w₁, first, second, rfl, hp, hunseen⟩)
    · exact ⟨.panic payload, w', hp, (hpanic payload w').1.symm, (hpanic payload w').2.symm⟩
    · obtain ⟨rfl, hending, rfl, hw'⟩ := (hf a).mp hunseen
      rw [List.append_nil]
      exact ⟨.value a, w₁, hp, hending, hw'⟩
  · rintro ⟨first, w₁, hp, hending, hw'⟩
    cases first with
    | panic payload =>
      rw [(hpanic payload w₁).1] at hending
      rw [(hpanic payload w₁).2] at hw'
      exact .inl ⟨payload, hending, hw' ▸ hp⟩
    | value a =>
      refine .inr ⟨a, held', w₁, events, [], (List.append_nil _).symm, hp, ?_⟩
      exact (hf a).mpr ⟨rfl, hending, rfl, hw'⟩

end Prog.Performs

/-- All requests of the program are such. -/
inductive Prog.All (P : Request I → Prop) : {α : Type} → Prog I α → Prop
  | pure {α : Type} {a : α} : All P (.pure a)
  | request {α : Type} {r : Request I} {next : r.Reply → Prog I α} :
      P r → (∀ reply, All P (next reply)) → All P (.request r next)

theorem Prog.All.mono {P Q : Request I → Prop} {p : Prog I α} (hp : p.All P)
    (hsub : ∀ r, P r → Q r) : p.All Q := by
  induction hp with
  | pure => exact .pure
  | request hr _ ih => exact .request (hsub _ hr) fun reply => ih reply

theorem Prog.All.bind {P : Request I → Prop} {p : Prog I α} {f : α → Prog I β} (hp : p.All P)
    (hf : ∀ a, (f a).All P) : (p.bind f).All P := by
  induction hp with
  | pure => exact hf _
  | request hr _ ih => exact .request hr fun reply => ih reply

/-! ### What is seen and what is done -/

/-- The request takes no other node and no other thread. -/
def Request.isPlain : Request I → Bool
  | .tick _ | .parallel _ | .start _ _ _ => false
  | _ => true

theorem Prog.Speaks.evaluates {env : Environment I σ} {caller : Caller} {joins : Joins I σ}
    {p : Prog I α} {held held' : List Lock} {w w' : World I σ} {talk : List (Said I)}
    {ending : Ending α} (h : p.Speaks env Eq caller held w talk ending held' w') :
    p.Evaluates env caller joins held w ending held' w' := by
  induction h with
  | pure ho => exact ho ▸ .pure
  | serve ho hserve _ ih => exact .serve (ho ▸ hserve) ih
  | panic ho => exact ho ▸ .panic

theorem Prog.Evaluates.speaks {env : Environment I σ} {caller : Caller} {joins : Joins I σ}
    {p : Prog I α} {held held' : List Lock} {w w' : World I σ} {ending : Ending α}
    (h : p.Evaluates env caller joins held w ending held' w') (hall : p.All (·.isPlain)) :
    ∃ talk, p.Speaks env Eq caller held w talk ending held' w' := by
  induction h with
  | pure => exact ⟨[], .pure rfl⟩
  | serve hserve _ ih =>
    cases hall with
    | request _ hnext =>
      obtain ⟨talk, htalk⟩ := ih (hnext _)
      exact ⟨_, .serve rfl hserve htalk⟩
  | tick | tickPanic | parallel =>
    cases hall with
    | request hr => cases hr
  | panic => exact ⟨[], .panic rfl⟩

/-- Nodes ticked in parallel do what their lanes can do. -/
def together (env : Environment I σ) : Joins I σ := fun w nodes reports w' =>
  ∃ callers beats, Interleaves env (lanes callers nodes) w beats reports w'

/-- **What is seen is what is done**: a program performs its evaluations, if the nodes
that it ticks tick no other nodes in turn. -/
theorem Prog.performs_iff_evaluates {env : Environment I σ} {caller : Caller} {p : Prog I α}
    {held held' : List Lock} {w w' : World I σ} {ending : Ending α}
    (hall : p.All fun r => ∀ node, r = .tick node → node.call.All (·.isPlain)) :
    (∃ events, p.Performs env caller held w events ending held' w') ↔
      p.Evaluates env caller (together env) held w ending held' w' := by
  constructor
  · rintro ⟨events, h⟩
    clear hall
    induction h with
    | pure => exact .pure
    | serve hserve _ ih => exact .serve hserve ih
    | tick hturn _ ih =>
      obtain ⟨held₁, w₁, hspeaks, rfl⟩ := hturn
      exact .tick hspeaks.evaluates ih
    | tickPanic hturn =>
      obtain ⟨held₁, w₁, hspeaks, rfl⟩ := hturn
      exact .tickPanic hspeaks.evaluates
    | parallel hround _ ih => exact .parallel ⟨_, _, hround⟩ ih
    | panic => exact .panic
  · intro h
    induction h with
    | pure => exact ⟨[], .pure⟩
    | serve hserve _ ih =>
      cases hall with
      | request _ hnext =>
        obtain ⟨events, hevents⟩ := ih (hnext _)
        exact ⟨_, .serve hserve hevents⟩
    | tick hcall _ _ ih =>
      cases hall with
      | request hr hnext =>
        obtain ⟨talk, htalk⟩ := hcall.speaks (hr _ rfl)
        obtain ⟨events, hevents⟩ := ih (hnext _)
        exact ⟨_, .tick ⟨_, _, htalk, rfl⟩ hevents⟩
    | tickPanic hcall =>
      cases hall with
      | request hr _ =>
        obtain ⟨talk, htalk⟩ := hcall.speaks (hr _ rfl)
        exact ⟨_, .tickPanic ⟨_, _, htalk, rfl⟩⟩
    | parallel hjoin _ ih =>
      cases hall with
      | request _ hnext =>
        obtain ⟨callers, beats, hround⟩ := hjoin
        obtain ⟨events, hevents⟩ := ih (hnext _)
        exact ⟨_, .parallel hround hevents⟩
    | panic => exact ⟨[], .panic⟩

/-- The world serves the request, and hears nothing of it. -/
def Request.isSilent : Request I → Bool
  | .read _ _ | .swap _ _ _ | .alloc _ | .acquire _ _ | .release _ _ => true
  | _ => false

/-- Of a program that keeps to its cells nothing is seen. -/
theorem Prog.performs_iff_of_silent {env : Environment I σ} {caller : Caller} {joins : Joins I σ}
    {p : Prog I α} {held held₁ held' : List Lock} {w w₁ w' : World I σ} {events : List (Event I)}
    {ending ending' : Ending α} (hall : p.All (·.isSilent))
    (h : p.Evaluates env caller joins held w ending held₁ w₁) :
    p.Performs env caller held w events ending' held' w' ↔
      events = [] ∧ ending' = ending ∧ held' = held₁ ∧ w' = w₁ := by
  induction h generalizing events with
  | pure => exact Prog.Performs.pure_iff
  | @serve _ r _ reply _ _ _ _ _ _ _ hserve _ ih =>
    cases hall with
    | request hr hnext =>
    have hsaid : r.said reply = [] := by
      cases r with
      | ask => cases hr
      | _ => rfl
    rw [Prog.Performs.serve_iff hserve, hsaid]
    simp only [List.map_nil, List.nil_append, exists_eq_left', ih (hnext reply)]
  | tick | tickPanic | parallel | panic =>
    cases hall with
    | request hr => cases hr

/-! ### What lanes keep to themselves -/

section

variable {I : Interface} {σ α : Type} {env env' : Environment I σ} {caller : Caller}
  {held held' : List Lock} {w w' : World I σ} {ending : Ending α} {p : Prog I α}

theorem World.serve_of_isSilent {r : Request I} (hr : r.isSilent) :
    w.serve env caller held r = w.serve env' caller held r := by
  cases r with
  | ask | tick | parallel | start | panic => cases hr
  | read | swap | alloc | acquire | release => rfl

theorem Prog.Speaks.of_isSilent {others : World I σ → World I σ → Prop} {talk : List (Said I)}
    (h : p.Speaks env others caller held w talk ending held' w') (hall : p.All (·.isSilent))
    (env' : Environment I σ) :
    (∃ a, ending = .value a) ∧ p.Speaks env' others caller held w talk ending held' w' := by
  induction h with
  | pure ho => exact ⟨⟨_, rfl⟩, .pure ho⟩
  | serve ho hserve _ ih =>
    cases hall with
    | request hr hnext =>
      obtain ⟨hvalue, hspeaks⟩ := ih (hnext _)
      exact ⟨hvalue, .serve ho (World.serve_of_isSilent hr ▸ hserve) hspeaks⟩
  | panic =>
    cases hall with
    | request hr => cases hr

theorem Prog.Performs.of_isSilent {events : List (Event I)}
    (h : p.Performs env caller held w events ending held' w') (hall : p.All (·.isSilent))
    (env' : Environment I σ) :
    p.Performs env' caller held w events ending held' w' := by
  induction h with
  | pure => exact .pure
  | serve hserve _ ih =>
    cases hall with
    | request hr hnext => exact .serve (World.serve_of_isSilent hr ▸ hserve) (ih (hnext _))
  | tick | tickPanic | parallel | panic =>
    cases hall with
    | request hr => cases hr

end

theorem Ref.lock_injective {kind : CellKind} : Function.Injective (Ref.lock : Ref kind → Lock) := by
  rintro ⟨index⟩ ⟨index'⟩ he
  cases he
  rfl

/-- Only cells with these locks may have changed, and the world outside. -/
structure World.Within (locks : Lock → Prop) (w w' : World I σ) : Prop where
  made : ∀ {kind : CellKind} {s : Ref kind}, w.heap.Made s → w'.heap.Made s
  cell : ∀ {kind : CellKind} {s : Ref kind}, ¬ locks s.lock → w'.heap.get s = w.heap.get s
  locked : w'.locked = w.locked

namespace World.Within

variable {locks locks' : Lock → Prop} {w w₁ w' : World I σ}

theorem refl (locks : Lock → Prop) (w : World I σ) : Within locks w w := ⟨id, fun _ => rfl, rfl⟩

theorem trans (h : Within locks w w₁) (h' : Within locks w₁ w') : Within locks w w' :=
  ⟨fun hmade => h'.made (h.made hmade), fun hs => (h'.cell hs).trans (h.cell hs),
    h'.locked.trans h.locked⟩

theorem mono (h : Within locks w w') (hsub : ∀ l, locks l → locks' l) : Within locks' w w' :=
  ⟨h.made, fun hs => h.cell fun hl => hs (hsub _ hl), h.locked⟩

end World.Within

/-- The request asks, reads, makes a cell, or changes the cell with this lock. -/
def Request.Minds (lock : Lock) : Request I → Prop
  | .ask _ | .read _ _ | .alloc _ | .panic _ => True
  | .swap _ ref _ => ref.lock = lock
  | _ => False

/-- A question changes the world outside only. -/
theorem World.heap_of_ask {env : Environment I σ} {caller : Caller} {held held₁ : List Lock}
    {w w₁ : World I σ} {query : I.Query} {reply : (Request.ask query).Reply}
    (hserve : w.serve env caller held (.ask query) = some (reply, held₁, w₁)) :
    w₁.heap = w.heap ∧ w₁.locked = w.locked ∧ held₁ = held := by
  obtain ⟨⟨reply', outside⟩, -, he⟩ := Option.map_eq_some_iff.mp hserve
  cases he
  exact ⟨rfl, rfl, rfl⟩

theorem Request.Minds.within {env : Environment I σ} {caller : Caller} {lock : Lock}
    {r : Request I} {reply : r.Reply} {held held₁ : List Lock} {w w₁ : World I σ}
    (hr : r.Minds lock) (hserve : w.serve env caller held r = some (reply, held₁, w₁)) :
    w.Within (· = lock) w₁ ∧ held₁ = held := by
  cases r with
  | read kind ref =>
    cases hserve
    exact ⟨.refl _ w, rfl⟩
  | swap kind ref state =>
    cases hserve
    have hcell : ∀ {kind'} {s : Ref kind'}, ¬ s.lock = lock →
        (w.heap.set ref state).get s = w.heap.get s := fun hs =>
      Heap.get_set_of_lock_ne (fun he => hs (he.symm.trans hr)) _ state
    exact ⟨⟨(Heap.made_set state).mpr, hcell, rfl⟩, rfl⟩
  | alloc kind =>
    cases hserve
    exact ⟨⟨fun hmade => Heap.made_alloc_of_made hmade kind, fun _ => Heap.get_alloc _ kind _, rfl⟩,
      rfl⟩
  | ask query =>
    obtain ⟨hheap, hlocked, rfl⟩ := World.heap_of_ask hserve
    exact ⟨⟨fun hmade => hheap ▸ hmade, fun _ => hheap ▸ rfl, hlocked⟩, rfl⟩
  | panic payload => cases hserve
  | _ => exact hr.elim

/-- A program that minds one cell changes no other, beside what others change. -/
theorem Prog.Speaks.within {env : Environment I σ} {others : World I σ → World I σ → Prop}
    {caller : Caller} {p : Prog I α} {held held' : List Lock} {w w' : World I σ}
    {talk : List (Said I)} {ending : Ending α} {lock : Lock} {locks : Lock → Prop}
    (hall : p.All (·.Minds lock)) (hlock : locks lock)
    (hothers : ∀ {w w'}, others w w' → World.Within locks w w')
    (h : p.Speaks env others caller held w talk ending held' w') :
    w.Within locks w' ∧ held' = held := by
  induction h with
  | pure ho => exact ⟨hothers ho, rfl⟩
  | serve ho hserve _ ih =>
    cases hall with
    | request hr hnext =>
    obtain ⟨hstep, rfl⟩ := hr.within hserve
    obtain ⟨hrest, rfl⟩ := ih (hnext _)
    exact ⟨((hothers ho).trans (hstep.mono fun _ he => he ▸ hlock)).trans hrest, rfl⟩
  | panic ho => exact ⟨hothers ho, rfl⟩

theorem Prog.Evaluates.within {env : Environment I σ} {caller : Caller} {joins : Joins I σ}
    {p : Prog I α} {held held' : List Lock} {w w' : World I σ} {ending : Ending α} {lock : Lock}
    (hall : p.All (·.Minds lock)) (h : p.Evaluates env caller joins held w ending held' w') :
    w.Within (· = lock) w' := by
  induction h with
  | pure | panic => exact .refl _ _
  | serve hserve _ ih =>
    cases hall with
    | request hr hnext => exact (hr.within hserve).1.trans (ih (hnext _))
  | tick | tickPanic | parallel =>
    cases hall with
    | request hr => exact hr.elim

theorem talkOf_said (p : Nat) (talk : List (Said I)) (beats : List (Beat I)) :
    talkOf p (talk.map (.said p) ++ beats) = talk ++ talkOf p beats := by
  simp [talkOf, List.filterMap_map]

theorem talkOf_said_ne {p q : Nat} (hne : q ≠ p) (talk : List (Said I)) (beats : List (Beat I)) :
    talkOf p (talk.map (.said q) ++ beats) = talkOf p beats := by
  simp [talkOf, List.filterMap_map, hne]

theorem endingOf_said (p q : Nat) (talk : List (Said I)) (beats : List (Beat I)) :
    endingOf p (talk.map (.said q) ++ beats) = endingOf p beats := by
  induction talk with
  | nil => rfl
  | cons said talk ih => exact ih

theorem endingOf_ended_ne {p q : Nat} (hne : q ≠ p) (ending : Ending TickResult)
    (beats : List (Beat I)) : endingOf p (.ended q ending :: beats) = endingOf p beats := by
  simp [endingOf, hne]

namespace Interleaves

variable {env : Environment I σ} {ls : List (Lane I)} {w w' : World I σ} {beats : List (Beat I)}
  {reports : List Report}

/-- Who has no lane says nothing. -/
theorem silent (h : Interleaves env ls w beats reports w') {p : Nat}
    (hp : p ∉ ls.map (·.position)) : talkOf p beats = [] := by
  induction h with
  | none => rfl
  | @serve before after lane r next reply beats _ _ _ _ _ _ _ _ ih =>
    have hne : lane.position ≠ p := fun he => hp (by simp [he])
    rw [talkOf_said_ne hne]
    exact ih (by simpa using hp)
  | @ends before after lane _ _ _ _ _ _ _ ih =>
    have hperm := (@List.perm_middle _ lane before after).map (·.position)
    exact ih fun hmem => hp (hperm.mem_iff.mpr (List.mem_cons_of_mem _ hmem))

/-- Each lane reports once at most. -/
theorem subperm (h : Interleaves env ls w beats reports w') :
    (reports.map (·.position)).Subperm (ls.map (·.position)) := by
  induction h with
  | none => exact List.Subperm.refl _
  | serve _ _ _ ih => simpa using ih
  | @ends before after lane ending _ _ _ _ _ _ ih =>
    have hperm := (@List.perm_middle _ lane before after).map (·.position)
    refine List.Subperm.trans ?_ hperm.symm.subperm
    rw [List.map_cons, List.map_append]
    cases ending with
    | value r => exact (List.subperm_cons _).mpr ih
    | panic payload => exact List.Subperm.trans ih (List.sublist_cons_self _ _).subperm

/-- A lane goes first, to its end, and then the others go on. -/
theorem first {lane : Lane I} {talk : List (Said I)} {ending : Ending TickResult}
    {held : List Lock} {w₁ : World I σ}
    (hrest : Interleaves env ls ({ lane with held }.leave env ending w₁) beats reports w')
    (hspeaks : lane.prog.Speaks env Eq lane.caller lane.held w talk ending held w₁) :
    Interleaves env (lane :: ls) w
      (talk.map (.said lane.position) ++ .ended lane.position ending :: beats)
      (lane.report ending ++ reports) w' := by
  obtain ⟨caller, p, prog, held₀⟩ := lane
  have hends : ∀ {prog held w} {ending : Ending TickResult}, prog = ending.resume .pure →
      Interleaves env ls (Lane.leave env ⟨caller, p, prog, held⟩ ending w) beats reports w' →
      Interleaves env (⟨caller, p, prog, held⟩ :: ls) w (.ended p ending :: beats)
        (Lane.report ⟨caller, p, prog, held⟩ ending ++ reports) w' :=
    fun hprog hrest => @ends _ _ _ [] _ _ _ _ _ _ _ hprog hrest
  dsimp only at hspeaks
  induction hspeaks with
  | pure ho =>
    subst ho
    exact hends rfl hrest
  | panic ho =>
    subst ho
    exact hends (Prog.request_panic _ _) hrest
  | serve ho hserve _ ih =>
    subst ho
    rw [List.map_append, List.append_assoc]
    exact @serve _ _ _ [] _ _ _ _ _ _ _ _ _ _ _ rfl hserve (ih hrest)

/-- **A lane among the others.** If each lane changes nothing but one cell of its
own, it goes on as if the others changed the rest of the world between its requests. -/
theorem lane (h : Interleaves env ls w beats reports w') (own : Nat → Lock)
    (hdistinct : (ls.map fun lane => own lane.position).Nodup)
    (hown : ∀ lane ∈ ls, lane.prog.All (·.Minds (own lane.position)) ∧ lane.held = []) :
    w.Within (· ∈ ls.map fun lane => own lane.position) w' ∧
    ∀ lane ∈ ls, ∃ ending w₁, endingOf lane.position beats = some ending ∧
      lane.prog.Speaks env (World.Within (· ≠ own lane.position)) lane.caller [] w
        (talkOf lane.position beats) ending [] w₁ ∧
      w₁.Within (· ≠ own lane.position) w' := by
  have hsplit : ∀ {before after : List (Lane I)} {lane : Lane I},
      ((before ++ lane :: after).map fun lane => own lane.position).Nodup →
      ((before ++ after).map fun lane => own lane.position).Nodup ∧
        ∀ l ∈ before ++ after, own l.position ≠ own lane.position := by
    intro before after lane hnodup
    have hperm := (@List.perm_middle _ lane before after).map
      fun lane => own lane.position
    obtain ⟨hnot, hrest⟩ := List.nodup_cons.mp (hperm.nodup_iff.mp hnodup)
    exact ⟨hrest, fun l hl he => hnot (List.mem_map.mpr ⟨l, hl, he⟩)⟩
  have hmiddle : ∀ {before after : List (Lane I)} {lane l : Lane I},
      l ∈ before ++ lane :: after ↔ l = lane ∨ l ∈ before ++ after := by
    intro before after lane l
    exact List.perm_middle.mem_iff.trans List.mem_cons
  induction h with
  | none => exact ⟨.refl _ _, fun _ hmem => absurd hmem List.not_mem_nil⟩
  | @serve before after lane r next reply beats reports held w w₁ w' hprog hserve _ ih =>
    obtain ⟨caller, p, prog, held₀⟩ := lane
    obtain rfl : prog = .request r next := hprog
    obtain ⟨hall, hheld⟩ := hown _ (hmiddle.mpr (.inl rfl))
    obtain rfl : held₀ = [] := hheld
    obtain ⟨-, hne⟩ := hsplit hdistinct
    cases hall with
    | request hr hnext =>
    obtain ⟨hstep, rfl⟩ := hr.within hserve
    have hmap : (before ++ ⟨caller, p, next reply, []⟩ :: after).map
          (fun lane => own lane.position) =
        (before ++ ⟨caller, p, .request r next, []⟩ :: after).map
          fun lane => own lane.position := by
      simp
    rw [hmap] at ih
    obtain ⟨hwithin, hlanes⟩ := ih hdistinct fun l hl => by
      rcases hmiddle.mp hl with rfl | hl
      · exact ⟨hnext reply, rfl⟩
      · exact hown l (hmiddle.mpr (.inr hl))
    refine ⟨(hstep.mono ?_).trans hwithin, fun l hl => ?_⟩
    · rintro _ rfl
      exact List.mem_map.mpr ⟨_, hmiddle.mpr (.inl rfl), rfl⟩
    · rcases hmiddle.mp hl with rfl | hl
      · obtain ⟨ending, w₂, hending, hspeaks, hafter⟩ := hlanes _ (hmiddle.mpr (.inl rfl))
        rw [talkOf_said, endingOf_said]
        exact ⟨ending, w₂, hending, .serve (.refl _ w) hserve hspeaks, hafter⟩
      · obtain ⟨ending, w₂, hending, hspeaks, hafter⟩ := hlanes l (hmiddle.mpr (.inr hl))
        have hp : p ≠ l.position := fun he => hne l hl (congrArg own he.symm)
        rw [talkOf_said_ne hp, endingOf_said]
        refine ⟨ending, w₂, hending, hspeaks.change World.Within.trans (hstep.mono ?_), hafter⟩
        rintro _ rfl
        exact (hne l hl).symm
  | @ends before after lane ending beats reports w w' hprog hrest ih =>
    obtain ⟨caller, p, prog, held₀⟩ := lane
    obtain rfl : prog = ending.resume .pure := hprog
    obtain ⟨-, hheld⟩ := hown _ (hmiddle.mpr (.inl rfl))
    obtain rfl : held₀ = [] := hheld
    obtain ⟨hnodup, hne⟩ := hsplit hdistinct
    obtain ⟨hwithin, hlanes⟩ := ih hnodup fun l hl => hown l (hmiddle.mpr (.inr hl))
    have hstep : ∀ locks : Lock → Prop, w.Within locks
        (Lane.leave env ⟨caller, p, ending.resume .pure, []⟩ ending w) := by
      intro locks
      unfold Lane.leave
      rw [World.unlock_nil]
      exact ⟨id, fun _ => rfl, rfl⟩
    refine ⟨(hstep _).trans (hwithin.mono fun l hl => ?_), fun l hl => ?_⟩
    · obtain ⟨lane, hlane, rfl⟩ := List.mem_map.mp hl
      exact List.mem_map.mpr ⟨lane, hmiddle.mpr (.inr hlane), rfl⟩
    · rcases hmiddle.mp hl with rfl | hl
      · refine ⟨ending, w, by simp [endingOf], ?_, (hstep _).trans (hwithin.mono fun l hl => ?_)⟩
        · have hnot : p ∉ (before ++ after).map (·.position) := fun hmem => by
            obtain ⟨l, hl, hp⟩ := List.mem_map.mp hmem
            exact hne l hl (congrArg own hp)
          have htalk : talkOf p (.ended p ending :: beats) = [] := hrest.silent hnot
          rw [htalk]
          cases ending with
          | value r => exact .pure (.refl _ w)
          | panic payload => exact .panic (.refl _ w)
        · obtain ⟨lane, hlane, rfl⟩ := List.mem_map.mp hl
          exact hne lane hlane
      · obtain ⟨ending', w₂, hending, hspeaks, hafter⟩ := hlanes l hl
        have hp : p ≠ l.position := fun he => hne l hl (congrArg own he.symm)
        rw [endingOf_ended_ne hp]
        exact ⟨ending', w₂, hending, hspeaks.change World.Within.trans (hstep _), hafter⟩

end Interleaves

/-- The turns of a round in which every lane has ended. -/
theorem Event.turns_round {nodes : List (Node I)} {beats : List (Beat I)}
    {ending : Nat → Ending TickResult}
    (h : ∀ p < nodes.length, endingOf p beats = some (ending p)) :
    (Event.round nodes beats).turns =
      nodes.mapIdx fun p node => ⟨node, talkOf p beats, ending p⟩ := by
  have hsome : ∀ entry ∈ nodes.zipIdx,
      (endingOf entry.2 beats).map (Turn.mk entry.1 (talkOf entry.2 beats)) =
        some ⟨entry.1, talkOf entry.2 beats, ending entry.2⟩ := by
    rintro ⟨node, p⟩ hmem
    have hlt : p < nodes.length := by simpa using (List.mem_zipIdx hmem).2.1
    rw [h p hlt, Option.map_some]
  refine (List.filterMap_congr hsome).trans (List.ext_getElem (by simp) fun p hp hp' => ?_)
  simp

end TickTree
