/-
# Contexts

A context is a cancellation scope that the ticks of a tree share. Its scope is
a token; opening a scope cancels the one before. The tokens of a context may
hang under a parent token, and its scopes may expire, a given time after they
are opened or at a given time. A scope that is to expire needs a timer service
where it is opened, unless its time has come already and it starts cancelled.

The ticks of a context are built from questions to the world, one for each step
that other threads can come between. `ContextQuery.answer` is the world's side
of them. Waiting for a token has no answer while the token is live.

Times are numbers of one unit, the same as for tickers. No time is too large:
that the time at which a scope expires overflows is left out.

Key definitions: `Context`, `Scopes`, `Scopes.openScope`, `ContextQuery`,
`ContextQuery.answer`, `Context.initTick`, `Context.cancelTick`,
`Context.errTick`, `Context.doneTick`, `Context.bindTick`.
-/
import TickTree.Behavior
import TickTree.Token

namespace TickTree

/-- When the scopes of a context expire. -/
inductive Expiry where
  /-- So long after each is opened. -/
  | after (span : Nat)
  /-- At this time, which may have passed before the clock began. -/
  | at (time : Int)
  deriving DecidableEq, Repr, Inhabited

/-- The time at which a scope opened `now` expires. -/
def Expiry.due (now : Nat) : Expiry → Int
  | after span => now + span
  | .at time => time

/-- An opened scope: its token, and whether a timer service was current where it
was opened. -/
structure Scope where
  token : Nat
  timed : Bool
  deriving DecidableEq, Repr, Inhabited

/-- A context: the token that its scopes hang under, when they expire, and the
scope opened last. -/
structure Context where
  parent : Option Nat
  expiry : Option Expiry
  scope : Option Scope
  deriving DecidableEq, Repr, Inhabited

/-- The timer of a scope: it cancels `token` at the time `due`, and is over
after that or once the token is cancelled. -/
structure Timer where
  token : Nat
  due : Nat
  isOver : Bool
  deriving DecidableEq, Repr, Inhabited

/-- The tokens, contexts and timers, the time, and the time up to which timers
have gone off. -/
structure Scopes where
  now : Nat
  elapsed : Nat
  tokens : Tokens
  contexts : Array Context
  timers : Array Timer

namespace Scopes

/-- Nothing made, at time zero. -/
def empty : Scopes := { now := 0, elapsed := 0, tokens := .empty, contexts := #[], timers := #[] }

/-- The scope that the context opened last. -/
def scope? (s : Scopes) (c : Nat) : Option Scope := s.contexts[c]?.bind (·.scope)

/-- Makes a context. -/
def newContext (s : Scopes) (parent : Option Nat) (expiry : Option Expiry) : Nat × Scopes :=
  (s.contexts.size, { s with contexts := s.contexts.push { parent, expiry, scope := none } })

/-- Cancels a token. -/
def cancel (s : Scopes) (token : Nat) : Scopes := { s with tokens := s.tokens.cancel token }

/-- Cancels the scope that the context opened last. -/
def cancelScope (s : Scopes) (c : Nat) : Scopes :=
  match s.scope? c with
  | some scope => s.cancel scope.token
  | none => s

/-- The context without its scope, or with another. -/
def setScope (s : Scopes) (c : Nat) (scope : Option Scope) : Scopes :=
  { s with contexts := s.contexts.modify c fun context => { context with scope } }

/-- Cancels the scope of the context and opens another; `timed` says whether a
timer service is current. A scope whose time has come starts cancelled. If the
scope would need a timer and there is no service, none is opened. -/
def openScope (s : Scopes) (timed : Bool) (c : Nat) : TickResult × Scopes :=
  match s.contexts[c]? with
  | none => (.ok .success, s)
  | some context =>
    let s := (s.cancelScope c).setScope c none
    let (token, tokens) := s.tokens.under context.parent
    let s := { s with tokens }
    let opened := s.setScope c (some { token, timed })
    match context.expiry.map (·.due s.now) with
    | none => (.ok .success, opened)
    | some due =>
      if due ≤ s.now then (.ok .success, opened.cancel token)
      else if timed then
        (.ok .success,
          { opened with timers := s.timers.push { token, due := due.toNat, isOver := false } })
      else (.error .expiryNeedsRuntime, s)

/-- The timer number `k` after its next step, if it can take one: it is over
once its token is cancelled, and cancels the token when it goes off. -/
def runTimer (s : Scopes) (k : Nat) : Option Scopes :=
  match s.timers[k]? with
  | none => none
  | some timer =>
    let ended := { s with timers := s.timers.modify k fun timer => { timer with isOver := true } }
    if timer.isOver then none
    else if s.tokens.isCancelled timer.token then some ended
    else if timer.due ≤ s.elapsed then some (ended.cancel timer.token)
    else none

end Scopes

/-- The questions of the ticks of contexts. -/
inductive ContextQuery where
  /-- Open a scope. -/
  | init (context : Nat)
  /-- Cancel the scope. -/
  | cancel (context : Nat)
  /-- Which scope was opened last? -/
  | scope (context : Nat)
  /-- Is the token cancelled? -/
  | isCancelled (token : Nat)
  /-- Is a timer service current here? -/
  | isTimed
  /-- Wait until the token is cancelled. -/
  | wait (token : Nat)
  deriving DecidableEq, Repr, Inhabited

/-- The type of the answer to a question. -/
def ContextQuery.Reply : ContextQuery → Type
  | init _ => TickResult
  | cancel _ => Unit
  | scope _ => Option Scope
  | isCancelled _ => Bool
  | isTimed => Bool
  | wait _ => Unit

/-- The answer to a question, where `timed` says whether a timer service is
current for the thread that asks. -/
def ContextQuery.answer (timed : Bool) : (q : ContextQuery) → Scopes → Option (q.Reply × Scopes)
  | init c, s => some (s.openScope timed c)
  | cancel c, s => some ((), s.cancelScope c)
  | scope c, s => some (s.scope? c, s)
  | isCancelled token, s => some (s.tokens.isCancelled token, s)
  | isTimed, s => some (timed, s)
  | wait token, s => if s.tokens.isCancelled token then some ((), s) else none

/-- An interface together with the questions of contexts. -/
def Interface.withContexts (I : Interface) : Interface where
  Query := ContextQuery ⊕ I.Query
  Reply
    | .inl q => q.Reply
    | .inr q => I.Reply q

namespace Context
variable {I : Interface}

/-- A tick that puts a question of contexts and goes on with the answer. -/
def ask (q : ContextQuery) (next : q.Reply → Tick I.withContexts) : Tick I.withContexts :=
  .ask (.inl q) next

/-- Succeeds at once. -/
def succeed : Tick I.withContexts := .const (.ok .success)

/-- Cancels the scope and opens another. -/
def initTick (c : Nat) : Tick I.withContexts := ask (.init c) .const

/-- Cancels the scope, if there is one. -/
def cancelTick (c : Nat) : Tick I.withContexts := ask (.cancel c) fun _ => succeed

/-- Fails while the scope is live, and succeeds when it is cancelled or none was
opened. -/
def errTick (c : Nat) : Tick I.withContexts := ask (.scope c) fun
  | none => succeed
  | some scope => ask (.isCancelled scope.token) fun (cancelled : Bool) =>
      if cancelled then succeed else .const (.ok .failure)

/-- Waits until the scope that it finds is cancelled, and succeeds; if it finds
none, at once. A wait needs the timer service that was current where the scope
was opened, or one here. -/
def doneTick (c : Nat) : Tick I.withContexts := ask (.scope c) fun
  | none => succeed
  | some scope => ask (.isCancelled scope.token) fun (cancelled : Bool) =>
      if cancelled then succeed
      else if scope.timed then ask (.wait scope.token) fun _ => succeed
      else ask .isTimed fun (timed : Bool) =>
        if timed then ask (.wait scope.token) fun _ => succeed
        else .const (.error .noReactor)

/-- Runs the tick that `f` gives for the token of the scope; an error if none
was opened. -/
def bindTick (c : Nat) (f : Nat → Tick I.withContexts) : Tick I.withContexts :=
  ask (.scope c) fun
  | none => .const (.error .contextNotOpen)
  | some scope => f scope.token

/-- Chooses between two ticks by whether the token is live. -/
def whileLive (token : Nat) (live dead : Tick I.withContexts) : Tick I.withContexts :=
  ask (.isCancelled token) fun (cancelled : Bool) => if cancelled then dead else live

end Context
end TickTree
