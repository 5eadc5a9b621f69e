/-
# Systems of tickers and managers

A system holds tokens, contexts, tickers and managers side by side, and members
from outside that only promise to be done one day. Its actions are what its
users do to it, the steps of drivers, supervisors, watchers and timers, and the
passing of time. Any sequence of actions that are possible one after the other
is a run; nothing here says which comes next.

Handing a member to a manager takes two actions, with others in between: the
member is offered to a manager that was not asked to stop, and the offer is then
posted, to be taken if the mailbox is still open and refused if not.

A manager is held while the handles it was made with are, while it lies in a
mailbox, while an offer names it, or while a watcher watches it.

Key definitions: `Member`, `Offer`, `System`, `Action`, `System.step`.
-/
import TickTree.Context
import TickTree.Ticker
import TickTree.Manager

namespace TickTree

/-- A member from outside: whether it is done, the error it shows, and how often
it was asked to stop. -/
structure Outsider where
  isDone : Bool
  error : Option RunError
  stops : Nat
  deriving Repr, Inhabited

/-- Anything that a manager can run. -/
inductive Member where
  | ticker (ticker : Ticker)
  | manager (manager : Manager)
  | outsider (outsider : Outsider)
  deriving Repr, Inhabited

namespace Member

/-- Is the member done? -/
def isDone : Member → Bool
  | ticker t => t.isDone
  | manager m => m.isDone
  | outsider o => o.isDone

/-- The error that the member shows. -/
def error : Member → Option RunError
  | ticker t => t.shownError
  | manager m => m.shownError
  | outsider o => o.error

/-- The member after it was asked to stop. -/
def stop : Member → Member
  | ticker t => ticker { t with stopRequested := true }
  | manager m => manager { m with stopRequested := true }
  | outsider o => outsider { o with stops := o.stops + 1 }

end Member

/-- A member on its way into the mailbox of a manager. -/
structure Offer where
  manager : Nat
  member : Nat
  deriving DecidableEq, Repr, Inhabited

/-- Tokens, contexts, timers, time, members, and the offers under way. -/
structure System extends Scopes where
  members : Array Member
  offers : List Offer

/-- What can happen to a system. -/
inductive Action where
  /-- A token is made, under another or on its own. -/
  | newToken (parent : Option Nat)
  /-- A token is cancelled by one who holds it; nobody holds that of a ticker. -/
  | cancel (token : Nat)
  /-- A context is made. -/
  | newContext (parent : Option Nat) (expiry : Option Expiry)
  /-- A context opens a scope. -/
  | openScope (timed : Bool) (context : Nat)
  /-- A context cancels its scope. -/
  | cancelScope (context : Nat)
  /-- Time passes. -/
  | pass (ms : Nat)
  /-- Timers go off up to the present. -/
  | catchUp
  /-- The timer of a scope takes a step. -/
  | runTimer (timer : Nat)
  /-- A ticker is started. -/
  | newTicker (parent : Option Nat) (config : TickerConfig) (endsOnFailure : Bool)
  /-- A manager is started. -/
  | newManager
  /-- A member from outside appears. -/
  | newOutsider
  /-- The driver of a ticker takes a step. -/
  | drive (ticker : Nat)
  /-- The tick in progress of a ticker ends. -/
  | tickEnded (ticker : Nat) (outcome : Outcome)
  /-- A member is asked to stop. -/
  | stop (member : Nat)
  /-- A member is offered to a manager that was not asked to stop. -/
  | offer (manager member : Nat)
  /-- The offer at `position` reaches the mailbox, and is taken if that is open. -/
  | post (position : Nat)
  /-- The handles that a manager was made with are dropped. -/
  | drop (manager : Nat)
  /-- The supervisor of a manager takes a step. -/
  | supervise (manager : Nat)
  /-- The watcher at `position` in a manager takes a step. -/
  | watch (manager position : Nat)
  /-- A member from outside is done, with that error. -/
  | settle (outsider : Nat) (error : Option RunError)
  deriving Repr, Inhabited

namespace System

/-- Nothing made, at time zero. -/
def empty : System := { Scopes.empty with members := #[], offers := [] }

/-- A change of the tokens, contexts, timers and time. -/
def withScopes (s : System) (scopes : Scopes) : System :=
  { scopes with members := s.members, offers := s.offers }

/-- Is the member done? -/
def isDone (s : System) (x : Nat) : Bool := (s.members[x]?.map Member.isDone).getD false

/-- The error that the member shows. -/
def error (s : System) (x : Nat) : Option RunError := s.members[x]?.bind Member.error

/-- The ticker of that place. -/
def ticker? (s : System) (x : Nat) : Option Ticker :=
  match s.members[x]? with
  | some (.ticker t) => some t
  | _ => none

/-- The manager of that place. -/
def manager? (s : System) (x : Nat) : Option Manager :=
  match s.members[x]? with
  | some (.manager m) => some m
  | _ => none

/-- The member from outside of that place. -/
def outsider? (s : System) (x : Nat) : Option Outsider :=
  match s.members[x]? with
  | some (.outsider o) => some o
  | _ => none

/-- Puts another member at a place. -/
def setMember (s : System) (x : Nat) (member : Member) : System :=
  { s with members := s.members.setIfInBounds x member }

/-- One more member. -/
def addMember (s : System) (member : Member) : System :=
  { s with members := s.members.push member }

/-- Asks a member to stop. -/
def stop (s : System) (x : Nat) : System := { s with members := s.members.modify x Member.stop }

/-- Does a manager keep hold of member `x`, in its mailbox or through a watcher? -/
def holds (x : Nat) : Member → Bool
  | .manager m =>
    m.mailbox.contains x || m.watchers.any fun w => w.member == x && w.phase != .finished
  | _ => false

/-- Can anyone still hand members to manager `x`? -/
def isHeld (s : System) (x : Nat) : Bool :=
  (s.manager? x).any (·.held) || s.members.toList.any (holds x) ||
    s.offers.any fun o => o.manager == x || o.member == x

/-- Is the token that of a ticker? -/
def isOwned (s : System) (token : Nat) : Bool :=
  s.members.toList.any fun
    | .ticker t => t.token == token
    | _ => false

/-- The answer to handing a member to manager `m` with nothing in between:
nothing if it is taken, else the refusal with the errors so far. -/
def refusal (s : System) (m : Nat) : Option RunError :=
  match s.manager? m with
  | some manager => if manager.admits then none else some (.managerStopped manager.shownError)
  | none => none

/-- The step of a driver. -/
def drive (s : System) (x : Nat) : Option System := do
  let t ← s.ticker? x
  let next ← t.drive s.now s.elapsed (s.tokens.isCancelled t.token)
  let s := s.setMember x (.ticker next)
  return match t.phase with
    | .halted => s.withScopes (s.toScopes.cancel t.token)
    | _ => s

/-- The effect of a watcher's step on its member `x` and its manager `m`. -/
def affect (s : System) (m x : Nat) : Watcher.Effect → System
  | .nothing => s
  | .stopMember => s.stop x
  | .record e =>
    match s.manager? m with
    | some manager => s.setMember m (.manager { manager with errors := manager.errors ++ [e] })
    | none => s
  | .stopManager => s.stop m

/-- The step of a watcher. -/
def watch (s : System) (m k : Nat) : Option System := do
  let manager ← s.manager? m
  let w ← manager.watchers[k]?
  let (w, effect) ← w.next (s.isDone w.member) (s.error w.member) manager.stopRequested
  let s := s.setMember m (.manager { manager with watchers := manager.watchers.set k w })
  return s.affect m w.member effect

/-- The system after an action, or nothing if the action is not possible. -/
def step (s : System) : Action → Option System
  | .newToken parent => some (s.withScopes { s.toScopes with tokens := (s.tokens.under parent).2 })
  | .cancel token =>
    if s.isOwned token then none else some (s.withScopes (s.toScopes.cancel token))
  | .newContext parent expiry => some (s.withScopes (s.toScopes.newContext parent expiry).2)
  | .openScope timed context => some (s.withScopes (s.toScopes.openScope timed context).2)
  | .cancelScope context => some (s.withScopes (s.toScopes.cancelScope context))
  | .pass ms => some { s with now := s.now + ms }
  | .catchUp => some { s with elapsed := s.now }
  | .runTimer timer => (s.toScopes.runTimer timer).map s.withScopes
  | .newTicker parent config endsOnFailure =>
    if config.period = 0 then none
    else
      let (token, tokens) := s.tokens.under parent
      some ((s.withScopes { s.toScopes with tokens }).addMember
        (.ticker (.start token config endsOnFailure)))
  | .newManager => some (s.addMember (.manager .start))
  | .newOutsider => some (s.addMember (.outsider { isDone := false, error := none, stops := 0 }))
  | .drive ticker => s.drive ticker
  | .tickEnded ticker outcome => do
    let t ← s.ticker? ticker
    let next ← t.tickEnded outcome
    return s.setMember ticker (.ticker next)
  | .stop member => some (s.stop member)
  | .offer manager member => do
    let m ← s.manager? manager
    if m.stopRequested || s.members.size ≤ member then none
    else return { s with offers := s.offers ++ [⟨manager, member⟩] }
  | .post position => do
    let offer ← s.offers[position]?
    let m ← s.manager? offer.manager
    let s := { s with offers := s.offers.eraseIdx position }
    return if m.isOpen then s.setMember offer.manager (.manager (m.post offer.member)) else s
  | .drop manager => do
    let m ← s.manager? manager
    return s.setMember manager (.manager { m with held := false })
  | .supervise manager => do
    let m ← s.manager? manager
    let next ← m.supervise (s.isHeld manager)
    return s.setMember manager (.manager next)
  | .watch manager position => s.watch manager position
  | .settle outsider error => do
    let o ← s.outsider? outsider
    return s.setMember outsider (.outsider { o with isDone := true, error })

/-- The system after an action, or as it was if the action is not possible. -/
def act (s : System) (a : Action) : System := (s.step a).getD s

/-- The system after a sequence of actions, if each is possible in turn. -/
def run (s : System) : List Action → Option System
  | [] => some s
  | a :: as => (s.step a).bind fun s => s.run as

end System
end TickTree
