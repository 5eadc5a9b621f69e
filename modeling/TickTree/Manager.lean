/-
# Managers

A manager runs many members and ends with the first error. Members are handed
over through a mailbox: a member is offered, which needs a manager that was not
asked to stop, and then posted, which needs an open mailbox. A supervisor takes
them from there and starts a watcher for each; once the manager is asked to
stop, or nobody holds it any more, the supervisor closes the mailbox, starts
watchers for what is left in it, waits for all of them, and closes the done
signal.

A watcher waits until its member is done or the manager is asked to stop. Either
way it asks the member to stop, once; in the second case it goes on waiting
until the member is done. Then it reads the member's error, and if there is one
it records it and asks the manager to stop.

Key definitions: `Manager`, `Manager.supervise`, `Manager.isOpen`,
`Manager.admits`, `Watcher`, `Watcher.next`.
-/
import TickTree.RunError

namespace TickTree

/-- How far a watcher is. -/
inductive Watcher.Phase where
  /-- It waits for its member to be done or the manager to stop. -/
  | watching
  /-- It has asked its member to stop and waits for it to be done. -/
  | stopping
  /-- Its member is done and was asked to stop. -/
  | settling
  /-- It has recorded the error of its member. -/
  | raising
  /-- It has ended. -/
  | finished
  deriving DecidableEq, Repr, Inhabited

/-- The watcher of a member. -/
structure Watcher where
  member : Nat
  phase : Watcher.Phase
  deriving DecidableEq, Repr, Inhabited

/-- What a step of a watcher does to others. -/
inductive Watcher.Effect where
  | nothing
  /-- Ask the member to stop. -/
  | stopMember
  /-- Record an error with the manager. -/
  | record (error : RunError)
  /-- Ask the manager to stop. -/
  | stopManager
  deriving Repr, Inhabited

/-- The next step of a watcher, or nothing while it waits: `isDone` and `error`
are what its member shows, and `stopRequested` says whether its manager was
asked to stop. -/
def Watcher.next (isDone : Bool) (error : Option RunError) (stopRequested : Bool) (w : Watcher) :
    Option (Watcher × Watcher.Effect) :=
  match w.phase with
  | .watching =>
    if isDone then some ({ w with phase := .settling }, .stopMember)
    else if stopRequested then some ({ w with phase := .stopping }, .stopMember)
    else none
  | .stopping => if isDone then some ({ w with phase := .settling }, .nothing) else none
  | .settling =>
    match error with
    | some e => some ({ w with phase := .raising }, .record e)
    | none => some ({ w with phase := .finished }, .nothing)
  | .raising => some ({ w with phase := .finished }, .stopManager)
  | .finished => none

/-- How far a supervisor is. -/
inductive Manager.Phase where
  /-- It takes members from the mailbox. -/
  | supervising
  /-- It has closed the mailbox and empties it. -/
  | draining
  /-- It waits for the watchers. -/
  | waiting
  /-- It has closed the done signal. -/
  | finished
  deriving DecidableEq, Repr, Inhabited

/-- A manager: what it shows to others, its mailbox, its supervisor and its
watchers, and whether the handles it was made with are still held. -/
structure Manager where
  stopRequested : Bool
  errors : List RunError
  isDone : Bool
  mailbox : List Nat
  phase : Manager.Phase
  watchers : List Watcher
  held : Bool
  deriving Repr, Inhabited

namespace Manager

/-- A manager without members. -/
def start : Manager :=
  { stopRequested := false, errors := [], isDone := false, mailbox := [], phase := .supervising,
    watchers := [], held := true }

/-- The error that the manager shows: its errors so far, combined. -/
def shownError (m : Manager) : Option RunError :=
  if m.errors.isEmpty then none else some (.combined m.errors)

/-- Is the mailbox open? -/
def isOpen (m : Manager) : Bool := m.phase == .supervising

/-- Does the manager still take members? -/
def admits (m : Manager) : Bool := !m.stopRequested && m.isOpen

/-- Puts a member in the mailbox. -/
def post (m : Manager) (member : Nat) : Manager := { m with mailbox := m.mailbox ++ [member] }

/-- The manager with one more watcher. -/
def watch (m : Manager) (member : Nat) : Manager :=
  { m with watchers := m.watchers ++ [{ member, phase := .watching }] }

/-- The next step of the supervisor, or nothing while it waits; `held` says
whether anyone can still hand it members. -/
def supervise (held : Bool) (m : Manager) : Option Manager :=
  match m.phase with
  | .supervising =>
    if m.stopRequested then some { m with phase := .draining }
    else match m.mailbox with
      | member :: mailbox => some ({ m with mailbox }.watch member)
      | [] => if held then none else some { m with phase := .draining }
  | .draining =>
    match m.mailbox with
    | member :: mailbox => some ({ m with mailbox }.watch member)
    | [] => some { m with phase := .waiting }
  | .waiting =>
    if m.watchers.all (·.phase == .finished) then
      some { m with phase := .finished, isDone := true }
    else none
  | .finished => none

end Manager
end TickTree
