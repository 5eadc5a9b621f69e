/-
# Programs

What running a tick does is a program: a tree of requests, each with a
continuation for the answer. A program may tick a node, tick several nodes in
parallel, start a worker, read, replace and make cells, hold and release the lock
of a cell, panic, and ask the world. Nothing is carried out here; the machine
in `TickTree.Machine` says what each request does.

Key definitions: `Request`, `Request.Reply`, `Prog`, `Prog.bind`.
Key theorems: `Prog.bind_pure`, `Prog.bind_assoc`.
-/
import TickTree.Heap

namespace TickTree

/-- The answer of one of several nodes ticked in parallel: its position, and
its result. -/
structure Report where
  position : Nat
  result : TickResult

/-- What a running tick may request. -/
inductive Request (I : Interface) : Type where
  /-- Tick a node and wait for its result. -/
  | tick (node : Node I)
  /-- Tick nodes in parallel and wait until each has answered or died. The
  answers come in the order in which they arrive. -/
  | parallel (nodes : List (Node I))
  /-- Start a worker that runs a tick against children and leaves its result
  in a cell. -/
  | start (worker : Ref .worker) (tick : Tick I) (children : List (Node I))
  /-- Read a cell. -/
  | read (kind : CellKind) (ref : Ref kind)
  /-- Replace what a cell holds; the answer is what it held. -/
  | swap (kind : CellKind) (ref : Ref kind) (state : kind.State I)
  /-- Make a fresh cell. -/
  | alloc (kind : CellKind)
  /-- Wait for the lock of a cell and hold it. -/
  | acquire (kind : CellKind) (ref : Ref kind)
  /-- Give the lock of a cell back. -/
  | release (kind : CellKind) (ref : Ref kind)
  /-- Abandon the tick, and every tick that waits for it. -/
  | panic (payload : Payload)
  /-- Ask the world, and wait if the answer takes time. -/
  | ask (query : I.Query)

/-- The answer to a request. A panic has none. -/
def Request.Reply {I : Interface} : Request I → Type
  | tick _ => TickResult
  | parallel _ => List Report
  | start _ _ _ => Unit
  | read kind _ => kind.State I
  | swap kind _ _ => kind.State I
  | alloc kind => Ref kind
  | acquire _ _ => Unit
  | release _ _ => Unit
  | panic _ => Empty
  | ask query => I.Reply query

/-- A program that yields an `α`. -/
inductive Prog (I : Interface) (α : Type) : Type where
  | pure (value : α)
  | request (request : Request I) (next : request.Reply → Prog I α)

namespace Prog
variable {I : Interface} {α β γ : Type}

/-- One program after another. -/
def bind : Prog I α → (α → Prog I β) → Prog I β
  | .pure a, f => f a
  | .request r next, f => .request r fun reply => (next reply).bind f

instance : Monad (Prog I) where
  pure := .pure
  bind := bind

theorem bind_eq (p : Prog I α) (f : α → Prog I β) : p >>= f = p.bind f := rfl

@[simp] theorem pure_bind (a : α) (f : α → Prog I β) : (Prog.pure a).bind f = f a := rfl

@[simp] theorem request_bind (r : Request I) (next : r.Reply → Prog I α) (f : α → Prog I β) :
    (Prog.request r next).bind f = .request r fun reply => (next reply).bind f := rfl

@[simp] theorem bind_pure (p : Prog I α) : p.bind .pure = p := by
  induction p with
  | pure a => rfl
  | request r next ih => simp [ih]

theorem bind_assoc (p : Prog I α) (f : α → Prog I β) (g : β → Prog I γ) :
    (p.bind f).bind g = p.bind fun a => (f a).bind g := by
  induction p with
  | pure a => rfl
  | request r next ih => simp [ih]

/-- A single request. -/
def send (r : Request I) : Prog I r.Reply := .request r .pure

/-- Ticks a node. -/
def tick (node : Node I) : Prog I TickResult := send (.tick node)

/-- Ticks nodes in parallel and gives their reports as they arrive. -/
def parallel (nodes : List (Node I)) : Prog I (List Report) := send (.parallel nodes)

/-- Starts a worker. -/
def start (worker : Ref .worker) (tick : Tick I) (children : List (Node I)) : Prog I Unit :=
  send (.start worker tick children)

/-- Reads a cell. -/
def read {kind : CellKind} (ref : Ref kind) : Prog I (kind.State I) := send (.read kind ref)

/-- Replaces what a cell holds and gives what it held. -/
def swap {kind : CellKind} (ref : Ref kind) (state : kind.State I) : Prog I (kind.State I) :=
  send (.swap kind ref state)

/-- Replaces what a cell holds. -/
def write {kind : CellKind} (ref : Ref kind) (state : kind.State I) : Prog I Unit :=
  .request (.swap kind ref state) fun _ => .pure ()

/-- Makes a fresh cell. -/
def alloc (kind : CellKind) : Prog I (Ref kind) := send (.alloc kind)

/-- Waits for the lock of a cell and holds it. -/
def acquire {kind : CellKind} (ref : Ref kind) : Prog I Unit := send (.acquire kind ref)

/-- Gives the lock of a cell back. -/
def release {kind : CellKind} (ref : Ref kind) : Prog I Unit := send (.release kind ref)

/-- Abandons the tick. -/
def panic (payload : Payload) : Prog I α := .request (.panic payload) fun e => nomatch e

/-- Asks the world. -/
def ask (query : I.Query) : Prog I (I.Reply query) := send (.ask query)

end Prog

/-- A recipe carried out inside a program. -/
def Recipe.toProg {I : Interface} {α : Type} : Recipe I α → Prog I α
  | yield value => .pure value
  | ask query next => .request (.ask query) fun reply => (next reply).toProg
  | alloc kind next => .request (.alloc kind) fun ref => (next ref).toProg

end TickTree
