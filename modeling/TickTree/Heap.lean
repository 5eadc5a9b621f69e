/-
# Cells

What ticks remember between calls lives in a heap of cells. A cell holds the
state of one wrapper: the children of a memorized execution, the record of one
of them, a flag, the last statuses of a group of siblings, the cycle of a fork,
the jobs of a pool, or the worker of an asynchronous tick. The kind of a
reference says which, so a cell is never read as another kind than it holds.

There is a table of cells for each kind; a reference that no cell was made for
reads as a fresh one.

Key definitions: `Round`, `Worker`, `CellKind.State`, `Heap`, `Heap.get`,
`Heap.set`, `Heap.alloc`.
Key theorems: `Heap.get_set`, `Heap.get_set_ne`, `Heap.get_set_kind`,
`Heap.get_alloc`.
-/
import TickTree.Behavior

namespace TickTree

/-- The cycle of a fork: the children still running, the status so far (none
between cycles), and the errors of the cycle, joined. -/
structure Round (I : Interface) where
  remaining : List (Node I)
  status : Option Status
  error : Option TickError

/-- The worker of an asynchronous tick: there is none, it is at work, it has
left a result, or it died without one. -/
inductive Worker where
  | idle
  | busy
  | finished (result : TickResult)
  | lost

variable {I : Interface}

/-- A fork between two cycles. -/
def Round.between : Round I := { remaining := [], status := none, error := none }

/-- What a cell of a kind holds: the children of the execution under way, if
there is one; the recorded result, if there is one; whether the flag is up; the
last status of each sibling that has finished a tick; the cycle; the jobs,
oldest first; the worker. -/
def CellKind.State (I : Interface) : CellKind → Type
  | execution => Option (List (Node I))
  | record => Option TickResult
  | flag => Bool
  | statuses => List (Nat × Status)
  | round => Round I
  | jobs => List (Node I)
  | worker => Worker

/-- The state that a cell starts in. -/
def CellKind.fresh : (kind : CellKind) → kind.State I
  | execution => (none : Option (List (Node I)))
  | record => (none : Option TickResult)
  | flag => false
  | statuses => ([] : List (Nat × Status))
  | round => Round.between
  | jobs => ([] : List (Node I))
  | worker => Worker.idle

/-- The cells made so far, by kind and in the order in which they were made. -/
structure Heap (I : Interface) where
  executions : Array (CellKind.execution.State I)
  records : Array (CellKind.record.State I)
  flags : Array (CellKind.flag.State I)
  statuses : Array (CellKind.statuses.State I)
  rounds : Array (CellKind.round.State I)
  jobs : Array (CellKind.jobs.State I)
  workers : Array (CellKind.worker.State I)

namespace Heap

/-- No cells. -/
def empty : Heap I := ⟨#[], #[], #[], #[], #[], #[], #[]⟩

/-- The cells of a kind. -/
def table (h : Heap I) : (kind : CellKind) → Array (kind.State I)
  | .execution => h.executions
  | .record => h.records
  | .flag => h.flags
  | .statuses => h.statuses
  | .round => h.rounds
  | .jobs => h.jobs
  | .worker => h.workers

/-- Puts other cells of a kind in place. -/
def setTable (h : Heap I) : (kind : CellKind) → Array (kind.State I) → Heap I
  | .execution, executions => { h with executions }
  | .record, records => { h with records }
  | .flag, flags => { h with flags }
  | .statuses, statuses => { h with statuses }
  | .round, rounds => { h with rounds }
  | .jobs, jobs => { h with jobs }
  | .worker, workers => { h with workers }

variable {kind other : CellKind}

/-- What a cell holds. -/
def get (h : Heap I) (r : Ref kind) : kind.State I := (h.table kind)[r.index]?.getD kind.fresh

/-- Replaces what a cell holds. -/
def set (h : Heap I) (r : Ref kind) (state : kind.State I) : Heap I :=
  h.setTable kind ((h.table kind).setIfInBounds r.index state)

/-- Makes a fresh cell. -/
def alloc (h : Heap I) (kind : CellKind) : Ref kind × Heap I :=
  (⟨(h.table kind).size⟩, h.setTable kind ((h.table kind).push kind.fresh))

/-- Has the cell been made? -/
def Made (h : Heap I) (r : Ref kind) : Prop := r.index < (h.table kind).size

@[simp] theorem table_setTable (h : Heap I) (a : Array (kind.State I)) :
    (h.setTable kind a).table kind = a := by
  cases kind <;> rfl

@[simp] theorem table_setTable_ne (h : Heap I) (ne : kind ≠ other) (a : Array (kind.State I)) :
    (h.setTable kind a).table other = h.table other := by
  cases kind <;> cases other <;> simp_all [table, setTable]

@[simp] theorem get_set {h : Heap I} {r : Ref kind} (made : h.Made r) (state : kind.State I) :
    (h.set r state).get r = state := by
  simp [get, set, show r.index < (h.table kind).size from made]

theorem get_set_ne {h : Heap I} {r s : Ref kind} (ne : r ≠ s) (state : kind.State I) :
    (h.set r state).get s = h.get s := by
  have : r.index ≠ s.index := fun e => ne (by cases r; cases s; simp_all)
  simp [get, set, this]

theorem get_set_kind {h : Heap I} (ne : kind ≠ other) (r : Ref kind) (s : Ref other)
    (state : kind.State I) : (h.set r state).get s = h.get s := by
  simp [get, set, ne]

/-- Making a cell changes no other: a cell reads as before, the new one as
fresh. -/
theorem get_alloc (h : Heap I) (kind : CellKind) (s : Ref other) :
    (h.alloc kind).2.get s = h.get s := by
  by_cases ne : kind = other
  · subst ne
    simp only [get, alloc, table_setTable, Array.getElem?_push]
    split
    · rename_i e
      simp [e]
    · rfl
  · simp [get, alloc, ne]

theorem made_set {h : Heap I} {r : Ref kind} {s : Ref other} (state : kind.State I) :
    (h.set r state).Made s ↔ h.Made s := by
  by_cases ne : kind = other
  · subst ne
    simp [Made, set]
  · simp [Made, set, ne]

theorem made_alloc (h : Heap I) (kind : CellKind) : (h.alloc kind).2.Made (h.alloc kind).1 := by
  simp [Made, alloc]

theorem made_alloc_of_made {h : Heap I} {s : Ref other} (made : h.Made s) (kind : CellKind) :
    (h.alloc kind).2.Made s := by
  by_cases ne : kind = other
  · subst ne
    simpa [Made, alloc] using Nat.lt_succ_of_lt made
  · simpa [Made, alloc, ne] using made

end Heap
end TickTree
