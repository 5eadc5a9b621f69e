/-
# Scripted leaves

A leaf of a scenario plays a script: its calls take the entries one after the
other, and after the last one they either stay with it or begin again. An entry
may first act on others, then wait for a permit of a gate, wait for another
fork thread, and let time pass; then it has its outcome.

Key definitions: `Play`, `Deed`, `Entry`, `Script`, `Script.entry?`.
-/
import TickTree.RunError

namespace TickTree.Scenario

/-- The outcome of an entry. -/
inductive Play where
  | status (status : Status)
  | error (error : TickError)
  /-- Tick that child and answer its result, or fail if there is none. -/
  | child (index : Nat)
  /-- Tick those children one after the other, note their results, and answer
  running. -/
  | poll (indices : List Nat)
  /-- Expand those children, note what they expand to, and answer running. -/
  | expand (indices : List Nat)
  | panic (payload : Payload)
  deriving Repr, Inhabited

/-- What an entry does to others before its outcome. -/
inductive Deed where
  /-- Adds a permit to a gate. -/
  | release (gate : String)
  /-- Cancels a token. -/
  | cancel (token : String)
  /-- Cancels the scope of a context. -/
  | cancelScope (context : String)
  /-- Asks a ticker to stop. -/
  | stop (ticker : String)
  deriving DecidableEq, Repr, Inhabited

/-- An entry of a script. -/
structure Entry where
  deeds : List Deed := []
  gate : Option String := none
  /-- The leaf whose fork thread must have handed its result over. -/
  behind : Option String := none
  /-- The milliseconds that pass. -/
  takes : Nat := 0
  play : Play
  deriving Repr, Inhabited

/-- A script: the name of its leaf, its entries, whether it begins again after
the last one, and whether its calls go unlogged. -/
structure Script where
  id : String
  entries : Array Entry
  loops : Bool := false
  quiet : Bool := false
  deriving Repr, Inhabited

/-- The place in a list of `size` that turn number `turn`, from 1, takes: one
after the other, then the last again or from the first. -/
def turnPlace (size : Nat) (loops : Bool) (turn : Nat) : Nat :=
  if loops then (turn - 1) % size else min (turn - 1) (size - 1)

/-- The entry that call number `turn`, from 1, plays. -/
def Script.entry? (s : Script) (turn : Nat) : Option Entry :=
  s.entries[turnPlace s.entries.size s.loops turn]?

end TickTree.Scenario
