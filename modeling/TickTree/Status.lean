/-
# Statuses

A tick that ends without an error answers one of three statuses. `running`
means that the node wants to be ticked again; the other two are terminal.
Inverting exchanges the terminal statuses and keeps `running`, since a node
that is still at work has no outcome to negate.

Key definitions: `Status`, `Status.invert`, `Status.code`, `Status.ofCode`.
Key theorems: `Status.invert_invert`, `Status.ofCode_code`,
`Status.isTerminal_invert`.
-/

namespace TickTree

/-- The answer of one tick of a node. -/
inductive Status where
  /-- The behaviour has not finished and wants to be ticked again. -/
  | running
  /-- The behaviour finished; for a condition, it was met. -/
  | success
  /-- The behaviour could not be carried out; for a condition, it was not met. -/
  | failure
  deriving DecidableEq, Repr, Inhabited

namespace Status

/-- Is the behaviour still at work? -/
def isRunning (s : Status) : Bool := s == running

/-- Did the behaviour end well? -/
def isSuccess (s : Status) : Bool := s == success

/-- Did the behaviour end badly? -/
def isFailure (s : Status) : Bool := s == failure

/-- Any status but `running` is terminal. -/
def isTerminal (s : Status) : Bool := !s.isRunning

/-- Exchanges the terminal statuses. -/
def invert : Status → Status
  | running => running
  | success => failure
  | failure => success

/-- The raw code of a status. -/
def code : Status → UInt8
  | running => 1
  | success => 2
  | failure => 3

/-- Reads a raw code; every code that is neither running nor success counts
as a failure. -/
def ofCode (c : UInt8) : Status :=
  if c = 1 then running else if c = 2 then success else failure

/-- The word for a status. -/
def label : Status → String
  | running => "running"
  | success => "success"
  | failure => "failure"

@[simp] theorem invert_invert (s : Status) : s.invert.invert = s := by
  cases s <;> rfl

@[simp] theorem isTerminal_invert (s : Status) : s.invert.isTerminal = s.isTerminal := by
  cases s <;> rfl

@[simp] theorem ofCode_code (s : Status) : ofCode s.code = s := by
  cases s <;> rfl

end Status
end TickTree
