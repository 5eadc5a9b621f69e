/-
# The account of an asynchronous tick

What happens to an asynchronous tick is a sequence of entries: a call looks at the
worker, a worker is started, a worker ends, a call answers. An account follows them.
It says what each call does and answers, in whichever order calls are made and
workers end (`Account.Takes`).

From that alone it follows that workers are started, end, and are handed back in one
order: at most one has been started and not handed back, and the outcomes handed back
are those of the workers started, one by one (`Account.Follows.tallies`).

Key definitions: `Entry`, `Account`, `Account.Takes`, `Account.Tallies`.
Key theorems: `Account.Follows.tallies`.
-/
import TickTree.Machine

namespace TickTree

/-- What is handed back of a worker that ended so. -/
def Outcome.handedBack : Outcome → TickResult
  | returned result => result
  | panicked _ => .error .workerLost

namespace Asynchronous

variable {I : Interface}

/-- What happens to an asynchronous tick. Callers and workers go by the numbers of
their threads. -/
inductive Entry (I : Interface) where
  /-- A call of the tick looks at the worker. The caller will go on with the answer as
  `next` says. -/
  | called (caller : Nat) (tick : Tick I) (children : List (Node I))
      (next : TickResult → Prog I TickResult) (found : Worker)
  /-- A worker is started. -/
  | started (worker : Nat) (tick : Tick I) (children : List (Node I))
  /-- A worker has ended. -/
  | ended (worker : Nat) (outcome : Outcome)
  /-- A call answers: its caller goes on so. -/
  | answered (caller : Nat) (rest : Prog I TickResult)

/-- The worker: there is none, it is at work, or its outcome is to be handed back. -/
inductive Stage where
  | none
  | working (worker : Nat)
  | ended (worker : Nat) (outcome : Outcome)

/-- What a call has still to do: start a worker, or give an answer. -/
inductive Duty (I : Interface) where
  | start (tick : Tick I) (children : List (Node I))
  | answer (result : TickResult)

/-- A call that has looked at the worker and not answered yet. -/
structure Call (I : Interface) where
  caller : Nat
  next : TickResult → Prog I TickResult
  duty : Duty I

/-- The worker, and the call under way. -/
structure Account (I : Interface) where
  stage : Stage
  call : Option (Call I)

/-- Nothing has happened. -/
def Account.new : Account I := ⟨.none, none⟩

/-- What the cell of the worker holds while no call is under way. -/
def Stage.worker : Stage → Worker
  | none => .idle
  | working _ => .busy
  | ended _ outcome => .ended outcome.result?

/-- The worker at work. -/
def Stage.atWork : Stage → List Nat
  | working worker => [worker]
  | _ => []

/-- The outcome that is to be handed back. -/
def Stage.kept : Stage → List TickResult
  | ended _ outcome => [outcome.handedBack]
  | _ => []

/-- Is there a worker that has not been handed back? -/
def Stage.isOut : Stage → Bool
  | none => false
  | _ => true

/-- The account goes on with an entry. -/
inductive Account.Takes : Account I → Entry I → Account I → Prop
  /-- A call that finds no worker is to start one, with its tick and its children. -/
  | vacant {caller tick children next} :
      Takes ⟨.none, none⟩ (.called caller tick children next .idle)
        ⟨.none, some ⟨caller, next, .start tick children⟩⟩
  /-- That call starts the worker and is to answer running. -/
  | start {caller worker tick children next} :
      Takes ⟨.none, some ⟨caller, next, .start tick children⟩⟩ (.started worker tick children)
        ⟨.working worker, some ⟨caller, next, .answer (.ok .running)⟩⟩
  /-- A call that finds the worker at work is to answer running. -/
  | wait {worker caller tick children next} :
      Takes ⟨.working worker, none⟩ (.called caller tick children next .busy)
        ⟨.working worker, some ⟨caller, next, .answer (.ok .running)⟩⟩
  /-- The worker ends. -/
  | finish {worker outcome call} : Takes ⟨.working worker, call⟩ (.ended worker outcome)
      ⟨.ended worker outcome, call⟩
  /-- The first call that finds the worker ended is to hand its outcome back. -/
  | collect {worker outcome caller tick children next} :
      Takes ⟨.ended worker outcome, none⟩
        (.called caller tick children next (.ended outcome.result?))
        ⟨.none, some ⟨caller, next, .answer outcome.handedBack⟩⟩
  /-- A call answers as it was to. -/
  | answer {stage caller result next} :
      Takes ⟨stage, some ⟨caller, next, .answer result⟩⟩ (.answered caller (next result))
        ⟨stage, none⟩

/-- The account goes on with one entry after another. -/
inductive Account.Follows (a : Account I) : List (Entry I) → Account I → Prop
  | nil : Follows a [] a
  | snoc {log b entry c} : Follows a log b → b.Takes entry c → Follows a (log ++ [entry]) c

theorem Account.Follows.trans {a b c : Account I} {log log' : List (Entry I)}
    (h : a.Follows log b) (h' : b.Follows log' c) : a.Follows (log ++ log') c := by
  induction h' with
  | nil => exact (List.append_nil log).symm ▸ h
  | snoc _ htakes ih =>
    rw [← List.append_assoc]
    exact .snoc ih htakes

/-! ### Counting workers -/

/-- The workers started, in order. -/
def starts (log : List (Entry I)) : List Nat :=
  log.filterMap fun
    | .started worker _ _ => some worker
    | _ => none

/-- The workers that have ended, in order, and how. -/
def ends (log : List (Entry I)) : List (Nat × Outcome) :=
  log.filterMap fun
    | .ended worker outcome => some (worker, outcome)
    | _ => none

/-- The outcomes handed back, in order: those that calls have found. -/
def hands (log : List (Entry I)) : List TickResult :=
  log.filterMap fun
    | .called _ _ _ _ (.finished result) => some result
    | .called _ _ _ _ .lost => some (.error .workerLost)
    | _ => none

theorem starts_append (log log' : List (Entry I)) : starts (log ++ log') = starts log ++ starts log' :=
  List.filterMap_append

theorem ends_append (log log' : List (Entry I)) : ends (log ++ log') = ends log ++ ends log' :=
  List.filterMap_append

theorem hands_append (log log' : List (Entry I)) : hands (log ++ log') = hands log ++ hands log' :=
  List.filterMap_append

/-- The workers started, the workers that ended, and the outcomes handed back go
together. -/
structure Account.Tallies (log : List (Entry I)) (a : Account I) : Prop where
  /-- The workers end in the order in which they were started, and all have ended but
  the one at work. -/
  ended : (ends log).map (·.1) ++ a.stage.atWork = starts log
  /-- The outcomes are handed back in the order in which the workers ended, each once,
  and all have been but the one that is kept. -/
  handed : hands log ++ a.stage.kept = (ends log).map (·.2.handedBack)

/-- A worker is at work from its start to its end. -/
theorem Account.Takes.atWork {a b : Account I} {entry : Entry I} (h : a.Takes entry b) :
    a.stage.atWork ++ starts [entry] = (ends [entry]).map (·.1) ++ b.stage.atWork := by
  cases h with
  | vacant | start | wait | finish | collect => rfl
  | answer => exact List.append_nil _

/-- An outcome is kept from the end of its worker until it is handed back. -/
theorem Account.Takes.kept {a b : Account I} {entry : Entry I} (h : a.Takes entry b) :
    a.stage.kept ++ (ends [entry]).map (·.2.handedBack) = hands [entry] ++ b.stage.kept := by
  cases h with
  | vacant | start | wait | finish => rfl
  | answer => exact List.append_nil _
  | @collect worker outcome =>
    cases outcome with
    | returned result => rfl
    | panicked payload => rfl

/-- **Every outcome is handed back once.** -/
theorem Account.Follows.tallies {log : List (Entry I)} {a : Account I}
    (h : Account.new.Follows log a) : Tallies log a := by
  induction h with
  | nil => exact ⟨rfl, rfl⟩
  | @snoc log b entry c _ htakes ih =>
    constructor
    · calc (ends (log ++ [entry])).map (·.1) ++ c.stage.atWork
        _ = (ends log).map (·.1) ++ ((ends [entry]).map (·.1) ++ c.stage.atWork) := by
          rw [ends_append, List.map_append, List.append_assoc]
        _ = (ends log).map (·.1) ++ b.stage.atWork ++ starts [entry] := by
          rw [← htakes.atWork, List.append_assoc]
        _ = starts (log ++ [entry]) := by rw [ih.ended, starts_append]
    · calc hands (log ++ [entry]) ++ c.stage.kept
        _ = hands log ++ (hands [entry] ++ c.stage.kept) := by
          rw [hands_append, List.append_assoc]
        _ = hands log ++ b.stage.kept ++ (ends [entry]).map (·.2.handedBack) := by
          rw [← htakes.kept, List.append_assoc]
        _ = (ends (log ++ [entry])).map (·.2.handedBack) := by
          rw [ih.handed, ends_append, List.map_append]

/-- A worker is out when one more has been started than handed back. -/
theorem Account.Tallies.isOut {log : List (Entry I)} {a : Account I} (h : Tallies log a) :
    (starts log).length = (hands log).length + a.stage.isOut.toNat := by
  have hended := congrArg List.length h.ended
  have hhanded := congrArg List.length h.handed
  simp only [List.length_append, List.length_map] at hended hhanded
  have hstage : a.stage.atWork.length + a.stage.kept.length = a.stage.isOut.toNat := by
    cases a.stage <;> rfl
  omega

end Asynchronous
end TickTree
