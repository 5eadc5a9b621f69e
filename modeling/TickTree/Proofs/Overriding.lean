/-
# Success of any child

A tick that succeeds if any of its children does, and the tick inside it, do the same
when they are started in the same state: they make the same calls on the children and
leave the same behind, up to the marks on the children and the flag. The answers differ
in the terminal status only. It is success if the tick of a child that was ticked has
returned success in this call or in one before it, back to the last that returned a
terminal status or an error; whatever came before that does not count.

The tick inside may be a composite, code, a fork, or any of these inverted, memorized,
or with such an answer of its own: any tick that ticks its children in its own calls and
keeps none of them past the end of an execution (`Tick.actsInCalls`).

Key definitions: `Tick.actsInCalls`, `Tick.Rests`, `Ending.overridden`,
`FamilyCall.overridden`.
Key theorems: `Tick.sim_run`, `AnySuccess.performs_flagged_iff`,
`AnySuccess.performs_run_iff`, `AnySuccess.upToMarks_call`, `AnySuccess.override_law`.
-/
import TickTree.Proofs.Marking
import Mathlib.Data.List.DropRight

namespace TickTree

variable {J : Interface} {C T σ : Type}

/-! ### Ticks side by side -/

namespace Tick

variable {I : Interface}

/-- All that the tick does with its children it does in its own calls, and it keeps none of
them past the end of an execution. So a worker is not meant, which ticks them outside of
calls, nor a pool, whose calls go on with the children of calls that have long answered. -/
def actsInCalls : Tick I → Bool
  | const _ | custom _ | composite _ | fork _ => true
  | not inner | memorize _ inner | any _ inner | exitOnFailure inner => inner.actsInCalls
  | _ => false
termination_by structural tick => tick

/-- The cells of a tick that acts in its calls, which last from call to call. -/
def cells : Tick I → List (Σ kind, Ref kind)
  | fork round => [⟨_, round⟩]
  | memorize execution inner => ⟨_, execution⟩ :: inner.cells
  | any flag inner => ⟨_, flag⟩ :: inner.cells
  | not inner | exitOnFailure inner => inner.cells
  | _ => []
termination_by structural tick => tick

/-- This is the lock of a cell of the tick. -/
def Keeps (t : Tick I) (lock : Lock) : Prop := ∃ cell ∈ t.cells, cell.2.lock = lock

/-- Between two calls nobody touches the cells of the tick. -/
def Rests (t : Tick I) (w w' : World I σ) : Prop := ∀ cell ∈ t.cells, World.Spares cell.2 w w'

end Tick

/-- What code does with the nodes at the numbers of its children. -/
def Routine.runAt {I : Interface} {n : Nat} (node : Fin n → Node I) :
    Routine I n → Prog I TickResult
  | finish result => .pure result
  | panic payload => .panic payload
  | tick child next => .request (.tick (node child)) fun result => (next result).runAt node
  | expand child next => (node child).expand.bind fun expansion =>
      (next expansion.1.isSome expansion.2.length).runAt node
  | ask query next => .request (.ask query) fun reply => (next reply).runAt node

theorem Routine.run_eq_runAt {I : Interface} (children : List (Node I))
    (code : Routine I children.length) : code.run children = code.runAt children.get := by
  induction code with
  | finish | panic => rfl
  | tick child next ih | ask query next ih => exact congrArg _ (funext ih)
  | expand child next ih =>
    unfold run runAt
    exact congrArg _ (funext fun expansion => ih _ _)

section

variable {flag : Ref .flag} {mine : Lock → Prop} {nodes : List (Node (Family J C T))}

theorem Routine.sim_runAt {n : Nat} {node node' : Fin n → Node (Family J C T)}
    (hnode : ∀ i, Family.Wraps flag (node i) ∧ node' i = (node i).mark flag)
    (code : Routine (Family J C T) n) :
    (code.runAt node).Sim flag mine false Eq false (code.runAt node') := by
  induction code with
  | finish result => exact .pure rfl
  | panic payload => exact .panic
  | tick child next ih =>
    unfold Routine.runAt
    rw [(hnode child).2]
    exact .tick rfl (hnode child).1 ih
  | expand child next ih =>
    unfold Routine.runAt
    rw [(hnode child).2]
    refine (hnode child).1.expand.bind fun expansion expansion' he => ?_
    cases he with
    | none | some => exact ih _ _
  | ask query next ih => exact .serve .ask nofun fun reply _ he => he ▸ ih reply

theorem Routine.sim_run (code : (n : Nat) → Routine (Family J C T) n)
    (hnodes : ∀ node ∈ nodes, Family.Wraps flag node) :
    ((code nodes.length).run nodes).Sim flag mine false Eq false
      ((code (nodes.map (Node.mark flag)).length).run (nodes.map (Node.mark flag))) := by
  rw [run_eq_runAt, run_eq_runAt]
  -- The code is given a number of children, which is the same on both sides by a lemma only.
  have hget : ∀ (n : Nat) (hn : n = nodes.length) (node' : Fin n → Node (Family J C T)),
      (∀ i, node' i = (nodes.get (i.cast hn)).mark flag) →
      ((code nodes.length).runAt nodes.get).Sim flag mine false Eq false
        ((code n).runAt node') := by
    rintro n rfl node' hnode'
    exact sim_runAt (fun i => ⟨hnodes _ (nodes.get_mem i), hnode' i⟩) _
  exact hget _ (List.length_map _) _ fun i => by simp

theorem Composite.sim_runFrom (kind : Composite) (hnodes : ∀ node ∈ nodes, Family.Wraps flag node) :
    ∀ index soFar, (kind.runFrom index soFar nodes).Sim flag mine false Eq false
      (kind.runFrom index soFar (nodes.map (Node.mark flag))) := by
  induction nodes with
  | nil => exact fun _ _ => .pure rfl
  | cons node nodes ih =>
    obtain ⟨hnode, hnodes⟩ := List.forall_mem_cons.mp hnodes
    intro index soFar
    refine .tick rfl hnode fun result => ?_
    cases result with
    | error e => exact .pure rfl
    | ok s =>
      change Prog.Sim flag mine false Eq false (if kind.goesPast s then _ else _)
        (if kind.goesPast s then _ else _)
      split
      · exact ih hnodes _ _
      · exact .pure rfl

/-! ### Memorized ticks -/

/-- Lists of nodes without marks and with. -/
def Marked (flag : Ref .flag) (nodes marked : List (Node (Family J C T))) : Prop :=
  marked = nodes.map (Node.mark flag) ∧ ∀ node ∈ nodes, Family.Wraps flag node

theorem Memorize.sim_snapshot (hnodes : ∀ node ∈ nodes, Family.Wraps flag node) :
    (snapshot nodes).Sim flag mine false (Marked flag) false
      (snapshot (nodes.map (Node.mark flag))) := by
  induction nodes with
  | nil => exact .pure ⟨rfl, hnodes⟩
  | cons node nodes ih =>
    obtain ⟨hnode, hnodes⟩ := List.forall_mem_cons.mp hnodes
    refine .serve .alloc nofun fun record _ he => ?_
    obtain ⟨rfl, -⟩ := he
    refine (ih hnodes).bind fun rest _ he => ?_
    obtain ⟨rfl, hrest⟩ := he
    exact .pure ⟨rfl, List.forall_mem_cons.mpr ⟨.memorized hnode, hrest⟩⟩

theorem Memorize.sim_execution {ref : Ref .execution} (hmine : mine ref.lock)
    (hnodes : ∀ node ∈ nodes, Family.Wraps flag node) :
    (execution ref nodes).Sim flag mine false (Marked flag) false
      (execution ref (nodes.map (Node.mark flag))) := by
  have hlock := Ref.lock_ne (by decide) ref flag
  refine .serve (.read hlock) nofun fun (open? : Option (List (Node (Family J C T)))) _ he => ?_
  obtain ⟨rfl, hopen⟩ := he.marks hmine
  cases open? with
  | some under => exact .pure ⟨rfl, hopen under rfl⟩
  | none =>
    refine (sim_snapshot hnodes).bind fun nodes _ he => ?_
    obtain ⟨rfl, hnodes⟩ := he
    have hheld : Held flag mine ref (some nodes) (some (nodes.map (Node.mark flag))) :=
      ⟨fun _ => ⟨rfl, by rintro _ ⟨⟩; exact hnodes⟩, fun hnot => absurd hmine hnot⟩
    exact .serve (.swap hlock hheld) nofun fun _ _ _ => .pure ⟨rfl, hnodes⟩

theorem Memorize.sim_run {ref : Ref .execution} {inner : List (Node (Family J C T)) → Prog _ _}
    (hmine : mine ref.lock) (hinner : ∀ nodes, (∀ node ∈ nodes, Family.Wraps flag node) →
      (inner nodes).Sim flag mine false Eq false (inner (nodes.map (Node.mark flag))))
    (hnodes : ∀ node ∈ nodes, Family.Wraps flag node) :
    (run ref inner nodes).Sim flag mine false Eq false
      (run ref inner (nodes.map (Node.mark flag))) := by
  have hlock := Ref.lock_ne (by decide) ref flag
  refine .serve .acquire nofun fun _ _ _ => (sim_execution hmine hnodes).bind fun nodes _ he => ?_
  obtain ⟨rfl, hnodes⟩ := he
  refine (hinner nodes hnodes).bind fun result _ he => ?_
  subst he
  have hrest : (Prog.request (.release .execution ref) fun _ =>
      (Prog.pure result : Prog (Family J C T) TickResult)).Sim flag mine false Eq false
      (Prog.request (.release .execution ref) fun _ => Prog.pure result) :=
    .serve .release nofun fun _ _ _ => .pure rfl
  change Prog.Sim flag mine false Eq false (if !result.isRunning then _ else _)
    (if !result.isRunning then _ else _)
  split
  · have hheld : Held flag mine ref (none : Option (List (Node (Family J C T)))) none :=
      ⟨fun _ => ⟨rfl, nofun⟩, fun hnot => absurd hmine hnot⟩
    exact .serve (.swap hlock hheld) nofun fun _ _ _ => hrest
  · exact hrest

end

/-! ### Forks -/

namespace Round

variable {I : Interface} (flag : Ref .flag) (r : Round I)

theorem begin_mark (children : List (Node I)) :
    (r.mark flag).begin (children.map (Node.mark flag)) = (r.begin children).mark flag := by
  change (if r.isBetween then _ else _) = Round.mark flag (if r.isBetween then _ else _)
  split <;> rfl

theorem receive_mark (node : Node I) (result : TickResult) :
    (r.mark flag).receive (node.mark flag) result = (r.receive node result).mark flag := by
  cases result with
  | error e => rfl
  | ok s =>
    cases s with
    | running =>
      unfold receive mark
      rw [List.map_append]
      rfl
    | success | failure => rfl

theorem take_mark (pending : List (Node I)) (report : Report) :
    take (pending.map (Node.mark flag)) (r.mark flag) report =
      (take pending r report).mark flag := by
  unfold take
  rw [List.getElem?_map]
  cases pending[report.position]? with
  | none => rfl
  | some node => exact receive_mark flag r node report.result

theorem foldl_take_mark (pending : List (Node I)) (reports : List Report) :
    reports.foldl (take (pending.map (Node.mark flag))) (r.mark flag) =
      (reports.foldl (take pending) r).mark flag := by
  induction reports generalizing r with
  | nil => rfl
  | cons report reports ih => rw [List.foldl_cons, List.foldl_cons, take_mark, ih]

theorem absorb_mark (pending : List (Node I)) (reports : List Report) :
    (r.mark flag).absorb (pending.map (Node.mark flag)) reports =
      (r.absorb pending reports).mark flag := by
  unfold absorb
  rw [foldl_take_mark, List.length_map]
  by_cases hlost : reports.length < pending.length
  · rw [if_pos hlost, if_pos hlost]
    rfl
  · rw [if_neg hlost, if_neg hlost]

theorem verdict_mark : (r.mark flag).verdict = r.verdict := by
  unfold verdict mark
  rw [List.isEmpty_map]

theorem next_mark : (r.mark flag).next = r.next.mark flag := by
  unfold next
  change (if (r.remaining.map _).isEmpty then _ else _) = _
  rw [List.isEmpty_map]
  split <;> rfl

variable {flag r}

theorem mem_remaining_take {pending : List (Node I)} {report : Report} {node : Node I}
    (h : node ∈ (take pending r report).remaining) : node ∈ r.remaining ∨ node ∈ pending := by
  unfold take at h
  cases hnode : pending[report.position]? with
  | none =>
    rw [hnode] at h
    exact .inl h
  | some other =>
    rw [hnode] at h
    match hresult : report.result with
    | .ok .running =>
      rw [hresult] at h
      rcases List.mem_append.mp h with hmem | hmem
      · exact .inl hmem
      · rw [List.mem_singleton.mp hmem]
        exact .inr (List.mem_of_getElem? hnode)
    | .ok .success | .ok .failure | .error e =>
      rw [hresult] at h
      exact .inl h

/-- The children of a cycle that go on are among those that it had, and those that were
ticked. -/
theorem mem_remaining_absorb {pending : List (Node I)} {reports : List Report} {node : Node I}
    (h : node ∈ (r.absorb pending reports).remaining) : node ∈ r.remaining ∨ node ∈ pending := by
  have hfold : node ∈ (reports.foldl (take pending) r).remaining := by
    unfold absorb at h
    by_cases hlost : reports.length < pending.length
    · rw [if_pos hlost] at h
      exact h
    · rw [if_neg hlost] at h
      exact h
  clear h
  induction reports generalizing r with
  | nil => exact .inl hfold
  | cons report reports ih =>
    rcases ih hfold with hmem | hmem
    · exact mem_remaining_take hmem
    · exact .inr hmem

theorem mem_remaining_begin {children : List (Node I)} {node : Node I}
    (h : node ∈ (r.begin children).remaining) : node ∈ r.remaining ∨ node ∈ children := by
  unfold begin at h
  by_cases hbetween : r.isBetween
  · rw [if_pos hbetween] at h
    exact .inr h
  · rw [if_neg hbetween] at h
    exact .inl h

theorem mem_remaining_next {node : Node I} (h : node ∈ r.next.remaining) :
    node ∈ r.remaining := by
  unfold next at h
  by_cases hover : r.remaining.isEmpty
  · rw [if_pos hover] at h
    exact absurd h List.not_mem_nil
  · rwa [if_neg hover] at h

end Round

/-! ### Success of any child -/

/-- What a call does when the tick inside has returned: the flag decides the terminal
status, and is lowered. -/
def AnySuccess.settle {I : Interface} (flag : Ref .flag) : TickResult → Prog I TickResult
  | .ok .running => .pure (.ok .running)
  | .ok _ => .request (.swap .flag flag false) fun (raised : Bool) =>
      .pure (.ok (if raised then .success else .failure))
  | .error e => .request (.swap .flag flag false) fun _ => .pure (.error e)

theorem AnySuccess.run_eq_settle {I : Interface} (flag : Ref .flag)
    (inner : List (Node I) → Prog I TickResult) (children : List (Node I)) :
    run flag inner children = (inner (children.map (.flagged flag))).bind (settle flag) := by
  refine congrArg (Prog.bind (inner _)) (funext fun result => ?_)
  match result with
  | .ok .running | .ok .success | .ok .failure | .error e => rfl

section

variable {flag : Ref .flag} {mine : Lock → Prop} {nodes : List (Node (Family J C T))}

theorem Fork.sim_run {ref : Ref .round} (hmine : mine ref.lock)
    (hnodes : ∀ node ∈ nodes, Family.Wraps flag node) :
    (run ref nodes).Sim flag mine false Eq false (run ref (nodes.map (Node.mark flag))) := by
  have hlock := Ref.lock_ne (by decide) ref flag
  have hkept : ∀ r : Round (Family J C T), (∀ node ∈ r.remaining, Family.Wraps flag node) →
      Held flag mine ref r (r.mark flag) :=
    fun r hr => ⟨fun _ => ⟨rfl, hr⟩, fun hnot => absurd hmine hnot⟩
  have hrest : ∀ ended : Round (Family J C T), (∀ node ∈ ended.remaining, Family.Wraps flag node) →
      (Prog.request (.swap .round ref ended.next) fun _ => .request (.release .round ref) fun _ =>
        (.pure ended.verdict : Prog (Family J C T) TickResult)).Sim flag mine false Eq false
      (Prog.request (.swap .round ref (ended.mark flag).next) fun _ =>
        .request (.release .round ref) fun _ => .pure (ended.mark flag).verdict) := by
    intro ended hended
    rw [Round.next_mark, Round.verdict_mark]
    have hnext := hkept ended.next fun node hmem => hended node (Round.mem_remaining_next hmem)
    exact .serve (.swap hlock hnext) nofun fun _ _ _ =>
      .serve .release nofun fun _ _ _ => .pure rfl
  refine .serve .acquire nofun fun _ _ _ => .serve (.read hlock) nofun
    fun (before : Round (Family J C T)) _ he => ?_
  obtain ⟨rfl, hbefore⟩ := he.marks hmine
  have hcycle : ∀ node ∈ (before.begin nodes).remaining, Family.Wraps flag node :=
    fun node hmem => (Round.mem_remaining_begin hmem).elim (hbefore node) (hnodes node)
  have hbegin := Round.begin_mark flag before nodes
  have hstarted : Held flag mine ref
      ({ before.begin nodes with remaining := [] } : Round (Family J C T))
      ({ (before.mark flag).begin (nodes.map (Node.mark flag)) with
        remaining := [] } : Round (Family J C T)) := by
    rw [hbegin]
    exact hkept { before.begin nodes with remaining := [] } nofun
  refine .serve (.swap hlock hstarted) nofun fun _ _ _ => ?_
  change Prog.Sim flag mine false Eq false (if (before.begin nodes).remaining.isEmpty then _ else _)
    (if ((before.mark flag).begin (nodes.map (Node.mark flag))).remaining.isEmpty then _ else _)
  rw [hbegin]
  generalize before.begin nodes = cycle at hcycle
  have hempty : (cycle.mark flag).remaining.isEmpty = cycle.remaining.isEmpty := List.isEmpty_map
  rw [hempty]
  by_cases hover : cycle.remaining.isEmpty
  · rw [if_pos hover, if_pos hover]
    exact hrest { cycle with remaining := [] } nofun
  · rw [if_neg hover, if_neg hover]
    refine .parallel rfl hcycle fun reports => ?_
    have habsorb := Round.absorb_mark flag { cycle with remaining := [] } cycle.remaining reports
    have hrest := hrest (Round.absorb { cycle with remaining := [] } cycle.remaining reports)
      fun node hmem => (Round.mem_remaining_absorb hmem).elim nofun (hcycle node)
    rw [← habsorb] at hrest
    exact hrest

theorem AnySuccess.sim_run {other : Ref .flag} {inner : List (Node (Family J C T)) → Prog _ _}
    (hother : other ≠ flag) (hinner : ∀ nodes, (∀ node ∈ nodes, Family.Wraps flag node) →
      (inner nodes).Sim flag mine false Eq false (inner (nodes.map (Node.mark flag))))
    (hnodes : ∀ node ∈ nodes, Family.Wraps flag node) :
    (run other inner nodes).Sim flag mine false Eq false
      (run other inner (nodes.map (Node.mark flag))) := by
  have hlock : other.lock ≠ flag.lock := fun he => hother (Ref.eq_of_lock_eq he)
  have hwraps : ∀ node ∈ nodes.map (Node.flagged other), Family.Wraps flag node := by
    intro node hmem
    obtain ⟨inside, hinside, rfl⟩ := List.mem_map.mp hmem
    exact .flagged hother (hnodes inside hinside)
  have hmarks : (nodes.map (Node.flagged other)).map (Node.mark flag) =
      (nodes.map (Node.mark flag)).map (Node.flagged other) := by
    rw [List.map_map, List.map_map]
    rfl
  have hinner := hinner _ hwraps
  rw [hmarks] at hinner
  rw [run_eq_settle, run_eq_settle]
  refine hinner.bind fun result _ he => ?_
  subst he
  match result with
  | .ok .running => exact .pure rfl
  | .ok .success | .ok .failure =>
    refine .serve (.swap hlock (.unmarked (by decide) (by decide))) nofun
      fun _ (raised : Bool) he => ?_
    obtain rfl := (Held.iff_eq (by decide) (by decide)).mp he
    exact .pure rfl
  | .error e =>
    exact .serve (.swap hlock (.unmarked (by decide) (by decide))) nofun fun _ _ _ => .pure rfl

/-- **A tick with marks on its children and without** does the same, if it ticks them in
its own calls and has flags of its own. -/
theorem Tick.sim_run : ∀ (t : Tick (Family J C T)), t.actsInCalls → ⟨_, flag⟩ ∉ t.cells →
    (∀ lock, t.Keeps lock → mine lock) →
    ∀ {nodes : List (Node (Family J C T))}, (∀ node ∈ nodes, Family.Wraps flag node) →
      (t.run nodes).Sim flag mine false Eq false (t.run (nodes.map (Node.mark flag)))
  | .const _, _, _, _, _, _ => .pure rfl
  | .custom code, _, _, _, _, hnodes => Routine.sim_run code hnodes
  | .composite kind, _, _, _, _, hnodes => kind.sim_runFrom hnodes 0 kind.initial
  | .fork _, _, _, hmine, _, hnodes =>
    Fork.sim_run (hmine _ ⟨_, List.mem_singleton.mpr rfl, rfl⟩) hnodes
  | .not inner, ht, hflag, hmine, _, hnodes =>
    (sim_run inner ht hflag hmine hnodes).bind fun _ _ he => .pure (congrArg _ he)
  | .exitOnFailure inner, ht, hflag, hmine, _, hnodes =>
    (sim_run inner ht hflag hmine hnodes).bind fun _ _ he => .pure (congrArg _ he)
  | .memorize _ inner, ht, hflag, hmine, _, hnodes =>
    Memorize.sim_run (hmine _ ⟨_, List.mem_cons_self, rfl⟩)
      (fun _ => sim_run inner ht (fun hmem => hflag (.tail _ hmem)) fun lock hlock =>
        hmine lock (hlock.imp fun _ h => ⟨.tail _ h.1, h.2⟩)) hnodes
  | .any _ inner, ht, hflag, hmine, _, hnodes =>
    AnySuccess.sim_run (fun he => hflag (he ▸ List.mem_cons_self))
      (fun _ => sim_run inner ht (fun hmem => hflag (.tail _ hmem)) fun lock hlock =>
        hmine lock (hlock.imp fun _ h => ⟨.tail _ h.1, h.2⟩)) hnodes
  | .ask _ _, ht, _, _, _, _ | .background _ _, ht, _, _, _, _ | .async _ _, ht, _, _, _, _
  | .recording _ _, ht, _, _, _, _ | .flagging _ _, ht, _, _, _, _
  | .gated _ _ _, ht, _, _, _, _ => nomatch ht
termination_by structural t => t

end

/-! ### A child with a mark -/

/-- What a mark does when the tick of its child has returned. -/
def AnySuccess.noteResult {I : Interface} (flag : Ref .flag) : TickResult → Prog I TickResult
  | .ok .success => .request (.swap .flag flag true) fun _ => .pure (.ok .success)
  | result => .pure result

/-- A child with a mark is called as it is without. Its own children have no marks. -/
theorem Node.call_flagged {I : Interface} (flag : Ref .flag) (node : Node I) :
    (Node.flagged flag node).call = node.call.bind (AnySuccess.noteResult flag) := by
  have hnote : ∀ p : Prog I TickResult, AnySuccess.note flag p = p.bind
      (AnySuccess.noteResult flag) := by
    intro p
    refine congrArg (Prog.bind p) (funext fun result => ?_)
    match result with
    | .ok .running | .ok .success | .ok .failure | .error e => rfl
  change (node.expand.bind _).bind _ = (node.expand.bind _).bind _
  rw [Prog.bind_assoc, Prog.bind_assoc]
  refine congrArg (Prog.bind _) (funext fun expansion => ?_)
  obtain ⟨tick?, children⟩ := expansion
  cases tick? with
  | none => rfl
  | some tick => exact hnote (tick.run children)

/-! ### A call -/

/-- How a call ends with success of any child for an answer, when one has succeeded or
none has. -/
def Ending.overridden (raised : Bool) : Ending TickResult → Ending TickResult
  | .value (.ok .running) => .value (.ok .running)
  | .value (.ok _) => .value (.ok (if raised then .success else .failure))
  | ending => ending

/-- The execution goes on after the call: that has reported running, or panicked. -/
def Ending.goesOn : Ending TickResult → Bool
  | .value (.ok .running) | .panic _ => true
  | _ => false

namespace AnySuccess

section

variable {I : Interface} {flag : Ref .flag} {env : Environment I σ} {caller : Caller}
  {held held' : List Lock} {w w' : World I σ} {events : List (Event I)} {ending : Ending TickResult}

/-- The world after a call of a child with a mark that ends in this way: the mark has raised
the flag, if that is success. -/
def raised (flag : Ref .flag) (ending : Ending TickResult) (w : World I σ) : World I σ :=
  if ending.outcome.succeeds then { w with heap := w.heap.set flag true } else w

/-- The world after a call that ends in this way: its end has lowered the flag, unless the
execution goes on. -/
def lowered (flag : Ref .flag) (ending : Ending TickResult) (w : World I σ) : World I σ :=
  if ending.goesOn then w else { w with heap := w.heap.set flag false }

/-- A call of a child with a mark is a call of the child, and of what that does with its own
children. The flag is raised if the tick of the child itself returns success. -/
theorem performs_flagged_iff {node : Node I} :
    (Node.flagged flag node).call.Performs env caller held w events ending held' w' ↔
      ∃ w₁, node.call.Performs env caller held w events ending held' w₁ ∧
        w' = raised flag ending w₁ := by
  have hnote : ∀ (result : TickResult) {held : List Lock} {w : World I σ} {events},
      (noteResult flag result).Performs env caller held w events ending held' w' ↔ events = [] ∧
        ending = .value result ∧ held' = held ∧ w' = raised flag (.value result) w := by
    intro result held w events
    match result with
    | .ok .success => exact Prog.Performs.swap_iff
    | .ok .running | .ok .failure | .error e => exact Prog.Performs.pure_iff
  have hbind : (node.call.bind (noteResult flag)).Performs env caller held w events ending held'
      w' ↔ ∃ first w₁, node.call.Performs env caller held w events first held' w₁ ∧
        ending = first ∧ w' = raised flag first w₁ :=
    Prog.Performs.bind_unseen_iff hnote fun payload w => ⟨rfl, rfl⟩
  rw [Node.call_flagged, hbind]
  constructor
  · rintro ⟨_, w₁, hp, rfl, rfl⟩
    exact ⟨w₁, hp, rfl⟩
  · rintro ⟨w₁, hp, rfl⟩
    exact ⟨ending, w₁, hp, rfl, rfl⟩

/-- A call runs the tick inside against the children with marks, and the flag decides the
terminal status. -/
theorem performs_run_iff {inner : List (Node I) → Prog I TickResult} {children : List (Node I)} :
    (run flag inner children).Performs env caller held w events ending held' w' ↔
      ∃ first w₁,
        (inner (children.map (.flagged flag))).Performs env caller held w events first held' w₁ ∧
        ending = first.overridden (w₁.heap.get flag) ∧ w' = lowered flag first w₁ := by
  have hsettle : ∀ (result : TickResult) {held : List Lock} {w : World I σ} {events},
      (settle flag result).Performs env caller held w events ending held' w' ↔ events = [] ∧
        ending = (Ending.value result).overridden (w.heap.get flag) ∧ held' = held ∧
        w' = lowered flag (.value result) w := by
    intro result held w events
    match result with
    | .ok .running => exact Prog.Performs.pure_iff
    | .ok .success | .ok .failure | .error e => exact Prog.Performs.swap_iff
  rw [run_eq_settle]
  exact Prog.Performs.bind_unseen_iff hsettle fun payload w => ⟨rfl, rfl⟩

end

section

variable {flag : Ref .flag} {mine : Lock → Prop} {raised : Bool}
  {env : Environment (Family J C T) σ} {caller : Caller} {held : List Lock}
  {w w' : World (Family J C T) σ} {t : Tick (Family J C T)}

theorem upToMarks_lowered (hw : UpToMarks flag mine raised w w') (ending : Ending TickResult) :
    UpToMarks flag mine (ending.goesOn && raised) w (lowered flag ending w') := by
  unfold lowered
  by_cases hgoes : ending.goesOn
  · rw [if_pos hgoes, hgoes]
    exact hw
  · rw [if_neg hgoes, Bool.of_not_eq_true hgoes]
    exact hw.set_flag false

/-- **A call** of the tick and of the tick inside. -/
theorem upToMarks_call (ht : t.actsInCalls) (hflag : ⟨_, flag⟩ ∉ t.cells)
    (hw : UpToMarks flag t.Keeps raised w w') (children : List C) :
    (∀ {events ending held' w₁},
      (t.run (children.map Family.node)).Performs env caller held w events ending held' w₁ →
      ∃ w₁', ((Tick.any flag t).run (children.map Family.node)).Performs env caller held w'
          (events.map (Event.mark flag))
          (ending.overridden (raised || events.any Event.succeeds)) held' w₁' ∧
        UpToMarks flag t.Keeps (ending.goesOn && (raised || events.any Event.succeeds)) w₁ w₁') ∧
    ∀ {marked overridden held' w₁'},
      ((Tick.any flag t).run (children.map Family.node)).Performs env caller held w' marked
        overridden held' w₁' →
      ∃ events ending w₁, marked = events.map (Event.mark flag) ∧
        overridden = ending.overridden (raised || events.any Event.succeeds) ∧
        (t.run (children.map Family.node)).Performs env caller held w events ending held' w₁ ∧
        UpToMarks flag t.Keeps (ending.goesOn && (raised || events.any Event.succeeds)) w₁ w₁' := by
  have hnodes : ∀ node ∈ children.map (Family.node : C → Node (Family J C T)),
      Family.Wraps flag node := by
    intro node hmem
    obtain ⟨c, -, rfl⟩ := List.mem_map.mp hmem
    exact .child c
  have hmarks : (children.map (Family.node : C → Node (Family J C T))).map (Node.mark flag) =
      (children.map Family.node).map (.flagged flag) := by
    rw [List.map_map, List.map_map]
    rfl
  have hsim := t.sim_run ht hflag (fun _ => id) hnodes
  rw [hmarks] at hsim
  constructor
  · intro events ending held' w₁ hp
    obtain ⟨w₁', hinner, hw₁⟩ := hsim.performs_marked rfl hw hp
    refine ⟨_, performs_run_iff.mpr ⟨ending, w₁', hinner, ?_, rfl⟩, upToMarks_lowered hw₁ ending⟩
    rw [hw₁.up]
  · intro marked overridden held' w₂' hp
    obtain ⟨ending, w₁', hinner, rfl, rfl⟩ := performs_run_iff.mp hp
    obtain ⟨events, w₁, rfl, hplain, hw₁⟩ := hsim.performs_unmarked rfl hw hinner
    refine ⟨events, ending, w₁, rfl, ?_, hplain, upToMarks_lowered hw₁ ending⟩
    rw [hw₁.up]

end

end AnySuccess

/-! ### Between calls -/

section

variable {I : Interface}

/-- The heap, but these cells hold what they hold in an old one. -/
def Heap.keeping (h old : Heap I) (cells : List (Σ kind, Ref kind)) : Heap I :=
  cells.foldr (fun cell h => h.set cell.2 (old.get cell.2)) h

namespace Heap

variable {h old : Heap I} {cells : List (Σ kind, Ref kind)}

theorem size_keeping (kind : CellKind) :
    ((h.keeping old cells).table kind).size = (h.table kind).size := by
  induction cells with
  | nil => rfl
  | cons cell cells ih => exact (size_set _ _ _).trans ih

theorem made_keeping {kind : CellKind} {s : Ref kind} :
    (h.keeping old cells).Made s ↔ h.Made s := by
  unfold Made
  rw [size_keeping]

theorem get_keeping_of_not_mem {kind : CellKind} {s : Ref kind}
    (hs : ∀ cell ∈ cells, cell.2.lock ≠ s.lock) : (h.keeping old cells).get s = h.get s := by
  induction cells with
  | nil => rfl
  | cons cell cells ih =>
    obtain ⟨hne, hs⟩ := List.forall_mem_cons.mp hs
    exact (get_set_of_lock_ne hne _ _).trans (ih hs)

theorem get_keeping_of_mem {kind : CellKind} {s : Ref kind} (hs : ⟨kind, s⟩ ∈ cells)
    (hgrows : old.Made s → h.Made s) : (h.keeping old cells).get s = old.get s := by
  by_cases hmade : h.Made s
  · induction cells with
    | nil => cases hs
    | cons cell cells ih =>
      by_cases hlock : cell.2.lock = s.lock
      · obtain ⟨kind', r⟩ := cell
        obtain rfl : kind' = kind := congrArg Lock.kind hlock
        obtain rfl := Ref.eq_of_lock_eq hlock
        exact get_set (made_keeping.mpr hmade) _
      · have hmem : ⟨kind, s⟩ ∈ cells :=
          (List.mem_cons.mp hs).resolve_left fun he => hlock (he ▸ rfl)
        exact (get_set_of_lock_ne hlock _ _).trans (ih hmem)
  · rw [get_of_not_made (mt made_keeping.mp hmade), get_of_not_made (mt hgrows hmade)]

end Heap

end

namespace AnySuccess

section

variable {flag : Ref .flag} {t : Tick (Family J C T)} {raised : Bool}
  {w w₀ w' w₀' : World (Family J C T) σ}

/-- The world has rested, and then the cells that it spared are put back to what they held
in a world like the one before. -/
theorem rests_keeping {old : World (Family J C T) σ} (hrests : t.Rests w w₀)
    (hmade : ∀ {kind : CellKind} (s : Ref kind), old.heap.Made s ↔ w.heap.Made s)
    (hlocked : old.locked = w.locked) :
    t.Rests old { w₀ with heap := w₀.heap.keeping old.heap t.cells } := by
  intro cell hmem
  have hspares := hrests cell hmem
  have hgrows := hspares.made ∘ (hmade cell.2).mp
  refine ⟨fun hold => Heap.made_keeping.mpr (hgrows hold), Heap.get_keeping_of_mem hmem hgrows, ?_⟩
  rw [hlocked]
  exact hspares.lock

/-- Worlds that are alike and rest in the same way stay alike. -/
theorem upToMarks_of_rests (hw : UpToMarks flag t.Keeps raised w w')
    (hrests : (Tick.any flag t).Rests w w₀) (hrests' : (Tick.any flag t).Rests w' w₀')
    (houtside : w₀'.outside = w₀.outside) (hlocked : w₀'.locked = w₀.locked)
    (hsize : ∀ kind, (w₀'.heap.table kind).size = (w₀.heap.table kind).size)
    (hcell : ∀ {kind : CellKind} {s : Ref kind},
      (∀ cell ∈ (Tick.any flag t).cells, cell.2.lock ≠ s.lock) →
        w₀'.heap.get s = w₀.heap.get s) :
    UpToMarks flag t.Keeps raised w₀ w₀' := by
  have hflag' := hrests' _ List.mem_cons_self
  refine ⟨houtside, hlocked, hsize, hflag'.made hw.made, hflag'.cell.trans hw.up,
    fun {kind s} hs => ?_⟩
  by_cases hkeeps : t.Keeps s.lock
  · obtain ⟨⟨kind', r⟩, hmem, hlock⟩ := hkeeps
    obtain rfl : kind' = kind := congrArg Lock.kind hlock
    obtain rfl := Ref.eq_of_lock_eq hlock
    have hheld := hw.cell hs
    rwa [← (hrests _ (.tail _ hmem)).cell, ← (hrests' _ (.tail _ hmem)).cell] at hheld
  · refine ⟨fun hmine => absurd hmine hkeeps, fun _ => hcell ?_⟩
    exact List.forall_mem_cons.mpr
      ⟨fun he => hs he.symm, fun cell hmem he => hkeeps ⟨cell, hmem, he⟩⟩

/-- **Between two calls** the worlds can rest in the same way. -/
theorem upToMarks_rests (hw : UpToMarks flag t.Keeps raised w w') :
    (∀ {w₀}, (Tick.any flag t).Rests w w₀ →
      ∃ w₀', (Tick.any flag t).Rests w' w₀' ∧ UpToMarks flag t.Keeps raised w₀ w₀') ∧
    ∀ {w₀'}, (Tick.any flag t).Rests w' w₀' →
      ∃ w₀, (Tick.any flag t).Rests w w₀ ∧ UpToMarks flag t.Keeps raised w₀ w₀' := by
  constructor
  · intro w₀ hrests
    have hrests' := rests_keeping hrests hw.made_iff hw.locked
    exact ⟨_, hrests', upToMarks_of_rests hw hrests hrests' rfl rfl (fun _ => Heap.size_keeping _)
      fun hs => Heap.get_keeping_of_not_mem hs⟩
  · intro w₀' hrests'
    have hrests := rests_keeping hrests' (fun s => (hw.made_iff s).symm) hw.locked.symm
    exact ⟨_, hrests, upToMarks_of_rests hw hrests hrests' rfl rfl
      (fun _ => (Heap.size_keeping _).symm) fun hs => (Heap.get_keeping_of_not_mem hs).symm⟩

end

end AnySuccess

/-! ### Call after call -/

namespace FamilyCall

/-- The tick of a child has succeeded in the call. -/
def succeeds (call : FamilyCall J C T) : Bool := call.events.any Event.succeeds

/-- The last calls, those after the last that has returned a terminal status or an error. -/
def current (calls : List (FamilyCall J C T)) : List (FamilyCall J C T) :=
  calls.rtakeWhile (·.ending.goesOn)

/-- The call that has success of any child for an answer, after these. It passes the
same children, which have marks, and of them the same is seen. The terminal status is
success if a child has succeeded in this call or a current one. -/
def overridden (flag : Ref .flag) (past : List (FamilyCall J C T)) (call : FamilyCall J C T) :
    FamilyCall J C T where
  children := call.children
  events := call.events.map (Event.mark flag)
  ending := call.ending.overridden ((current past).any succeeds || call.succeeds)

/-- Calls that have success of any child for an answer, the first after these. -/
def overriddenFrom (flag : Ref .flag) : (past calls : List (FamilyCall J C T)) →
    List (FamilyCall J C T)
  | _, [] => []
  | past, call :: calls => call.overridden flag past :: overriddenFrom flag (past ++ [call]) calls

theorem current_concat (past : List (FamilyCall J C T)) (call : FamilyCall J C T) :
    current (past ++ [call]) = if call.ending.goesOn then current past ++ [call] else [] :=
  List.rtakeWhile_concat _ _ _

theorem any_succeeds_concat (past : List (FamilyCall J C T)) (call : FamilyCall J C T) :
    (current (past ++ [call])).any succeeds =
      (call.ending.goesOn && ((current past).any succeeds || call.succeeds)) := by
  rw [current_concat]
  cases call.ending.goesOn with
  | true => simp
  | false => rfl

/-- Of the calls before only the current ones matter. -/
theorem overriddenFrom_congr {flag : Ref .flag} {past past' calls : List (FamilyCall J C T)}
    (h : current past = current past') :
    overriddenFrom flag past calls = overriddenFrom flag past' calls := by
  induction calls generalizing past past' with
  | nil => rfl
  | cons call calls ih =>
    have hnext : current (past ++ [call]) = current (past' ++ [call]) := by
      rw [current_concat, current_concat, h]
    unfold overriddenFrom overridden
    rw [h, ih hnext]

end FamilyCall

namespace AnySuccess

section

variable {env : Environment (Family J C T) σ} {flag : Ref .flag} {t : Tick (Family J C T)}
  {w w₁ w' w₁' : World (Family J C T) σ}

theorem upToMarks_of_fresh (hfresh : ∀ cell ∈ (Tick.any flag t).cells, w.Fresh cell.2) :
    UpToMarks flag t.Keeps false w w := by
  have hflag := hfresh _ List.mem_cons_self
  refine ⟨rfl, rfl, fun _ => rfl, hflag.made, hflag.fresh, fun {kind s} _ => ⟨?_, fun _ => rfl⟩⟩
  rintro ⟨⟨kind', r⟩, hmem, hlock⟩
  obtain rfl : kind' = kind := congrArg Lock.kind hlock
  obtain rfl := Ref.eq_of_lock_eq hlock
  rw [(hfresh _ (.tail _ hmem)).fresh]
  cases kind' with
  | execution => exact ⟨rfl, nofun⟩
  | round => exact ⟨rfl, nofun⟩
  | _ => rfl

/-- Calls of the tick inside, and the same calls with the flag. -/
theorem calls_any (ht : t.actsInCalls) (hflag : ⟨_, flag⟩ ∉ t.cells)
    {calls : List (FamilyCall J C T)} (h : Family.Calls env (Tick.any flag t).Rests t w calls w₁) :
    ∀ {past : List (FamilyCall J C T)} {w' : World (Family J C T) σ},
      UpToMarks flag t.Keeps ((FamilyCall.current past).any FamilyCall.succeeds) w w' →
      ∃ w₁', Family.Calls env (Tick.any flag t).Rests (.any flag t) w'
          (FamilyCall.overriddenFrom flag past calls) w₁' ∧
        UpToMarks flag t.Keeps ((FamilyCall.current (past ++ calls)).any FamilyCall.succeeds) w₁
          w₁' := by
  induction h with
  | none =>
    intro past w' hw
    rw [List.append_nil]
    exact ⟨w', .none, hw⟩
  | @call w w₀ w₁ w₂ call calls caller held hrests hcall _ ih =>
    intro past w' hw
    obtain ⟨w₀', hrests', hw₀⟩ := (upToMarks_rests hw).1 hrests
    obtain ⟨w₁', hcall', hw₁⟩ := (upToMarks_call ht hflag hw₀ call.children).1 hcall
    rw [← FamilyCall.succeeds, ← FamilyCall.any_succeeds_concat] at hw₁
    obtain ⟨w₂', hcalls, hw₂⟩ := ih (hw₁.unlock held)
    rw [List.append_assoc] at hw₂
    exact ⟨w₂', .call hrests' hcall' hcalls, hw₂⟩

/-- Calls with the flag are calls of the tick inside with other answers. -/
theorem calls_of_any (ht : t.actsInCalls) (hflag : ⟨_, flag⟩ ∉ t.cells)
    {overridden : List (FamilyCall J C T)} :
    ∀ {past : List (FamilyCall J C T)} {w w' w₁' : World (Family J C T) σ},
      UpToMarks flag t.Keeps ((FamilyCall.current past).any FamilyCall.succeeds) w w' →
      Family.Calls env (Tick.any flag t).Rests (.any flag t) w' overridden w₁' →
      ∃ calls w₁, overridden = FamilyCall.overriddenFrom flag past calls ∧
        Family.Calls env (Tick.any flag t).Rests t w calls w₁ ∧
        UpToMarks flag t.Keeps ((FamilyCall.current (past ++ calls)).any FamilyCall.succeeds) w₁
          w₁' := by
  induction overridden with
  | nil =>
    intro past w w' w₁' hw h
    cases h
    refine ⟨[], w, rfl, .none, ?_⟩
    rw [List.append_nil]
    exact hw
  | cons call overridden ih =>
    intro past w w' w₂' hw h
    obtain ⟨children, marked, ending'⟩ := call
    cases h with
    | @call _ w₀' w₁' _ _ _ caller held hrests' hcall' hcalls' =>
      obtain ⟨w₀, hrests, hw₀⟩ := (upToMarks_rests hw).2 hrests'
      obtain ⟨events, ending, w₁, rfl, rfl, hcall, hw₁⟩ :=
        (upToMarks_call ht hflag hw₀ children).2 hcall'
      let call : FamilyCall J C T := ⟨children, events, ending⟩
      have hnow : UpToMarks flag t.Keeps ((FamilyCall.current (past ++ [call])).any
          FamilyCall.succeeds) (w₁.unlock held) (w₁'.unlock held) := by
        rw [FamilyCall.any_succeeds_concat]
        exact hw₁.unlock held
      obtain ⟨calls, w₂, rfl, hcalls, hw₂⟩ := ih hnow hcalls'
      rw [List.append_assoc] at hw₂
      exact ⟨call :: calls, w₂, rfl, .call hrests hcall hcalls, hw₂⟩

end

/-- **Success of any child changes the terminal status only.** Whatever calls of the tick
inside there are, there are these calls with the flag, and there are no others: they
pass the same children, see the same of them and leave the same behind, up to marks, and
the terminal status is success if any child has succeeded since the call that ended
the execution before. A mark minds the tick of its child alone, which ticks children of
its own without marks. Nothing is left of calls up to the end of an execution. -/
theorem override_law (env : Environment (Family J C T) σ) (flag : Ref .flag)
    (t : Tick (Family J C T)) (ht : t.actsInCalls) (hflag : ⟨_, flag⟩ ∉ t.cells)
    (w : World (Family J C T) σ) (hfresh : ∀ cell ∈ (Tick.any flag t).cells, w.Fresh cell.2) :
    (∀ calls w₁, Family.Calls env (Tick.any flag t).Rests t w calls w₁ →
      ∃ w₁', Family.Calls env (Tick.any flag t).Rests (.any flag t) w
          (FamilyCall.overriddenFrom flag [] calls) w₁' ∧
        UpToMarks flag t.Keeps ((FamilyCall.current calls).any FamilyCall.succeeds) w₁ w₁') ∧
    (∀ overridden w₁', Family.Calls env (Tick.any flag t).Rests (.any flag t) w overridden w₁' →
      ∃ calls w₁, overridden = FamilyCall.overriddenFrom flag [] calls ∧
        Family.Calls env (Tick.any flag t).Rests t w calls w₁ ∧
        UpToMarks flag t.Keeps ((FamilyCall.current calls).any FamilyCall.succeeds) w₁ w₁') ∧
    (∀ (node : Node (Family J C T)) {caller held v events ending held' v'},
      (Node.flagged flag node).call.Performs env caller held v events ending held' v' ↔
        ∃ v₁, node.call.Performs env caller held v events ending held' v₁ ∧
          v' = raised flag ending v₁) ∧
    ∀ (past calls : List (FamilyCall J C T)) (last : FamilyCall J C T),
      last.ending.goesOn = false → FamilyCall.overriddenFrom flag (past ++ [last]) calls =
        FamilyCall.overriddenFrom flag [] calls := by
  have hw : UpToMarks flag t.Keeps ((FamilyCall.current ([] : List (FamilyCall J C T))).any
      FamilyCall.succeeds) w w := upToMarks_of_fresh hfresh
  refine ⟨fun calls w₁ h => calls_any ht hflag h hw,
    fun overridden w₁' h => calls_of_any ht hflag hw h, fun node => performs_flagged_iff,
    fun past calls last hends => ?_⟩
  refine FamilyCall.overriddenFrom_congr ?_
  rw [FamilyCall.current_concat, hends]
  rfl

/-- One child of a fork succeeds while the other reports running, and fails in the next
call. The fork fails then, but one child has succeeded. -/
theorem override_law_fork :
    let J : Interface := ⟨Empty, nofun⟩
    let status : Nat → Status
      | 0 => .success
      | 1 => .running
      | _ => .failure
    let env : Environment (Family J Unit Unit) Nat :=
      ⟨fun _ query calls => match query with
        | .other e => nomatch e
        | .expand _ => some ((some (), 0), calls)
        | .call _ _ => some (.returned (.ok (status calls)), calls + 1), fun _ _ calls => calls⟩
    let fork : Tick (Family J Unit Unit) := .fork ⟨0⟩
    let child : Node (Family J Unit Unit) := .flagged ⟨0⟩ (Family.node ())
    let lane (p : Nat) (s : Status) : List (Beat (Family J Unit Unit)) :=
      [.said p ⟨.expand (), (some (), 0)⟩, .said p ⟨.call () (), .returned (.ok s)⟩,
        .ended p (.value (.ok s))]
    let calls : List (FamilyCall J Unit Unit) :=
      [⟨[(), ()], [.round [child, child] (lane 0 .success ++ lane 1 .running)],
        .value (.ok .running)⟩, ⟨[], [.round [child] (lane 0 .failure)], .value (.ok .success)⟩]
    let w : World (Family J Unit Unit) Nat :=
      ⟨((Heap.empty.alloc .flag).2.alloc .round).2, [], 0⟩
    ∃ w', Family.Calls env (Tick.any ⟨0⟩ fork).Rests (.any ⟨0⟩ fork) w calls w' ∧
      w'.outside = 3 := by
  intro J status env fork child lane calls w
  let ref : Ref .round := ⟨0⟩
  let plain : Node (Family J Unit Unit) := Family.node ()
  let started : Round (Family J Unit Unit) := ⟨[], some .success, none⟩
  let opened := w.heap.set ref started
  let kept := opened.set ref ⟨[plain], some .success, none⟩
  let reopened := kept.set ref started
  let closed := reopened.set ref .between
  have hlane : ∀ {heap n ls beats reports w'} (p : Nat),
      Interleaves env ls ⟨heap, [ref.lock], n + 1⟩ beats reports w' →
      Interleaves env (⟨default, p, plain.call, []⟩ :: ls) ⟨heap, [ref.lock], n⟩
        (lane p (status n) ++ beats) (⟨p, .ok (status n)⟩ :: reports) w' := by
    intro heap n ls beats reports w' p hrest
    have hspeaks : plain.call.Speaks env Eq default [] ⟨heap, [ref.lock], n⟩
        [⟨.expand (), (some (), 0)⟩, ⟨.call () (), .returned (.ok (status n))⟩]
        (.value (.ok (status n))) [] ⟨heap, [ref.lock], n + 1⟩ :=
      .serve rfl rfl (.serve rfl rfl (.pure rfl))
    exact @Interleaves.first _ _ _ _ _ _ _ _ ⟨default, p, plain.call, []⟩ _ _ _ _ hrest hspeaks
  have hround : Interleaves env (lanes (fun _ => default) [plain, plain]) ⟨opened, [ref.lock], 0⟩
      (lane 0 .success ++ lane 1 .running) [⟨0, .ok .success⟩, ⟨1, .ok .running⟩]
      ⟨opened, [ref.lock], 2⟩ := hlane 0 (hlane 1 .none)
  have hround' : Interleaves env (lanes (fun _ => default) [plain]) ⟨reopened, [ref.lock], 2⟩
      (lane 0 .failure) [⟨0, .ok .failure⟩] ⟨reopened, [ref.lock], 3⟩ := hlane 0 .none
  have hfirst : (fork.run [plain, plain]).Performs env default [] w
      [.round [plain, plain] (lane 0 .success ++ lane 1 .running)] (.value (.ok .running)) []
      ⟨kept, [], 2⟩ :=
    .serve rfl (.serve rfl (.serve rfl (.parallel hround (.serve rfl (.serve rfl .pure)))))
  have hsecond : (fork.run []).Performs env default [] ⟨kept, [], 2⟩
      [.round [plain] (lane 0 .failure)] (.value (.ok .failure)) [] ⟨closed, [], 3⟩ :=
    .serve rfl (.serve rfl (.serve rfl (.parallel hround' (.serve rfl (.serve rfl .pure)))))
  have hrests : ∀ w : World (Family J Unit Unit) Nat, (Tick.any ⟨0⟩ fork).Rests w w :=
    fun w cell _ => .refl cell.2 w
  have hcalls : Family.Calls env (Tick.any ⟨0⟩ fork).Rests fork w
      [⟨[(), ()], [.round [plain, plain] (lane 0 .success ++ lane 1 .running)],
        .value (.ok .running)⟩, ⟨[], [.round [plain] (lane 0 .failure)], .value (.ok .failure)⟩]
      ⟨closed, [], 3⟩ :=
    .call (hrests w) hfirst (.call (hrests _) hsecond .none)
  have hflag : (⟨.flag, ⟨0⟩⟩ : Σ kind, Ref kind) ∉ fork.cells :=
    fun hmem => nomatch List.mem_singleton.mp hmem
  have hfresh : ∀ cell ∈ (Tick.any ⟨0⟩ fork).cells, w.Fresh cell.2 :=
    List.forall_mem_cons.mpr ⟨⟨Nat.zero_lt_one, List.not_mem_nil, rfl⟩,
      List.forall_mem_singleton.mpr ⟨Nat.zero_lt_one, List.not_mem_nil, rfl⟩⟩
  obtain ⟨w', hoverridden, hmarks⟩ :=
    (override_law env ⟨0⟩ fork rfl hflag w hfresh).1 _ _ hcalls
  exact ⟨w', hoverridden, hmarks.outside⟩

end AnySuccess

end TickTree
