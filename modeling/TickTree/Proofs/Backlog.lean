/-
# The backlog of a pool

The calls of a pool make tasks, which are numbered here as they are made. A call
ticks the tasks of the backlog, oldest first, up to the first that does not answer
running; that one leaves the backlog, and its answer is the answer of the call. If
all of them answer running, one task is made, against the children of this call,
and ticked once; it becomes the youngest of the backlog if it answers running, and
its answer is the answer of the call either way (`Turn.Lawful`).

Calls in a row are told by a journal, with a turn for each call (`Tells`). The
backlog after a journal is by definition that of the tasks whose answers have all
been running, in the order in which they were made (`backlog`), and what a turn
does about it is a lemma. It is what the pool keeps between calls (`pool_law`). So
no task is lost, and none is reported twice: an answer other than running is the
answer of exactly one call, and the task is not ticked again (`Tells.once`).

Nothing is known of the tasks. They may take their time while other threads go on,
change the world and answer what they like, as long as they leave the cell of the
pool and its lock alone (`World.Spares`).

Key definitions: `Background.Turn`, `Background.backlog`, `Background.Turn.Lawful`,
`Background.Tells`, `Background.Calls`.
Key theorems: `Background.Tells.once`, `Background.returns_run`,
`Background.pool_law`.
-/
import TickTree.Proofs.Acting
import TickTree.Proofs.Execution
import Mathlib.Data.List.Nodup

namespace TickTree

variable {I : Interface} {σ : Type}

/-- Carried out, the recipe shows these acts and yields this. -/
inductive Recipe.Shows {α : Type} : Recipe I α → List (Act I) → α → Prop
  | yield {a} : Shows (.yield a) [] a
  | ask {query next reply acts a} : Shows (next reply) acts a →
      Shows (.ask query next) (.asked query reply :: acts) a
  | alloc {kind next ref acts a} : Shows (next ref) acts a →
      Shows (.alloc kind next) (.made kind ref :: acts) a

namespace Background

/-! ### The journal of a pool -/

/-- A task that a call has made: its number, what its generator has shown, its
tick, and what it has answered to the call that made it. -/
structure New (I : Interface) where
  task : Nat
  shown : List (Act I)
  tick : Tick I
  answer : TickResult

/-- A call of a pool: the children passed, the answers of tasks that were in the
backlog, in the order in which they were ticked, the task made if there is one, and
the answer of the call. -/
structure Turn (I : Interface) where
  children : List (Node I)
  old : List (Nat × TickResult)
  new : Option (New I)
  result : TickResult

/-- The task made in the turn: it works on the children of the turn. -/
def Turn.made (turn : Turn I) : Option (Node I) :=
  turn.new.map fun new => .of new.tick turn.children

/-- The answers of tasks in the turn. -/
def Turn.answers (turn : Turn I) : List (Nat × TickResult) :=
  turn.old ++ turn.new.toList.map fun new => (new.task, new.answer)

/-- The tasks made, by number. -/
def tasks (turns : List (Turn I)) : List (Node I) := turns.filterMap Turn.made

def answers (turns : List (Turn I)) : List (Nat × TickResult) := turns.flatMap Turn.answers

/-- Has the task answered anything but running? -/
def finished (turns : List (Turn I)) (task : Nat) : Bool :=
  (answers turns).any fun answer => answer.1 == task && !TickResult.isRunning answer.2

/-- The tasks that have not, oldest first. -/
def backlog (turns : List (Turn I)) : List Nat :=
  (List.range (tasks turns).length).filter fun task => !finished turns task

/-- All these tasks answer running. -/
def allRunning (passed : List Nat) : List (Nat × TickResult) := passed.map (·, .ok .running)

/-- A turn after others that have made `count` tasks, and the backlog before and
after it. Either the tasks of the backlog are ticked up to the first that does not
answer running, which leaves it, or all of them are, and a task is made, which
joins it if it answers running. -/
inductive Turn.Lawful (generator : Recipe I (Tick I)) (count : Nat) :
    List Nat → Turn I → List Nat → Prop
  | finishes {children passed task rest result} : result.isRunning = false →
      Lawful generator count (passed ++ task :: rest)
        ⟨children, allRunning passed ++ [(task, result)], none, result⟩ (passed ++ rest)
  | generates {children queue shown tick result} : generator.Shows shown tick →
      Lawful generator count queue
        ⟨children, allRunning queue, some ⟨count, shown, tick, result⟩, result⟩
        (if result.isRunning then queue ++ [count] else queue)

/-- What a call shows: the children passed, the acts of the call, and its
answer. -/
structure Call (I : Interface) where
  children : List (Node I)
  acts : List (Act I)
  result : TickResult

/-- The ticking of tasks, among those made. -/
def ticking (made : List (Node I)) (answers : List (Nat × TickResult)) : List (Act I) :=
  answers.flatMap fun answer => made[answer.1]?.toList.flatMap (Act.ticked · answer.2)

/-- What the call of a turn shows, after turns that have made these tasks. -/
def Turn.call (made : List (Node I)) (turn : Turn I) : Call I where
  children := turn.children
  acts := ticking made turn.old ++ turn.new.toList.flatMap fun new =>
    new.shown ++ Act.ticked (.of new.tick turn.children) new.answer
  result := turn.result

/-- The turns, each of them lawful after those before it, tell the calls. -/
inductive Tells (generator : Recipe I (Tick I)) : List (Turn I) → List (Call I) → Prop
  | none : Tells generator [] []
  | next {turns calls turn} : Tells generator turns calls →
      Turn.Lawful generator (tasks turns).length (backlog turns) turn (backlog (turns ++ [turn])) →
      Tells generator (turns ++ [turn]) (calls ++ [turn.call (tasks turns)])

/-! ### What a turn does about the backlog -/

variable {generator : Recipe I (Tick I)} {turns : List (Turn I)} {turn : Turn I}
  {calls : List (Call I)} {task : Nat} {result : TickResult}

theorem tasks_snoc (turns : List (Turn I)) (turn : Turn I) :
    tasks (turns ++ [turn]) = tasks turns ++ turn.made.toList := by
  simp only [tasks, List.filterMap_append]
  cases h : turn.made <;> simp [h]

theorem answers_snoc (turns : List (Turn I)) (turn : Turn I) :
    answers (turns ++ [turn]) = answers turns ++ turn.answers := by
  simp [answers]

theorem finished_snoc (turns : List (Turn I)) (turn : Turn I) (task : Nat) :
    finished (turns ++ [turn]) task = (finished turns task ||
      turn.answers.any fun answer => answer.1 == task && !TickResult.isRunning answer.2) := by
  simp [finished, answers_snoc]

theorem finished_iff :
    finished turns task ↔ ∃ r, (task, r) ∈ answers turns ∧ r.isRunning = false := by
  simp only [finished, List.any_eq_true, Bool.and_eq_true, beq_iff_eq, Bool.not_eq_true',
    Prod.exists]
  constructor
  · rintro ⟨_, r, hmem, rfl, hr⟩
    exact ⟨r, hmem, hr⟩
  · rintro ⟨r, hmem, hr⟩
    exact ⟨task, r, hmem, rfl, hr⟩

theorem mem_backlog : task ∈ backlog turns ↔
    task < (tasks turns).length ∧ ∀ r, (task, r) ∈ answers turns → r.isRunning := by
  simp only [backlog, List.mem_filter, List.mem_range, Bool.not_eq_true', Bool.eq_false_iff]
  refine and_congr_right fun _ => ?_
  rw [Ne, finished_iff]
  simp

theorem backlog_sorted (turns : List (Turn I)) : (backlog turns).Pairwise (· < ·) :=
  List.Pairwise.filter _ List.pairwise_lt_range

theorem backlog_nodup (turns : List (Turn I)) : (backlog turns).Nodup :=
  (backlog_sorted turns).imp Nat.ne_of_lt

theorem mem_allRunning {passed : List Nat} : (task, result) ∈ allRunning passed ↔
    task ∈ passed ∧ result = .ok .running := by
  simp only [allRunning, List.mem_map, Prod.mk.injEq]
  constructor
  · rintro ⟨_, hmem, rfl, rfl⟩
    exact ⟨hmem, rfl⟩
  · rintro ⟨hmem, rfl⟩
    exact ⟨task, hmem, rfl, rfl⟩

theorem any_allRunning (passed : List Nat) (task : Nat) :
    ((allRunning passed).any fun answer => answer.1 == task && !TickResult.isRunning answer.2) =
      false := by
  simp [allRunning, TickResult.isRunning, Status.isRunning]

/-- The task that finishes leaves the backlog. -/
theorem backlog_finishes {children : List (Node I)} {passed rest : List Nat}
    (hbacklog : backlog turns = passed ++ task :: rest) (hresult : result.isRunning = false) :
    backlog (turns ++ [⟨children, allRunning passed ++ [(task, result)], none, result⟩]) =
      passed ++ rest := by
  have hfinished : ∀ k, finished
      (turns ++ [⟨children, allRunning passed ++ [(task, result)], none, result⟩]) k =
        (finished turns k || task == k) := by
    intro k
    rw [finished_snoc]
    simp [Turn.answers, any_allRunning, hresult]
  have hother : ∀ k ∈ passed ++ rest, (task != k) = true := by
    have hnodup := backlog_nodup turns
    rw [hbacklog] at hnodup
    obtain ⟨hmem, -⟩ := List.nodup_cons.mp (List.perm_middle.nodup_iff.mp hnodup)
    intro k hk
    have hne : task ≠ k := fun heq => hmem (heq ▸ hk)
    simpa using hne
  calc backlog (turns ++ [⟨children, allRunning passed ++ [(task, result)], none, result⟩])
      = (backlog turns).filter (task != ·) := by
        simp only [backlog, tasks_snoc, Turn.made, Option.map_none, Option.toList_none,
          List.append_nil, hfinished, List.filter_filter, Bool.not_or, bne, Bool.and_comm]
    _ = (passed ++ rest).filter (task != ·) := by simp [hbacklog]
    _ = passed ++ rest := List.filter_eq_self.mpr hother

/-- A task that is made joins it if it answers running. -/
theorem backlog_generates {children : List (Node I)} {passed : List Nat} {shown : List (Act I)}
    {tick : Tick I} (hbound : ∀ answer ∈ answers turns, answer.1 < (tasks turns).length) :
    backlog (turns ++ [⟨children, allRunning passed,
        some ⟨(tasks turns).length, shown, tick, result⟩, result⟩]) =
      if result.isRunning then backlog turns ++ [(tasks turns).length] else backlog turns := by
  have hfinished : ∀ k, finished (turns ++ [⟨children, allRunning passed,
      some ⟨(tasks turns).length, shown, tick, result⟩, result⟩]) k =
        (finished turns k || ((tasks turns).length == k && !result.isRunning)) := by
    intro k
    rw [finished_snoc]
    simp [Turn.answers, any_allRunning]
  have hnew : finished turns (tasks turns).length = false := by
    rw [Bool.eq_false_iff, Ne, finished_iff]
    rintro ⟨r, hmem, -⟩
    exact Nat.lt_irrefl _ (hbound _ hmem)
  have hold : ((List.range (tasks turns).length).filter fun k =>
      !(finished turns k || ((tasks turns).length == k && !result.isRunning))) = backlog turns := by
    refine List.filter_congr fun k hk => ?_
    have hne : ((tasks turns).length == k) = false := by
      simpa using (Nat.ne_of_lt (List.mem_range.mp hk)).symm
    rw [hne, Bool.false_and, Bool.or_false]
  rw [backlog]
  simp only [tasks_snoc, Turn.made, Option.map_some, Option.toList_some, List.length_append,
    List.length_singleton, List.range_succ, List.filter_append, hfinished, hold]
  cases hr : result.isRunning <;> simp [hnew]

/-! ### What a journal comes to -/

namespace Turn.Lawful

variable {count : Nat} {queue queue' : List Nat}

/-- A turn ticks tasks of the backlog, and the one that it makes. -/
theorem known (h : Turn.Lawful generator count queue turn queue') {answer : Nat × TickResult}
    (hmem : answer ∈ turn.answers) :
    answer.1 ∈ queue ∨ answer.1 = count ∧ turn.made.isSome := by
  obtain ⟨task, r⟩ := answer
  cases h with
  | finishes =>
    simp only [Turn.answers, Option.toList_none, List.map_nil, List.append_nil, List.mem_append,
      mem_allRunning, List.mem_singleton, Prod.mk.injEq] at hmem
    rcases hmem with ⟨hmem, -⟩ | ⟨rfl, -⟩
    · exact .inl (List.mem_append_left _ hmem)
    · exact .inl (List.mem_append_right _ List.mem_cons_self)
  | generates =>
    simp only [Turn.answers, Option.toList_some, List.map_cons, List.map_nil, List.mem_append,
      mem_allRunning, List.mem_singleton, Prod.mk.injEq] at hmem
    rcases hmem with ⟨hmem, -⟩ | ⟨rfl, -⟩
    · exact .inl hmem
    · exact .inr ⟨rfl, rfl⟩

/-- It ticks each of them once. -/
theorem once (h : Turn.Lawful generator count queue turn queue') (hqueue : queue.Nodup)
    (hcount : count ∉ queue) : (turn.answers.map (·.1)).Nodup := by
  have hnumbers : ∀ passed : List Nat, (allRunning passed).map (·.1) = passed := by
    intro passed
    simp [allRunning, Function.comp_def]
  cases h with
  | @finishes _ passed task rest =>
    have hsub : (passed ++ [task]).Sublist (passed ++ task :: rest) :=
      (List.Sublist.refl passed).append ((List.nil_sublist rest).cons_cons task)
    simpa [Turn.answers, hnumbers] using hqueue.sublist hsub
  | generates =>
    simp only [Turn.answers, List.map_append, hnumbers, Option.toList_some, List.map_cons,
      List.map_nil]
    exact List.nodup_append.mpr ⟨hqueue, List.nodup_singleton _, fun k hk k' hk' heq =>
      hcount (List.mem_singleton.mp hk' ▸ heq ▸ hk)⟩

/-- An answer other than running is the answer of the call. -/
theorem result_of_mem (h : Turn.Lawful generator count queue turn queue')
    (hmem : (task, result) ∈ turn.answers) (hresult : result.isRunning = false) :
    turn.result = result := by
  have hnot : ∀ passed, (task, result) ∉ allRunning passed := by
    intro passed hpassed
    rw [(mem_allRunning.mp hpassed).2] at hresult
    cases hresult
  cases h with
  | finishes =>
    simp only [Turn.answers, Option.toList_none, List.map_nil, List.append_nil, List.mem_append,
      hnot, false_or, List.mem_singleton, Prod.mk.injEq] at hmem
    exact hmem.2.symm
  | generates =>
    simp only [Turn.answers, Option.toList_some, List.map_cons, List.map_nil, List.mem_append,
      hnot, false_or, List.mem_singleton, Prod.mk.injEq] at hmem
    exact hmem.2.symm

/-- The answer of a call that is not running is the answer of a task. -/
theorem mem_of_result (h : Turn.Lawful generator count queue turn queue') :
    ∃ task, (task, turn.result) ∈ turn.answers := by
  cases h with
  | @finishes _ _ task => exact ⟨task, by simp [Turn.answers]⟩
  | generates => exact ⟨count, by simp [Turn.answers]⟩

theorem length_eq (h : Turn.Lawful generator count queue turn queue') :
    queue'.length + (if turn.result.isRunning then 0 else 1) =
      queue.length + turn.made.toList.length := by
  cases h with
  | finishes hresult => simp [hresult, Turn.made]; omega
  | generates => split <;> simp_all [Turn.made]

end Turn.Lawful

namespace Tells

theorem bound (h : Tells generator turns calls) :
    ∀ answer ∈ answers turns, answer.1 < (tasks turns).length := by
  induction h with
  | none => simp [answers]
  | @next turns _ turn _ hlawful ih =>
    intro answer hmem
    rw [answers_snoc] at hmem
    rw [tasks_snoc, List.length_append]
    rcases List.mem_append.mp hmem with hmem | hmem
    · have hlt := ih answer hmem
      omega
    · rcases hlawful.known hmem with hold | ⟨hnew, hmade⟩
      · have hlt := (mem_backlog.mp hold).1
        omega
      · obtain ⟨node, hnode⟩ := Option.isSome_iff_exists.mp hmade
        rw [hnew, hnode, Option.toList_some, List.length_singleton]
        exact Nat.lt_succ_self _

/-- The turns before a turn tell some of the calls, and the turn is lawful after
them. -/
theorem split {before after : List (Turn I)} (h : Tells generator turns calls)
    (hturns : turns = before ++ turn :: after) :
    (∃ calls', Tells generator before calls') ∧
      turn.Lawful generator (tasks before).length (backlog before) (backlog (before ++ [turn])) := by
  induction h generalizing after with
  | none => simp at hturns
  | @next turns calls last htells hlawful ih =>
    rcases List.eq_nil_or_concat after with rfl | ⟨after, last', rfl⟩
    · obtain ⟨rfl, hlast⟩ := List.append_inj' hturns rfl
      obtain rfl : last = turn := List.singleton_inj.mp hlast
      exact ⟨⟨calls, htells⟩, hlawful⟩
    · rw [List.concat_eq_append, ← List.cons_append, ← List.append_assoc] at hturns
      exact ih (List.append_inj' hturns rfl).1

/-- A task that has finished is not ticked again. -/
theorem not_mem_later {before after : List (Turn I)} (h : Tells generator turns calls)
    (hturns : turns = before ++ turn :: after) {earlier : Turn I} (hearlier : earlier ∈ before)
    (hmem : (task, result) ∈ earlier.answers) (hresult : result.isRunning = false) (r : TickResult) :
    (task, r) ∉ turn.answers := by
  intro hagain
  obtain ⟨⟨calls', htells⟩, hlawful⟩ := h.split hturns
  have hanswer : (task, result) ∈ answers before := List.mem_flatMap.mpr ⟨earlier, hearlier, hmem⟩
  rcases hlawful.known hagain with hold | ⟨hnew, -⟩
  · have hrunning := (mem_backlog.mp hold).2 result hanswer
    rw [hresult] at hrunning
    cases hrunning
  · exact Nat.ne_of_lt (htells.bound _ hanswer) hnew

/-- **An answer other than running is reported once.** It is the answer of its
call; the task has answered nothing else but running before, and is not ticked
again. -/
theorem once {before after : List (Turn I)} (h : Tells generator turns calls)
    (hturns : turns = before ++ turn :: after) (hmem : (task, result) ∈ turn.answers)
    (hresult : result.isRunning = false) :
    turn.result = result ∧
      (∀ other ∈ before, ∀ r, (task, r) ∈ other.answers → r.isRunning) ∧
      ∀ other ∈ after, ∀ r, (task, r) ∉ other.answers := by
  refine ⟨(h.split hturns).2.result_of_mem hmem hresult, fun other hother r hr => ?_,
    fun other hother r => ?_⟩
  · by_contra hnot
    exact h.not_mem_later hturns hother hr (by simpa using hnot) result hmem
  · obtain ⟨between, later, rfl⟩ := List.append_of_mem hother
    have hturns' : turns = (before ++ turn :: between) ++ other :: later := by simp [hturns]
    exact h.not_mem_later hturns' (by simp) hmem hresult r

/-- As many tasks are in the backlog as have been made and not been reported. -/
theorem length_backlog (h : Tells generator turns calls) :
    (backlog turns).length + (calls.filter fun call => !call.result.isRunning).length =
      (tasks turns).length := by
  induction h with
  | none => rfl
  | @next turns calls turn _ hlawful ih =>
    have hlength := hlawful.length_eq
    have hone : ([turn.call (tasks turns)].filter fun call => !call.result.isRunning).length =
        if turn.result.isRunning then 0 else 1 := by
      cases hr : turn.result.isRunning <;> simp [Turn.call, hr]
    rw [tasks_snoc, List.filter_append, List.length_append, List.length_append, hone]
    omega

end Tells

/-! ### One call -/

/-- The pool holds these jobs, and its lock is taken or free. -/
structure Holds (ref : Ref .jobs) (jobs : List (Node I)) (taken : Prop) (w : World I σ) : Prop where
  made : w.heap.Made ref
  cell : w.heap.get ref = jobs
  lock : ref.lock ∈ w.locked ↔ taken

variable {env : Environment I σ} {ref : Ref .jobs} {caller : Caller} {held : List Lock}
  {w w' : World I σ} {jobs : List (Node I)} {taken : Prop} {acts : List (Act I)}

theorem Holds.spares (hholds : Holds ref jobs taken w) (hspares : w.Spares ref w') :
    Holds ref jobs taken w' :=
  ⟨hspares.made hholds.made, hspares.cell.trans hholds.cell, hspares.lock.trans hholds.lock⟩

theorem Holds.acquire (hholds : Holds ref jobs False w) :
    w.serve env caller held (.acquire .jobs ref) =
        some ((), ref.lock :: held, { w with locked := ref.lock :: w.locked }) ∧
      Holds ref jobs True { w with locked := ref.lock :: w.locked } :=
  ⟨World.serve_acquire fun hmem => hholds.lock.mp hmem, hholds.made, hholds.cell, by simp⟩

theorem Holds.swap (hholds : Holds ref jobs taken w) (jobs' : List (Node I)) :
    Holds ref jobs' taken { w with heap := w.heap.set ref jobs' } :=
  ⟨(Heap.made_set _).mpr hholds.made, Heap.get_set hholds.made _, hholds.lock⟩

theorem Holds.release (hholds : Holds ref jobs True w) :
    Holds ref jobs False (w.unlock [ref.lock]) :=
  ⟨hholds.made, hholds.cell, by simp [World.unlock]⟩

theorem Holds.alloc (hholds : Holds ref jobs taken w) (kind : CellKind) :
    Holds ref jobs taken { w with heap := (w.heap.alloc kind).2 } :=
  ⟨Heap.made_alloc_of_made hholds.made kind, (Heap.get_alloc _ _ _).trans hholds.cell, hholds.lock⟩

theorem returns_acquire {next : Unit → Prog I TickResult} (hholds : Holds ref jobs False w)
    (h : ((Prog.acquire ref).bind next).Returns env (World.Spares ref) caller held w acts result w') :
    ∃ w₁, Holds ref jobs True w₁ ∧
      (next ()).Returns env (World.Spares ref) caller (ref.lock :: held) w₁ acts result w' := by
  obtain ⟨w₀, reply, held₁, w₁, acts', hspares, hserve, rfl, hrest⟩ :=
    Prog.Returns.serve (.refl ref) (·.trans ·) rfl h
  obtain ⟨hacquire, hholds₁⟩ := (hholds.spares hspares).acquire
  cases hacquire.symm.trans hserve
  exact ⟨_, hholds₁, hrest⟩

theorem returns_read {next : List (Node I) → Prog I TickResult} (hholds : Holds ref jobs taken w)
    (h : ((Prog.read ref).bind next).Returns env (World.Spares ref) caller held w acts result w') :
    ∃ w₁, Holds ref jobs taken w₁ ∧
      (next jobs).Returns env (World.Spares ref) caller held w₁ acts result w' := by
  obtain ⟨w₀, reply, held₁, w₁, acts', hspares, hserve, rfl, hrest⟩ :=
    Prog.Returns.serve (.refl ref) (·.trans ·) rfl h
  cases hserve
  have hholds₀ := hholds.spares hspares
  exact ⟨w₀, hholds₀, hholds₀.cell ▸ hrest⟩

theorem returns_write {next : Unit → Prog I TickResult} {jobs' : List (Node I)}
    (hholds : Holds ref jobs taken w) (h : ((Prog.write ref jobs').bind next).Returns env
      (World.Spares ref) caller held w acts result w') :
    ∃ w₁, Holds ref jobs' taken w₁ ∧
      (next ()).Returns env (World.Spares ref) caller held w₁ acts result w' := by
  obtain ⟨w₀, reply, held₁, w₁, acts', hspares, hserve, rfl, hrest⟩ :=
    Prog.Returns.serve (.refl ref) (·.trans ·) rfl h
  cases hserve
  exact ⟨_, (hholds.spares hspares).swap jobs', hrest⟩

/-- The end of a call: the lock is given back. -/
theorem returns_release {answer : TickResult} (hholds : Holds ref jobs True w)
    (h : ((Prog.release ref).bind fun _ => .pure answer).Returns env (World.Spares ref) caller
      [ref.lock] w acts result w') :
    acts = [] ∧ result = answer ∧ Holds ref jobs False w' := by
  obtain ⟨w₀, reply, held₁, w₁, acts', hspares, hserve, rfl, hrest⟩ :=
    Prog.Returns.serve (.refl ref) (·.trans ·) rfl h
  have hheld : [ref.lock].filter (· != ref.lock) = [] := by simp
  simp only [World.serve, hheld] at hserve
  cases hserve
  obtain ⟨rfl, rfl, w₂, hspares₁, hspares₂⟩ := Prog.Returns.pure (.refl ref) (·.trans ·) hrest
  rw [World.unlock_nil] at hspares₂
  exact ⟨rfl, rfl, ((hholds.spares hspares).release.spares hspares₁).spares hspares₂⟩

theorem returns_recipe {α : Type} {recipe : Recipe I α} {next : α → Prog I TickResult}
    (hholds : Holds ref jobs taken w) (h : (recipe.toProg.bind next).Returns env (World.Spares ref)
      caller held w acts result w') :
    ∃ shown a w₁ acts', recipe.Shows shown a ∧ acts = shown ++ acts' ∧ Holds ref jobs taken w₁ ∧
      (next a).Returns env (World.Spares ref) caller held w₁ acts' result w' := by
  induction recipe generalizing w acts with
  | yield a => exact ⟨[], a, w, acts, .yield, rfl, hholds, h⟩
  | ask query _ ih =>
    obtain ⟨w₀, reply, held₁, w₁, acts', hspares, hserve, rfl, hrest⟩ :=
      Prog.Returns.serve (.refl ref) (·.trans ·) rfl h
    simp only [World.serve, Option.map_eq_some_iff] at hserve
    obtain ⟨⟨reply', outside⟩, -, heq⟩ := hserve
    cases heq
    have hholds₀ := hholds.spares hspares
    have hholds₁ : Holds ref jobs taken { w₀ with outside } :=
      ⟨hholds₀.made, hholds₀.cell, hholds₀.lock⟩
    obtain ⟨shown, a, w₂, acts'', hshows, rfl, hholds₂, hrest₂⟩ := ih _ hholds₁ hrest
    exact ⟨_, a, w₂, acts'', .ask hshows, rfl, hholds₂, hrest₂⟩
  | alloc kind _ ih =>
    obtain ⟨w₀, reply, held₁, w₁, acts', hspares, hserve, rfl, hrest⟩ :=
      Prog.Returns.serve (.refl ref) (·.trans ·) rfl h
    cases hserve
    obtain ⟨shown, a, w₂, acts'', hshows, rfl, hholds₂, hrest₂⟩ :=
      ih _ ((hholds.spares hspares).alloc kind) hrest
    exact ⟨_, a, w₂, acts'', .alloc hshows, rfl, hholds₂, hrest₂⟩

/-- The jobs answer running, one after the other. -/
def passing (jobs : List (Node I)) : List (Act I) := jobs.flatMap (Act.ticked · (.ok .running))

/-- A scan stops at the first job that does not answer running, or passes them
all. -/
theorem returns_scan {next : Option (TickResult × List (Node I)) → Prog I TickResult}
    {queue : List (Node I)} : ∀ {passed : List (Node I)} {w : World I σ} {acts : List (Act I)},
    Holds ref jobs taken w →
    ((scan passed queue).bind next).Returns env (World.Spares ref) caller held w acts result w' →
    (∃ before job after answer w₁ acts', queue = before ++ job :: after ∧
      answer.isRunning = false ∧ acts = passing before ++ (Act.ticked job answer ++ acts') ∧
      Holds ref jobs taken w₁ ∧ (next (some (answer, passed ++ before ++ after))).Returns env
        (World.Spares ref) caller held w₁ acts' result w') ∨
    ∃ w₁ acts', acts = passing queue ++ acts' ∧ Holds ref jobs taken w₁ ∧
      (next none).Returns env (World.Spares ref) caller held w₁ acts' result w' := by
  induction queue with
  | nil => exact fun hholds h => .inr ⟨_, _, rfl, hholds, h⟩
  | cons job queue ih =>
    intro passed w acts hholds h
    obtain ⟨answer, w₁, acts', hspares, rfl, hrest⟩ :=
      Prog.Returns.tick (.refl ref) (·.trans ·) h
    have hholds₁ := hholds.spares hspares
    change ((if answer.isRunning then scan (passed ++ [job]) queue
      else .pure (some (answer, passed ++ queue))).bind next).Returns env (World.Spares ref) caller
        held w₁ acts' result w' at hrest
    by_cases hrunning : answer.isRunning
    · rw [if_pos hrunning] at hrest
      obtain rfl := TickResult.isRunning_iff.mp hrunning
      rcases ih hholds₁ hrest with
        ⟨before, job', after, answer, w₂, acts'', rfl, hanswer, rfl, hholds₂, hrest₂⟩ |
        ⟨w₂, acts'', rfl, hholds₂, hrest₂⟩
      · refine .inl ⟨job :: before, job', after, answer, w₂, acts'', rfl, hanswer, ?_, hholds₂, ?_⟩
        · simp [passing]
        · simpa using hrest₂
      · exact .inr ⟨w₂, acts'', by simp [passing], hholds₂, hrest₂⟩
    · rw [if_neg hrunning] at hrest
      refine .inl ⟨[], job, queue, answer, w₁, acts', rfl, by simpa using hrunning, rfl, hholds₁, ?_⟩
      simpa using hrest

/-- **One call of a pool.** -/
theorem returns_run {generator : Recipe I (Tick I)} {children : List (Node I)}
    (hholds : Holds ref jobs False w) (h : ((Tick.background ref generator).run children).Returns env
      (World.Spares ref) caller [] w acts result w') :
    (∃ before job after, jobs = before ++ job :: after ∧ result.isRunning = false ∧
      acts = passing before ++ Act.ticked job result ∧ Holds ref (before ++ after) False w') ∨
    ∃ shown tick, generator.Shows shown tick ∧
      acts = passing jobs ++ (shown ++ Act.ticked (.of tick children) result) ∧
      Holds ref (if result.isRunning then jobs ++ [.of tick children] else jobs) False w' := by
  obtain ⟨w₁, hholds₁, h₁⟩ := returns_acquire hholds h
  obtain ⟨w₂, hholds₂, h₂⟩ := returns_read hholds₁ h₁
  rcases returns_scan hholds₂ h₂ with
    ⟨before, job, after, answer, w₃, acts', rfl, hanswer, rfl, hholds₃, h₃⟩ |
    ⟨w₃, acts', rfl, hholds₃, h₃⟩
  · obtain ⟨w₄, hholds₄, h₄⟩ := returns_write hholds₃ h₃
    obtain ⟨rfl, rfl, hholds'⟩ := returns_release hholds₄ h₄
    exact .inl ⟨before, job, after, rfl, hanswer, by simp, hholds'⟩
  · obtain ⟨shown, tick, w₄, acts'', hshows, rfl, hholds₄, h₄⟩ := returns_recipe hholds₃ h₃
    obtain ⟨answer, w₅, acts₅, hspares, rfl, h₅⟩ := Prog.Returns.tick (.refl ref) (·.trans ·) h₄
    have hholds₅ := hholds₄.spares hspares
    change (if answer.isRunning then (Prog.write ref (jobs ++ [.of tick children])).bind fun _ =>
      (Prog.release ref).bind fun _ => .pure answer else (Prog.release ref).bind fun _ =>
        .pure answer).Returns env (World.Spares ref) caller [ref.lock] w₅ acts₅ result w' at h₅
    refine .inr ⟨shown, tick, hshows, ?_⟩
    by_cases hrunning : answer.isRunning
    · rw [if_pos hrunning] at h₅
      obtain ⟨w₆, hholds₆, h₆⟩ := returns_write hholds₅ h₅
      obtain ⟨rfl, rfl, hholds'⟩ := returns_release hholds₆ h₆
      rw [if_pos hrunning, List.append_nil]
      exact ⟨rfl, hholds'⟩
    · rw [if_neg hrunning] at h₅
      obtain ⟨rfl, rfl, hholds'⟩ := returns_release hholds₅ h₅
      rw [if_neg hrunning, List.append_nil]
      exact ⟨rfl, hholds'⟩

/-! ### A call that returns -/

/-- What is left of a call can be carried out and return. -/
def CanReturn (env : Environment I σ) (ref : Ref .jobs) (caller : Caller) (p : Prog I TickResult)
    (held : List Lock) (w : World I σ) : Prop :=
  ∃ acts result w', p.Returns env (World.Spares ref) caller held w acts result w'

theorem CanReturn.of_serve {r : Request I} {next : r.Reply → Prog I TickResult} {reply : r.Reply}
    {held₁ : List Lock} {w₁ : World I σ} (hserve : w.serve env caller held r = some (reply, held₁, w₁))
    (h : CanReturn env ref caller (next reply) held₁ w₁) :
    CanReturn env ref caller (.request r next) held w := by
  obtain ⟨acts, result, w', hreturns⟩ := h
  exact ⟨_, result, w', hreturns.of_serve hserve⟩

theorem CanReturn.of_release {answer : TickResult} :
    CanReturn env ref caller ((Prog.release ref).bind fun _ => .pure answer) held w :=
  .of_serve rfl ⟨[], answer, _, .of_pure⟩

theorem CanReturn.of_recipe {α : Type} {recipe : Recipe I α} {next : α → Prog I TickResult}
    (hworld : ∀ query (o : σ), (env.answer caller query o).isSome) (hholds : Holds ref jobs taken w)
    (h : ∀ {shown a} {w₁ : World I σ}, recipe.Shows shown a → Holds ref jobs taken w₁ →
      CanReturn env ref caller (next a) held w₁) :
    CanReturn env ref caller (recipe.toProg.bind next) held w := by
  induction recipe generalizing w with
  | yield a => exact h .yield hholds
  | ask query _ ih =>
    obtain ⟨⟨reply, outside⟩, hanswer⟩ := Option.isSome_iff_exists.mp (hworld query w.outside)
    have hholds₁ : Holds ref jobs taken { w with outside } :=
      ⟨hholds.made, hholds.cell, hholds.lock⟩
    have hserve : w.serve env caller held (.ask query) = some (reply, held, { w with outside }) := by
      simp only [World.serve, hanswer, Option.map_some]
      rfl
    exact .of_serve hserve (ih reply hholds₁ fun hshows => h (.ask hshows))
  | alloc kind _ ih => exact .of_serve rfl (ih _ (hholds.alloc kind) fun hshows => h (.alloc hshows))

theorem CanReturn.of_tick {node : Node I} {next : TickResult → Prog I TickResult}
    (hanswers : ∀ w : World I σ, ∃ answer w₁,
      node.Answers env (World.Spares ref) caller w answer w₁) (hholds : Holds ref jobs taken w)
    (h : ∀ {answer} {w₁ : World I σ}, Holds ref jobs taken w₁ →
      CanReturn env ref caller (next answer) held w₁) :
    CanReturn env ref caller (.request (.tick node) next) held w := by
  obtain ⟨answer, w₁, hanswers⟩ := hanswers w
  obtain ⟨acts, result, w', hreturns⟩ := @h answer w₁ (hholds.spares hanswers.change)
  exact ⟨_, result, w', hreturns.of_tick hanswers⟩

theorem CanReturn.of_scan {next : Option (TickResult × List (Node I)) → Prog I TickResult}
    {queue : List (Node I)} (hanswers : ∀ job ∈ queue, ∀ w : World I σ, ∃ answer w₁,
      job.Answers env (World.Spares ref) caller w answer w₁)
    (h : ∀ stopped {w₁ : World I σ}, Holds ref jobs taken w₁ →
      CanReturn env ref caller (next stopped) held w₁) :
    ∀ {passed : List (Node I)} {w : World I σ}, Holds ref jobs taken w →
      CanReturn env ref caller ((scan passed queue).bind next) held w := by
  induction queue with
  | nil => exact fun hholds => h none hholds
  | cons job queue ih =>
    intro passed w hholds
    obtain ⟨hjob, hqueue⟩ := List.forall_mem_cons.mp hanswers
    refine .of_tick hjob hholds fun {answer w₁} hholds₁ => ?_
    show CanReturn env ref caller ((if answer.isRunning then scan (passed ++ [job]) queue
      else .pure (some (answer, passed ++ queue))).bind next) held w₁
    split
    · exact ih hqueue hholds₁
    · exact h _ hholds₁

/-- A call of a pool returns, if its jobs answer and so does the task that it may
make. -/
theorem canReturn_run {generator : Recipe I (Tick I)} {children : List (Node I)}
    (hworld : ∀ query (o : σ), (env.answer caller query o).isSome) (hholds : Holds ref jobs False w)
    (hjobs : ∀ job ∈ jobs, ∀ w : World I σ, ∃ answer w₁,
      job.Answers env (World.Spares ref) caller w answer w₁)
    (hmade : ∀ shown tick, generator.Shows shown tick → ∀ w : World I σ, ∃ answer w₁,
      (Node.of tick children).Answers env (World.Spares ref) caller w answer w₁) :
    CanReturn env ref caller ((Tick.background ref generator).run children) [] w := by
  obtain ⟨hacquire, hholds₁⟩ := @Holds.acquire _ _ env ref caller [] _ _ hholds
  refine .of_serve hacquire (.of_serve rfl ?_)
  show CanReturn env ref caller ((scan [] (w.heap.get ref)).bind _) [ref.lock] _
  rw [hholds.cell]
  refine .of_scan hjobs (fun stopped w₂ hholds₂ => ?_) hholds₁
  cases stopped with
  | some stop => exact .of_serve rfl .of_release
  | none =>
    refine .of_recipe hworld hholds₂ fun {shown tick w₃} hshows hholds₃ => ?_
    refine .of_tick (hmade shown tick hshows) hholds₃ fun {answer w₄} hholds₄ => ?_
    show CanReturn env ref caller (if answer.isRunning then
      (Prog.write ref (jobs ++ [.of tick children])).bind fun _ =>
        (Prog.release ref).bind fun _ => .pure answer
      else (Prog.release ref).bind fun _ => .pure answer) [ref.lock] w₄
    split
    · exact .of_serve rfl .of_release
    · exact .of_release

/-! ### Calls in a row -/

/-- Calls of a pool in a row, by whatever threads, with any children; what happens
between two calls spares the pool. -/
inductive Calls (env : Environment I σ) (ref : Ref .jobs) (generator : Recipe I (Tick I))
    (w : World I σ) : List (Call I) → World I σ → Prop
  | none : Calls env ref generator w [] w
  | next {calls call w₁ w₂ w₃} {caller : Caller} : Calls env ref generator w calls w₁ →
      w₁.Spares ref w₂ → ((Tick.background ref generator).run call.children).Returns env
        (World.Spares ref) caller [] w₂ call.acts call.result w₃ →
      Calls env ref generator w (calls ++ [call]) w₃

/-- The jobs that a pool keeps after these turns. -/
def queue (turns : List (Turn I)) : List (Node I) :=
  (backlog turns).filterMap ((tasks turns)[·]?)

theorem getElem?_of_mem_backlog (h : task ∈ backlog turns) : ∃ node, (tasks turns)[task]? = some node :=
  ⟨_, List.getElem?_eq_getElem (mem_backlog.mp h).1⟩

theorem length_queue (turns : List (Turn I)) : (queue turns).length = (backlog turns).length := by
  have hall : ∀ l : List Nat, (∀ k ∈ l, ∃ node, (tasks turns)[k]? = some node) →
      (l.filterMap ((tasks turns)[·]?)).length = l.length := by
    intro l hl
    induction l with
    | nil => rfl
    | cons k l ih =>
      obtain ⟨⟨node, hnode⟩, hl⟩ := List.forall_mem_cons.mp hl
      rw [List.filterMap_cons_some hnode, List.length_cons, List.length_cons, ih hl]
  exact hall _ fun _ => getElem?_of_mem_backlog

theorem ticking_allRunning (made : List (Node I)) (passed : List Nat) :
    ticking made (allRunning passed) = passing (passed.filterMap (made[·]?)) := by
  induction passed with
  | nil => rfl
  | cons k passed ih =>
    have hcons : ticking made (allRunning (k :: passed)) =
        made[k]?.toList.flatMap (Act.ticked · (.ok .running)) ++ ticking made (allRunning passed) :=
      rfl
    rw [hcons, ih]
    cases hk : made[k]? with
    | none => rw [List.filterMap_cons_none hk, Option.toList_none, List.flatMap_nil, List.nil_append]
    | some node =>
      rw [List.filterMap_cons_some hk, Option.toList_some, List.flatMap_singleton]
      rfl

/-- A job of the pool is a task of the backlog. -/
theorem queue_split {before after : List (Node I)} {job : Node I}
    (hqueue : queue turns = before ++ job :: after) :
    ∃ passed task rest, backlog turns = passed ++ task :: rest ∧
      passed.filterMap ((tasks turns)[·]?) = before ∧ (tasks turns)[task]? = some job ∧
      rest.filterMap ((tasks turns)[·]?) = after := by
  obtain ⟨passed, l, hbacklog, hbefore, hl⟩ := List.filterMap_eq_append_iff.mp hqueue
  obtain ⟨skipped, task, rest, rfl, hnone, hjob, hafter⟩ := List.filterMap_eq_cons_iff.mp hl
  have hskipped : skipped = [] := by
    refine List.eq_nil_iff_forall_not_mem.mpr fun k hk => ?_
    have hmem : k ∈ backlog turns := by simp [hbacklog, hk]
    obtain ⟨node, hnode⟩ := getElem?_of_mem_backlog hmem
    cases (hnone k hk).symm.trans hnode
  subst hskipped
  exact ⟨passed, task, rest, hbacklog, hbefore, hjob, hafter⟩

/-- A call in which a job finishes is told by one more turn. -/
theorem Tells.finishes {call : Call I} {before after : List (Node I)} {job : Node I}
    (h : Tells generator turns calls) (hqueue : queue turns = before ++ job :: after)
    (hresult : call.result.isRunning = false)
    (hacts : call.acts = passing before ++ Act.ticked job call.result) :
    ∃ turn, Tells generator (turns ++ [turn]) (calls ++ [call]) ∧
      queue (turns ++ [turn]) = before ++ after := by
  obtain ⟨passed, task, rest, hbacklog, rfl, hjob, rfl⟩ := queue_split hqueue
  obtain ⟨turn, hturn⟩ : ∃ turn : Turn I, turn =
    ⟨call.children, allRunning passed ++ [(task, call.result)], .none, call.result⟩ := ⟨_, rfl⟩
  have hafter : backlog (turns ++ [turn]) = passed ++ rest :=
    hturn ▸ backlog_finishes hbacklog hresult
  have hlawful : turn.Lawful generator (tasks turns).length (backlog turns)
      (backlog (turns ++ [turn])) := by
    rw [hafter, hbacklog, hturn]
    exact .finishes hresult
  have hcall : turn.call (tasks turns) = call := by
    have hticking : ticking (tasks turns) (allRunning passed ++ [(task, call.result)]) =
        call.acts := by
      rw [hacts, ← ticking_allRunning]
      simp [ticking, hjob]
    simp [hturn, Turn.call, hticking]
  refine ⟨turn, hcall ▸ h.next hlawful, ?_⟩
  rw [queue, hafter, tasks_snoc, hturn]
  simp [Turn.made, List.filterMap_append]

/-- So is a call that makes a task. -/
theorem Tells.generates {call : Call I} {shown : List (Act I)} {tick : Tick I}
    (h : Tells generator turns calls) (hshows : generator.Shows shown tick)
    (hacts : call.acts = passing (queue turns) ++
      (shown ++ Act.ticked (.of tick call.children) call.result)) :
    ∃ turn, Tells generator (turns ++ [turn]) (calls ++ [call]) ∧
      queue (turns ++ [turn]) = if call.result.isRunning then
        queue turns ++ [.of tick call.children] else queue turns := by
  obtain ⟨turn, hturn⟩ : ∃ turn : Turn I, turn = ⟨call.children, allRunning (backlog turns),
    some ⟨(tasks turns).length, shown, tick, call.result⟩, call.result⟩ := ⟨_, rfl⟩
  have hafter : backlog (turns ++ [turn]) = if call.result.isRunning then
      backlog turns ++ [(tasks turns).length] else backlog turns :=
    hturn ▸ backlog_generates h.bound
  have hlawful : turn.Lawful generator (tasks turns).length (backlog turns)
      (backlog (turns ++ [turn])) := by
    rw [hafter, hturn]
    exact .generates hshows
  have hcall : turn.call (tasks turns) = call := by
    have hticking : ticking (tasks turns) (allRunning (backlog turns)) ++
        (shown ++ Act.ticked (.of tick call.children) call.result) = call.acts := by
      rw [hacts, ticking_allRunning]
      rfl
    simp [hturn, Turn.call, hticking]
  have hold : (backlog turns).filterMap ((tasks turns ++ [.of tick call.children])[·]?) =
      queue turns :=
    List.filterMap_congr fun k hk => List.getElem?_append_left (mem_backlog.mp hk).1
  refine ⟨turn, hcall ▸ h.next hlawful, ?_⟩
  rw [queue, hafter, tasks_snoc, hturn]
  cases hr : call.result.isRunning <;> simp [Turn.made, List.filterMap_append, hold]

/-- Calls of a fresh pool are told by a journal, and the pool keeps its backlog. -/
theorem Calls.told {calls : List (Call I)} (hfresh : w.Fresh ref)
    (h : Calls env ref generator w calls w') :
    ∃ turns, Tells generator turns calls ∧ Holds ref (queue turns) False w' := by
  induction h with
  | none => exact ⟨[], .none, hfresh.made, hfresh.fresh, by simpa using hfresh.unlocked⟩
  | next _ hspares hreturns ih =>
    obtain ⟨turns, htells, hholds⟩ := ih
    rcases returns_run (hholds.spares hspares) hreturns with
      ⟨before, job, after, hqueue, hresult, hacts, hholds'⟩ | ⟨shown, tick, hshows, hacts, hholds'⟩
    · obtain ⟨turn, htells', hqueue'⟩ := htells.finishes hqueue hresult hacts
      exact ⟨turns ++ [turn], htells', hqueue' ▸ hholds'⟩
    · obtain ⟨turn, htells', hqueue'⟩ := htells.generates hshows hacts
      exact ⟨turns ++ [turn], htells', hqueue' ▸ hholds'⟩

/-- What a journal says of the tasks made and of the calls. -/
structure Accounts (turns : List (Turn I)) (calls : List (Call I)) : Prop where
  mem_backlog : ∀ task, task ∈ backlog turns ↔
    task < (tasks turns).length ∧ ∀ r, (task, r) ∈ answers turns → r.isRunning
  sorted : (backlog turns).Pairwise (· < ·)
  length_backlog : (backlog turns).length +
    (calls.filter fun call => !call.result.isRunning).length = (tasks turns).length
  answer : ∀ turn ∈ turns, ∃ task, (task, turn.result) ∈ turn.answers
  ticked : ∀ turn ∈ turns, (turn.answers.map (·.1)).Nodup
  reported : ∀ before turn after task r, turns = before ++ turn :: after →
    (task, r) ∈ turn.answers → r.isRunning = false → turn.result = r ∧
      (∀ other ∈ before, ∀ r', (task, r') ∈ other.answers → r'.isRunning) ∧
      ∀ other ∈ after, ∀ r', (task, r') ∉ other.answers

theorem Tells.accounts (h : Tells generator turns calls) : Accounts turns calls where
  mem_backlog := fun _ => Background.mem_backlog
  sorted := backlog_sorted turns
  length_backlog := h.length_backlog
  answer := fun turn hturn => by
    obtain ⟨before, after, hturns⟩ := List.append_of_mem hturn
    exact (h.split hturns).2.mem_of_result
  ticked := fun turn hturn => by
    obtain ⟨before, after, hturns⟩ := List.append_of_mem hturn
    refine (h.split hturns).2.once (backlog_nodup before) fun hmem => ?_
    exact Nat.lt_irrefl _ (Background.mem_backlog.mp hmem).1
  reported := fun _ _ _ _ _ hturns hmem hresult => h.once hturns hmem hresult

/-- **The law of a pool.** Whatever its tasks do and whatever children its calls
pass:

* calls in a row of a fresh pool are told by a journal, in which each turn is
  lawful after those before it; the pool keeps its backlog, the tasks that have
  answered nothing but running, oldest first, and its size is that of the backlog;
  an answer other than running is the answer of the one call in which it was
  given, and the task is not ticked again;
* after any calls the next one returns, if the jobs of the pool answer when they
  are ticked, and so do the tasks that the generator makes. -/
theorem pool_law (env : Environment I σ) (ref : Ref .jobs) (generator : Recipe I (Tick I))
    (w : World I σ) (hfresh : w.Fresh ref) :
    (∀ calls w', Calls env ref generator w calls w' → ∃ turns, Tells generator turns calls ∧
      Accounts turns calls ∧ w'.heap.get ref = queue turns ∧
      size w'.heap ref = (backlog turns).length) ∧
    ∀ calls w' w₁ caller children, Calls env ref generator w calls w' → w'.Spares ref w₁ →
      (∀ query (o : σ), (env.answer caller query o).isSome) →
      (∀ jobs : List (Node I), w'.heap.get ref = jobs → ∀ job ∈ jobs, ∀ v : World I σ,
        ∃ answer v', job.Answers env (World.Spares ref) caller v answer v') →
      (∀ shown tick, generator.Shows shown tick → ∀ v : World I σ, ∃ answer v',
        (Node.of tick children).Answers env (World.Spares ref) caller v answer v') →
      ∃ call w₂, call.children = children ∧ Calls env ref generator w (calls ++ [call]) w₂ := by
  refine ⟨fun calls w' hcalls => ?_, ?_⟩
  · obtain ⟨turns, htells, hholds⟩ := hcalls.told hfresh
    refine ⟨turns, htells, htells.accounts, hholds.cell, ?_⟩
    show List.length (w'.heap.get ref : List (Node I)) = _
    rw [hholds.cell, length_queue]
  · intro calls w' w₁ caller children hcalls hspares hworld hjobs hmade
    obtain ⟨turns, htells, hholds⟩ := hcalls.told hfresh
    obtain ⟨acts, result, w₂, hreturns⟩ :=
      canReturn_run hworld (hholds.spares hspares) (hjobs _ hholds.cell) hmade
    exact ⟨⟨children, acts, result⟩, w₂, rfl, hcalls.next hspares hreturns⟩

/-- Tasks that answer as the world says, here running at first and then success:
one is made by the first call, the second call finishes it, and the third makes
another. -/
theorem pool_law_twoTasks :
    let I : Interface := { Query := Unit, Reply := fun _ => TickResult }
    let env : Environment I (List TickResult) :=
      { answer := fun _ _ answers =>
          match answers with
          | [] => some (.ok .failure, [])
          | answer :: answers => some (answer, answers)
        ended := fun _ _ answers => answers }
    let task : Tick I := .ask () .const
    let w : World I (List TickResult) :=
      ⟨(Heap.empty.alloc .jobs).2, [], [.ok .running, .ok .success, .ok .running]⟩
    let calls : List (Call I) :=
      [⟨[], Act.ticked (.of task []) (.ok .running), .ok .running⟩,
        ⟨[.leaf task], Act.ticked (.of task []) (.ok .success), .ok .success⟩,
        ⟨[.leaf task], Act.ticked (.of task [.leaf task]) (.ok .running), .ok .running⟩]
    w.Fresh (⟨0⟩ : Ref .jobs) ∧ ∃ w' turns, Calls env ⟨0⟩ (.yield task) w calls w' ∧
      Tells (.yield task) turns calls ∧ size w'.heap ⟨0⟩ + 1 = (tasks turns).length := by
  intro I env task w calls
  have hfresh : w.Fresh (⟨0⟩ : Ref .jobs) :=
    ⟨Heap.made_alloc _ _, List.not_mem_nil, Heap.get_alloc _ _ _⟩
  -- a task takes the next answer of the world
  have hanswers : ∀ (children : List (Node I)) (v : World I (List TickResult)) answer rest,
      v.outside = answer :: rest → (Node.of task children).Answers env
        (World.Spares (⟨0⟩ : Ref .jobs)) default v answer { v with outside := rest } := by
    intro children v answer rest hv
    refine ⟨⟨id, rfl, Iff.rfl⟩, fun base => ?_⟩
    have hask : Thread.step env ⟨default, .running (Node.of task children).call, [], [base]⟩ v =
        some ⟨⟨default, .running (.pure answer), [], [base]⟩, { v with outside := rest }, []⟩ := by
      show Option.map _ (Option.map _ (env.answer _ _ v.outside)) = _
      rw [hv]
      rfl
    have hback : Thread.step env ⟨default, .running (.pure answer), [], [base]⟩
        { v with outside := rest } = some ⟨⟨default, .running (base.next answer), base.held, []⟩,
          { v with outside := rest }, []⟩ := by
      simp only [Thread.step, Thread.leave, World.unlock_nil]
    exact .step hask (fun _ => ⟨id, rfl, Iff.rfl⟩) (.step hback (fun _ => .refl _ _) .refl)
  let w₁ : World I (List TickResult) :=
    ⟨w.heap.set (⟨0⟩ : Ref .jobs) [Node.of task []], [], [.ok .success, .ok .running]⟩
  let w₂ : World I (List TickResult) :=
    ⟨w₁.heap.set (⟨0⟩ : Ref .jobs) ([] : List (Node I)), [], [.ok .running]⟩
  let w₃ : World I (List TickResult) :=
    ⟨w₂.heap.set (⟨0⟩ : Ref .jobs) [Node.of task [.leaf task]], [], []⟩
  have hcalls : ∃ w', Calls env ⟨0⟩ (.yield task) w calls w' := by
    have hfirst : ((Tick.background ⟨0⟩ (.yield task)).run []).Returns env
        (World.Spares (⟨0⟩ : Ref .jobs)) default [] w (Act.ticked (.of task []) (.ok .running))
        (.ok .running) w₁ :=
      .of_serve rfl (.of_serve rfl (.of_tick (hanswers _ _ _ _ rfl) (.of_serve rfl (.of_serve rfl
        .of_pure))))
    have hsecond : ((Tick.background ⟨0⟩ (.yield task)).run [.leaf task]).Returns env
        (World.Spares (⟨0⟩ : Ref .jobs)) default [] w₁ (Act.ticked (.of task []) (.ok .success))
        (.ok .success) w₂ :=
      .of_serve rfl (.of_serve rfl (.of_tick (hanswers _ _ _ _ rfl) (.of_serve rfl (.of_serve rfl
        .of_pure))))
    have hthird : ((Tick.background ⟨0⟩ (.yield task)).run [.leaf task]).Returns env
        (World.Spares (⟨0⟩ : Ref .jobs)) default [] w₂
        (Act.ticked (.of task [.leaf task]) (.ok .running)) (.ok .running) w₃ :=
      .of_serve rfl (.of_serve rfl (.of_tick (hanswers _ _ _ _ rfl) (.of_serve rfl (.of_serve rfl
        .of_pure))))
    exact ⟨_, ((Calls.none.next (.refl _ _) hfirst).next (.refl _ _) hsecond).next (.refl _ _)
      hthird⟩
  obtain ⟨w', hcalls⟩ := hcalls
  obtain ⟨turns, htells, haccounts, -, hsize⟩ :=
    (pool_law env ⟨0⟩ (.yield task) w hfresh).1 calls w' hcalls
  refine ⟨hfresh, w', turns, hcalls, htells, ?_⟩
  rw [hsize]
  exact haccounts.length_backlog

end Background

end TickTree
