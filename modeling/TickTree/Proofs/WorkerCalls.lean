/-
# Calls of an asynchronous tick

Every use of the cell of a worker, but for the worker's own, is part of a call of the
asynchronous tick. A call waits for the lock and then goes through a few moments: it
looks at the worker, makes the cell that of a worker at work and starts one, or takes
what the last one has left, and leaves. Apart from that the program of every tick has
nothing to do with the cell, its lock, or the workers for it (`Node.calls`).

So a thread is outside of a call or at one of its moments. What a step does to it is
said here, and which entry of the tick the step is (`Thread.Says`).

Key definitions: `Prog.Calls`, `Thread.Says`, `Thread.Outside`, `Thread.Inside`.
Key theorems: `Asynchronous.run_bind`, `Node.calls`, `Thread.Outside.step`.
-/
import TickTree.Proofs.Locking
import TickTree.Proofs.WorkerLog

namespace TickTree

variable {I : Interface} {σ α β : Type} {ref : Ref .worker}

namespace Asynchronous

/-! ### The moments of a call -/

/-- It gives the lock back and answers. -/
def leaving (ref : Ref .worker) (answer : TickResult) (next : TickResult → Prog I α) : Prog I α :=
  .request (.release .worker ref) fun _ => next answer

/-- It leaves no worker behind. -/
def taking (ref : Ref .worker) (answer : TickResult) (next : TickResult → Prog I α) : Prog I α :=
  .request (.swap .worker ref Worker.idle) fun _ => leaving ref answer next

/-- It starts a worker. -/
def starting (ref : Ref .worker) (tick : Tick I) (children : List (Node I))
    (next : TickResult → Prog I α) : Prog I α :=
  .request (.start ref tick children) fun _ => leaving ref (.ok .running) next

/-- It makes the cell that of a worker at work. -/
def opening (ref : Ref .worker) (tick : Tick I) (children : List (Node I))
    (next : TickResult → Prog I α) : Prog I α :=
  .request (.swap .worker ref Worker.busy) fun _ => starting ref tick children next

/-- It goes on as it finds the worker. -/
def finding (ref : Ref .worker) (tick : Tick I) (children : List (Node I))
    (next : TickResult → Prog I α) : Worker → Prog I α
  | .idle => opening ref tick children next
  | .busy => leaving ref (.ok .running) next
  | .finished result => taking ref result next
  | .lost => taking ref (.error .workerLost) next

/-- It looks at the worker. -/
def looking (ref : Ref .worker) (tick : Tick I) (children : List (Node I))
    (next : TickResult → Prog I α) : Prog I α :=
  .request (.read .worker ref) (finding ref tick children next)

/-- A call waits for the lock and looks at the worker. -/
theorem run_bind (ref : Ref .worker) (tick : Tick I) (children : List (Node I))
    (next : TickResult → Prog I α) : (run ref tick children).bind next =
      .request (.acquire .worker ref) fun _ => looking ref tick children next := by
  have hfinding : ∀ worker : Worker,
      ((do
        if !worker.isBusy then
          Prog.write ref worker.call.2
        if !worker.isPresent then
          Prog.start ref tick children
        Prog.release ref
        return worker.call.1 : Prog I TickResult)).bind next =
      finding ref tick children next worker := by
    intro worker
    cases worker <;> rfl
  show Prog.request _ _ = Prog.request _ _
  congr 1
  funext _
  show Prog.request _ _ = Prog.request _ _
  congr 1
  funext worker
  exact hfinding worker

end Asynchronous

open Asynchronous

/-! ### Programs that keep to calls -/

/-- The program uses the cell of the worker in calls only. -/
inductive Prog.Calls (ref : Ref .worker) : {α : Type} → Prog I α → Prop
  | pure {α : Type} {a : α} : Calls ref (.pure a)
  | request {α : Type} {r : Request I} {next : r.Reply → Prog I α} :
      r.Avoids ref.lock → (∀ reply, Calls ref (next reply)) → Calls ref (.request r next)
  | call {α : Type} {p : Prog I α} {tick : Tick I} {children : List (Node I)}
      {next : TickResult → Prog I α} : p = (run ref tick children).bind next →
      (∀ answer, Calls ref (next answer)) → Calls ref p

namespace Prog.Calls

theorem bind {p : Prog I α} {f : α → Prog I β} (hp : p.Calls ref) (hf : ∀ a, (f a).Calls ref) :
    (p.bind f).Calls ref := by
  induction hp with
  | pure => exact hf _
  | request hr _ ih => exact .request hr ih
  | @call p tick children next hp _ ih =>
    have hbind : p.bind f = (run ref tick children).bind fun answer => (next answer).bind f := by
      rw [hp]
      exact bind_assoc _ _ _
    exact .call hbind ih

theorem closed (ref : Ref .worker) : Closed (I := I) ref.lock (Calls ref) where
  pure := .pure
  bind := bind
  request := .request
  block hsame hkind := absurd (congrArg Lock.kind hsame) hkind
  async {worker tick children} hsame := by
    obtain rfl : worker = ref := by
      obtain ⟨index⟩ := worker
      obtain ⟨index'⟩ := ref
      cases hsame
      rfl
    exact .call (bind_pure _).symm fun _ => .pure

/-- A request avoids the lock, or it takes it for a call. -/
theorem of_request {r : Request I} {k : r.Reply → Prog I α} (h : (Prog.request r k).Calls ref) :
    (r.Avoids ref.lock ∧ ∀ reply, (k reply).Calls ref) ∨
      ∃ tick children next, Prog.request r k =
          .request (.acquire .worker ref) (fun _ => looking ref tick children next) ∧
        ∀ answer, (next answer).Calls ref := by
  cases h with
  | request hr hk => exact .inl ⟨hr, hk⟩
  | call hp hnext => exact .inr ⟨_, _, _, hp.trans (run_bind ..), hnext⟩

/-- What reads the cell, gives its lock back or starts a worker for it is in a call. -/
theorem not_request {r : Request I} {k : r.Reply → Prog I α} (hr : ¬ r.Avoids ref.lock)
    (hne : ∀ k', Prog.request r k ≠ .request (.acquire .worker ref) k') :
    ¬ (Prog.request r k).Calls ref := by
  intro h
  rcases h.of_request with ⟨havoids, -⟩ | ⟨tick, children, next, hp, -⟩
  · exact hr havoids
  · exact hne _ hp

end Prog.Calls

/-- The program of every tick uses the cell of a worker in calls only. -/
theorem Node.calls (ref : Ref .worker) (node : Node I) : node.call.Calls ref :=
  (Prog.Calls.closed ref).call rfl node

theorem Tick.calls (ref : Ref .worker) (tick : Tick I) (children : List (Node I)) :
    (tick.run children).Calls ref :=
  (Prog.Calls.closed ref).run rfl tick children

/-! ### What happens to the tick -/

/-- The entry that a step of the thread is, if it is one. A call of the tick looks at the
worker when it has the lock. -/
def Thread.Says (env : Environment I σ) (ref : Ref .worker) (m : Machine I σ) (t : Thread I) :
    Entry I → Prop
  | .called caller tick children next found => caller = t.id ∧ found = m.world.heap.get ref ∧
      ∃ rest, t.activity = .running rest ∧
        (run ref tick children).bind next = .request (.acquire .worker ref) fun _ => rest
  | .started worker tick children => worker = m.nextId ∧
      ∃ next, t.activity = .running (.request (.start ref tick children) next)
  | .ended worker outcome => worker = t.id ∧ t.origin = .worker ref ∧
      ∃ s, t.step env m.world = some s ∧ s.thread.outcome? = some outcome
  | .answered caller rest => caller = t.id ∧
      t.activity = .running (.request (.release .worker ref) fun _ => rest)

/-! ### Threads outside of a call and inside -/

/-- The program under way, if it is one, and the ticks that wait for it use the cell
in calls only, and none of them is inside one. -/
structure Thread.Outside (ref : Ref .worker) (t : Thread I) : Prop where
  running : ∀ p, t.activity = .running p → p.Calls ref
  joining : ∀ pending reports next, t.activity = .joining pending reports next →
    ∀ reports, (next reports).Calls ref
  held : ref.lock ∉ t.held
  frames : ∀ frame ∈ t.frames, ref.lock ∉ frame.held ∧ ∀ result, (frame.next result).Calls ref

/-- A call on thread `id` that has the lock, with what the cell holds and the account
of the tick: its program is at the moment that the account has it at. -/
inductive Asynchronous.Inside (ref : Ref .worker) (id : Nat) :
    Account I → Worker → Prog I TickResult → Prop
  | looking {stage tick children next} : (∀ answer, (next answer).Calls ref) →
      Inside ref id ⟨stage, none⟩ stage.worker (looking ref tick children next)
  | opening {tick children next} : (∀ answer, (next answer).Calls ref) →
      Inside ref id ⟨.none, some ⟨id, next, .start tick children⟩⟩ .idle
        (opening ref tick children next)
  | starting {tick children next} : (∀ answer, (next answer).Calls ref) →
      Inside ref id ⟨.none, some ⟨id, next, .start tick children⟩⟩ .busy
        (starting ref tick children next)
  | taking {worker answer next} : (∀ answer, (next answer).Calls ref) →
      Inside ref id ⟨.none, some ⟨id, next, .answer answer⟩⟩ worker (taking ref answer next)
  | leaving {stage answer next} : (∀ answer, (next answer).Calls ref) →
      Inside ref id ⟨stage, some ⟨id, next, .answer answer⟩⟩ stage.worker (leaving ref answer next)

/-- The thread is inside a call. -/
structure Thread.Inside (ref : Ref .worker) (a : Account I) (worker : Worker) (t : Thread I) :
    Prop where
  running : ∃ p, t.activity = .running p ∧ Asynchronous.Inside ref t.id a worker p
  frames : ∀ frame ∈ t.frames, ref.lock ∉ frame.held ∧ ∀ result, (frame.next result).Calls ref

section Steps

variable {env : Environment I σ} {t : Thread I} {w : World I σ} {s : Step I σ} {a : Account I}
  {worker : Worker}

/-! ### Steps of a thread -/

/-- What a step of a thread outside of a call is for the tick: it has nothing to do
with the tick, or it takes the lock for a call. -/
inductive Thread.Nears (ref : Ref .worker) (t : Thread I) (w : World I σ) : Step I σ → Prop
  | apart {s : Step I σ} : s.thread.Outside ref → World.Spares ref w s.world →
      (∀ start ∈ s.started, start.2.Calls ref ∧ start.1 ≠ .worker ref) → Nears ref t w s
  | enters {tick : Tick I} {children : List (Node I)} {next : TickResult → Prog I TickResult} :
      ref.lock ∉ w.locked → (∀ answer, (next answer).Calls ref) →
      Nears ref t w ⟨{ t with activity := .running (looking ref tick children next)
                              held := ref.lock :: t.held }, w.hold ref.lock, []⟩

namespace Thread

/-- A tick outside of a call is over, and the one that waits for it goes on. -/
theorem Outside.leave (h : t.Outside ref) {next : Frame I → Prog I TickResult} {last : Outcome}
    (hnext : ∀ frame ∈ t.frames, (next frame).Calls ref) : Nears ref t w (t.leave w next last) := by
  have hframes := h.frames
  unfold Thread.leave
  cases hstack : t.frames with
  | nil =>
    refine .apart ⟨nofun, nofun, List.not_mem_nil, ?_⟩ (.unlock h.held) (by simp)
    exact fun frame hmem => absurd hmem List.not_mem_nil
  | cons frame frames =>
    rw [hstack] at hframes hnext
    have hfirst := hframes frame List.mem_cons_self
    refine .apart ⟨?_, nofun, hfirst.1, ?_⟩ (.unlock h.held) (by simp)
    · rintro p ⟨⟩
      exact hnext frame List.mem_cons_self
    · exact fun f hf => hframes f (List.mem_cons_of_mem _ hf)

/-- A step of a thread outside of a call. -/
theorem Outside.step (h : t.Outside ref) (hs : t.step env w = some s) : Nears ref t w s := by
  have hrefl := World.Spares.refl ref w
  have hstep := hs
  unfold Thread.step at hs
  split at hs
  · rename_i result hact
    cases hs
    exact h.leave fun frame hmem => (h.frames frame hmem).2 result
  · rename_i r next hact
    rcases (h.running _ hact).of_request with ⟨hr, hnext⟩ | ⟨tick, children, next', hp, hnext⟩
    rotate_left
    · cases hp
      obtain ⟨_, _, _, hserve, rfl⟩ := (step_iff_of_served hact rfl).mp hstep
      obtain ⟨hfree, rfl, rfl⟩ := World.serve_acquire_iff.mp hserve
      exact .enters hfree hnext
    · have hon : ∀ {reply held}, (ref.lock ∈ held ↔ ref.lock ∈ t.held) →
          Outside ref { t with activity := .running (next reply), held } := by
        intro reply held hheld
        refine ⟨?_, nofun, fun hmem => h.held (hheld.mp hmem), h.frames⟩
        rintro p ⟨⟩
        exact hnext reply
      cases r with
      | tick node =>
        cases hs
        refine .apart ⟨?_, nofun, List.not_mem_nil, ?_⟩ hrefl (by simp)
        · rintro p ⟨⟩
          exact node.calls ref
        · intro frame hmem
          rcases List.mem_cons.mp hmem with rfl | hmem
          · exact ⟨h.held, hnext⟩
          · exact h.frames frame hmem
      | parallel nodes =>
        cases hs
        refine .apart ⟨nofun, ?_, h.held, h.frames⟩ hrefl ?_
        · rintro pending reports k ⟨⟩
          exact hnext
        · intro start hmem
          obtain ⟨i, hi, rfl⟩ := List.mem_mapIdx.mp hmem
          exact ⟨Node.calls ref _, nofun⟩
      | start other tick children =>
        cases hs
        refine .apart (hon Iff.rfl) hrefl ?_
        intro start hmem
        obtain rfl := List.mem_singleton.mp hmem
        refine ⟨tick.calls ref children, ?_⟩
        rintro ⟨⟩
        exact hr rfl
      | panic payload =>
        cases hs
        exact h.leave fun frame _ => .request trivial nofun
      | read | swap | alloc | acquire | release | ask =>
        obtain ⟨reply, held, w', hserve, rfl⟩ := (step_iff_of_served hact rfl).mp hstep
        obtain ⟨hspares, hheld⟩ := World.Spares.of_avoids hr hserve
        exact .apart (hon hheld) hspares (by simp)
  · rename_i reports next hact
    cases hs
    refine .apart ⟨?_, nofun, h.held, h.frames⟩ hrefl (by simp)
    rintro p ⟨⟩
    exact h.joining 0 reports next hact reports
  · cases hs
  · cases hs

end Thread

/-! ### What a call says -/

theorem Asynchronous.looking_injective {tick tick' : Tick I} {children children' : List (Node I)}
    {next next' : TickResult → Prog I TickResult}
    (h : looking ref tick children next = looking ref tick' children' next') :
    tick = tick' ∧ children = children' ∧ next = next' := by
  have hfinding : finding ref tick children next = finding ref tick' children' next' := by
    unfold looking at h
    injection h
  have hidle : opening ref tick children next = opening ref tick' children' next' :=
    congrFun hfinding .idle
  have hfinished : ∀ result, taking ref result next = taking ref result next' :=
    fun result => congrFun hfinding (.finished result)
  unfold opening starting at hidle
  unfold taking leaving at hfinished
  simp only [Prog.request.injEq, heq_eq_eq, true_and, funext_iff] at hidle hfinished
  obtain ⟨hstart, -⟩ := hidle Worker.idle
  cases hstart
  exact ⟨rfl, rfl, funext fun result => hfinished result Worker.idle ()⟩

namespace Thread

variable {m : Machine I σ} {tick : Tick I} {children : List (Node I)}
  {next : TickResult → Prog I TickResult} {e : Entry I}

theorem says_called_iff {caller : Nat} {found : Worker} :
    t.Says env ref m (.called caller tick children next found) ↔
      caller = t.id ∧ found = m.world.heap.get ref ∧
        t.activity = .running (looking ref tick children next) := by
  refine and_congr_right fun _ => and_congr_right fun _ => ⟨?_, fun hact => ?_⟩
  · rintro ⟨rest, hact, hrun⟩
    rw [run_bind] at hrun
    injection hrun with _ hrest
    rw [hact, ← congrFun hrest ()]
  · exact ⟨_, hact, run_bind ref tick children next⟩

/-- A thread that makes a request and is not at its end. -/
theorem step_served {r : Request I} {k : r.Reply → Prog I TickResult} {reply : r.Reply}
    {held : List Lock} {w' : World I σ} (hact : t.activity = .running (.request r k))
    (hserve : w.serve env t.toCaller t.held r = some (reply, held, w')) :
    t.step env w = some ⟨{ t with activity := .running (k reply), held }, w', []⟩ := by
  unfold step
  rw [hact]
  exact serve_eq hserve

theorem step_starting (hact : t.activity = .running (starting ref tick children next)) :
    t.step env w = some ⟨{ t with activity := .running (leaving ref (.ok .running) next) }, w,
      [(.worker ref, tick.run children)]⟩ := by
  unfold step
  rw [hact]
  rfl

/-- What a thread says that is not at its end, by the request that it makes. -/
theorem Says.request {r : Request I} {k : r.Reply → Prog I TickResult}
    (h : t.Says env ref m e) (hact : t.activity = .running (.request r k))
    (hs : t.step env m.world = some s) (hgoes : s.thread.outcome? = none) :
    match e with
    | .called .. => r = .read .worker ref
    | .started _ tick children => r = .start ref tick children
    | .ended .. => False
    | .answered .. => r = .release .worker ref := by
  cases e with
  | called caller tick children next found =>
    obtain ⟨-, -, hact'⟩ := says_called_iff.mp h
    cases hact.symm.trans hact'
    rfl
  | started worker tick children =>
    obtain ⟨-, next, hact'⟩ := h
    cases hact.symm.trans hact'
    rfl
  | ended worker outcome =>
    obtain ⟨-, -, s', hs', hout⟩ := h
    cases hs.symm.trans hs'
    simp [hgoes] at hout
  | answered caller rest =>
    obtain ⟨-, hact'⟩ := h
    cases hact.symm.trans hact'
    rfl

theorem says_looking (hact : t.activity = .running (looking ref tick children next)) :
    e ∈ some (Entry.called t.id tick children next (m.world.heap.get ref)) ↔
      t.Says env ref m e := by
  rw [Option.mem_some_iff]
  constructor
  · rintro rfl
    exact says_called_iff.mpr ⟨rfl, rfl, hact⟩
  · intro hsaid
    have hrequest := hsaid.request hact (step_served hact rfl) rfl
    cases e with
    | called caller tick' children' next' found =>
      obtain ⟨rfl, rfl, hact'⟩ := says_called_iff.mp hsaid
      rw [hact] at hact'
      injection hact' with hprog
      obtain ⟨rfl, rfl, rfl⟩ := looking_injective hprog
      rfl
    | started | ended | answered => cases hrequest

theorem says_starting (hact : t.activity = .running (starting ref tick children next)) :
    e ∈ some (Entry.started m.nextId tick children) ↔ t.Says env ref m e := by
  rw [Option.mem_some_iff]
  constructor
  · rintro rfl
    exact ⟨rfl, _, hact⟩
  · intro hsaid
    have hrequest := hsaid.request hact (step_starting hact) rfl
    cases e with
    | started worker tick' children' =>
      cases hrequest
      obtain ⟨rfl, -⟩ := hsaid
      rfl
    | called | ended | answered => cases hrequest

theorem says_leaving {answer : TickResult}
    (hact : t.activity = .running (leaving ref answer next)) :
    e ∈ some (Entry.answered t.id (next answer)) ↔ t.Says env ref m e := by
  rw [Option.mem_some_iff]
  constructor
  · rintro rfl
    exact ⟨rfl, hact⟩
  · intro hsaid
    have hrequest := hsaid.request hact (step_served hact rfl) rfl
    cases e with
    | answered caller rest =>
      obtain ⟨rfl, hact'⟩ := hsaid
      rw [hact] at hact'
      injection hact' with hprog
      have hrest : (fun _ : Unit => next answer) = fun _ => rest := by
        unfold leaving at hprog
        injection hprog
      rw [show next answer = rest from congrFun hrest ()]
    | called | started | ended => cases hrequest

/-- Another request says nothing. -/
theorem says_nothing {r : Request I} {k : r.Reply → Prog I TickResult}
    (hact : t.activity = .running (.request r k)) (hs : t.step env m.world = some s)
    (hgoes : s.thread.outcome? = none) (hread : r ≠ .read .worker ref)
    (hstart : ∀ tick children, r ≠ .start ref tick children) (hrelease : r ≠ .release .worker ref) :
    e ∈ (none : Option (Entry I)) ↔ t.Says env ref m e := by
  refine iff_of_false nofun fun hsaid => ?_
  have hrequest := hsaid.request hact hs hgoes
  cases e with
  | called => exact hread hrequest
  | started number tick children => exact hstart tick children hrequest
  | ended => exact hrequest
  | answered => exact hrelease hrequest

end Thread

/-- What a thread outside of a call says: only that it has ended, if it runs a worker. -/
theorem Thread.Outside.said {m : Machine I σ} (h : t.Outside ref) {e : Entry I}
    (hsaid : t.Says env ref m e) : ∃ outcome, e = .ended t.id outcome ∧ t.origin = .worker ref ∧
      ∃ s, t.step env m.world = some s ∧ s.thread.outcome? = some outcome := by
  cases e with
  | called caller tick children next found =>
    obtain ⟨-, -, hact⟩ := says_called_iff.mp hsaid
    exact absurd (h.running _ hact) (Prog.Calls.not_request (fun hr => hr rfl) nofun)
  | started worker tick children =>
    obtain ⟨-, next, hact⟩ := hsaid
    exact absurd (h.running _ hact) (Prog.Calls.not_request (fun hr => hr rfl) nofun)
  | ended worker outcome =>
    obtain ⟨rfl, horigin, hend⟩ := hsaid
    exact ⟨outcome, rfl, horigin, hend⟩
  | answered caller rest =>
    obtain ⟨-, hact⟩ := hsaid
    exact absurd (h.running _ hact) (Prog.Calls.not_request (fun hr => hr rfl) nofun)

theorem Thread.Outside.says_ended {m : Machine I σ} {outcome : Outcome} (h : t.Outside ref)
    (horigin : t.origin = .worker ref) (hs : t.step env m.world = some s)
    (hout : s.thread.outcome? = some outcome) {e : Entry I} :
    e ∈ some (Entry.ended t.id outcome) ↔ t.Says env ref m e := by
  rw [Option.mem_some_iff]
  constructor
  · rintro rfl
    exact ⟨rfl, horigin, s, hs, hout⟩
  · intro hsaid
    obtain ⟨outcome', rfl, -, s', hs', hout'⟩ := h.said hsaid
    cases hs.symm.trans hs'
    cases hout.symm.trans hout'
    rfl

theorem Thread.Outside.receive (h : t.Outside ref) (report : Option Report) :
    (t.receive report).Outside ref := by
  unfold Thread.receive
  split
  · rename_i pending reports next hact
    refine ⟨nofun, ?_, h.held, h.frames⟩
    rintro pending' reports' next' ⟨⟩
    exact h.joining pending reports next hact
  · exact h

theorem Thread.Inside.receive (h : t.Inside ref a worker) (report : Option Report) :
    t.receive report = t := by
  obtain ⟨p, hact, -⟩ := h.running
  unfold Thread.receive
  rw [hact]

/-- A call that has the lock does not mind the end of the worker. -/
theorem Asynchronous.Inside.finish {id number : Nat} {outcome : Outcome} {p : Prog I TickResult}
    (h : Inside ref id a worker p) (hstage : a.stage = .working number) :
    Inside ref id ⟨.ended number outcome, a.call⟩ (Stage.ended number outcome).worker p := by
  cases h with
  | looking hnext => exact .looking hnext
  | leaving hnext => exact .leaving hnext
  | opening | starting | taking => cases hstage

end Steps

end TickTree
