/-
# Runs of an asynchronous tick

Threads call an asynchronous tick, and its workers end, in any order whatever. A run
of the machine is kept with the log of what happens to the tick (`Machine.Logs`). The
account goes on with each entry of the log, and the machine is always as the account
says (`Machine.Agrees`): one thread at most is inside a call, its program is at the
moment that the account has it at, and the threads that run a worker are those that
the account has at work.

Key definitions: `Machine.Logs`, `Machine.Agrees`, `Machine.HandsBack`.
Key theorems: `Machine.Agrees.step`, `Machine.Logs.agrees`, `Machine.hands_back_once`.
-/
import TickTree.Proofs.WorkerCalls
import TickTree.Proofs.Joining

namespace TickTree

open Asynchronous

namespace Machine

variable {I : Interface} {σ : Type} {env : Environment I σ} {ref : Ref .worker} {t : Thread I}
  {s : Step I σ} {a a' : Account I} {worker : Worker} {m m' : Machine I σ}
  {pre post threads : List (Thread I)} {nextId : Nat} {holder : Option Nat}

/-- Any moves in a row, with what happens to the tick: steps of threads, changes of
the world that leave the cell alone, nodes that the world has ticked, and threads that
have ended and are forgotten. -/
inductive Logs (env : Environment I σ) (ref : Ref .worker) (m : Machine I σ) :
    List (Entry I) → Machine I σ → Prop
  | refl : Logs env ref m [] m
  | thread {log : List (Entry I)} {m₁ m' : Machine I σ} {t : Thread I} {entry : Option (Entry I)} :
      Logs env ref m log m₁ → t ∈ m₁.threads → m₁.stepThread env t = some m' →
      (∀ e, e ∈ entry ↔ t.Says env ref m₁ e) → Logs env ref m (log ++ entry.toList) m'
  | world {log : List (Entry I)} {m₁ : Machine I σ} {w : World I σ} : Logs env ref m log m₁ →
      World.Spares ref m₁.world w → Logs env ref m log { m₁ with world := w }
  | spawn {log : List (Entry I)} {m₁ : Machine I σ} (tag : Nat) (node : Node I) :
      Logs env ref m log m₁ → Logs env ref m log (m₁.spawn tag node.call).2
  | forget {log : List (Entry I)} {m₁ : Machine I σ} {t : Thread I} {tag : Nat} :
      Logs env ref m log m₁ → t ∈ m₁.threads → t.origin = .outside tag → t.outcome?.isSome →
      Logs env ref m log (m₁.forget t.id)

/-- The threads that run a worker of the tick. -/
def workers (ref : Ref .worker) (threads : List (Thread I)) : List Nat :=
  threads.filterMap fun t => if t.origin = .worker ref then some t.id else none

/-- The machine is as the account says, and the thread `holder` is inside a call. -/
structure Agrees (ref : Ref .worker) (a : Account I) (holder : Option Nat)
    (m : Machine I σ) : Prop where
  sound : ∃ width, Sound width m.threads m.nextId
  made : m.world.heap.Made ref
  atWork : workers ref m.threads = a.stage.atWork
  outside : ∀ t ∈ m.threads, some t.id ≠ holder → t.Outside ref
  inside : ∀ id ∈ holder, ∃ t ∈ m.threads, t.id = id ∧ t.Inside ref a (m.world.heap.get ref)
  free : holder = none → a.call = none ∧ m.world.heap.get ref = a.stage.worker
  locked : ref.lock ∈ m.world.locked ↔ holder.isSome

/-! ### Steps of the machine -/

theorem workers_append (threads threads' : List (Thread I)) :
    workers ref (threads ++ threads') = workers ref threads ++ workers ref threads' :=
  List.filterMap_append

theorem workers_congr {t' : Thread I} (hcaller : t'.toCaller = t.toCaller) :
    workers ref [t'] = workers ref [t] := by
  have hid : t'.id = t.id := congrArg Caller.id hcaller
  have horigin : t'.origin = t.origin := congrArg Caller.origin hcaller
  unfold workers
  rw [List.filterMap_cons, List.filterMap_cons, hid, horigin]

theorem workers_eq_nil (h : ∀ u ∈ threads, u.origin ≠ .worker ref) : workers ref threads = [] := by
  unfold workers
  rw [List.filterMap_eq_nil_iff]
  exact fun u hu => if_neg (h u hu)

theorem workers_receive (parent : Nat) (report : Option Report) :
    workers ref (threads.map fun u => if u.id == parent then u.receive report else u) =
      workers ref threads := by
  induction threads with
  | nil => rfl
  | cons u threads ih =>
    have hcaller : (if u.id == parent then u.receive report else u).toCaller = u.toCaller := by
      split
      · exact receive_toCaller report
      · rfl
    rw [List.map_cons, ← List.singleton_append, workers_append, workers_congr hcaller, ih,
      ← workers_append, List.singleton_append]

/-- The threads that are left outside of a call when one of them steps. -/
theorem Committed.keeps_outside (h : Committed env pre t post nextId s m')
    (hthread : some t.id ≠ holder → s.thread.Outside ref) (hid : s.thread.id = t.id)
    (hstarted : ∀ start ∈ s.started, start.2.Calls ref)
    (hothers : ∀ u ∈ pre ++ post, some u.id ≠ holder → u.Outside ref) :
    ∀ u ∈ m'.threads, some u.id ≠ holder → u.Outside ref := by
  have hpre := fun u hu => hothers u (List.mem_append_left post hu)
  have hpost := fun u hu => hothers u (List.mem_append_right pre hu)
  have hthread' : some s.thread.id ≠ holder → s.thread.Outside ref := hid ▸ hthread
  cases h with
  | on =>
    intro u hu
    simp only [List.mem_append, List.mem_singleton, List.mem_mapIdx] at hu
    rcases hu with (hu | ⟨i, hi, rfl⟩ | rfl) | hu
    · exact hpre u hu
    · refine fun _ => ⟨?_, nofun, List.not_mem_nil, nofun⟩
      rintro p ⟨⟩
      exact hstarted _ (List.getElem_mem hi)
    · exact hthread'
    · exact hpost u hu
  | outside =>
    intro u hu
    simp only [List.mem_append, List.mem_singleton] at hu
    rcases hu with (hu | rfl) | hu
    · exact hpre u hu
    · exact hthread'
    · exact hpost u hu
  | @child parent position outcome =>
    intro u' hu' hne
    obtain ⟨u, hu, rfl⟩ := List.mem_map.mp hu'
    by_cases hp : u.id == parent
    · rw [if_pos hp] at hne ⊢
      rw [congrArg Caller.id (receive_toCaller _)] at hne
      exact (hothers u hu hne).receive _
    · rw [if_neg hp] at hne ⊢
      exact hothers u hu hne
  | worker => exact hothers

/-- A thread inside a call is as before when another steps. -/
theorem Committed.keeps_inside {u : Thread I} (h : Committed env pre t post nextId s m')
    (hu : u ∈ pre ++ post) (hinside : u.Inside ref a worker) : u ∈ m'.threads := by
  cases h with
  | on | outside =>
    rcases List.mem_append.mp hu with hu | hu
    · exact List.mem_append_left _ (List.mem_append_left _ hu)
    · exact List.mem_append_right _ hu
  | @child parent position outcome =>
    refine List.mem_map.mpr ⟨u, hu, ?_⟩
    split
    · exact hinside.receive _
    · rfl
  | worker => exact hu

/-- No worker of the tick is started or ends with the step. -/
def Idles (ref : Ref .worker) (t : Thread I) (s : Step I σ) : Prop :=
  (∀ start ∈ s.started, start.1 ≠ .worker ref) ∧
    (t.origin = .worker ref → s.thread.outcome? = none)

theorem Committed.workers_eq (h : Committed env pre t post nextId s m') (hidles : Idles ref t s)
    (hcaller : s.thread.toCaller = t.toCaller) :
    workers ref m'.threads = workers ref (pre ++ t :: post) := by
  obtain ⟨hstarted, hgoes⟩ := hidles
  have hthread : workers ref [s.thread] = workers ref [t] := workers_congr hcaller
  rw [← List.singleton_append, workers_append, workers_append]
  have hgone : t.origin ≠ .worker ref →
      workers ref (pre ++ post) = workers ref pre ++ (workers ref [t] ++ workers ref post) := by
    intro hne
    have hnil : workers ref [t] = [] := workers_eq_nil (by simpa using hne)
    rw [workers_append, hnil, List.nil_append]
  cases h with
  | on =>
    have hnone : workers ref (s.started.mapIdx fun i start =>
        Thread.begin (nextId + i) start.1 start.2) = [] := by
      refine workers_eq_nil fun u hu => ?_
      obtain ⟨i, hi, rfl⟩ := List.mem_mapIdx.mp hu
      exact hstarted _ (List.getElem_mem hi)
    rw [workers_append, workers_append, workers_append, hnone, hthread, List.nil_append,
      List.append_assoc]
  | outside => rw [workers_append, workers_append, hthread, List.append_assoc]
  | child hout horigin =>
    rw [workers_receive]
    exact hgone (by simp [horigin])
  | worker hout horigin =>
    refine hgone fun hsame => ?_
    rw [hgoes hsame] at hout
    cases hout

theorem Committed.spares (h : Committed env pre t post nextId s m') (hidles : Idles ref t s) :
    World.Spares ref s.world m'.world := by
  cases h with
  | on => exact .refl _ _
  | outside | child => exact ⟨id, rfl, Iff.rfl⟩
  | @worker other outcome hout horigin =>
    have hne : other ≠ ref := by
      rintro rfl
      rw [hidles.2 horigin] at hout
      cases hout
    exact ⟨(Heap.made_set _).mpr, Heap.get_set_ne hne _, Iff.rfl⟩

/-- The thread that steps, among those of the machine. -/
theorem exists_committed (hsound : ∃ width, Sound width m.threads m.nextId) (ht : t ∈ m.threads)
    (hstep : m.stepThread env t = some m') :
    ∃ pre post s, m.threads = pre ++ t :: post ∧ t.step env m.world = some s ∧
      s.thread.toCaller = t.toCaller ∧ Committed env pre t post m.nextId s m' ∧
      (∀ u ∈ pre ++ post, u ∈ m.threads ∧ u.id ≠ t.id) ∧
      (∀ u ∈ m.threads, u.id ≠ t.id → u ∈ pre ++ post) ∧
      ∃ width, Sound width m'.threads m'.nextId := by
  obtain ⟨width, hsound⟩ := hsound
  obtain ⟨pre, post, hsplit⟩ := List.append_of_mem ht
  obtain ⟨s, hs, hcommitted⟩ := committed_of_stepThread hsound.ids hsplit hstep
  obtain ⟨width', hsound', -⟩ := hsound.moves (.thread ht hstep)
  have ids := hsound.ids
  rw [hsplit] at ids
  refine ⟨pre, post, s, hsplit, hs, (Thread.stepped_of_step hs).toCaller, hcommitted, ?_, ?_,
    width', hsound'⟩
  · intro u hu
    refine ⟨?_, ne_of_nodup ids u hu⟩
    rw [hsplit]
    rcases List.mem_append.mp hu with hu | hu
    · exact List.mem_append_left _ hu
    · exact List.mem_append_right _ (List.mem_cons_of_mem _ hu)
  · intro u hu hne
    rw [hsplit] at hu
    rcases List.mem_append.mp hu with hu | hu
    · exact List.mem_append_left _ hu
    · rcases List.mem_cons.mp hu with rfl | hu
      · exact absurd rfl hne
      · exact List.mem_append_right _ hu

/-- A thread outside of a call takes a step that has nothing to do with the tick. -/
theorem Agrees.apart (h : Agrees ref a holder m) (ht : t ∈ m.threads) (hne : some t.id ≠ holder)
    (hstep : m.stepThread env t = some m') (hs : t.step env m.world = some s)
    (hidles : Idles ref t s) (houtside : s.thread.Outside ref)
    (hspares : World.Spares ref m.world s.world) (hcalls : ∀ start ∈ s.started, start.2.Calls ref) :
    Agrees ref a holder m' := by
  obtain ⟨pre, post, s', hsplit, hs', hcaller, hcommitted, hothers, hrest, hsound'⟩ :=
    exists_committed h.sound ht hstep
  cases hs.symm.trans hs'
  have hspares' := hspares.trans (hcommitted.spares hidles)
  refine ⟨hsound', hspares'.made h.made, ?_, ?_, ?_, ?_, hspares'.lock.trans h.locked⟩
  · rw [hcommitted.workers_eq hidles hcaller, ← hsplit]
    exact h.atWork
  · refine hcommitted.keeps_outside (fun _ => houtside) (congrArg Caller.id hcaller) hcalls ?_
    exact fun u hu => h.outside u (hothers u hu).1
  · intro id hid
    obtain ⟨u, hu, rfl, hinside⟩ := h.inside id hid
    have hut : u.id ≠ t.id := fun he => hne (he ▸ hid.symm)
    rw [hspares'.cell]
    exact ⟨u, hcommitted.keeps_inside (hrest u hu hut) hinside, rfl, hinside⟩
  · intro hfree
    rw [hspares'.cell]
    exact h.free hfree

/-- A worker ends. -/
theorem Agrees.finish (h : Agrees ref a holder m) (ht : t ∈ m.threads) (hne : some t.id ≠ holder)
    (hstep : m.stepThread env t = some m') (hs : t.step env m.world = some s)
    (hspares : World.Spares ref m.world s.world) {outcome : Outcome} (horigin : t.origin = .worker ref)
    (hout : s.thread.outcome? = some outcome) :
    a.stage = .working t.id ∧ Agrees ref ⟨.ended t.id outcome, a.call⟩ holder m' := by
  obtain ⟨pre, post, s', hsplit, hs', hcaller, hcommitted, hothers, hrest, hsound'⟩ :=
    exists_committed h.sound ht hstep
  cases hs.symm.trans hs'
  have hworkers := h.atWork
  rw [hsplit, ← List.singleton_append, workers_append, workers_append] at hworkers
  have hself : workers ref [t] = [t.id] := by simp [workers, horigin]
  rw [hself] at hworkers
  obtain ⟨hstage, hgone⟩ : a.stage = .working t.id ∧ workers ref (pre ++ post) = [] := by
    rw [workers_append]
    cases hstage : a.stage with
    | none | ended => simp [hstage, Stage.atWork] at hworkers
    | working number =>
      rw [hstage] at hworkers
      simp_all [Stage.atWork, List.append_eq_singleton_iff]
  cases hcommitted with
  | on hnone => simp [hout] at hnone
  | outside _ hfrom | child _ hfrom => simp [horigin] at hfrom
  | @worker other outcome' hout' hfrom =>
    cases horigin.symm.trans hfrom
    cases hout.symm.trans hout'
    have hmade := hspares.made h.made
    refine ⟨hstage, hsound', (Heap.made_set _).mpr hmade, hgone, ?_, ?_, ?_, ?_⟩
    · exact fun u hu => h.outside u (hothers u hu).1
    · intro id hid
      obtain ⟨u, hu, rfl, hinside⟩ := h.inside id hid
      have hut : u.id ≠ t.id := fun he => hne (he ▸ hid.symm)
      refine ⟨u, hrest u hu hut, rfl, ?_, hinside.frames⟩
      obtain ⟨p, hact, hp⟩ := hinside.running
      have hcell : (s.world.heap.set ref (Worker.ended outcome.result?)).get ref =
          (Stage.ended t.id outcome).worker := Heap.get_set hmade _
      rw [hcell]
      exact ⟨p, hact, hp.finish hstage⟩
    · intro hfree
      exact ⟨(h.free hfree).1, Heap.get_set hmade _⟩
    · exact hspares.lock.trans h.locked

/-- The threads that a step starts. -/
def begun (nextId : Nat) (started : List (Origin × Prog I TickResult)) : List (Thread I) :=
  started.mapIdx fun i start => .begin (nextId + i) start.1 start.2

theorem workers_begun_worker (ref : Ref .worker) (nextId : Nat) (p : Prog I TickResult) :
    workers ref (begun nextId [(.worker ref, p)]) = [nextId] := by
  unfold workers begun
  rw [List.mapIdx_singleton]
  exact List.filterMap_cons_some (if_pos rfl)

/-- A thread steps and goes on, while no other is inside a call. -/
theorem Agrees.on {holder' : Option Nat} (h : Agrees ref a holder m) (ht : t ∈ m.threads)
    (hstep : m.stepThread env t = some m') (hs : t.step env m.world = some s)
    (hholder : ∀ id ∈ holder, id = t.id) (hgoes : s.thread.outcome? = none)
    (hcalls : ∀ start ∈ s.started, start.2.Calls ref) (hmade : s.world.heap.Made ref)
    (hatWork : workers ref (begun m.nextId s.started) = [] ∧ a'.stage.atWork = a.stage.atWork ∨
      a.stage.atWork = [] ∧ a'.stage.atWork = workers ref (begun m.nextId s.started))
    (hlocked : ref.lock ∈ s.world.locked ↔ holder'.isSome)
    (hafter : holder' = none ∧ s.thread.Outside ref ∧ a'.call = none ∧
        s.world.heap.get ref = a'.stage.worker ∨
      holder' = some t.id ∧ s.thread.Inside ref a' (s.world.heap.get ref)) :
    Agrees ref a' holder' m' := by
  obtain ⟨pre, post, s', hsplit, hs', hcaller, hcommitted, hothers, -, hsound'⟩ :=
    exists_committed h.sound ht hstep
  cases hs.symm.trans hs'
  have hid : s.thread.id = t.id := congrArg Caller.id hcaller
  have houtside : ∀ u ∈ m'.threads, some u.id ≠ holder' → u.Outside ref := by
    refine hcommitted.keeps_outside (fun hne => ?_) hid hcalls fun u hu _ => ?_
    · rcases hafter with ⟨-, houtside, -⟩ | ⟨hself, -⟩
      · exact houtside
      · exact absurd hself.symm hne
    · obtain ⟨hmem, hne⟩ := hothers u hu
      exact h.outside u hmem fun he => hne (hholder u.id he.symm)
  have hworkers : workers ref pre ++ (workers ref [s.thread] ++ workers ref post) =
      a.stage.atWork := by
    rw [workers_congr hcaller, ← workers_append, ← workers_append, List.singleton_append, ← hsplit]
    exact h.atWork
  cases hcommitted with
  | outside hout | child hout | worker hout => simp [hgoes] at hout
  | on =>
    refine ⟨hsound', hmade, ?_, houtside, ?_, ?_, hlocked⟩
    · show workers ref (pre ++ (begun m.nextId s.started ++ [s.thread]) ++ post) = _
      rw [workers_append, workers_append, workers_append]
      rcases hatWork with ⟨hnone, hsame⟩ | ⟨hnone, hnew⟩
      · rw [hnone, hsame, ← hworkers, List.nil_append, List.append_assoc]
      · rw [hnone] at hworkers
        obtain ⟨hpre, hrest⟩ := List.append_eq_nil_iff.mp hworkers
        obtain ⟨hthread, hpost⟩ := List.append_eq_nil_iff.mp hrest
        rw [hpre, hthread, hpost, hnew, List.nil_append, List.append_nil, List.append_nil]
    · rintro id ⟨⟩
      rcases hafter with ⟨hnone, -⟩ | ⟨hself, hinside⟩
      · cases hnone
      · cases hself
        exact ⟨s.thread, by simp, hid, hinside⟩
    · intro hfree
      rcases hafter with ⟨-, -, hfacts⟩ | ⟨hself, -⟩
      · exact hfacts
      · cases hfree.symm.trans hself

/-- A thread takes the lock for a call. -/
theorem Agrees.enter (h : Agrees ref a holder m) (ht : t ∈ m.threads)
    (hstep : m.stepThread env t = some m') {tick : Tick I} {children : List (Node I)}
    {next : TickResult → Prog I TickResult}
    (hs : t.step env m.world = some ⟨{ t with activity := .running (looking ref tick children next)
                                              held := ref.lock :: t.held }, m.world.hold ref.lock, []⟩)
    (hfree : ref.lock ∉ m.world.locked) (hnext : ∀ answer, (next answer).Calls ref)
    (hframes : ∀ frame ∈ t.frames, ref.lock ∉ frame.held ∧ ∀ result, (frame.next result).Calls ref) :
    Agrees ref a (some t.id) m' := by
  have hnone : holder = none := by
    rw [← Option.not_isSome_iff_eq_none, ← h.locked]
    exact hfree
  obtain ⟨hcall, hcell⟩ := h.free hnone
  refine h.on ht hstep hs (hnone ▸ nofun) rfl nofun h.made (.inl ⟨rfl, rfl⟩)
    (iff_of_true List.mem_cons_self rfl) (.inr ⟨rfl, ⟨_, rfl, ?_⟩, hframes⟩)
  show Asynchronous.Inside ref t.id a (m.world.heap.get ref) _
  rw [hcell]
  obtain ⟨stage, call⟩ := a
  obtain rfl : call = none := hcall
  exact .looking hnext

/-! ### The account goes on -/

/-- A call that has looked goes on as it has found the worker. -/
theorem exists_takes_called (stage : Stage) (id : Nat) (tick : Tick I) (children : List (Node I))
    {next : TickResult → Prog I TickResult} (hnext : ∀ answer, (next answer).Calls ref) :
    ∃ a', Account.Takes ⟨stage, none⟩ (.called id tick children next stage.worker) a' ∧
      a'.stage.atWork = stage.atWork ∧
      Asynchronous.Inside ref id a' stage.worker (finding ref tick children next stage.worker) := by
  cases stage with
  | none => exact ⟨_, .vacant, rfl, .opening hnext⟩
  | working number =>
    refine ⟨_, .wait, rfl, ?_⟩
    show Asynchronous.Inside ref id _ (Stage.working number).worker _
    exact .leaving hnext
  | ended number outcome =>
    refine ⟨_, .collect, rfl, ?_⟩
    cases outcome with
    | returned result => exact .taking hnext
    | panicked payload => exact .taking hnext

theorem Agrees.inside_of_mem (h : Agrees ref a (some t.id) m) (ht : t ∈ m.threads) :
    t.Inside ref a (m.world.heap.get ref) := by
  obtain ⟨u, hu, hid, hinside⟩ := h.inside t.id rfl
  obtain ⟨width, hsound⟩ := h.sound
  obtain rfl : u = t := List.inj_on_of_nodup_map hsound.ids hu ht hid
  exact hinside

/-- The thread that is inside a call takes a step of it. -/
theorem Agrees.inside_step (h : Agrees ref a (some t.id) m) (ht : t ∈ m.threads)
    (hstep : m.stepThread env t = some m') :
    ∃ (entry : Option (Entry I)) (a' : Account I) (holder' : Option Nat),
      (∀ e, e ∈ entry ↔ t.Says env ref m e) ∧ a.Follows entry.toList a' ∧
        Agrees ref a' holder' m' ∧ ∀ id ∈ holder', id = t.id := by
  obtain ⟨⟨p, hact, hp⟩, hframes⟩ := h.inside_of_mem ht
  have hself : ∀ id ∈ some t.id, id = t.id := by
    rintro id ⟨⟩
    rfl
  have hlocked : ref.lock ∈ m.world.locked ↔ (some t.id).isSome := h.locked
  have hswap : ∀ worker : Worker, (m.world.heap.set ref worker).get ref = worker :=
    Heap.get_set h.made
  generalize hcell : m.world.heap.get ref = cell at hp
  cases hp with
  | @looking stage tick children next hnext =>
    obtain ⟨a', htakes, hatWork, hp'⟩ := exists_takes_called stage t.id tick children hnext
    have hs : t.step env m.world = some
        ⟨{ t with activity := .running (finding ref tick children next (m.world.heap.get ref)) },
          m.world, []⟩ := Thread.step_served hact rfl
    rw [hcell] at hs
    refine ⟨_, a', some t.id, fun e => Thread.says_looking hact, ?_, ?_, hself⟩
    · rw [hcell]
      exact .snoc .nil htakes
    · refine h.on ht hstep hs hself rfl nofun h.made (.inl ⟨rfl, hatWork⟩) hlocked (.inr ⟨rfl, ?_⟩)
      exact ⟨⟨_, rfl, hcell ▸ hp'⟩, hframes⟩
  | @opening tick children next hnext =>
    have hsilent : ∀ e, e ∈ none ↔ t.Says env ref m e := fun e =>
      Thread.says_nothing hact (Thread.step_served hact rfl) rfl nofun nofun nofun
    refine ⟨none, _, some t.id, hsilent, .nil, ?_, hself⟩
    refine h.on ht hstep (Thread.step_served hact rfl) hself rfl nofun ((Heap.made_set _).mpr h.made)
      (.inl ⟨rfl, rfl⟩) hlocked (.inr ⟨rfl, ⟨_, rfl, ?_⟩, hframes⟩)
    show Asynchronous.Inside ref t.id _ ((m.world.heap.set ref Worker.busy).get ref) _
    rw [hswap]
    exact .starting hnext
  | @starting tick children next hnext =>
    refine ⟨_, _, some t.id, fun e => Thread.says_starting hact, .snoc .nil .start, ?_, hself⟩
    refine h.on ht hstep (Thread.step_starting hact) hself rfl ?_ h.made (.inr ⟨rfl, ?_⟩) hlocked
      (.inr ⟨rfl, ⟨_, rfl, ?_⟩, hframes⟩)
    · intro start hmem
      rw [List.mem_singleton.mp hmem]
      exact tick.calls ref children
    · exact (workers_begun_worker ref m.nextId _).symm
    · have hbusy : m.world.heap.get ref = (Stage.working m.nextId).worker := hcell
      show Asynchronous.Inside ref t.id _ (m.world.heap.get ref) _
      rw [hbusy]
      exact .leaving hnext
  | @taking worker answer next hnext =>
    have hsilent : ∀ e, e ∈ none ↔ t.Says env ref m e := fun e =>
      Thread.says_nothing hact (Thread.step_served hact rfl) rfl nofun nofun nofun
    refine ⟨none, _, some t.id, hsilent, .nil, ?_, hself⟩
    refine h.on ht hstep (Thread.step_served hact rfl) hself rfl nofun ((Heap.made_set _).mpr h.made)
      (.inl ⟨rfl, rfl⟩) hlocked (.inr ⟨rfl, ⟨_, rfl, ?_⟩, hframes⟩)
    show Asynchronous.Inside ref t.id _ ((m.world.heap.set ref Stage.none.worker).get ref) _
    rw [hswap]
    exact .leaving hnext
  | @leaving stage answer next hnext =>
    refine ⟨_, ⟨stage, none⟩, none, fun e => Thread.says_leaving hact, .snoc .nil .answer, ?_, nofun⟩
    refine h.on ht hstep (Thread.step_served hact rfl) hself rfl nofun h.made (.inl ⟨rfl, rfl⟩) ?_
      (.inl ⟨rfl, ⟨?_, nofun, ?_, hframes⟩, rfl, hcell⟩)
    · simp [World.mem_unlock]
    · rintro p ⟨⟩
      exact hnext answer
    · simp

/-- **A step of any thread, with what it is for the tick.** -/
theorem Agrees.step (h : Agrees ref a holder m) (ht : t ∈ m.threads)
    (hstep : m.stepThread env t = some m') :
    ∃ (entry : Option (Entry I)) (a' : Account I) (holder' : Option Nat),
      (∀ e, e ∈ entry ↔ t.Says env ref m e) ∧ a.Follows entry.toList a' ∧
        Agrees ref a' holder' m' := by
  by_cases hself : some t.id = holder
  · subst hself
    obtain ⟨entry, a', holder', hsaid, hfollows, hagrees, -⟩ := h.inside_step ht hstep
    exact ⟨entry, a', holder', hsaid, hfollows, hagrees⟩
  · have houtside := h.outside t ht hself
    obtain ⟨pre, post, s, -, hs, -⟩ := exists_committed h.sound ht hstep
    cases houtside.step hs with
    | enters hfree hnext =>
      refine ⟨none, a, some t.id, fun e => ?_, .nil, h.enter ht hstep hs hfree hnext houtside.frames⟩
      refine iff_of_false nofun fun hsaid => ?_
      obtain ⟨outcome, rfl, -, s', hs', hout⟩ := houtside.said hsaid
      cases hs.symm.trans hs'
      cases hout
    | apart hafter hspares hstarted =>
      have hcalls := fun start hmem => (hstarted start hmem).1
      by_cases hends : t.origin = .worker ref ∧ s.thread.outcome?.isSome
      · obtain ⟨horigin, hsome⟩ := hends
        obtain ⟨outcome, hout⟩ := Option.isSome_iff_exists.mp hsome
        obtain ⟨hstage, hagrees⟩ := h.finish ht hself hstep hs hspares horigin hout
        refine ⟨some (.ended t.id outcome), _, holder,
          fun e => houtside.says_ended horigin hs hout, .snoc .nil ?_, hagrees⟩
        obtain ⟨stage, call⟩ := a
        obtain rfl : stage = .working t.id := hstage
        exact .finish
      · have hidles : Idles ref t s := by
          refine ⟨fun start hmem => (hstarted start hmem).2, fun horigin => ?_⟩
          exact Option.not_isSome_iff_eq_none.mp fun hsome => hends ⟨horigin, hsome⟩
        refine ⟨none, a, holder, fun e => ?_, .nil,
          h.apart ht hself hstep hs hidles hafter hspares hcalls⟩
        refine iff_of_false nofun fun hsaid => ?_
        obtain ⟨outcome, rfl, horigin, s', hs', hout⟩ := houtside.said hsaid
        cases hs.symm.trans hs'
        exact hends ⟨horigin, hout ▸ rfl⟩

/-! ### Runs -/

/-- The cell is as it is made, and no thread is inside a call of the tick or runs a
worker of it. -/
structure Unused (ref : Ref .worker) (m : Machine I σ) : Prop where
  fresh : m.world.Fresh ref
  sound : ∃ width, Sound width m.threads m.nextId
  outside : ∀ t ∈ m.threads, t.Outside ref
  origin : ∀ t ∈ m.threads, t.origin ≠ .worker ref

theorem Unused.agrees (h : Unused ref m) : Agrees ref Account.new none m where
  sound := h.sound
  made := h.fresh.made
  atWork := workers_eq_nil h.origin
  outside t ht _ := h.outside t ht
  inside := nofun
  free _ := ⟨rfl, h.fresh.fresh⟩
  locked := iff_of_false h.fresh.unlocked nofun

theorem Agrees.world {w : World I σ} (h : Agrees ref a holder m)
    (hspares : World.Spares ref m.world w) : Agrees ref a holder { m with world := w } where
  sound := h.sound
  made := hspares.made h.made
  atWork := h.atWork
  outside := h.outside
  inside := by
    show ∀ id ∈ holder, ∃ t ∈ m.threads, t.id = id ∧ t.Inside ref a (w.heap.get ref)
    rw [hspares.cell]
    exact h.inside
  free := by
    show holder = none → a.call = none ∧ w.heap.get ref = a.stage.worker
    rw [hspares.cell]
    exact h.free
  locked := hspares.lock.trans h.locked

theorem Agrees.spawn (h : Agrees ref a holder m) (env : Environment I σ) (tag : Nat)
    (node : Node I) : Agrees ref a holder (m.spawn tag node.call).2 where
  sound := by
    obtain ⟨width, hsound⟩ := h.sound
    have hmoves : Moves env none m (m.spawn tag node.call).2 := .spawn tag node.call
    obtain ⟨width', hsound', -⟩ := hsound.moves hmoves
    exact ⟨width', hsound'⟩
  made := h.made
  atWork := by
    show workers ref (m.threads ++ [.begin m.nextId (.outside tag) node.call]) = _
    rw [workers_append, h.atWork]
    exact List.append_nil _
  outside := by
    intro t ht hne
    rcases List.mem_append.mp ht with ht | ht
    · exact h.outside t ht hne
    · rw [List.mem_singleton.mp ht]
      refine ⟨?_, nofun, List.not_mem_nil, nofun⟩
      rintro p ⟨⟩
      exact node.calls ref
  inside := by
    intro id hid
    obtain ⟨t, ht, hinside⟩ := h.inside id hid
    exact ⟨t, List.mem_append_left _ ht, hinside⟩
  free := h.free
  locked := h.locked

theorem Agrees.forget (h : Agrees ref a holder m) (env : Environment I σ) {tag : Nat}
    (ht : t ∈ m.threads) (horigin : t.origin = .outside tag) (hend : t.outcome?.isSome) :
    Agrees ref a holder (m.forget t.id) where
  sound := by
    obtain ⟨width, hsound⟩ := h.sound
    have hmoves : Moves env (some t.id) m (m.forget t.id) := .forget ht horigin
    obtain ⟨width', hsound', -⟩ := hsound.moves hmoves
    exact ⟨width', hsound'⟩
  made := h.made
  atWork := by
    obtain ⟨width, hsound⟩ := h.sound
    show workers ref (m.threads.filter (·.id != t.id)) = _
    rw [← h.atWork]
    unfold workers
    rw [List.filterMap_filter]
    refine List.filterMap_congr fun u hu => ?_
    by_cases hid : u.id = t.id
    · obtain rfl : u = t := List.inj_on_of_nodup_map hsound.ids hu ht hid
      simp [horigin]
    · simp [hid]
  outside u hu := h.outside u (List.mem_filter.mp hu).1
  inside := by
    intro id hid
    obtain ⟨u, hu, rfl, hinside⟩ := h.inside id hid
    refine ⟨u, List.mem_filter.mpr ⟨hu, ?_⟩, rfl, hinside⟩
    obtain ⟨p, hact, -⟩ := hinside.running
    obtain ⟨width, hsound⟩ := h.sound
    rw [bne_iff_ne]
    intro hsame
    obtain rfl : u = t := List.inj_on_of_nodup_map hsound.ids hu ht hsame
    rw [Thread.outcome?, hact] at hend
    cases hend
  free := h.free
  locked := h.locked

/-- **The account follows every run, and the machine stays as it says.** -/
theorem Logs.agrees {log : List (Entry I)} (hlogs : Logs env ref m log m')
    (h : Agrees ref a holder m) :
    ∃ (a' : Account I) (holder' : Option Nat), a.Follows log a' ∧ Agrees ref a' holder' m' := by
  induction hlogs with
  | refl => exact ⟨a, holder, .nil, h⟩
  | @thread log m₁ m' t entry hlogs ht hstep hsaid ih =>
    obtain ⟨a₁, holder₁, hfollows, hagrees⟩ := ih
    obtain ⟨entry', a', holder', hsaid', hevent, hagrees'⟩ := hagrees.step ht hstep
    obtain rfl : entry = entry' := Option.ext fun e => (hsaid e).trans (hsaid' e).symm
    exact ⟨a', holder', hfollows.trans hevent, hagrees'⟩
  | world _ hspares ih =>
    obtain ⟨a', holder', hfollows, hagrees⟩ := ih
    exact ⟨a', holder', hfollows, hagrees.world hspares⟩
  | spawn tag node _ ih =>
    obtain ⟨a', holder', hfollows, hagrees⟩ := ih
    exact ⟨a', holder', hfollows, hagrees.spawn env tag node⟩
  | forget _ ht horigin hend ih =>
    obtain ⟨a', holder', hfollows, hagrees⟩ := ih
    exact ⟨a', holder', hfollows, hagrees.forget env ht horigin hend⟩

theorem Logs.trans {log log' : List (Entry I)} {m₁ : Machine I σ} (h : Logs env ref m log m₁)
    (h' : Logs env ref m₁ log' m') : Logs env ref m (log ++ log') m' := by
  induction h' with
  | refl => exact (List.append_nil log).symm ▸ h
  | thread _ ht hstep hsaid ih =>
    rw [← List.append_assoc]
    exact .thread ih ht hstep hsaid
  | world _ hspares ih => exact .world ih hspares
  | spawn tag node _ ih => exact .spawn tag node ih
  | forget _ ht horigin hend ih => exact .forget ih ht horigin hend

/-- One program is what is left of another after its first request. -/
inductive Then : Prog I TickResult → Prog I TickResult → Prop
  | reply (r : Request I) (k : r.Reply → Prog I TickResult) (reply : r.Reply) :
      Then (.request r k) (k reply)

/-- A call that has the lock is not blocked. -/
theorem exists_step_inside {id : Nat} {p : Prog I TickResult}
    (hp : Asynchronous.Inside ref id a worker p) (hact : t.activity = .running p) (env : Environment I σ)
    (w : World I σ) :
    ∃ p' s, Then p p' ∧ t.step env w = some s ∧ s.thread.activity = .running p' := by
  have hserved (r : Request I) {k : r.Reply → Prog I TickResult} (reply : r.Reply)
      {held : List Lock} {w' : World I σ} (hact : t.activity = .running (.request r k))
      (hserve : w.serve env t.toCaller t.held r = some (reply, held, w')) :
      ∃ p' s, Then (.request r k) p' ∧ t.step env w = some s ∧ s.thread.activity = .running p' :=
    ⟨_, _, .reply r k reply, Thread.step_served hact hserve, rfl⟩
  cases hp with
  | looking => exact hserved (.read .worker ref) (w.heap.get ref) hact rfl
  | opening => exact hserved (.swap .worker ref Worker.busy) (w.heap.get ref) hact rfl
  | @starting tick children =>
    exact ⟨_, _, .reply (.start ref tick children) _ (), Thread.step_starting hact, rfl⟩
  | taking => exact hserved (.swap .worker ref Worker.idle) (w.heap.get ref) hact rfl
  | leaving => exact hserved (.release .worker ref) () hact rfl

/-- The call under way can be carried out: then the lock is free. -/
theorem Agrees.frees_of_running (p : Prog I TickResult) :
    ∀ {m : Machine I σ} {a : Account I} {t : Thread I}, Agrees ref a (some t.id) m →
      t ∈ m.threads → t.activity = .running p →
      ∃ log m', Logs env ref m log m' ∧ ref.lock ∉ m'.world.locked := by
  induction p with
  | pure result =>
    intro m a t h ht hact
    obtain ⟨p, hact', hp⟩ := (h.inside_of_mem ht).running
    obtain rfl : _ = p := Activity.running.inj (hact.symm.trans hact')
    obtain ⟨p', s, hthen, -⟩ := exists_step_inside hp hact env m.world
    cases hthen
  | request r next ih =>
    intro m a t h ht hact
    obtain ⟨p, hact', hp⟩ := (h.inside_of_mem ht).running
    obtain rfl : _ = p := Activity.running.inj (hact.symm.trans hact')
    obtain ⟨p', s, hthen, hs, hafter⟩ := exists_step_inside hp hact env m.world
    cases hthen with
    | reply _ _ reply =>
      have hstep : m.stepThread env t = some (m.commit env s) := by
        rw [stepThread, hs]
        rfl
      obtain ⟨entry, a', holder', hsaid, -, h', hholder⟩ := h.inside_step ht hstep
      have hlogs : Logs env ref m entry.toList (m.commit env s) := .thread .refl ht hstep hsaid
      obtain ⟨pre, post, s', -, hs', hcaller, hcommitted, -⟩ := exists_committed h.sound ht hstep
      cases hs.symm.trans hs'
      cases holder' with
      | none => exact ⟨_, _, hlogs, fun hmem => Bool.false_ne_true (h'.locked.mp hmem)⟩
      | some id =>
        obtain rfl : id = t.id := hholder id rfl
        have hid : s.thread.id = t.id := congrArg Caller.id hcaller
        have hmem : s.thread ∈ (m.commit env s).threads := by
          generalize m.commit env s = m₁ at hcommitted
          cases hcommitted with
          | on => simp
          | outside hout | child hout | worker hout => simp [Thread.outcome?, hafter] at hout
        rw [← hid] at h'
        obtain ⟨log, m', hrest, hfree⟩ := ih reply h' hmem hafter
        exact ⟨_, m', hlogs.trans hrest, hfree⟩

theorem Agrees.frees (h : Agrees ref a holder m) (env : Environment I σ) :
    ∃ log m', Logs env ref m log m' ∧ ref.lock ∉ m'.world.locked := by
  cases holder with
  | none => exact ⟨[], m, .refl, fun hmem => Bool.false_ne_true (h.locked.mp hmem)⟩
  | some id =>
    obtain ⟨t, ht, rfl, hinside⟩ := h.inside id rfl
    obtain ⟨p, hact, -⟩ := hinside.running
    exact h.frees_of_running p ht hact

/-- A worker gets the next number. -/
theorem nextId_of_step {entry : Option (Entry I)} (h : Agrees ref a holder m) (ht : t ∈ m.threads)
    (hstep : m.stepThread env t = some m') (hsaid : ∀ e, e ∈ entry ↔ t.Says env ref m e) :
    starts entry.toList = [] ∧ m.nextId ≤ m'.nextId ∨
      starts entry.toList = [m.nextId] ∧ m.nextId < m'.nextId := by
  obtain ⟨pre, post, s, -, hs, -, hcommitted, -⟩ := exists_committed h.sound ht hstep
  have hle : m.nextId ≤ m'.nextId := by
    cases hcommitted with
    | on => exact Nat.le_add_right _ _
    | outside | child | worker => exact Nat.le_refl _
  cases entry with
  | none => exact .inl ⟨rfl, hle⟩
  | some e =>
    have hsaid := (hsaid e).mp rfl
    cases e with
    | called | ended | answered => exact .inl ⟨rfl, hle⟩
    | started number tick children =>
      obtain ⟨rfl, next, hact⟩ := hsaid
      refine .inr ⟨rfl, ?_⟩
      unfold Thread.step at hs
      rw [hact] at hs
      cases hs
      cases hcommitted with
      | on => exact Nat.lt_succ_self _
      | outside hout | child hout | worker hout => cases hout

/-- Workers have numbers of their own. -/
theorem Logs.starts_nodup {log : List (Entry I)} (hlogs : Logs env ref m log m')
    (h : Agrees ref a holder m) :
    (starts log).Nodup ∧ ∀ number ∈ starts log, number < m'.nextId := by
  induction hlogs with
  | refl => exact ⟨.nil, nofun⟩
  | @thread log m₁ m' t entry hlogs ht hstep hsaid ih =>
    obtain ⟨hnodup, hlt⟩ := ih
    obtain ⟨a₁, holder₁, -, hagrees⟩ := hlogs.agrees h
    rw [starts_append]
    rcases nextId_of_step hagrees ht hstep hsaid with ⟨hnone, hle⟩ | ⟨hnew, hless⟩
    · rw [hnone, List.append_nil]
      exact ⟨hnodup, fun number hmem => Nat.lt_of_lt_of_le (hlt number hmem) hle⟩
    · rw [hnew]
      constructor
      · refine hnodup.append (List.nodup_singleton _) ?_
        intro number hmem hsame
        have := hlt number hmem
        rw [List.mem_singleton.mp hsame] at this
        omega
      · intro number hmem
        rcases List.mem_append.mp hmem with hmem | hmem
        · have := hlt number hmem
          omega
        · rw [List.mem_singleton.mp hmem]
          exact hless
  | world _ _ ih => exact ih
  | spawn tag node _ ih => exact ⟨ih.1, fun number hmem => Nat.lt_succ_of_lt (ih.2 number hmem)⟩
  | forget _ _ _ _ ih => exact ih

/-! ### Two calls -/

/-- A tick that ends so. -/
def tickOf : Outcome → Tick I
  | .returned result => .const result
  | .panicked payload => .custom fun _ => .panic payload

/-- Two calls of an asynchronous tick: the worker of the first ends before that has
answered, and the second finds what it has left. -/
def twoCalls (outcome : Outcome) : List (Entry I) :=
  [.called 0 (tickOf outcome) [] .pure .idle, .started 1 (tickOf outcome) [], .ended 1 outcome,
    .answered 0 (.pure (.ok .running)),
    .called 2 (tickOf outcome) [] .pure (.ended outcome.result?),
    .answered 2 (.pure outcome.handedBack)]

/-- A machine with an asynchronous tick that has just been made. -/
def unused (outside : σ) : Machine I σ := ⟨[], 0, ⟨(Heap.empty.alloc .worker).2, [], outside⟩⟩

theorem unused_fresh (outside : σ) : Unused ⟨0⟩ (unused outside : Machine I σ) := by
  have hsound : Sound (fun _ => 0) (unused outside : Machine I σ).threads 0 :=
    ⟨.nil, nofun, nofun, nofun⟩
  exact ⟨⟨Nat.zero_lt_one, List.not_mem_nil, rfl⟩, ⟨_, hsound⟩, nofun, nofun⟩

theorem logs_twoCalls (env : Environment I σ) (outside : σ) (outcome : Outcome) :
    ∃ m', Logs env ⟨0⟩ (unused outside) (twoCalls outcome) m' := by
  let ref : Ref .worker := ⟨0⟩
  let tick : Tick I := tickOf outcome
  let node : Node I := .of (.async ref tick) []
  let m : Machine I σ := unused outside
  let log : List (Entry I) := twoCalls outcome
  have hcall : node.call =
      .request (.acquire .worker ref) fun _ => looking ref tick [] .pure := by
    rw [← run_bind, Prog.bind_pure]
    rfl
  let caller (id : Nat) (held : List Lock) (p : Prog I TickResult) : Thread I :=
    ⟨⟨id, .outside id⟩, .running p, held, []⟩
  let goes (threads : List (Thread I)) (nextId : Nat) (worker : Worker) (locked : List Lock)
      (outside : σ) : Machine I σ :=
    ⟨threads, nextId, ⟨{ Heap.empty with workers := #[worker] }, locked, outside⟩⟩
  let held : List Lock := [ref.lock]
  let left : Worker := .ended outcome.result?
  let first : Thread I := caller 0 [] (.pure (.ok .running))
  let after : σ := env.ended ⟨1, .worker ref⟩ outcome outside
  have hsilent : ∀ {m : Machine I σ} {t : Thread I} {s : Step I σ} {r : Request I}
      {k : r.Reply → Prog I TickResult}, t.activity = .running (.request r k) →
      t.step env m.world = some s → s.thread.outcome? = none → r ≠ .read .worker ref →
      (∀ tick children, r ≠ .start ref tick children) → r ≠ .release .worker ref →
      ∀ e, e ∈ (none : Option (Entry I)) ↔ t.Says env ref m e :=
    fun hact hs hgoes hread hstart hrelease e =>
      Thread.says_nothing hact hs hgoes hread hstart hrelease
  have h : Logs env ref m [] (m.spawn 0 node.call).2 := .spawn 0 node .refl
  rw [hcall] at h
  have h : Logs env ref m []
      (goes [caller 0 held (looking ref tick [] .pure)] 1 .idle held outside) :=
    .thread h (.head _) rfl (hsilent rfl rfl rfl nofun nofun nofun)
  have h : Logs env ref m (log.take 1)
      (goes [caller 0 held (opening ref tick [] .pure)] 1 .idle held outside) :=
    .thread h (.head _) rfl fun e => Thread.says_looking rfl
  have h : Logs env ref m (log.take 1)
      (goes [caller 0 held (starting ref tick [] .pure)] 1 .busy held outside) :=
    .thread h (.head _) rfl (hsilent rfl rfl rfl nofun nofun nofun)
  have h : Logs env ref m (log.take 2)
      (goes [.begin 1 (.worker ref) (tick.run []),
        caller 0 held (leaving ref (.ok .running) .pure)] 2 .busy held outside) :=
    .thread h (.head _) rfl fun e => Thread.says_starting rfl
  have h : Logs env ref m (log.take 3)
      (goes [caller 0 held (leaving ref (.ok .running) .pure)] 2 left held after) := by
    have houtside : Thread.Outside ref (.begin 1 (.worker ref) (tick.run []) : Thread I) := by
      refine ⟨?_, nofun, List.not_mem_nil, nofun⟩
      rintro p ⟨⟩
      cases outcome with
      | returned => exact .pure
      | panicked => exact .request trivial nofun
    cases outcome with
    | returned => exact .thread h (.head _) rfl fun e => houtside.says_ended rfl rfl rfl
    | panicked => exact .thread h (.head _) rfl fun e => houtside.says_ended rfl rfl rfl
  have h : Logs env ref m (log.take 4) (goes [first] 2 left [] after) :=
    .thread h (.head _) rfl fun e => Thread.says_leaving rfl
  have h : Logs env ref m (log.take 4) ((goes [first] 2 left [] after).spawn 2 node.call).2 :=
    .spawn 2 node h
  rw [hcall] at h
  have h : Logs env ref m (log.take 4)
      (goes [first, caller 2 held (looking ref tick [] .pure)] 3 left held after) :=
    .thread h (.tail _ (.head _)) rfl (hsilent rfl rfl rfl nofun nofun nofun)
  have hfinds : finding ref tick [] .pure left = taking ref outcome.handedBack .pure := by
    cases outcome <;> rfl
  have h : Logs env ref m (log.take 5)
      (goes [first, caller 2 held (finding ref tick [] .pure left)] 3 left held after) :=
    .thread h (.tail _ (.head _)) rfl fun e => Thread.says_looking rfl
  rw [hfinds] at h
  have h : Logs env ref m (log.take 5)
      (goes [first, caller 2 held (leaving ref outcome.handedBack .pure)] 3 .idle held after) :=
    .thread h (.tail _ (.head _)) rfl (hsilent rfl rfl rfl nofun nofun nofun)
  exact ⟨_, .thread h (.tail _ (.head _)) rfl fun e => Thread.says_leaving rfl⟩

/-! ### The law -/

/-- A run and its log, as the asynchronous tick promises: what each call does and
answers is `Account.Takes`. -/
structure HandsBack (env : Environment I σ) (ref : Ref .worker) (log : List (Entry I))
    (m : Machine I σ) (a : Account I) : Prop where
  /-- The log is one of calls that do what they should, one after another. -/
  follows : Account.new.Follows log a
  /-- The workers end in the order in which they were started, and hand over their
  outcomes in that order, each once. -/
  tallies : a.Tallies log
  /-- No two of them have the same number. -/
  distinct : (starts log).Nodup
  /-- The threads that run the tick are those that the account has at work. -/
  atWork : workers ref m.threads = a.stage.atWork
  /-- Between calls the cell is as the account says. -/
  cell : ref.lock ∉ m.world.locked → a.call = none ∧ m.world.heap.get ref = a.stage.worker
  /-- Between calls the tick is running when one more worker has been started than
  handed back. -/
  isRunning : ref.lock ∉ m.world.locked →
    (Asynchronous.isRunning m.world.heap ref ↔ (starts log).length = (hands log).length + 1)
  /-- A call that has the lock can be carried out to its answer. -/
  frees : ∃ log' m', Logs env ref m log' m' ∧ ref.lock ∉ m'.world.locked
  /-- Whatever step comes next, it goes into the log. -/
  goes : ∀ t ∈ m.threads, ∀ m', m.stepThread env t = some m' →
    ∃ entry : Option (Entry I), ∀ e, e ∈ entry ↔ t.Says env ref m e

/-- **An asynchronous tick hands back every outcome of its workers once.** -/
theorem hands_back_once {log : List (Entry I)} (hunused : Unused ref m)
    (hlogs : Logs env ref m log m') : ∃ a : Account I, HandsBack env ref log m' a := by
  obtain ⟨a, holder, hfollows, hagrees⟩ := hlogs.agrees hunused.agrees
  have htallies := hfollows.tallies
  have hcell : ref.lock ∉ m'.world.locked →
      a.call = none ∧ m'.world.heap.get ref = a.stage.worker := by
    intro hfree
    exact hagrees.free (Option.not_isSome_iff_eq_none.mp fun hsome => hfree (hagrees.locked.mpr hsome))
  have hgoes : ∀ t ∈ m'.threads, ∀ m'', m'.stepThread env t = some m'' →
      ∃ entry : Option (Entry I), ∀ e, e ∈ entry ↔ t.Says env ref m' e := by
    intro t ht m'' hstep
    obtain ⟨entry, -, -, hsaid, -⟩ := hagrees.step ht hstep
    exact ⟨entry, hsaid⟩
  refine ⟨a, hfollows, htallies, (hlogs.starts_nodup hunused.agrees).1, hagrees.atWork, hcell,
    fun hfree => ?_, hagrees.frees env, hgoes⟩
  have hpresent : Asynchronous.isRunning m'.world.heap ref = a.stage.isOut := by
    show Worker.isPresent (m'.world.heap.get ref) = _
    rw [(hcell hfree).2]
    cases a.stage with
    | none | working => rfl
    | ended number outcome =>
      cases outcome with
      | returned | panicked => rfl
  rw [hpresent, htallies.isOut]
  cases a.stage.isOut <;> simp

/-- Two calls: the worker of the first ends before that has answered, and the second hands
its success back. -/
theorem hands_back_once_two_calls :
    let J : Interface := ⟨Empty, nofun⟩
    let env : Environment J Unit := ⟨fun _ _ _ => none, fun _ _ _ => ()⟩
    let ref : Ref .worker := ⟨0⟩
    let tick : Tick J := .const (.ok .success)
    let m : Machine J Unit := ⟨[], 0, ⟨(Heap.empty.alloc .worker).2, [], ()⟩⟩
    let log : List (Entry J) :=
      [.called 0 tick [] .pure .idle, .started 1 tick [], .ended 1 (.returned (.ok .success)),
        .answered 0 (.pure (.ok .running)), .called 2 tick [] .pure (.finished (.ok .success)),
        .answered 2 (.pure (.ok .success))]
    ∃ m' a, Logs env ref m log m' ∧ HandsBack env ref log m' a := by
  intro J env ref tick m log
  obtain ⟨m', h⟩ := logs_twoCalls env () (.returned (.ok .success))
  obtain ⟨a, ha⟩ := hands_back_once (unused_fresh ()) h
  exact ⟨m', a, h, ha⟩

end Machine

end TickTree
