/-
# Programs on one thread

What a program does can be said without the machine: it ends with a value or
with a panic, holds some locks, and leaves a world. Each request is served in
turn; to tick a node is to evaluate the call of the node and give back the locks
that it still holds. What ticking nodes in parallel does is a parameter, since
it is the doing of other threads.

A thread that takes its own steps to its end does the same (`ends_iff`), so what
is proved of evaluations holds of the threads of the machine. Where joins are
determined, so are evaluations (`Evaluates.unique`).

Key definitions: `Ending`, `Joins`, `Prog.Evaluates`, `Thread.Goes`, `Thread.Ends`.
Key theorems: `Prog.Evaluates.bind`, `Prog.Evaluates.unique`, `Thread.ends_iff`.
-/
import TickTree.Machine

namespace TickTree

variable {I : Interface} {σ : Type}

/-- How a program ends. -/
inductive Ending (α : Type) where
  | value (value : α)
  | panic (payload : Payload)

namespace Ending

/-- How a call ends that ends so. -/
def outcome : Ending TickResult → Outcome
  | value result => .returned result
  | panic payload => .panicked payload

/-- How a program goes on that waits for the value. -/
def resume {α β : Type} (next : α → Prog I β) : Ending α → Prog I β
  | value a => next a
  | panic payload => .panic payload

end Ending

/-- What ticking nodes in parallel may do: the world before, the nodes, the
reports in the order in which they arrive, and the world after. -/
abbrev Joins (I : Interface) (σ : Type) :=
  World I σ → List (Node I) → List Report → World I σ → Prop

/-- What a program would do after a panic does not matter. -/
theorem Prog.request_panic {α : Type} (payload : Payload)
    (next : (Request.panic payload).Reply → Prog I α) :
    .request (.panic payload) next = Prog.panic payload := by
  unfold Prog.panic
  congr 1
  exact funext fun e => Empty.elim e

/-- The program, evaluated by a tick that holds the locks `held` in the world
`w`, ends so, and leaves those locks and that world. -/
inductive Prog.Evaluates (env : Environment I σ) (caller : Caller) (joins : Joins I σ) :
    {α : Type} → Prog I α → List Lock → World I σ → Ending α → List Lock → World I σ → Prop
  | pure {α : Type} {a : α} {held w} : Evaluates env caller joins (.pure a) held w (.value a) held w
  | serve {α : Type} {r : Request I} {next : r.Reply → Prog I α} {reply ending}
      {held held₁ held' : List Lock} {w w₁ w' : World I σ} :
      w.serve env caller held r = some (reply, held₁, w₁) →
      Evaluates env caller joins (next reply) held₁ w₁ ending held' w' →
      Evaluates env caller joins (.request r next) held w ending held' w'
  | tick {α : Type} {node : Node I} {next : TickResult → Prog I α} {result ending}
      {held held₁ held' : List Lock} {w w₁ w' : World I σ} :
      Evaluates env caller joins node.call [] w (.value result) held₁ w₁ →
      Evaluates env caller joins (next result) held (w₁.unlock held₁) ending held' w' →
      Evaluates env caller joins (.request (.tick node) next) held w ending held' w'
  | tickPanic {α : Type} {node : Node I} {next : TickResult → Prog I α} {payload}
      {held held₁ : List Lock} {w w₁ : World I σ} :
      Evaluates env caller joins node.call [] w (.panic payload) held₁ w₁ →
      Evaluates env caller joins (.request (.tick node) next) held w (.panic payload) held
        (w₁.unlock held₁)
  | parallel {α : Type} {nodes : List (Node I)} {next : List Report → Prog I α} {reports ending}
      {held held' : List Lock} {w w₁ w' : World I σ} :
      joins w nodes reports w₁ →
      Evaluates env caller joins (next reports) held w₁ ending held' w' →
      Evaluates env caller joins (.request (.parallel nodes) next) held w ending held' w'
  | panic {α : Type} {payload} {next : (Request.panic payload).Reply → Prog I α} {held w} :
      Evaluates env caller joins (.request (.panic payload) next) held w (.panic payload) held w

theorem World.unlock_nil (w : World I σ) : w.unlock [] = w := by
  have hfilter : w.locked.filter (fun l => !([] : List Lock).contains l) = w.locked :=
    List.filter_eq_self.mpr fun _ _ => rfl
  simp only [unlock, hfilter]

namespace Prog.Evaluates

variable {env : Environment I σ} {caller : Caller} {joins : Joins I σ} {α β : Type}
  {held held₁ held' : List Lock} {w w₁ w' : World I σ}

/-- One program after another. -/
theorem bind {p : Prog I α} {f : α → Prog I β} {a : α} {ending : Ending β}
    (hp : Evaluates env caller joins p held w (.value a) held₁ w₁)
    (hf : Evaluates env caller joins (f a) held₁ w₁ ending held' w') :
    Evaluates env caller joins (p.bind f) held w ending held' w' := by
  generalize he : Ending.value a = first at hp
  induction hp with
  | pure =>
    cases he
    exact hf
  | serve hserve _ ih => exact .serve hserve (ih hf he)
  | tick hcall _ _ ih => exact .tick hcall (ih hf he)
  | tickPanic => cases he
  | parallel hjoin _ ih => exact .parallel hjoin (ih hf he)
  | panic => cases he

/-- Ticking a node whose call gives back all its locks. -/
theorem tick_nil {node : Node I} {next : TickResult → Prog I α} {result : TickResult}
    {ending : Ending α} (hcall : Evaluates env caller joins node.call [] w (.value result) [] w₁)
    (hnext : Evaluates env caller joins (next result) held w₁ ending held' w') :
    Evaluates env caller joins (.request (.tick node) next) held w ending held' w' :=
  .tick hcall (w₁.unlock_nil.symm ▸ hnext)

/-- Who evaluates a program does not matter where the world treats all alike. -/
theorem change_caller {p : Prog I α} {ending : Ending α} (caller' : Caller)
    (halike : ∀ (w : World I σ) held r, w.serve env caller held r = w.serve env caller' held r)
    (h : Evaluates env caller joins p held w ending held' w') :
    Evaluates env caller' joins p held w ending held' w' := by
  induction h with
  | pure => exact .pure
  | serve hserve _ ih => exact .serve ((halike ..).symm.trans hserve) ih
  | tick _ _ ihcall ihnext => exact .tick ihcall ihnext
  | tickPanic _ ihcall => exact .tickPanic ihcall
  | parallel hjoin _ ih => exact .parallel hjoin ih
  | panic => exact .panic

theorem pure_iff {a : α} {ending : Ending α} :
    Evaluates env caller joins (.pure a) held w ending held' w' ↔
      ending = .value a ∧ held' = held ∧ w' = w := by
  constructor
  · intro h
    cases h
    exact ⟨rfl, rfl, rfl⟩
  · rintro ⟨rfl, rfl, rfl⟩
    exact .pure

/-- A program whose first request is served goes on with the answer, and in no
other way. -/
theorem serve_iff {r : Request I} {next : r.Reply → Prog I α} {reply : r.Reply} {ending : Ending α}
    (hserve : w.serve env caller held r = some (reply, held₁, w₁)) :
    Evaluates env caller joins (.request r next) held w ending held' w' ↔
      Evaluates env caller joins (next reply) held₁ w₁ ending held' w' := by
  refine ⟨fun h => ?_, .serve hserve⟩
  cases h with
  | serve hserve' hnext =>
    cases hserve.symm.trans hserve'
    exact hnext
  | tick | tickPanic | parallel | panic => cases hserve

theorem parallel_iff {nodes : List (Node I)} {next : List Report → Prog I α} {ending : Ending α} :
    Evaluates env caller joins (.request (.parallel nodes) next) held w ending held' w' ↔
      ∃ reports w₁, joins w nodes reports w₁ ∧
        Evaluates env caller joins (next reports) held w₁ ending held' w' := by
  constructor
  · intro h
    cases h with
    | serve hserve => cases hserve
    | parallel hjoin hnext => exact ⟨_, _, hjoin, hnext⟩
  · rintro ⟨reports, w₁, hjoin, hnext⟩
    exact .parallel hjoin hnext

/-- Evaluations are determined if joins are. -/
theorem unique {p : Prog I α} {ending ending' : Ending α}
    (determined : ∀ w nodes reports w₁ reports' w₁', joins w nodes reports w₁ →
      joins w nodes reports' w₁' → reports = reports' ∧ w₁ = w₁')
    (h : Evaluates env caller joins p held w ending held₁ w₁)
    (h' : Evaluates env caller joins p held w ending' held' w') :
    ending = ending' ∧ held₁ = held' ∧ w₁ = w' := by
  induction h generalizing held' w' with
  | pure =>
    cases h'
    exact ⟨rfl, rfl, rfl⟩
  | serve hserve _ ih =>
    cases h' with
    | serve hserve' hnext =>
      cases hserve.symm.trans hserve'
      exact ih hnext
    | tick | tickPanic | parallel | panic => cases hserve
  | tick _ _ ihcall ihnext =>
    cases h' with
    | serve hserve => cases hserve
    | tick hcall hnext =>
      obtain ⟨hvalue, rfl, rfl⟩ := ihcall hcall
      cases hvalue
      exact ihnext hnext
    | tickPanic hcall => cases (ihcall hcall).1
  | tickPanic _ ihcall =>
    cases h' with
    | serve hserve => cases hserve
    | tick hcall => cases (ihcall hcall).1
    | tickPanic hcall =>
      obtain ⟨hpanic, rfl, rfl⟩ := ihcall hcall
      cases hpanic
      exact ⟨rfl, rfl, rfl⟩
  | parallel hjoin _ ih =>
    cases h' with
    | serve hserve => cases hserve
    | parallel hjoin' hnext =>
      obtain ⟨rfl, rfl⟩ := determined _ _ _ _ _ _ hjoin hjoin'
      exact ih hnext
  | panic =>
    cases h' with
    | serve hserve => cases hserve
    | panic => exact ⟨rfl, rfl, rfl⟩

end Prog.Evaluates

/-! ### Threads -/

/-- The thread goes on by its own steps, where `joins` carries out the nodes that
it ticks in parallel. -/
inductive Thread.Goes (env : Environment I σ) (joins : Joins I σ) :
    Thread I → World I σ → Thread I → World I σ → Prop
  | refl {t w} : Goes env joins t w t w
  | step {t t₁ t' : Thread I} {w w₁ w' : World I σ} :
      (∀ nodes next, t.activity ≠ .running (.request (.parallel nodes) next)) →
      t.step env w = some ⟨t₁, w₁, []⟩ → Goes env joins t₁ w₁ t' w' → Goes env joins t w t' w'
  | join {t t' : Thread I} {w w₁ w' : World I σ} {nodes next reports} :
      t.activity = .running (.request (.parallel nodes) next) → joins w nodes reports w₁ →
      Goes env joins { t with activity := .running (next reports) } w₁ t' w' →
      Goes env joins t w t' w'

namespace Thread

variable {env : Environment I σ} {caller : Caller} {joins : Joins I σ} {t t' t'' : Thread I}
  {w w' w'' : World I σ}

theorem Goes.trans (h : Goes env joins t w t' w') (h' : Goes env joins t' w' t'' w'') :
    Goes env joins t w t'' w'' := by
  induction h with
  | refl => exact h'
  | step hn hs _ ih => exact .step hn hs (ih h')
  | join ha hj _ ih => exact .join ha hj (ih h')

/-- A request that the world serves. -/
theorem serve_eq {r : Request I} {next : r.Reply → Prog I TickResult} {reply : r.Reply}
    {held : List Lock} (h : w.serve env t.toCaller t.held r = some (reply, held, w')) :
    t.serve env w r next = some ⟨{ t with activity := .running (next reply), held }, w', []⟩ := by
  cases r with
  | tick | parallel | start | panic => cases h
  | read | swap | alloc | acquire | release | ask => simp only [serve, h, Option.map_some]

/-- A thread that leaves a tick for one that waits for it. -/
theorem step_of_frame {frame : Frame I} {frames : List (Frame I)} {ending : Ending TickResult}
    {p : Prog I TickResult} {held : List Lock} (hp : p = ending.resume .pure) :
    step env ⟨caller, .running p, held, frame :: frames⟩ w =
      some ⟨⟨caller, .running (ending.resume frame.next), frame.held, frames⟩, w.unlock held,
        []⟩ := by
  subst hp
  cases ending <;> rfl

/-- A thread that leaves its last tick. -/
theorem step_of_last {ending : Ending TickResult} {p : Prog I TickResult} {held : List Lock}
    (hp : p = ending.resume .pure) :
    step env ⟨caller, .running p, held, []⟩ w =
      some ⟨⟨caller, .ended ending.outcome, [], []⟩, w.unlock held, []⟩ := by
  subst hp
  cases ending <;> rfl

theorem not_parallel_of_ending {ending : Ending TickResult} {held : List Lock}
    {frames : List (Frame I)} (nodes next) :
    (⟨caller, .running (ending.resume .pure), held, frames⟩ : Thread I).activity ≠
      .running (.request (.parallel nodes) next) := by
  cases ending <;> simp [Ending.resume, Prog.panic]

/-- A thread carries out what is evaluated, whatever it does next and whoever
waits for it. -/
theorem goes_of_evaluates {α : Type} {p : Prog I α} {ending : Ending α} {held held' : List Lock}
    (h : p.Evaluates env caller joins held w ending held' w') :
    ∀ (next : α → Prog I TickResult) (frames : List (Frame I)),
      Goes env joins ⟨caller, .running (p.bind next), held, frames⟩ w
        ⟨caller, .running (ending.resume next), held', frames⟩ w' := by
  induction h with
  | pure => exact fun _ _ => .refl
  | @serve _ r _ reply ending held held₁ held' w w₁ w' hserve _ ih =>
    intro next frames
    refine .step (fun nodes _ ha => ?_) (serve_eq hserve) (ih next frames)
    cases ha
    cases hserve
  | @tick _ node k result ending held held₁ held' w w₁ w' _ _ ihcall ihnext =>
    intro next frames
    refine .step (fun _ _ ha => nomatch ha) rfl ?_
    have hcall := ihcall .pure (⟨fun r => (k r).bind next, held⟩ :: frames)
    rw [Prog.bind_pure] at hcall
    refine hcall.trans (.step not_parallel_of_ending (step_of_frame rfl) ?_)
    exact ihnext next frames
  | @tickPanic _ node k payload held held₁ w w₁ _ ihcall =>
    intro next frames
    refine .step (fun _ _ ha => nomatch ha) rfl ?_
    have hcall := ihcall .pure (⟨fun r => (k r).bind next, held⟩ :: frames)
    rw [Prog.bind_pure] at hcall
    exact hcall.trans (.step not_parallel_of_ending (step_of_frame rfl) .refl)
  | parallel hjoin _ ih => exact fun next frames => .join rfl hjoin (ih next frames)
  | @panic _ payload k held w =>
    intro next frames
    have hk : (Prog.request (.panic payload) k).bind next = .panic payload :=
      Prog.request_panic payload _
    rw [hk]
    exact .refl

/-- The ticks that wait for one that ends so, innermost first, go on to the end
of the thread. -/
inductive Unwinds (env : Environment I σ) (caller : Caller) (joins : Joins I σ) :
    List (Frame I) → Ending TickResult → List Lock → World I σ → Outcome → World I σ → Prop
  | last {ending held w} : Unwinds env caller joins [] ending held w ending.outcome (w.unlock held)
  | frame {frame : Frame I} {frames ending ending' outcome} {held held' : List Lock}
      {w w₁ w' : World I σ} :
      (ending.resume frame.next).Evaluates env caller joins frame.held (w.unlock held) ending' held'
        w₁ →
      Unwinds env caller joins frames ending' held' w₁ outcome w' →
      Unwinds env caller joins (frame :: frames) ending held w outcome w'

/-- What a thread that goes to its end has carried out: the program it was in,
and then the ticks that waited. -/
theorem evaluates_of_goes {outcome : Outcome} (h : Goes env joins t w t' w')
    (hend : t'.outcome? = some outcome) {p : Prog I TickResult} (ha : t.activity = .running p) :
    ∃ ending held₁ w₁, p.Evaluates env t.toCaller joins t.held w ending held₁ w₁ ∧
      Unwinds env t.toCaller joins t.frames ending held₁ w₁ outcome w' := by
  induction h generalizing p with
  | @refl t w =>
    simp only [outcome?, ha] at hend
    cases hend
  | @step t t₁ t' w w₁ w' hn hs hgo ih =>
    obtain ⟨caller, activity, held, frames⟩ := t
    obtain rfl : activity = .running p := ha
    -- a program that is over leaves its tick for the innermost that waits
    have hleave : ∀ ending : Ending TickResult, p = ending.resume .pure →
        ∃ ending held₁ w₁, p.Evaluates env caller joins held w ending held₁ w₁ ∧
          Unwinds env caller joins frames ending held₁ w₁ outcome w' := by
      intro ending hp
      have hover : p.Evaluates env caller joins held w ending held w := by
        subst hp
        cases ending with
        | value a => exact .pure
        | panic payload => exact .panic
      refine ⟨ending, held, w, hover, ?_⟩
      cases frames with
      | nil =>
        rw [step_of_last hp] at hs
        cases hs
        cases hgo with
        | refl =>
          cases hend
          exact .last
        | step _ hs => cases hs
        | join ha => cases ha
      | cons frame frames =>
        rw [step_of_frame hp] at hs
        cases hs
        obtain ⟨ending', held', w₂, heval, hunwind⟩ := ih hend rfl
        exact .frame heval hunwind
    cases p with
    | pure result => exact hleave (.value result) rfl
    | request r next =>
      cases r with
      | tick node =>
        cases hs
        obtain ⟨ending, held₁, w₁, hcall, hunwind⟩ := ih hend rfl
        cases hunwind with
        | frame heval hunwind =>
          cases ending with
          | value result => exact ⟨_, _, _, .tick hcall heval, hunwind⟩
          | panic payload =>
            cases heval with
            | serve hserve => cases hserve
            | panic => exact ⟨_, _, _, .tickPanic hcall, hunwind⟩
      | parallel nodes => exact absurd rfl (hn nodes next)
      | start => cases hs
      | panic payload =>
        exact hleave (.panic payload) (Prog.request_panic payload next)
      | read | swap | alloc | acquire | release | ask =>
        simp only [step, serve, Option.map_eq_some_iff] at hs
        obtain ⟨⟨reply, held₁, w₂⟩, hserve, heq⟩ := hs
        cases heq
        obtain ⟨ending, held₂, w₃, heval, hunwind⟩ := ih hend rfl
        exact ⟨ending, held₂, w₃, .serve hserve heval, hunwind⟩
  | join hr hjoin _ ih =>
    cases ha.symm.trans hr
    obtain ⟨ending, held₁, w₁, heval, hunwind⟩ := ih hend rfl
    exact ⟨ending, held₁, w₁, .parallel hjoin heval, hunwind⟩

/-- A thread that begins the program in the world `w` ends so, and leaves `w'`. -/
def Ends (env : Environment I σ) (joins : Joins I σ) (id : Nat) (origin : Origin)
    (p : Prog I TickResult) (w : World I σ) (outcome : Outcome) (w' : World I σ) : Prop :=
  ∃ t', Goes env joins (begin id origin p) w t' w' ∧ t'.outcome? = some outcome

/-- **The thread of a program and its evaluation end alike**, and the thread gives
back the locks that the program still holds. -/
theorem ends_iff {id : Nat} {origin : Origin} {p : Prog I TickResult} {outcome : Outcome} :
    Ends env joins id origin p w outcome w' ↔
      ∃ ending held w₁, p.Evaluates env ⟨id, origin⟩ joins [] w ending held w₁ ∧
        outcome = ending.outcome ∧ w' = w₁.unlock held := by
  unfold Ends
  constructor
  · rintro ⟨t', hgo, hend⟩
    obtain ⟨ending, held, w₁, heval, hunwind⟩ := evaluates_of_goes hgo hend rfl
    cases hunwind
    exact ⟨ending, held, w₁, heval, rfl, rfl⟩
  · rintro ⟨ending, held, w₁, heval, rfl, rfl⟩
    have hgo := goes_of_evaluates heval .pure []
    rw [Prog.bind_pure] at hgo
    refine ⟨⟨⟨id, origin⟩, .ended ending.outcome, [], []⟩, ?_, rfl⟩
    exact hgo.trans (.step not_parallel_of_ending (step_of_last rfl) .refl)

/-- Where joins are determined and the world treats all threads alike, a program
that is evaluated to a result ends so on every thread, and in no other way. -/
theorem ends_iff_of_evaluates {p : Prog I TickResult} {result : TickResult}
    (determined : ∀ w nodes reports w₁ reports' w₁', joins w nodes reports w₁ →
      joins w nodes reports' w₁' → reports = reports' ∧ w₁ = w₁')
    (halike : ∀ (caller' : Caller) (w : World I σ) held r,
      w.serve env caller held r = w.serve env caller' held r)
    (h : p.Evaluates env caller joins [] w (.value result) [] w') (id : Nat) (origin : Origin)
    (outcome : Outcome) (w₁ : World I σ) :
    Ends env joins id origin p w outcome w₁ ↔ outcome = .returned result ∧ w₁ = w' := by
  have h' := h.change_caller ⟨id, origin⟩ (halike ⟨id, origin⟩)
  rw [ends_iff]
  constructor
  · rintro ⟨ending, held, w₂, hother, rfl, rfl⟩
    obtain ⟨rfl, rfl, rfl⟩ := hother.unique determined h'
    exact ⟨rfl, World.unlock_nil _⟩
  · rintro ⟨rfl, rfl⟩
    exact ⟨_, _, _, h', rfl, (World.unlock_nil _).symm⟩

end Thread

end TickTree
