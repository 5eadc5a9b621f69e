/-
# Programs among other threads

A program rarely has the machine to itself: other threads change the world
between its requests, and workers that it starts go on beside it. What the program
does is evaluated here with all of that around it. Of the others only this is known:
which changes they may make, where any number of changes is one change again, and
what ticking nodes in parallel may come to.

The ticks of the nodes that the program calls one at a time are its own doing and
are evaluated like the program. A thread that is followed to its end, among others
that do such things, does exactly this (`Thread.lasts_iff`).

Key definitions: `Others`, `Prog.Among`, `Node.Ticked`, `Thread.Lasts`.
Key theorems: `Prog.Among.serve_iff`, `Prog.Among.bind_iff`, `Thread.lasts_iff`.
-/
import TickTree.Proofs.Acting
import TickTree.Proofs.Evaluate

namespace TickTree

variable {I : Interface} {σ α β : Type}

/-- What other threads may do: they change the world, and they carry out nodes that
are ticked in parallel. -/
structure Others (I : Interface) (σ : Type) where
  change : World I σ → World I σ → Prop
  joins : Joins I σ
  refl : ∀ w, change w w
  trans : ∀ {u v w}, change u v → change v w → change u w

/-- The program, evaluated among others by a tick that holds the locks `held` in
the world `w`, ends so, and leaves those locks and that world. -/
inductive Prog.Among (env : Environment I σ) (others : Others I σ) (caller : Caller) :
    {α : Type} → Prog I α → List Lock → World I σ → Ending α → List Lock → World I σ → Prop
  | pure {α : Type} {a : α} {held w w'} :
      others.change w w' → Among env others caller (.pure a) held w (.value a) held w'
  | serve {α : Type} {r : Request I} {next : r.Reply → Prog I α} {reply ending}
      {held held₁ held' : List Lock} {w w₀ w₁ w' : World I σ} :
      others.change w w₀ → w₀.serve env caller held r = some (reply, held₁, w₁) →
      Among env others caller (next reply) held₁ w₁ ending held' w' →
      Among env others caller (.request r next) held w ending held' w'
  | tick {α : Type} {node : Node I} {next : TickResult → Prog I α} {result ending}
      {held held₁ held' : List Lock} {w w₀ w₁ w' : World I σ} :
      others.change w w₀ → Among env others caller node.call [] w₀ (.value result) held₁ w₁ →
      Among env others caller (next result) held (w₁.unlock held₁) ending held' w' →
      Among env others caller (.request (.tick node) next) held w ending held' w'
  | tickPanic {α : Type} {node : Node I} {next : TickResult → Prog I α} {payload}
      {held held₁ : List Lock} {w w₀ w₁ w' : World I σ} :
      others.change w w₀ → Among env others caller node.call [] w₀ (.panic payload) held₁ w₁ →
      others.change (w₁.unlock held₁) w' →
      Among env others caller (.request (.tick node) next) held w (.panic payload) held w'
  | parallel {α : Type} {nodes : List (Node I)} {next : List Report → Prog I α} {reports ending}
      {held held' : List Lock} {w w₀ w₁ w' : World I σ} :
      others.change w w₀ → others.joins w₀ nodes reports w₁ →
      Among env others caller (next reports) held w₁ ending held' w' →
      Among env others caller (.request (.parallel nodes) next) held w ending held' w'
  | start {α : Type} {worker : Ref .worker} {tick : Tick I} {children : List (Node I)}
      {next : Unit → Prog I α} {ending} {held held' : List Lock} {w w₀ w' : World I σ} :
      others.change w w₀ → Among env others caller (next ()) held w₀ ending held' w' →
      Among env others caller (.request (.start worker tick children) next) held w ending held' w'
  | panic {α : Type} {payload} {next : (Request.panic payload).Reply → Prog I α} {held w w'} :
      others.change w w' →
      Among env others caller (.request (.panic payload) next) held w (.panic payload) held w'

/-- A tick of the node, run to completion among others: how it ends, and the world
when it has given back the locks that it still holds. -/
def Node.Ticked (env : Environment I σ) (others : Others I σ) (caller : Caller) (node : Node I)
    (w : World I σ) (ending : Ending TickResult) (w' : World I σ) : Prop :=
  ∃ held w₁, node.call.Among env others caller [] w ending held w₁ ∧ w' = w₁.unlock held

namespace Prog.Among

variable {env : Environment I σ} {others : Others I σ} {caller : Caller}
  {held held₁ held' : List Lock} {w w₁ w' w'' : World I σ} {p : Prog I α} {ending : Ending α}

/-- Changes that come first. -/
theorem change (hchange : others.change w w₁)
    (h : Among env others caller p held w₁ ending held' w') :
    Among env others caller p held w ending held' w' := by
  cases h with
  | pure ho => exact .pure (others.trans hchange ho)
  | serve ho hserve hnext => exact .serve (others.trans hchange ho) hserve hnext
  | tick ho hcall hnext => exact .tick (others.trans hchange ho) hcall hnext
  | tickPanic ho hcall hlast => exact .tickPanic (others.trans hchange ho) hcall hlast
  | parallel ho hjoin hnext => exact .parallel (others.trans hchange ho) hjoin hnext
  | start ho hnext => exact .start (others.trans hchange ho) hnext
  | panic ho => exact .panic (others.trans hchange ho)

/-- Changes that come last. -/
theorem trailing (h : Among env others caller p held w ending held' w')
    (hchange : others.change w' w'') : Among env others caller p held w ending held' w'' := by
  induction h with
  | pure ho => exact .pure (others.trans ho hchange)
  | serve ho hserve _ ih => exact .serve ho hserve (ih hchange)
  | tick ho hcall _ _ ih => exact .tick ho hcall (ih hchange)
  | tickPanic ho hcall hlast => exact .tickPanic ho hcall (others.trans hlast hchange)
  | parallel ho hjoin _ ih => exact .parallel ho hjoin (ih hchange)
  | start ho _ ih => exact .start ho (ih hchange)
  | panic ho => exact .panic (others.trans ho hchange)

/-- What a program does alone it can do among others that change nothing meanwhile. -/
theorem of_evaluates (h : p.Evaluates env caller others.joins held w ending held' w') :
    Among env others caller p held w ending held' w' := by
  induction h with
  | pure => exact .pure (others.refl _)
  | serve hserve _ ih => exact .serve (others.refl _) hserve ih
  | tick _ _ ihcall ih => exact .tick (others.refl _) ihcall ih
  | tickPanic _ ihcall => exact .tickPanic (others.refl _) ihcall (others.refl _)
  | parallel hjoin _ ih => exact .parallel (others.refl _) hjoin ih
  | panic => exact .panic (others.refl _)

theorem pure_iff {a : α} : Among env others caller (.pure a) held w ending held' w' ↔
    ending = .value a ∧ held' = held ∧ others.change w w' := by
  constructor
  · intro h
    cases h with
    | pure ho => exact ⟨rfl, rfl, ho⟩
  · rintro ⟨rfl, rfl, ho⟩
    exact .pure ho

/-- A request that the world serves is served after some changes by others. -/
theorem serve_iff {r : Request I} {next : r.Reply → Prog I α} (hserved : r.isServed) :
    Among env others caller (.request r next) held w ending held' w' ↔
      ∃ w₀ reply held₁ w₁, others.change w w₀ ∧
        w₀.serve env caller held r = some (reply, held₁, w₁) ∧
        Among env others caller (next reply) held₁ w₁ ending held' w' := by
  constructor
  · intro h
    cases h with
    | serve ho hserve hnext => exact ⟨_, _, _, _, ho, hserve, hnext⟩
    | tick | tickPanic | parallel | start | panic => cases hserved
  · rintro ⟨w₀, reply, held₁, w₁, ho, hserve, hnext⟩
    exact .serve ho hserve hnext

theorem panic_iff {payload : Payload} :
    Among env others caller (.panic payload : Prog I α) held w ending held' w' ↔
      ending = .panic payload ∧ held' = held ∧ others.change w w' := by
  constructor
  · intro h
    cases h with
    | serve _ hserve => cases hserve
    | panic ho => exact ⟨rfl, rfl, ho⟩
  · rintro ⟨rfl, rfl, ho⟩
    exact .panic ho

/-- A program that ticks a node goes on with how the tick ended. -/
theorem tick_iff {node : Node I} {next : TickResult → Prog I α} :
    Among env others caller (.request (.tick node) next) held w ending held' w' ↔
      ∃ w₀ first w₁, others.change w w₀ ∧ node.Ticked env others caller w₀ first w₁ ∧
        Among env others caller (first.resume next) held w₁ ending held' w' := by
  constructor
  · intro h
    cases h with
    | serve _ hserve => cases hserve
    | tick ho hcall hnext => exact ⟨_, _, _, ho, ⟨_, _, hcall, rfl⟩, hnext⟩
    | tickPanic ho hcall hlast =>
      exact ⟨_, _, _, ho, ⟨_, _, hcall, rfl⟩, panic_iff.mpr ⟨rfl, rfl, hlast⟩⟩
  · rintro ⟨w₀, first, _, ho, ⟨held₁, w₁, hcall, rfl⟩, hnext⟩
    cases first with
    | value result => exact .tick ho hcall hnext
    | panic payload =>
      obtain ⟨rfl, rfl, hlast⟩ := panic_iff.mp hnext
      exact .tickPanic ho hcall hlast

/-- One program after another that ends with a value. -/
theorem bind {f : α → Prog I β} {a : α} {ending : Ending β}
    (hp : Among env others caller p held w (.value a) held₁ w₁)
    (hf : Among env others caller (f a) held₁ w₁ ending held' w') :
    Among env others caller (p.bind f) held w ending held' w' := by
  generalize he : Ending.value a = first at hp
  induction hp with
  | pure ho =>
    cases he
    exact hf.change ho
  | serve ho hserve _ ih => exact .serve ho hserve (ih hf he)
  | tick ho hcall _ _ ih => exact .tick ho hcall (ih hf he)
  | tickPanic => cases he
  | parallel ho hjoin _ ih => exact .parallel ho hjoin (ih hf he)
  | start ho _ ih => exact .start ho (ih hf he)
  | panic => cases he

/-- A program that panics does so before any other. -/
theorem bind_panic {f : α → Prog I β} {payload : Payload}
    (hp : Among env others caller p held w (.panic payload) held' w') :
    Among env others caller (p.bind f) held w (.panic payload) held' w' := by
  generalize he : Ending.panic payload = first at hp
  induction hp with
  | pure => cases he
  | serve ho hserve _ ih => exact .serve ho hserve (ih he)
  | tick ho hcall _ _ ih => exact .tick ho hcall (ih he)
  | tickPanic ho hcall hlast =>
    cases he
    exact .tickPanic ho hcall hlast
  | parallel ho hjoin _ ih => exact .parallel ho hjoin (ih he)
  | start ho _ ih => exact .start ho (ih he)
  | panic ho =>
    cases he
    exact .panic ho

/-- One program after another: the first panics, or it ends with a value and the
second goes on with that. -/
theorem bind_iff {f : α → Prog I β} {ending : Ending β} :
    Among env others caller (p.bind f) held w ending held' w' ↔
      (∃ payload, ending = .panic payload ∧
        Among env others caller p held w (.panic payload) held' w') ∨
      ∃ a held₁ w₁, Among env others caller p held w (.value a) held₁ w₁ ∧
        Among env others caller (f a) held₁ w₁ ending held' w' := by
  constructor
  · intro h
    induction p generalizing held w with
    | pure a => exact .inr ⟨a, held, w, .pure (others.refl w), h⟩
    | request r next ih =>
      cases h with
      | serve ho hserve hnext =>
        rcases ih _ hnext with ⟨payload, rfl, hp⟩ | ⟨a, held₁, w₁, hp, hf⟩
        · exact .inl ⟨payload, rfl, .serve ho hserve hp⟩
        · exact .inr ⟨a, held₁, w₁, .serve ho hserve hp, hf⟩
      | tick ho hcall hnext =>
        rcases ih _ hnext with ⟨payload, rfl, hp⟩ | ⟨a, held₁, w₁, hp, hf⟩
        · exact .inl ⟨payload, rfl, .tick ho hcall hp⟩
        · exact .inr ⟨a, held₁, w₁, .tick ho hcall hp, hf⟩
      | tickPanic ho hcall hlast => exact .inl ⟨_, rfl, .tickPanic ho hcall hlast⟩
      | parallel ho hjoin hnext =>
        rcases ih _ hnext with ⟨payload, rfl, hp⟩ | ⟨a, held₁, w₁, hp, hf⟩
        · exact .inl ⟨payload, rfl, .parallel ho hjoin hp⟩
        · exact .inr ⟨a, held₁, w₁, .parallel ho hjoin hp, hf⟩
      | start ho hnext =>
        rcases ih _ hnext with ⟨payload, rfl, hp⟩ | ⟨a, held₁, w₁, hp, hf⟩
        · exact .inl ⟨payload, rfl, .start ho hp⟩
        · exact .inr ⟨a, held₁, w₁, .start ho hp, hf⟩
      | panic ho => exact .inl ⟨_, rfl, .panic ho⟩
  · rintro (⟨payload, rfl, hp⟩ | ⟨a, held₁, w₁, hp, hf⟩)
    · exact hp.bind_panic
    · exact hp.bind hf

end Prog.Among

/-- The same end, with another value. -/
def Ending.map (f : α → β) : Ending α → Ending β
  | .value a => .value (f a)
  | .panic payload => .panic payload

/-- A program whose value is changed when it is over. -/
theorem Prog.Among.map_iff {env : Environment I σ} {others : Others I σ} {caller : Caller}
    {held held' : List Lock} {w w' : World I σ} {p : Prog I α} {f : α → β} {ending : Ending β} :
    (p.bind fun a => .pure (f a)).Among env others caller held w ending held' w' ↔
      ∃ first, p.Among env others caller held w first held' w' ∧ ending = first.map f := by
  rw [bind_iff]
  constructor
  · rintro (⟨payload, rfl, h⟩ | ⟨a, held₁, w₁, h, hlast⟩)
    · exact ⟨.panic payload, h, rfl⟩
    · obtain ⟨rfl, rfl, ho⟩ := pure_iff.mp hlast
      exact ⟨.value a, h.trailing ho, rfl⟩
  · rintro ⟨first, h, rfl⟩
    cases first with
    | value a => exact .inr ⟨a, held', w', h, .pure (others.refl w')⟩
    | panic payload => exact .inl ⟨payload, rfl, h⟩

/-! ### Threads -/

/-- The thread goes on among others, which change the world now and then and carry
out the nodes that it ticks in parallel. -/
inductive Thread.Lasts (env : Environment I σ) (others : Others I σ) :
    Thread I → World I σ → Thread I → World I σ → Prop
  | refl {t w} : Lasts env others t w t w
  | change {t w w₁ t' w'} : others.change w w₁ → Lasts env others t w₁ t' w' →
      Lasts env others t w t' w'
  | step {t : Thread I} {w t' w'} {s : Step I σ} :
      (∀ nodes next, t.activity ≠ .running (.request (.parallel nodes) next)) →
      t.step env w = some s → Lasts env others s.thread s.world t' w' → Lasts env others t w t' w'
  | join {t t' : Thread I} {w w₁ w' : World I σ} {nodes next reports} :
      t.activity = .running (.request (.parallel nodes) next) → others.joins w nodes reports w₁ →
      Lasts env others { t with activity := .running (next reports) } w₁ t' w' →
      Lasts env others t w t' w'

namespace Thread

variable {env : Environment I σ} {others : Others I σ} {caller : Caller} {t t' t'' : Thread I}
  {w w' w'' : World I σ} {outcome : Outcome}

theorem Lasts.trans (h : Lasts env others t w t' w') (h' : Lasts env others t' w' t'' w'') :
    Lasts env others t w t'' w'' := by
  induction h with
  | refl => exact h'
  | change ho _ ih => exact .change ho (ih h')
  | step hn hs _ ih => exact .step hn hs (ih h')
  | join ha hj _ ih => exact .join ha hj (ih h')

/-- The ticks that wait for one that ends so, innermost first, go on to the end of
the thread. -/
inductive UnwindsAmong (env : Environment I σ) (others : Others I σ) (caller : Caller) :
    List (Frame I) → Ending TickResult → List Lock → World I σ → Outcome → World I σ → Prop
  | last {ending held w w'} : others.change (w.unlock held) w' →
      UnwindsAmong env others caller [] ending held w ending.outcome w'
  | frame {frame : Frame I} {frames ending ending' outcome} {held held' : List Lock}
      {w w₁ w' : World I σ} :
      (ending.resume frame.next).Among env others caller frame.held (w.unlock held) ending' held'
        w₁ →
      UnwindsAmong env others caller frames ending' held' w₁ outcome w' →
      UnwindsAmong env others caller (frame :: frames) ending held w outcome w'

/-- What is left of a thread up to its end: the rest of the program it is in, and
the ticks that wait. -/
def Finishes (env : Environment I σ) (others : Others I σ) (t : Thread I) (w : World I σ)
    (outcome : Outcome) (w' : World I σ) : Prop :=
  match t.activity with
  | .running p => ∃ ending held w₁, p.Among env others t.toCaller t.held w ending held w₁ ∧
      UnwindsAmong env others t.toCaller t.frames ending held w₁ outcome w'
  | .joining pending reports next => pending = 0 →
      ∃ ending held w₁, (next reports).Among env others t.toCaller t.held w ending held w₁ ∧
        UnwindsAmong env others t.toCaller t.frames ending held w₁ outcome w'
  | .ended last => last = outcome ∧ others.change w w'

theorem Finishes.change (ho : others.change w w') (h : Finishes env others t w' outcome w'') :
    Finishes env others t w outcome w'' := by
  unfold Finishes at h ⊢
  cases hact : t.activity with
  | running p =>
    rw [hact] at h
    obtain ⟨ending, held, w₁, hp, hunwinds⟩ := h
    exact ⟨ending, held, w₁, hp.change ho, hunwinds⟩
  | joining pending reports next =>
    rw [hact] at h
    intro hpending
    obtain ⟨ending, held, w₁, hp, hunwinds⟩ := h hpending
    exact ⟨ending, held, w₁, hp.change ho, hunwinds⟩
  | ended last =>
    rw [hact] at h
    exact ⟨h.1, others.trans ho h.2⟩

/-- A program that is over leaves its tick for the innermost that waits. -/
theorem Finishes.leave (ending : Ending TickResult) {held : List Lock} {frames : List (Frame I)}
    {p : Prog I TickResult} (hp : p = ending.resume .pure) {s : Step I σ}
    (hs : step env ⟨caller, .running p, held, frames⟩ w = some s)
    (h : Finishes env others s.thread s.world outcome w') :
    Finishes env others ⟨caller, .running p, held, frames⟩ w outcome w' := by
  have hover : p.Among env others caller held w ending held w := by
    subst hp
    cases ending with
    | value a => exact .pure (others.refl w)
    | panic payload => exact .panic (others.refl w)
  refine ⟨ending, held, w, hover, ?_⟩
  cases frames with
  | nil =>
    rw [step_of_last hp] at hs
    cases hs
    obtain ⟨rfl, ho⟩ := h
    exact .last ho
  | cons frame frames =>
    rw [step_of_frame hp] at hs
    cases hs
    obtain ⟨ending', held', w₁, hnext, hunwinds⟩ := h
    exact .frame hnext hunwinds

theorem Finishes.step {s : Step I σ}
    (hn : ∀ nodes next, t.activity ≠ .running (.request (.parallel nodes) next))
    (hs : t.step env w = some s) (h : Finishes env others s.thread s.world outcome w') :
    Finishes env others t w outcome w' := by
  obtain ⟨caller, activity, held, frames⟩ := t
  cases activity with
  | running p =>
    cases p with
    | pure result => exact .leave (.value result) rfl hs h
    | request r next =>
      cases r with
      | tick node =>
        cases hs
        obtain ⟨ending, held₁, w₁, hcall, hunwinds⟩ := h
        cases hunwinds with
        | frame hnext hunwinds =>
          cases ending with
          | value result => exact ⟨_, _, _, .tick (others.refl w) hcall hnext, hunwinds⟩
          | panic payload =>
            cases hnext with
            | serve _ hserve => cases hserve
            | panic ho => exact ⟨_, _, _, .tickPanic (others.refl w) hcall ho, hunwinds⟩
      | parallel nodes => exact absurd rfl (hn nodes next)
      | start worker tick children =>
        cases hs
        obtain ⟨ending, held₁, w₁, hnext, hunwinds⟩ := h
        exact ⟨_, _, _, .start (others.refl w) hnext, hunwinds⟩
      | panic payload => exact .leave (.panic payload) (Prog.request_panic payload next) hs h
      | read | swap | alloc | acquire | release | ask =>
        obtain ⟨reply, held₁, w₂, hserve, rfl⟩ := (step_iff_of_served rfl rfl).mp hs
        obtain ⟨ending, held₂, w₃, hnext, hunwinds⟩ := h
        exact ⟨ending, held₂, w₃, .serve (others.refl w) hserve hnext, hunwinds⟩
  | joining pending reports next =>
    intro hpending
    subst hpending
    cases hs
    exact h
  | ended last => cases hs

/-- What a thread that is followed to its end has carried out. -/
theorem Lasts.finishes (h : Lasts env others t w t' w') (hend : t'.outcome? = some outcome) :
    Finishes env others t w outcome w' := by
  induction h with
  | @refl t w =>
    unfold Finishes
    unfold outcome? at hend
    cases hact : t.activity with
    | ended last =>
      rw [hact] at hend
      exact ⟨Option.some.inj hend, others.refl w⟩
    | running | joining =>
      rw [hact] at hend
      cases hend
  | change ho _ ih => exact (ih hend).change ho
  | step hn hs _ ih => exact (ih hend).step hn hs
  | @join t t' w w₁ w' nodes next reports ha hjoin _ ih =>
    obtain ⟨ending, held, w₂, hnext, hunwinds⟩ := ih hend
    unfold Finishes
    rw [ha]
    exact ⟨ending, held, w₂, .parallel (others.refl w) hjoin hnext, hunwinds⟩

/-- A thread can carry out what is evaluated, whatever it does next and whoever
waits for it. -/
theorem lasts_of_among {α : Type} {p : Prog I α} {ending : Ending α} {held held' : List Lock}
    (h : p.Among env others caller held w ending held' w') :
    ∀ (next : α → Prog I TickResult) (frames : List (Frame I)),
      Lasts env others ⟨caller, .running (p.bind next), held, frames⟩ w
        ⟨caller, .running (ending.resume next), held', frames⟩ w' := by
  induction h with
  | pure ho => exact fun _ _ => .change ho .refl
  | @serve _ r _ reply ending held held₁ held' w w₀ w₁ w' ho hserve _ ih =>
    intro next frames
    refine .change ho (.step (fun nodes _ ha => ?_) (serve_eq hserve) (ih next frames))
    cases ha
    cases hserve
  | @tick _ node k result ending held held₁ held' w w₀ w₁ w' ho _ _ ihcall ihnext =>
    intro next frames
    refine .change ho (.step (fun _ _ ha => nomatch ha) rfl ?_)
    have hcall := ihcall .pure (⟨fun r => (k r).bind next, held⟩ :: frames)
    rw [Prog.bind_pure] at hcall
    refine hcall.trans (.step not_parallel_of_ending (step_of_frame rfl) ?_)
    exact ihnext next frames
  | @tickPanic _ node k payload held held₁ w w₀ w₁ w' ho _ hlast ihcall =>
    intro next frames
    refine .change ho (.step (fun _ _ ha => nomatch ha) rfl ?_)
    have hcall := ihcall .pure (⟨fun r => (k r).bind next, held⟩ :: frames)
    rw [Prog.bind_pure] at hcall
    refine hcall.trans (.step not_parallel_of_ending (step_of_frame rfl) ?_)
    exact .change hlast .refl
  | parallel ho hjoin _ ih => exact fun next frames => .change ho (.join rfl hjoin (ih next frames))
  | start ho _ ih =>
    exact fun next frames => .change ho (.step (fun _ _ ha => nomatch ha) rfl (ih next frames))
  | @panic _ payload k held w w' ho =>
    intro next frames
    have hk : (Prog.request (.panic payload) k).bind next = .panic payload :=
      Prog.request_panic payload _
    rw [hk]
    exact .change ho .refl

/-- **A thread among others and the evaluation of its program end alike**, and the
thread gives back the locks that the program still holds. -/
theorem lasts_iff {id : Nat} {origin : Origin} {p : Prog I TickResult} :
    (∃ t', Lasts env others (begin id origin p) w t' w' ∧ t'.outcome? = some outcome) ↔
      ∃ ending held w₁, p.Among env others ⟨id, origin⟩ [] w ending held w₁ ∧
        outcome = ending.outcome ∧ others.change (w₁.unlock held) w' := by
  constructor
  · rintro ⟨t', hlasts, hend⟩
    obtain ⟨ending, held, w₁, hp, hunwinds⟩ := hlasts.finishes hend
    cases hunwinds with
    | last ho => exact ⟨ending, held, w₁, hp, rfl, ho⟩
  · rintro ⟨ending, held, w₁, hp, rfl, ho⟩
    have hlasts := lasts_of_among hp .pure []
    rw [Prog.bind_pure] at hlasts
    refine ⟨⟨⟨id, origin⟩, .ended ending.outcome, [], []⟩, ?_, rfl⟩
    exact hlasts.trans (.step not_parallel_of_ending (step_of_last rfl) (.change ho .refl))

end Thread

end TickTree
