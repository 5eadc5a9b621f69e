/-
# The ticks of a context

A context is used through ticks, each of which puts one or two questions to the
world. Where the world hosts a system (`Hosts`), opening and cancelling a scope
are actions of that system, and the other questions look at it. Between the
questions of a tick the system goes on in any way (`Runs`).

So opening and cancelling are one action each. The tick that asks whether the scope
has ended reads which scope is stored, and looks at the token of that one later;
if it fails, a scope is live at that time, and stored. A bound tick runs with the
token that it reads. Together with the law of the scopes that the context opens,
this is the discipline that a context keeps (`Context.scope_discipline`).

Key definitions: `Hosts`, `Runs`, `Tick.CanReturn`, `Context.errAnswer`,
`Context.TickLaw`.
Key theorems: `Prog.Returns.asks`, `Scenario.hosts_environment`, `Context.tickLaw`,
`Context.scope_discipline`.
-/
import TickTree.Proofs.Acting
import TickTree.Proofs.ScopeLife
import TickTree.Scenario.Stage

namespace TickTree

variable {I : Interface} {σ : Type}

/-- The world hosts a system, `system` reads it off the state of the world, and
`timed` says for whom a timer service is current: so the questions of contexts are
answered, and change the system as they should. -/
structure Hosts (env : Environment I.withContexts σ) (system : σ → System)
    (timed : Caller → σ → Bool) : Prop where
  /-- An answer is that of the system. -/
  answered : ∀ {caller : Caller} {q : ContextQuery} {o o' : σ} {reply : q.Reply},
    env.answer caller (.inl q) o = some (reply, o') →
      ∃ scopes, q.answer (timed caller o) (system o).toScopes = some (reply, scopes) ∧
        system o' = (system o).withScopes scopes
  /-- An answer that the system has is given. -/
  answers : ∀ {caller : Caller} {q : ContextQuery} {o : σ} {reply : q.Reply} {scopes : Scopes},
    q.answer (timed caller o) (system o).toScopes = some (reply, scopes) →
      ∃ o', env.answer caller (.inl q) o = some (reply, o') ∧
        system o' = (system o).withScopes scopes

namespace Scenario

theorem Stage.system_foldl {f : Stage → Task → Stage} (hf : ∀ s task, (f s task).system = s.system)
    (tasks : List Task) : ∀ s : Stage, (tasks.foldl f s).system = s.system := by
  induction tasks with
  | nil => exact fun _ => rfl
  | cons task tasks ih => exact fun s => (ih (f s task)).trans (hf s task)

theorem Stage.system_change (s : Stage) (system : System) : (s.change system).system = system := by
  refine (system_foldl (fun s task => ?_) _ _).trans rfl
  cases task <;> rfl

/-- The stage of a scenario hosts its system. -/
theorem hosts_environment :
    Hosts environment Stage.system fun caller s => s.isTimed caller.origin where
  answered := by
    intro caller q s s' reply h
    obtain ⟨⟨reply', scopes⟩, hq, heq⟩ := Option.map_eq_some_iff.mp h
    obtain ⟨rfl, rfl⟩ := Prod.mk.inj heq
    exact ⟨scopes, hq, s.system_change _⟩
  answers := by
    intro caller q s reply scopes hq
    exact ⟨_, Option.map_eq_some_iff.mpr ⟨(reply, scopes), hq, rfl⟩, s.system_change _⟩

end Scenario

/-- The system that the world hosts goes on by some run. -/
def Runs (system : σ → System) (w w' : World I.withContexts σ) : Prop :=
  ∃ as, (system w.outside).run as = some (system w'.outside)

namespace Runs

variable {system : σ → System} {w w' w'' : World I.withContexts σ}

theorem refl (system : σ → System) (w : World I.withContexts σ) : Runs system w w := ⟨[], rfl⟩

theorem trans (h : Runs system w w') (h' : Runs system w' w'') : Runs system w w'' := by
  obtain ⟨as, h⟩ := h
  obtain ⟨bs, h'⟩ := h'
  exact ⟨as ++ bs, System.run_append h h'⟩

/-- Only the system matters. -/
theorem of_eq (h : system w.outside = system w'.outside) : Runs system w w' :=
  ⟨[], congrArg some h⟩

end Runs

/-- The tick can be carried out against the children and return, where others make
the system go on. -/
def Tick.CanReturn (env : Environment I.withContexts σ) (system : σ → System) (caller : Caller)
    (tick : Tick I.withContexts) (children : List (Node I.withContexts))
    (w : World I.withContexts σ) : Prop :=
  ∃ acts result w', (tick.run children).Returns env (Runs system) caller [] w acts result w'

section Asking

variable {env : Environment I.withContexts σ} {system : σ → System} {timed : Caller → σ → Bool}
  {caller : Caller} {q : ContextQuery} {next : q.Reply → Tick I.withContexts}
  {children : List (Node I.withContexts)} {w w' : World I.withContexts σ}
  {acts : List (Act I.withContexts)} {result answer : TickResult}

/-- A question of contexts that a tick asks is answered after some run. -/
theorem Prog.Returns.asks (hH : Hosts env system timed)
    (h : ((Context.ask q next).run children).Returns env (Runs system) caller [] w acts result
      w') :
    ∃ w₁ w₂ reply scopes acts', Runs system w w₁ ∧
      q.answer (timed caller w₁.outside) (system w₁.outside).toScopes = some (reply, scopes) ∧
      system w₂.outside = (system w₁.outside).withScopes scopes ∧
      ((next reply).run children).Returns env (Runs system) caller [] w₂ acts' result w' := by
  obtain ⟨w₁, reply, held₁, w₂, acts', hruns, hserve, -, hrest⟩ :=
    serve (Runs.refl system) Runs.trans rfl h
  simp only [World.serve, Option.map_eq_some_iff] at hserve
  obtain ⟨⟨reply, o'⟩, hanswer, heq⟩ := hserve
  cases heq
  obtain ⟨scopes, hq, hsystem⟩ := hH.answered hanswer
  exact ⟨w₁, { w₁ with outside := o' }, reply, scopes, acts', hruns, hq, hsystem, hrest⟩

/-- A tick that is over lets the system go on. -/
theorem Prog.Returns.over
    (h : ((Tick.const answer).run children).Returns env (Runs system) caller [] w acts result w') :
    result = answer ∧ Runs system w w' := by
  obtain ⟨-, rfl, w₁, hruns, hruns'⟩ := pure (Runs.refl system) Runs.trans h
  exact ⟨rfl, hruns.trans (Runs.trans (.of_eq rfl) hruns')⟩

theorem Tick.CanReturn.const : (Tick.const answer).CanReturn env system caller children w :=
  ⟨[], answer, _, .of_pure⟩

/-- A tick that asks a question that has an answer can return, if the rest can. -/
theorem Tick.CanReturn.ask (hH : Hosts env system timed) {reply : q.Reply} {scopes : Scopes}
    (hq : q.answer (timed caller w.outside) (system w.outside).toScopes = some (reply, scopes))
    (h : ∀ w₁, (next reply).CanReturn env system caller children w₁) :
    (Context.ask q next).CanReturn env system caller children w := by
  obtain ⟨o', hanswer, -⟩ := hH.answers hq
  obtain ⟨acts, result, w', hrest⟩ := h { w with outside := o' }
  have hserve : w.serve env caller [] (.ask (Sum.inl q)) =
      some (reply, [], { w with outside := o' }) := by
    show Option.map _ (env.answer caller (Sum.inl q) w.outside) = _
    exact congrArg (Option.map _) hanswer
  exact ⟨_, result, w', .of_serve hserve hrest⟩

end Asking

namespace Context

/-- What is answered about the end of the scope that the context `c` has stored in
`s`, where `s'` is looked at for its token. -/
def errAnswer (c : Nat) (s s' : System) : TickResult :=
  match s.scope? c with
  | none => .ok .success
  | some scope => if s'.tokens.isCancelled scope.token then .ok .success else .ok .failure

section
variable (env : Environment I.withContexts σ) (system : σ → System) (timed : Caller → σ → Bool)
  (c : Nat) (expiry : Option Expiry) (caller : Caller) (children : List (Node I.withContexts))
  (w : World I.withContexts σ) (result : TickResult) (w' : World I.withContexts σ)

/-- The context opens a scope, in one action, and the one before is cancelled; if there
is an error, none is stored. -/
def Inits : Prop :=
  ∃ w₁ w₂, Runs system w w₁ ∧
    (system w₁.outside).step (.openScope (timed caller w₁.outside) c) = some (system w₂.outside) ∧
    Runs system w₂ w' ∧
    result = initAnswer expiry (system w₁.outside).now (timed caller w₁.outside) ∧
    (result = .ok .success ↔ ((system w₂.outside).scope? c).isSome) ∧
    ∀ scope, (system w₁.outside).scope? c = some scope →
      (system w₂.outside).tokens.isCancelled scope.token

/-- The context cancels its scope, in one action. -/
def Cancels : Prop :=
  ∃ w₁ w₂, Runs system w w₁ ∧
    (system w₁.outside).step (.cancelScope c) = some (system w₂.outside) ∧
    Runs system w₂ w' ∧ result = .ok .success ∧
    ∀ scope, (system w₁.outside).scope? c = some scope →
      (system w₂.outside).tokens.isCancelled scope.token

/-- The token of the scope that is found stored is looked at, and where the answer is
a failure a live scope is stored then. -/
def Errs : Prop :=
  ∃ w₁ w₂, Runs system w w₁ ∧ Runs system w₁ w₂ ∧ Runs system w₂ w' ∧
    result = errAnswer c (system w₁.outside) (system w₂.outside) ∧
    (result = .ok .failure → ∃ scope, (system w₂.outside).scope? c = some scope ∧
      (system w₂.outside).tokens.isCancelled scope.token = false)

/-- The tick that `f` gives for the token of the scope that is found stored is run; if
none is, there is an error. -/
def Binds (f : Nat → Tick I.withContexts) : Prop :=
  ∃ w₁, Runs system w w₁ ∧
    match (system w₁.outside).scope? c with
    | none => result = .error .contextNotOpen ∧ Runs system w₁ w'
    | some scope => ∃ w₂ acts', system w₂.outside = system w₁.outside ∧
      ((f scope.token).run children).Returns env (Runs system) caller [] w₂ acts' result w'

/-- The law of the ticks of context `c`, for a caller that begins in the world `w`:
what is so if they return, and that they can, where a bound tick needs that the tick
can that it runs. -/
structure TickLaw : Prop where
  init : ∀ {acts result w'},
    ((initTick c).run children).Returns env (Runs system) caller [] w acts result w' →
      Inits system timed c expiry caller w result w'
  cancel : ∀ {acts result w'},
    ((cancelTick c).run children).Returns env (Runs system) caller [] w acts result w' →
      Cancels system c w result w'
  err : ∀ {acts result w'},
    ((errTick c).run children).Returns env (Runs system) caller [] w acts result w' →
      Errs system c w result w'
  bind : ∀ {f acts result w'},
    ((bindTick c f).run children).Returns env (Runs system) caller [] w acts result w' →
      Binds env system c caller children w result w' f
  init_returns : (initTick c).CanReturn env system caller children w
  cancel_returns : (cancelTick c).CanReturn env system caller children w
  err_returns : (errTick c).CanReturn env system caller children w
  bind_returns : ∀ f : Nat → Tick I.withContexts,
    (∀ token v, (f token).CanReturn env system caller children v) →
      (bindTick c f).CanReturn env system caller children w

end

section
variable {env : Environment I.withContexts σ} {system : σ → System} {timed : Caller → σ → Bool}
  {caller : Caller} {children : List (Node I.withContexts)} {c : Nat} {parent : Option Nat}
  {expiry : Option Expiry} {H : List Moment} {w w' : World I.withContexts σ}
  {acts : List (Act I.withContexts)} {result : TickResult}

theorem inits_of_initTick (hH : Hosts env system timed)
    (hC : ScopeCourse c parent expiry H (system w.outside))
    (h : ((initTick c).run children).Returns env (Runs system) caller [] w acts result w') :
    Inits system timed c expiry caller w result w' := by
  obtain ⟨w₁, w₂, reply, scopes, acts', hruns, hq, hsystem, hrest⟩ := h.asks hH
  obtain ⟨rfl, hruns'⟩ := hrest.over
  obtain ⟨as, has⟩ := hruns
  have hC₁ := hC.run has
  obtain ⟨scope₀, hc⟩ := hC₁.context
  obtain ⟨hanswer, hstored⟩ := Scopes.openScope_answer (timed caller w₁.outside) hc
  have heq : (system w₁.outside).openScope (timed caller w₁.outside) c = (result, scopes) :=
    Option.some.inj hq
  have hstep : (system w₁.outside).step (.openScope (timed caller w₁.outside) c) =
      some (system w₂.outside) := by
    show some ((system w₁.outside).withScopes _) = _
    rw [heq, hsystem]
  rw [heq] at hanswer hstored
  refine ⟨w₁, w₂, ⟨as, has⟩, hstep, hruns', hanswer, ?_, fun scope hscope =>
    hC₁.isCancelled_of_cancels? hstep rfl hscope⟩
  rw [hsystem]
  exact hstored

theorem cancels_of_cancelTick (hH : Hosts env system timed)
    (hC : ScopeCourse c parent expiry H (system w.outside))
    (h : ((cancelTick c).run children).Returns env (Runs system) caller [] w acts result w') :
    Cancels system c w result w' := by
  obtain ⟨w₁, w₂, reply, scopes, acts', hruns, hq, hsystem, hrest⟩ := h.asks hH
  obtain ⟨hresult, hruns'⟩ := hrest.over
  obtain ⟨as, has⟩ := hruns
  have hstep : (system w₁.outside).step (.cancelScope c) = some (system w₂.outside) := by
    obtain ⟨-, rfl⟩ := Prod.mk.inj (Option.some.inj hq)
    rw [hsystem]
    rfl
  exact ⟨w₁, w₂, ⟨as, has⟩, hstep, hruns', hresult, fun scope hscope =>
    (hC.run has).isCancelled_of_cancels? hstep rfl hscope⟩

theorem errs_of_errTick (hH : Hosts env system timed)
    (hC : ScopeCourse c parent expiry H (system w.outside))
    (h : ((errTick c).run children).Returns env (Runs system) caller [] w acts result w') :
    Errs system c w result w' := by
  obtain ⟨w₁, w₁', reply, scopes, acts', hruns, hq, hsystem, hrest⟩ := h.asks hH
  obtain ⟨hreply, rfl⟩ := Prod.mk.inj (Option.some.inj hq)
  replace hreply : (system w₁.outside).scope? c = reply := hreply
  have hsame : system w₁'.outside = system w₁.outside := hsystem
  cases reply with
  | none =>
    obtain ⟨rfl, hruns'⟩ := hrest.over
    have hruns₁ : Runs system w₁ w' := (Runs.of_eq hsame.symm).trans hruns'
    exact ⟨w₁, w₁, hruns, .refl system w₁, hruns₁, by simp [errAnswer, hreply], nofun⟩
  | some scope =>
    obtain ⟨w₂, w₂', cancelled, scopes₂, acts₂, hruns₂, hq₂, hsystem₂, hrest₂⟩ := hrest.asks hH
    obtain ⟨hcancelled, rfl⟩ := Prod.mk.inj (Option.some.inj hq₂)
    replace hcancelled : (system w₂.outside).tokens.isCancelled scope.token = cancelled := hcancelled
    have hsame₂ : system w₂'.outside = system w₂.outside := hsystem₂
    have hruns₁ : Runs system w₁ w₂ := (Runs.of_eq hsame.symm).trans hruns₂
    cases cancelled with
    | true =>
      obtain ⟨rfl, hruns'⟩ := hrest₂.over
      exact ⟨w₁, w₂, hruns, hruns₁, (Runs.of_eq hsame₂.symm).trans hruns',
        by simp [errAnswer, hreply, hcancelled], nofun⟩
    | false =>
      obtain ⟨rfl, hruns'⟩ := hrest₂.over
      refine ⟨w₁, w₂, hruns, hruns₁, (Runs.of_eq hsame₂.symm).trans hruns',
        by simp [errAnswer, hreply, hcancelled], fun _ => ?_⟩
      obtain ⟨as, has⟩ := hruns
      obtain ⟨as₂, has₂⟩ := hruns₁
      obtain ⟨scope', hscope', htoken⟩ := (hC.run has).stored_of_run has₂ hreply hcancelled
      exact ⟨scope', hscope', htoken ▸ hcancelled⟩

theorem binds_of_bindTick {f : Nat → Tick I.withContexts} (hH : Hosts env system timed)
    (h : ((bindTick c f).run children).Returns env (Runs system) caller [] w acts result w') :
    Binds env system c caller children w result w' f := by
  obtain ⟨w₁, w₂, reply, scopes, acts', hruns, hq, hsystem, hrest⟩ := h.asks hH
  obtain ⟨hreply, rfl⟩ := Prod.mk.inj (Option.some.inj hq)
  replace hreply : (system w₁.outside).scope? c = reply := hreply
  have hsame : system w₂.outside = system w₁.outside := hsystem
  refine ⟨w₁, hruns, ?_⟩
  rw [hreply]
  cases reply with
  | none =>
    obtain ⟨rfl, hruns'⟩ := hrest.over
    exact ⟨rfl, (Runs.of_eq hsame.symm).trans hruns'⟩
  | some scope => exact ⟨w₂, acts', hsame, hrest⟩

theorem errTick_canReturn (hH : Hosts env system timed) :
    (errTick c).CanReturn env system caller children w := by
  refine .ask hH rfl fun w₁ => ?_
  cases (system w.outside).scope? c with
  | none => exact .const
  | some scope =>
    refine .ask hH rfl fun w₂ => ?_
    cases (system w₁.outside).tokens.isCancelled scope.token <;> exact .const

theorem bindTick_canReturn {f : Nat → Tick I.withContexts} (hH : Hosts env system timed)
    (hf : ∀ token v, (f token).CanReturn env system caller children v) :
    (bindTick c f).CanReturn env system caller children w := by
  refine .ask hH rfl fun w₁ => ?_
  cases (system w.outside).scope? c with
  | none => exact .const
  | some scope => exact hf scope.token w₁

/-- **The ticks of a context keep to their law.** -/
theorem tickLaw (hH : Hosts env system timed)
    (hC : ScopeCourse c parent expiry H (system w.outside)) :
    TickLaw env system timed c expiry caller children w where
  init := inits_of_initTick hH hC
  cancel := cancels_of_cancelTick hH hC
  err := errs_of_errTick hH hC
  bind := binds_of_bindTick hH
  init_returns := .ask hH rfl fun _ => .const
  cancel_returns := .ask hH rfl fun _ => .const
  err_returns := errTick_canReturn hH
  bind_returns := fun _ hf => bindTick_canReturn hH hf

end

/-- **The discipline of a context.** Let a system run in any order of actions, and
make a context on the way, with or without a parent, which exists with all above
it, and with any expiry. Whoever opens or cancels its scopes, cancels a token or
lets time pass, the scopes keep to their law; and the ticks of the context, where
a world hosts that system, keep to theirs. -/
theorem scope_discipline {before as : List Action} {parent : Option Nat} {expiry : Option Expiry}
    {s₀ s₁ s : System}
    (h₀ : System.empty.run before = some s₀) (above : ∀ p ∈ parent, s₀.tokens.Rooted p)
    (h₁ : s₀.step (.newContext parent expiry) = some s₁) (h : s₁.run as = some s) :
    ScopeLaw s₀.contexts.size parent expiry (s₁.moments as) s ∧
    ∀ {I : Interface} {σ : Type} {env : Environment I.withContexts σ} {system : σ → System}
      {timed : Caller → σ → Bool}, Hosts env system timed →
        ∀ (w : World I.withContexts σ) caller children, system w.outside = s →
          TickLaw env system timed s₀.contexts.size expiry caller children w := by
  have hC := (ScopeCourse.start (System.tidy_run System.tidy_empty h₀) above h₁).run h
  refine ⟨hC.law, fun {I σ env system timed} hH w caller children hw => ?_⟩
  subst hw
  exact tickLaw hH hC

/-- A scope is opened, and another before the first expires; then the time of the
first comes, and its timer takes its last step. -/
def twoScopes : List Action :=
  [.openScope true 0, .pass 5, .openScope true 0, .pass 6, .catchUp, .runTimer 0]

theorem scope_discipline_twoScopes : ∃ s₀ s₁ s,
    System.empty.run [.newToken none] = some s₀ ∧ (∀ p ∈ some 0, s₀.tokens.Rooted p) ∧
    s₀.step (.newContext (some 0) (some (.after 10))) = some s₁ ∧ s₁.run twoScopes = some s ∧
    openings 0 (s₁.moments twoScopes) = [⟨1, 0⟩, ⟨2, 5⟩] ∧
    s.tokens.isCancelled 2 = false ∧ (∃ scope, s.scope? 0 = some scope ∧ scope.token = 2) ∧
    Throughout (SparesOthers 0) (s₁.moments twoScopes) ∧
    (errTick 0).CanReturn Scenario.environment Scenario.Stage.system default []
      ⟨.empty, [], { clock := .virtual, system := s }⟩ := by
  have above : ∀ p ∈ some 0, Tokens.Rooted ⟨#[⟨[], false⟩]⟩ p := by
    simp [Tokens.Rooted, Tokens.lineage, Tokens.Made]
  refine ⟨_, _, _, rfl, above, rfl, rfl, rfl, rfl, ?_⟩
  have law := @scope_discipline [.newToken none] twoScopes (some 0) (some (.after 10)) _ _ _ rfl
    above rfl rfl
  refine ⟨law.1.stored ⟨2, 5⟩ (by decide) rfl, law.1.spares, ?_⟩
  exact (law.2 Scenario.hosts_environment _ default [] rfl).err_returns

end Context

end TickTree
