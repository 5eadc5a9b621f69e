/-
# Waiting for a scope

The tick that waits for the end of a scope reads, once, which scope is stored, and from
then on asks about that one only. Scopes that are opened later are none of its business,
except that the first of them cancels the one it waits for. So it succeeds only when it
has found no scope, or the one it has found is cancelled; until then it is blocked, and
from then on it is not. A scope that was cancelled when it was read is not waited for.

It gives an error only for a scope that was opened where no timer service was current, if
none is current for the thread either and it has looked and found the scope live. It never
changes anything.

All this holds however the other threads go on in between, and of a tick that is under way
as well as of one that has returned (`Thread.Acts`). What is left of the tick is one of
five things (`Context.DoneStage`), and each step leads from one to another.

Key definitions: `Context.Over`, `Context.DoneEnds`, `Context.DoneStage`,
`Context.ReadLaw`, `Context.DoneLaw`.
Key theorems: `Context.DoneStage.step`, `Context.DoneStage.course`,
`Context.done_waits_for_its_scope`.
-/
import TickTree.Proofs.ScopeTicks

namespace TickTree

namespace System

variable {s s' : System} {as : List Action} {u : Nat}

theorem rooted_run (hu : s.tokens.Rooted u) (h : s.run as = some s') : s'.tokens.Rooted u :=
  run_induction (fun _ s => s.tokens.Rooted u) (fun hu h => (step_scopes h).rooted hu) (H := []) hu h

/-- A token is cancelled for good. -/
theorem isCancelled_run (hu : s.tokens.Rooted u) (h : s.run as = some s')
    (hc : s.tokens.isCancelled u) : s'.tokens.isCancelled u :=
  (run_induction (fun _ s => s.tokens.Rooted u ∧ s.tokens.isCancelled u)
    (fun ⟨hu, hc⟩ h => ⟨(step_scopes h).rooted hu, (step_cancels h hu).mpr (.inl hc)⟩)
    (H := []) ⟨hu, hc⟩ h).2

end System

/-- The context opens that scope. -/
def Moment.opens (c : Nat) (scope : Scope) (μ : Moment) : Prop :=
  μ.action = .openScope scope.timed c ∧
    (μ.found.openScope scope.timed c).2.scope? c = some scope

/-- The scope that is stored was opened, and knows whether a timer service was current. -/
theorem ScopeCourse.opens_of_run {c : Nat} {parent : Option Nat} {expiry : Option Expiry}
    {H : List Moment} {s s' : System} {as : List Action} (hC : ScopeCourse c parent expiry H s)
    (hopens : ∀ scope, s.scope? c = some scope → ∃ μ ∈ H, μ.opens c scope)
    (h : s.run as = some s') :
    ∀ scope, s'.scope? c = some scope → ∃ μ ∈ H ++ s.moments as, μ.opens c scope := by
  refine (System.run_induction (fun H s => ScopeCourse c parent expiry H s ∧
    ∀ scope, s.scope? c = some scope → ∃ μ ∈ H, μ.opens c scope) ?_ ⟨hC, hopens⟩ h).2
  rintro H s a s' ⟨hC, hopens⟩ h
  refine ⟨hC.step h, fun scope hscope => ?_⟩
  obtain ⟨scope₀, hc⟩ := hC.context
  obtain ⟨scope', hc', rfl | ⟨⟨timed, rfl⟩, -⟩⟩ := System.step_context h hc
  · obtain ⟨μ, hμ, hopen⟩ := hopens scope (by simpa [Scopes.scope?, hc, hc'] using hscope)
    exact ⟨μ, List.mem_append_left _ hμ, hopen⟩
  · cases h
    obtain rfl := Scopes.scope_openScope timed hc hscope
    exact ⟨_, List.mem_concat_self, rfl, hscope⟩

variable {I : Interface} {σ : Type}

namespace Context

/-! ### The stages of the tick -/

/-- Waits for a token, and succeeds. -/
def waitTick (token : Nat) : Tick I.withContexts := ask (.wait token) fun _ => succeed

/-- What the tick does that has found a live scope, opened without a timer service. -/
def chooseTick (scope : Scope) : Tick I.withContexts := ask .isTimed fun (timed : Bool) =>
  if timed then waitTick scope.token else .const (.error .noReactor)

/-- What the tick does that has found a scope. -/
def lookTick (scope : Scope) : Tick I.withContexts :=
  ask (.isCancelled scope.token) fun (cancelled : Bool) =>
    if cancelled then succeed
    else if scope.timed then waitTick scope.token
    else chooseTick scope

/-- What the tick does that has found a scope, or none. -/
def foundTick : Option Scope → Tick I.withContexts
  | none => succeed
  | some scope => lookTick scope

theorem doneTick_eq (c : Nat) : (doneTick c : Tick I.withContexts) = ask (.scope c) foundTick := by
  unfold doneTick
  congr 1
  funext found
  cases found <;> rfl

/-- No scope was found, or the one that was found is cancelled. -/
def Over (found : Option Scope) (s : System) : Prop :=
  ∀ scope ∈ found, s.tokens.isCancelled scope.token

/-- A thread that is about to run a tick. -/
def doing (caller : Caller) (children : List (Node I.withContexts)) (tick : Tick I.withContexts) :
    Thread I.withContexts :=
  ⟨caller, .running (tick.run children), [], []⟩

/-- Left alone, the thread succeeds. -/
def Succeeds (env : Environment I.withContexts σ) (t : Thread I.withContexts)
    (w : World I.withContexts σ) : Prop :=
  ∃ acts t' w', Thread.Acts env Eq t w acts t' w' ∧ t'.outcome? = some (.returned (.ok .success))

/-- A question about the scope that was found in `s`. -/
inductive AsksAbout (found : Option Scope) (s : System) : Act I.withContexts → Prop
  | looks {scope cancelled} : scope ∈ found →
      AsksAbout found s (.asked (.inl (.isCancelled scope.token)) cancelled)
  | chooses {timed} : AsksAbout found s (.asked (.inl .isTimed) timed)
  /-- It is waited for only if it was live. -/
  | waits {scope} : scope ∈ found → ¬ Over found s →
      AsksAbout found s (.asked (.inl (.wait scope.token)) ())

section
variable (system : σ → System) (timed : Caller → σ → Bool) (caller : Caller)
  (found : Option Scope) (w₁ w' : World I.withContexts σ)

/-- How the tick may return that has found this scope, or none, in the world `w₁`. -/
inductive DoneEnds : TickResult → Prop
  | succeeded : Over found (system w'.outside) → DoneEnds (.ok .success)
  /-- The scope was live when it was looked at, and there was no timer service where it was
  opened, and then none here. -/
  | refused {scope w₂ w₃} : found = some scope → scope.timed = false → Runs system w₁ w₂ →
      (system w₂.outside).tokens.isCancelled scope.token = false → Runs system w₂ w₃ →
      timed caller w₃.outside = false → Runs system w₃ w' → DoneEnds (.error .noReactor)

variable (children : List (Node I.withContexts))

/-- What is left of a tick that has found this scope, or none, in the world `w₁`. -/
inductive DoneStage : Thread I.withContexts → Prop
  | looking {scope} : found = some scope → DoneStage (doing caller children (lookTick scope))
  | choosing {scope w₂} : found = some scope → scope.timed = false → Runs system w₁ w₂ →
      (system w₂.outside).tokens.isCancelled scope.token = false → Runs system w₂ w' →
      DoneStage (doing caller children (chooseTick scope))
  | waiting {scope} : found = some scope → ¬ Over found (system w₁.outside) →
      DoneStage (doing caller children (waitTick scope.token))
  | answering {result} : DoneEnds system timed caller found w₁ w' result →
      DoneStage (doing caller children (.const result))
  | ended {result} : DoneEnds system timed caller found w₁ w' result →
      DoneStage ⟨caller, .ended (.returned result), [], []⟩

end

section
variable {env : Environment I.withContexts σ} {system : σ → System} {timed : Caller → σ → Bool}
  {caller : Caller} {children : List (Node I.withContexts)} {found : Option Scope}
  {w w₁ w' w'' : World I.withContexts σ} {t t' : Thread I.withContexts}
  {acts : List (Act I.withContexts)} {s : Step I.withContexts σ} {q : ContextQuery}
  {next : q.Reply → Tick I.withContexts} {result : TickResult}

/-- A question of contexts is answered by the system. -/
theorem step_of_asking (hH : Hosts env system timed)
    (h : (doing caller children (ask q next)).step env w = some s) :
    ∃ reply scopes w₁, q.answer (timed caller w.outside) (system w.outside).toScopes =
        some (reply, scopes) ∧
      s = ⟨doing caller children (next reply), w₁, []⟩ ∧
      system w₁.outside = (system w.outside).withScopes scopes ∧
      (doing caller children (ask q next)).shows env w = [.asked (.inl q) reply] := by
  obtain ⟨reply, held, w₁, hserve, rfl⟩ := (Thread.step_iff_of_served rfl rfl).mp h
  replace hserve : w.serve env caller [] (.ask (Sum.inl q)) = some (reply, held, w₁) := hserve
  have hshows : (doing caller children (ask q next)).shows env w = [.asked (.inl q) reply] := by
    unfold doing ask Tick.run Thread.shows
    dsimp only
    rw [hserve]
    rfl
  obtain ⟨⟨reply', o⟩, hanswer, heq⟩ := Option.map_eq_some_iff.mp hserve
  cases heq
  obtain ⟨scopes, hq, hsystem⟩ := hH.answered hanswer
  exact ⟨_, scopes, _, hq, rfl, hsystem, hshows⟩

/-- A question that has an answer does not block. -/
theorem isSome_step_of_asking (hH : Hosts env system timed)
    (h : (q.answer (timed caller w.outside) (system w.outside).toScopes).isSome) :
    ((doing caller children (ask q next)).step env w).isSome := by
  obtain ⟨⟨reply, scopes⟩, hq⟩ := Option.isSome_iff_exists.mp h
  obtain ⟨o, hanswer, -⟩ := hH.answers hq
  have hserve : w.serve env caller [] (.ask (Sum.inl q)) =
      some (reply, [], { w with outside := o }) := congrArg (Option.map _) hanswer
  exact Option.isSome_of_eq_some ((Thread.step_iff_of_served rfl rfl).mpr ⟨_, _, _, hserve, rfl⟩)

theorem Over.of_runs (h : Over found (system w.outside))
    (hrooted : ∀ scope ∈ found, (system w.outside).tokens.Rooted scope.token)
    (hruns : Runs system w w') : Over found (system w'.outside) := by
  obtain ⟨as, has⟩ := hruns
  exact fun scope hscope => System.isCancelled_run (hrooted scope hscope) has (h scope hscope)

theorem rooted_of_runs (hrooted : ∀ scope ∈ found, (system w.outside).tokens.Rooted scope.token)
    (hruns : Runs system w w') :
    ∀ scope ∈ found, (system w'.outside).tokens.Rooted scope.token := by
  obtain ⟨as, has⟩ := hruns
  exact fun scope hscope => System.rooted_run (hrooted scope hscope) has

/-- A scope that was live later was live when it was found. -/
theorem not_over_of_runs {scope : Scope}
    (hrooted : ∀ scope ∈ found, (system w.outside).tokens.Rooted scope.token)
    (hfound : found = some scope) (hruns : Runs system w w')
    (hlive : (system w'.outside).tokens.isCancelled scope.token = false) :
    ¬ Over found (system w.outside) := fun hover =>
  absurd (hover.of_runs hrooted hruns scope hfound) (by simp [hlive])

theorem DoneEnds.of_runs (h : DoneEnds system timed caller found w₁ w' result)
    (hrooted : ∀ scope ∈ found, (system w'.outside).tokens.Rooted scope.token)
    (hruns : Runs system w' w'') : DoneEnds system timed caller found w₁ w'' result := by
  cases h with
  | succeeded hover => exact .succeeded (hover.of_runs hrooted hruns)
  | refused hfound htimed hruns₂ hlive hruns₃ hnone hruns' =>
    exact .refused hfound htimed hruns₂ hlive hruns₃ hnone (hruns'.trans hruns)

namespace DoneStage

/-- Others go on. -/
theorem of_runs (h : DoneStage system timed caller found w₁ w' children t)
    (hrooted : ∀ scope ∈ found, (system w'.outside).tokens.Rooted scope.token)
    (hruns : Runs system w' w'') : DoneStage system timed caller found w₁ w'' children t := by
  cases h with
  | looking hfound => exact .looking hfound
  | choosing hfound htimed hruns₂ hlive hruns' =>
    exact .choosing hfound htimed hruns₂ hlive (hruns'.trans hruns)
  | waiting hfound hlive => exact .waiting hfound hlive
  | answering hends => exact .answering (hends.of_runs hrooted hruns)
  | ended hends => exact .ended (hends.of_runs hrooted hruns)

theorem receive (h : DoneStage system timed caller found w₁ w' children t)
    (report : Option Report) : t.receive report = t := by
  cases h <;> rfl

/-- **The step lemma.** -/
theorem step (hH : Hosts env system timed)
    (h : DoneStage system timed caller found w₁ w' children t)
    (hrooted : ∀ scope ∈ found, (system w₁.outside).tokens.Rooted scope.token)
    (hruns : Runs system w₁ w') (hs : t.step env w' = some s) :
    system s.world.outside = system w'.outside ∧
      (∀ act ∈ t.shows env w', AsksAbout found (system w₁.outside) act) ∧
      DoneStage system timed caller found w₁ s.world children s.thread := by
  cases h with
  | @looking scope hfound =>
    obtain ⟨cancelled, scopes, w₂, hq, rfl, hsystem, hshows⟩ := step_of_asking hH hs
    obtain ⟨hcancelled, rfl⟩ := Prod.mk.inj (Option.some.inj hq)
    replace hcancelled : (system w'.outside).tokens.isCancelled scope.token = cancelled := hcancelled
    replace hsystem : system w₂.outside = system w'.outside := hsystem
    refine ⟨hsystem, fun act hact => ?_, ?_⟩
    · obtain rfl := List.mem_singleton.mp (hshows ▸ hact)
      exact .looks hfound
    · cases cancelled with
      | true =>
        refine .answering (.succeeded fun scope' hscope' => ?_)
        obtain rfl := Option.some.inj (hfound.symm.trans hscope')
        rw [hsystem, hcancelled]
      | false =>
        cases htimed : scope.timed with
        | true =>
          simp only [Bool.false_eq_true, if_false, if_true]
          exact .waiting hfound (not_over_of_runs hrooted hfound hruns hcancelled)
        | false =>
          simp only [Bool.false_eq_true, if_false]
          exact .choosing hfound htimed hruns hcancelled (.of_eq hsystem.symm)
  | @choosing scope w₂ hfound htimed hruns₂ hlive hruns' =>
    obtain ⟨here, scopes, w₃, hq, rfl, hsystem, hshows⟩ := step_of_asking hH hs
    obtain ⟨hhere, rfl⟩ := Prod.mk.inj (Option.some.inj hq)
    replace hhere : timed caller w'.outside = here := hhere
    replace hsystem : system w₃.outside = system w'.outside := hsystem
    refine ⟨hsystem, fun act hact => ?_, ?_⟩
    · obtain rfl := List.mem_singleton.mp (hshows ▸ hact)
      exact .chooses
    · cases here with
      | true => exact .waiting hfound (not_over_of_runs hrooted hfound hruns₂ hlive)
      | false =>
        exact .answering
          (.refused hfound htimed hruns₂ hlive hruns' hhere (.of_eq hsystem.symm))
  | @waiting scope hfound hlive =>
    obtain ⟨reply, scopes, w₂, hq, rfl, hsystem, hshows⟩ := step_of_asking hH hs
    obtain ⟨hcancelled, hq⟩ := Option.ite_none_right_eq_some.mp hq
    cases hq
    replace hsystem : system w₂.outside = system w'.outside := hsystem
    refine ⟨hsystem, fun act hact => ?_, .answering (.succeeded fun scope' hscope' => ?_)⟩
    · obtain rfl := List.mem_singleton.mp (hshows ▸ hact)
      exact .waits hfound hlive
    · obtain rfl := Option.some.inj (hfound.symm.trans hscope')
      rwa [hsystem]
  | answering hends =>
    cases hs
    refine ⟨rfl, fun act hact => absurd hact List.not_mem_nil, ?_⟩
    exact .ended (hends.of_runs (rooted_of_runs hrooted hruns) (.of_eq rfl))
  | ended => cases hs

/-- **The run lemma**: what a tick does that has found a scope, or none. -/
theorem course (hH : Hosts env system timed)
    (hrooted : ∀ scope ∈ found, (system w₁.outside).tokens.Rooted scope.token)
    (hacts : Thread.Acts env (Runs system) t w' acts t' w'') (hruns : Runs system w₁ w')
    (h : DoneStage system timed caller found w₁ w' children t) :
    Runs system w₁ w'' ∧ (∀ act ∈ acts, AsksAbout found (system w₁.outside) act) ∧
      DoneStage system timed caller found w₁ w'' children t' := by
  induction hacts with
  | refl => exact ⟨hruns, by simp, h⟩
  | change hothers _ ih =>
    exact ih (hruns.trans hothers) (h.of_runs (rooted_of_runs hrooted hruns) hothers)
  | receive report _ ih =>
    rw [h.receive] at ih
    exact ih hruns h
  | step hs _ _ ih =>
    obtain ⟨hsame, hshows, h'⟩ := h.step hH hrooted hruns hs
    obtain ⟨hruns', hacts', hlast⟩ := ih (hruns.trans (.of_eq hsame.symm)) h'
    refine ⟨hruns', fun act hact => ?_, hlast⟩
    exact (List.mem_append.mp hact).elim (hshows act) (hacts' act)

/-- A tick that is about to answer well succeeds. -/
theorem succeeds_of_answering :
    Succeeds env (doing caller children (.const (.ok .success))) w :=
  ⟨_, _, _, .step rfl (fun hne => absurd rfl hne) .refl, rfl⟩

theorem succeeds_of_step (hs : t.step env w = some s) (hframes : t.frames = [])
    (h : Succeeds env s.thread s.world) : Succeeds env t w := by
  obtain ⟨acts, t', w', hacts, hended⟩ := h
  exact ⟨_, t', w', .step hs (fun hne => absurd hframes hne) hacts, hended⟩

/-- A tick that waits succeeds once the scope that it has found is cancelled. -/
theorem succeeds_of_waiting {scope : Scope} (hH : Hosts env system timed)
    (hc : (system w.outside).tokens.isCancelled scope.token) :
    Succeeds env (doing caller children (waitTick scope.token)) w := by
  have hstep : ((doing caller children (waitTick scope.token)).step env w).isSome :=
    isSome_step_of_asking (q := .wait scope.token) hH (by simp [ContextQuery.answer, hc])
  obtain ⟨s, hs⟩ := Option.isSome_iff_exists.mp hstep
  obtain ⟨_, _, _, -, rfl, -⟩ := step_of_asking hH hs
  exact succeeds_of_step hs rfl succeeds_of_answering

/-- A tick that is blocked waits, and the scope that it has found is live. -/
theorem waiting_of_blocked (hH : Hosts env system timed)
    (h : DoneStage system timed caller found w₁ w' children t) (hgoing : t.outcome? = none)
    (hblocked : t.step env w' = none) :
    ∃ scope, found = some scope ∧ t = doing caller children (waitTick scope.token) ∧
      (system w'.outside).tokens.isCancelled scope.token = false := by
  cases h with
  | @looking scope =>
    have hstep : ((doing caller children (lookTick scope)).step env w').isSome :=
      isSome_step_of_asking (q := .isCancelled scope.token) hH rfl
    cases hblocked ▸ hstep
  | @choosing scope =>
    have hstep : ((doing caller children (chooseTick scope)).step env w').isSome :=
      isSome_step_of_asking (q := .isTimed) hH rfl
    cases hblocked ▸ hstep
  | @waiting scope hfound =>
    refine ⟨scope, hfound, rfl, ?_⟩
    by_contra hc
    have hstep : ((doing caller children (waitTick scope.token)).step env w').isSome :=
      isSome_step_of_asking (q := .wait scope.token) hH (by simp [ContextQuery.answer, hc])
    cases hblocked ▸ hstep
  | answering => cases hblocked
  | ended => cases hgoing

/-- A tick that has found a cancelled scope, or none, succeeds. -/
theorem succeeds_of_over (hH : Hosts env system timed)
    (h : DoneStage system timed caller found w₁ w' children t)
    (hrooted : ∀ scope ∈ found, (system w₁.outside).tokens.Rooted scope.token)
    (hruns : Runs system w₁ w') (hover : Over found (system w₁.outside)) :
    Succeeds env t w' := by
  have hends : ∀ {result}, DoneEnds system timed caller found w₁ w' result →
      result = .ok .success := by
    rintro _ (_ | ⟨hfound, -, hruns₂, hlive, -⟩)
    · rfl
    · exact absurd hover (not_over_of_runs hrooted hfound hruns₂ hlive)
  cases h with
  | @looking scope hfound =>
    have hc := hover.of_runs hrooted hruns scope hfound
    have hstep : ((doing caller children (lookTick scope)).step env w').isSome :=
      isSome_step_of_asking (q := .isCancelled scope.token) hH rfl
    obtain ⟨s, hs⟩ := Option.isSome_iff_exists.mp hstep
    obtain ⟨cancelled, _, w₂, hq, rfl, -⟩ := step_of_asking hH hs
    obtain ⟨hcancelled, -⟩ := Prod.mk.inj (Option.some.inj hq)
    obtain rfl : cancelled = true := hcancelled.symm.trans hc
    exact succeeds_of_step hs rfl succeeds_of_answering
  | choosing hfound _ hruns₂ hlive =>
    exact absurd hover (not_over_of_runs hrooted hfound hruns₂ hlive)
  | waiting _ hlive => exact absurd hover hlive
  | answering h => exact hends h ▸ succeeds_of_answering
  | ended h => exact ⟨[], _, _, .refl, by rw [hends h]; rfl⟩

end DoneStage

/-- A tick that waits for a scope has not read which is stored, or it has found one, or
none, and has asked about that one since. -/
theorem doneTick_course {c : Nat} (hH : Hosts env system timed)
    (hrooted : ∀ w₁, Runs system w w₁ → ∀ scope, (system w₁.outside).scope? c = some scope →
      (system w₁.outside).tokens.Rooted scope.token)
    (hacts : Thread.Acts env (Runs system) (doing caller children (doneTick c)) w acts t' w') :
    (acts = [] ∧ t' = doing caller children (doneTick c)) ∨
    ∃ found rest w₁, acts = .asked (.inl (.scope c)) found :: rest ∧ Runs system w w₁ ∧
      (system w₁.outside).scope? c = found ∧ Runs system w₁ w' ∧
      (∀ act ∈ rest, AsksAbout found (system w₁.outside) act) ∧
      DoneStage system timed caller found w₁ w' children t' := by
  generalize ht : doing caller children (doneTick c) = t at hacts
  induction hacts with
  | refl =>
    subst ht
    exact .inl ⟨rfl, rfl⟩
  | change hothers _ ih =>
    refine (ih (fun w₁ hruns => hrooted w₁ (hothers.trans hruns)) ht).imp_right ?_
    rintro ⟨found, rest, w₁, hacts, hruns, hrest⟩
    exact ⟨found, rest, w₁, hacts, hothers.trans hruns, hrest⟩
  | receive report _ ih =>
    subst ht
    exact ih hrooted rfl
  | @step t w acts t' w' s hs _ hrest =>
    subst ht
    rw [doneTick_eq] at hs ⊢
    obtain ⟨(found : Option Scope), _, w₂, hq, rfl, hsystem, hshows⟩ := step_of_asking hH hs
    obtain ⟨hfound, rfl⟩ := Prod.mk.inj (Option.some.inj hq)
    replace hfound : (system w.outside).scope? c = found := hfound
    replace hsystem : system w₂.outside = system w.outside := hsystem
    have hruns : Runs system w w₂ := .of_eq hsystem.symm
    have hstage : DoneStage system timed caller found w w₂ children
        (doing caller children (foundTick found)) := by
      cases found with
      | none => exact .answering (.succeeded nofun)
      | some scope => exact .looking rfl
    have hstored : ∀ scope ∈ found, (system w.outside).tokens.Rooted scope.token :=
      fun scope hscope => hrooted w (.refl system w) scope (hfound.trans hscope)
    obtain ⟨hruns', hacts', hstage'⟩ := hstage.course hH hstored hrest hruns
    refine .inr ⟨found, acts, w, ?_, .refl system w, hfound, hruns', hacts', hstage'⟩
    rw [hshows]
    rfl

end

/-! ### The law -/

section
variable (env : Environment I.withContexts σ) (system : σ → System) (timed : Caller → σ → Bool)
  (c : Nat) (caller : Caller)

/-- The law of a tick that has found this scope of the context `c`, or none, in the world
`w₁`, and has done `rest` since. -/
structure ReadLaw (found : Option Scope) (w₁ : World I.withContexts σ)
    (rest : List (Act I.withContexts)) (t' : Thread I.withContexts) (w' : World I.withContexts σ) :
    Prop where
  /-- It asks about that scope only, and waits for it only if it was live. -/
  asks : ∀ act ∈ rest, AsksAbout found (system w₁.outside) act
  /-- It succeeds only if the scope is cancelled, or none was found. -/
  ends : ∀ outcome, t'.outcome? = some outcome → ∃ result, outcome = .returned result ∧
    DoneEnds system timed caller found w₁ w' result
  /-- It is blocked only while the scope is live, -/
  blocked : t'.outcome? = none → t'.step env w' = none → ¬ Over found (system w'.outside)
  /-- and once the scope is cancelled, it succeeds. -/
  released : t'.outcome? = none → t'.step env w' = none → ∀ w'', Runs system w' w'' →
    Over found (system w''.outside) → Succeeds env t' w''
  /-- The scope is cancelled when its context cancels a scope or opens another, even if that
  fails. -/
  closed : ∀ as s₁ a s₂, (system w'.outside).run as = some s₁ → s₁.step a = some s₂ →
    a = .cancelScope c ∨ (∃ timed, a = .openScope timed c) → Over found s₂
  /-- If it was cancelled when it was found, the tick succeeds. -/
  prompt : Over found (system w₁.outside) → Succeeds env t' w'

/-- The law of a tick that waits for a scope of the context `c`, whose moments until the
tick began in the world `w` are `H`, when it has done `acts`. -/
structure DoneLaw (H : List Moment) (w : World I.withContexts σ) (acts : List (Act I.withContexts))
    (t' : Thread I.withContexts) (w' : World I.withContexts σ) : Prop where
  /-- Its own steps leave the system alone. -/
  keeps : ∀ s, t'.step env w' = some s → system s.world.outside = system w'.outside
  /-- It is not blocked before it has read which scope is stored, -/
  ready : acts = [] → t'.outcome? = none ∧ (t'.step env w').isSome
  /-- and that is the first that it does. A scope that it finds was opened by its context,
  and knows whether a timer service was current there. -/
  reads : acts ≠ [] → ∃ (found : Option Scope) (rest : List (Act I.withContexts))
      (w₁ : World I.withContexts σ) (bs : List Action), acts = .asked (.inl (.scope c)) found :: rest ∧
    (system w.outside).run bs = some (system w₁.outside) ∧
    (system w₁.outside).scope? c = found ∧ Runs system w₁ w' ∧
    (∀ scope ∈ found, ∃ μ ∈ H ++ (system w.outside).moments bs, μ.opens c scope) ∧
    ReadLaw env system timed c caller found w₁ rest t' w'

end

section
variable {env : Environment I.withContexts σ} {system : σ → System} {timed : Caller → σ → Bool}
  {caller : Caller} {children : List (Node I.withContexts)} {found : Option Scope}
  {c : Nat} {parent : Option Nat} {expiry : Option Expiry} {H : List Moment}
  {w w₁ w' : World I.withContexts σ} {t' : Thread I.withContexts}
  {acts rest : List (Act I.withContexts)}

theorem rooted_of_scope {s : System} {scope : Scope} (hC : ScopeCourse c parent expiry H s)
    (hscope : s.scope? c = some scope) : s.tokens.Rooted scope.token := by
  obtain ⟨o, ho, htoken⟩ := hC.of_scope hscope
  exact htoken ▸ (hC.kept o ho).rooted

/-- A scope that was stored is cancelled when its context cancels a scope, or opens
another. -/
theorem over_of_closing {s s₁ s₂ : System} {as : List Action} {a : Action}
    (hC : ScopeCourse c parent expiry H s) (hfound : s.scope? c = found)
    (h₁ : s.run as = some s₁) (h₂ : s₁.step a = some s₂)
    (ha : a = .cancelScope c ∨ ∃ timed, a = .openScope timed c) : Over found s₂ := by
  intro scope hscope
  replace hscope : s.scope? c = some scope := hfound.trans hscope
  have hrooted := System.rooted_run (rooted_of_scope hC hscope) h₁
  cases hlive : s₁.tokens.isCancelled scope.token with
  | true => exact (System.step_cancels h₂ hrooted).mpr (.inl hlive)
  | false =>
    obtain ⟨scope', hscope', htoken⟩ := hC.stored_of_run h₁ hscope hlive
    have hcancels : s₁.cancels? a = (s₁.scope? c).map (·.token) := by
      rcases ha with rfl | ⟨timed, rfl⟩ <;> rfl
    exact htoken ▸ (hC.run h₁).isCancelled_of_cancels? h₂ hcancels hscope'

theorem readLaw (hH : Hosts env system timed)
    (hC : ScopeCourse c parent expiry H (system w₁.outside))
    (hfound : (system w₁.outside).scope? c = found) (hruns : Runs system w₁ w')
    (hasks : ∀ act ∈ rest, AsksAbout found (system w₁.outside) act)
    (hstage : DoneStage system timed caller found w₁ w' children t') :
    ReadLaw env system timed c caller found w₁ rest t' w' := by
  have hrooted : ∀ scope ∈ found, (system w₁.outside).tokens.Rooted scope.token :=
    fun scope hscope => rooted_of_scope hC (hfound.trans hscope)
  refine { asks := hasks, ends := ?ends, blocked := ?blocked, released := ?released,
           closed := ?closed, prompt := hstage.succeeds_of_over hH hrooted hruns }
  case ends =>
    intro outcome houtcome
    cases hstage with
    | ended hends => exact ⟨_, (Option.some.inj houtcome).symm, hends⟩
    | looking | choosing | waiting | answering => cases houtcome
  case blocked =>
    intro hgoing hblocked hover
    obtain ⟨scope, hscope, -, hlive⟩ := hstage.waiting_of_blocked hH hgoing hblocked
    exact absurd (hover scope hscope) (by simp [hlive])
  case released =>
    intro hgoing hblocked w'' _ hover
    obtain ⟨scope, hscope, rfl, -⟩ := hstage.waiting_of_blocked hH hgoing hblocked
    exact DoneStage.succeeds_of_waiting hH (hover scope hscope)
  case closed =>
    intro as s₁ a s₂ h₁ h₂ ha
    obtain ⟨bs, hbs⟩ := hruns
    exact over_of_closing hC hfound (System.run_append hbs h₁) h₂ ha

theorem doneLaw (hH : Hosts env system timed)
    (hC : ScopeCourse c parent expiry H (system w.outside))
    (hopens : ∀ scope, (system w.outside).scope? c = some scope → ∃ μ ∈ H, μ.opens c scope)
    (hacts : Thread.Acts env (Runs system) (doing caller children (doneTick c)) w acts t' w') :
    DoneLaw env system timed c caller H w acts t' w' := by
  have hrooted : ∀ w₁, Runs system w w₁ → ∀ scope, (system w₁.outside).scope? c = some scope →
      (system w₁.outside).tokens.Rooted scope.token := by
    rintro w₁ ⟨bs, hbs⟩ scope hscope
    exact rooted_of_scope (hC.run hbs) hscope
  rcases doneTick_course hH hrooted hacts with ⟨rfl, rfl⟩ |
    ⟨found, rest, w₁, rfl, hruns, hfound, hruns', hasks, hstage⟩
  · refine ⟨fun s hs => ?_, fun _ => ⟨rfl, isSome_step_of_asking (q := .scope c) hH rfl⟩,
      fun hne => absurd rfl hne⟩
    obtain ⟨_, _, w₂, hq, rfl, hsystem, -⟩ := step_of_asking (q := .scope c) hH hs
    obtain ⟨-, rfl⟩ := Prod.mk.inj (Option.some.inj hq)
    exact hsystem
  · obtain ⟨bs, hbs⟩ := hruns
    have hC₁ := hC.run hbs
    refine ⟨fun s hs => ?_, nofun, fun _ => ⟨found, rest, w₁, bs, rfl, hbs, hfound, hruns',
      fun scope hscope => ?_, readLaw hH hC₁ hfound hruns' hasks hstage⟩⟩
    · exact (hstage.step hH (fun scope hscope => hrooted w₁ ⟨bs, hbs⟩ scope (hfound.trans hscope))
        hruns' hs).1
    · exact hC.opens_of_run hopens hbs scope (hfound.trans hscope)

/-- **A tick waits for the scope that it has found.** Let a system run in any order of
actions, and make a context on the way; and let a world host that system. When a thread
there runs the tick that waits for a scope of the context, then, whoever opens or cancels
scopes in between or lets time pass, the tick keeps to its law, wherever it has got to. -/
theorem done_waits_for_its_scope {before as : List Action} {s₀ s₁ : System}
    (h₀ : System.empty.run before = some s₀) (above : ∀ p ∈ parent, s₀.tokens.Rooted p)
    (h₁ : s₀.step (.newContext parent expiry) = some s₁) (hH : Hosts env system timed)
    (h : s₁.run as = some (system w.outside))
    (hacts : Thread.Acts env (Runs system)
      (doing caller children (doneTick s₀.contexts.size)) w acts t' w') :
    DoneLaw env system timed s₀.contexts.size caller (s₁.moments as) w acts t' w' := by
  have hC := ScopeCourse.start (System.tidy_run System.tidy_empty h₀) above h₁
  have hnone : ∀ scope, s₁.scope? s₀.contexts.size = some scope →
      ∃ μ ∈ ([] : List Moment), μ.opens s₀.contexts.size scope := by
    intro scope hscope
    cases h₁
    simp [System.withScopes, Scopes.newContext, Scopes.scope?] at hscope
  exact doneLaw hH (hC.run h) (hC.opens_of_run hnone h) hacts

/-- A context whose scopes expire has opened one. -/
def openedOnce : System :=
  (System.empty.act (.newContext none (some (.after 10)))).act (.openScope true 0)

/-- A tick waits for that scope when the context opens another, where no timer service is
current; this fails, but the tick is released. -/
theorem done_waits_for_its_scope_refusedInit : ∃ s₀ acts t' w',
    System.empty.step (.newContext none (some (.after 10))) = some s₀ ∧
    s₀.run [.openScope true 0] = some openedOnce ∧
    Thread.Acts Scenario.environment (Runs Scenario.Stage.system) (doing default [] (doneTick 0))
      ⟨.empty, [], { clock := .virtual, system := openedOnce }⟩ acts t' w' ∧
    t'.outcome? = none ∧ t'.step Scenario.environment w' = none ∧
    (openedOnce.openScope false 0).1 = .error .expiryNeedsRuntime ∧
    ∀ s', openedOnce.step (.openScope false 0) = some s' → s'.tokens.isCancelled 0 := by
  have hacts : Thread.Acts Scenario.environment (Runs Scenario.Stage.system)
      (doing default [] (doneTick 0)) ⟨.empty, [], { clock := .virtual, system := openedOnce }⟩ _ _ _ :=
    .step rfl (fun hne => absurd rfl hne) (.step rfl (fun hne => absurd rfl hne) .refl)
  refine ⟨_, _, _, _, rfl, rfl, hacts, rfl, rfl, rfl, fun s' h => ?_⟩
  have hnone : ∀ p ∈ (none : Option Nat), System.empty.tokens.Rooted p := nofun
  have law := @done_waits_for_its_scope _ _ _ _ _ _ [] _ _ _ _ _ _ [] [.openScope true 0] _ _ rfl hnone
    rfl Scenario.hosts_environment rfl hacts
  obtain ⟨found, rest, w₁, bs, h₁, -, -, -, -, hread⟩ := law.reads nofun
  obtain ⟨hfound, -⟩ := List.cons.inj h₁
  obtain rfl : some ⟨0, true⟩ = found := eq_of_heq (Act.asked.inj hfound).2
  exact hread.closed [] _ _ s' rfl h (.inr ⟨false, rfl⟩) ⟨0, true⟩ rfl

end

end Context

end TickTree
