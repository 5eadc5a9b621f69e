/-
# The life of a scope

The scopes that a context opens, one after the other, can be read off the history
of a system, each with its token and the time at which it was opened
(`openings`). At most one of them is live, and that is the one that the context
has stored. A live scope ends when its context cancels it or opens another, when
its token or one above it is cancelled, or when its time has come; the timer of a
scope cancels that scope and no later one. Where the timers that are due have
gone off, no scope is live past its time.

Each opening has a token of its own, which no other context, no timer of another
opening and no ticker ever gets; and while it is live, its context has it stored,
and a timer runs for it if it is to expire (`Opening.Kept`). A step that ends a live
scope cancels its token or one of those above, and as the token is its own, there
are few ways to do that (`EndsScope`).

Key definitions: `Opening`, `openings`, `Opening.Kept`, `EndsScope`, `ScopeLaw`.
Key theorems: `Opening.Kept.step`, `Opening.Kept.ends`, `ScopeCourse.step`,
`ScopeCourse.law`.
-/
import TickTree.Proofs.ScopeSteps
import TickTree.Proofs.TickerExit
import Mathlib.Data.List.Nodup

namespace TickTree

/-! ### Openings -/

/-- The opening of a scope: its token, and the time. -/
structure Opening where
  token : Nat
  time : Nat
  deriving DecidableEq, Repr

/-- The opening of a scope of context `c`, if there is one at that moment. -/
def Moment.opened (c : Nat) (μ : Moment) : Option Opening :=
  match μ.action with
  | .openScope timed c' =>
    if c' = c then
      ((μ.found.openScope timed c).2.scope? c).map fun scope => ⟨scope.token, μ.found.now⟩
    else none
  | _ => none

/-- The scopes that context `c` opens, in order. -/
def openings (c : Nat) (H : List Moment) : List Opening := H.filterMap (Moment.opened c)

@[simp] theorem openings_snoc (c : Nat) (H : List Moment) (μ : Moment) :
    openings c (H ++ [μ]) = openings c H ++ (μ.opened c).toList := by
  cases h : μ.opened c <;> simp [openings, h]

/-- What holds of a scope that a context with that parent and expiry has opened:
its token is its own and hangs under the parent; while it is live, it is stored,
and a timer runs for it if it is to expire. -/
structure Opening.Kept (o : Opening) (c : Nat) (parent : Option Nat) (expiry : Option Expiry)
    (s : System) : Prop where
  rooted : s.tokens.Rooted o.token
  lineage : s.tokens.lineage o.token = o.token :: parent.elim [] s.tokens.lineage
  apart : ∀ p ∈ parent, s.tokens.Rooted p ∧ o.token ∉ s.tokens.lineage p
  alone : ∀ c' scope, s.scope? c' = some scope → scope.token = o.token → c' = c
  undriven : ∀ x, ¬ s.Uses o.token (some x)
  due : ∀ (k : Nat) timer, s.timers[k]? = some timer → timer.token = o.token →
    ∃ e ∈ expiry, (timer.due : Int) = e.due o.time
  stored : s.tokens.isCancelled o.token = false → ∃ scope, s.scope? c = some scope ∧
    scope.token = o.token
  timed : s.tokens.isCancelled o.token = false → expiry.isSome → ∃ (k : Nat) (timer : Timer),
    s.timers[k]? = some timer ∧ timer.token = o.token ∧ timer.isOver = false

namespace Opening.Kept

variable {o : Opening} {c : Nat} {parent : Option Nat} {expiry : Option Expiry} {s s' : System}
  {a : Action}

/-- What is live after a step was live before. -/
theorem live_before (hK : o.Kept c parent expiry s) (h : s.step a = some s')
    (hlive : s'.tokens.isCancelled o.token = false) :
    s.tokens.isCancelled o.token = false ∧ s.cancels? a ≠ some o.token := by
  rw [Bool.eq_false_iff, ne_eq, System.step_cancels h hK.rooted, not_or] at hlive
  refine ⟨by simpa using hlive.1, fun hc => hlive.2 ⟨o.token, hc, ?_⟩⟩
  exact s.tokens.self_mem_lineage o.token

/-- **The step lemma of openings.** -/
theorem step (hK : o.Kept c parent expiry s) (h : s.step a = some s') :
    o.Kept c parent expiry s' := by
  have hlater := System.step_scopes h
  have hmade := hK.rooted.made
  refine ⟨hlater.rooted hK.rooted, ?_, fun p hp => ?_, ?_, ?_, ?_, fun hlive => ?_, fun hlive he => ?_⟩
  · rw [hlater.lineage hmade, hK.lineage, hlater.above fun p hp => (hK.apart p hp).1.made]
  · obtain ⟨hrooted, hnot⟩ := hK.apart p hp
    rw [hlater.lineage hrooted.made]
    exact ⟨hlater.rooted hrooted, hnot⟩
  · intro c' scope hscope htoken
    rcases System.step_scope h hscope with hbefore | hnew
    · exact hK.alone c' scope hbefore htoken
    · exact absurd (htoken ▸ hmade) hnew
  · intro x hu
    rcases System.step_uses h hu with hbefore | ⟨hnew, -⟩
    · exact hK.undriven x hbefore
    · exact hnew hmade
  · intro k timer' hk' htoken
    cases hk : s.timers[k]? with
    | none =>
      rw [← htoken, (System.step_newTimer h hk hk').1] at hmade
      exact absurd hmade (Nat.lt_irrefl _)
    | some timer =>
      obtain ⟨isOver, hk'', -⟩ := System.step_timer h hk
      cases hk'.symm.trans hk''
      exact hK.due k timer hk htoken
  · obtain ⟨hbefore, hnot⟩ := hK.live_before h hlive
    obtain ⟨scope, hscope, htoken⟩ := hK.stored hbefore
    obtain ⟨context, hc, hscope'⟩ := Option.bind_eq_some_iff.mp hscope
    obtain ⟨scope', hc', rfl | ⟨⟨timed, rfl⟩, -⟩⟩ := System.step_context h hc
    · exact ⟨scope, by simp [Scopes.scope?, hc', hscope'], htoken⟩
    · exact absurd (by simp [System.cancels?, hscope, htoken]) hnot
  · obtain ⟨hbefore, -⟩ := hK.live_before h hlive
    obtain ⟨k, timer, hk, htoken, hover⟩ := hK.timed hbefore he
    obtain ⟨isOver, hk', hor⟩ := System.step_timer h hk
    refine ⟨k, _, hk', htoken, ?_⟩
    by_contra hover'
    rcases hor (by simpa using hover') with htimer | hcancelled
    · cases hover.symm.trans htimer
    · have := hcancelled (htoken ▸ hK.rooted)
      rw [htoken, hlive] at this
      cases this

/-- A scope that has just been opened. -/
theorem opened {timed : Bool} {context : Context} (htidy : s.Tidy)
    (above : ∀ p ∈ context.parent, s.tokens.Rooted p) (hc : s.contexts[c]? = some context)
    (h : s.step (.openScope timed c) = some s')
    (ho : Moment.opened c ⟨s, .openScope timed c⟩ = some o) :
    o.Kept c context.parent context.expiry s' ∧ s'.scope? c = some ⟨o.token, timed⟩ ∧
      ¬ s.tokens.Made o.token := by
  have hlater := System.step_scopes h
  have hnew : ¬ s.tokens.Made s.tokens.entries.size := Nat.lt_irrefl _
  have hstep := h
  cases h
  simp only [Moment.opened, if_true, Option.map_eq_some_iff] at ho
  obtain ⟨scope, hscope, rfl⟩ := ho
  obtain rfl := Scopes.scope_openScope timed hc hscope
  have hmade := Scopes.made_openScope timed hc
  have hlineage : (s.withScopes (s.openScope timed c).2).tokens.lineage s.tokens.entries.size = _ :=
    Scopes.lineage_openScope timed hc fun p hp => (above p hp).made
  have habove := hlater.above fun p hp => (above p hp).made
  refine ⟨⟨fun t ht => ?_, hlineage.trans (congrArg _ habove.symm), fun p hp => ?_, ?_, ?_, ?_,
    fun _ => ⟨_, hscope, rfl⟩, Scopes.timer_openScope timed hc hscope⟩, hscope, hnew⟩
  · dsimp only at ht
    rw [hlineage] at ht
    rcases List.mem_cons.mp ht with rfl | ht
    · exact hmade
    · obtain ⟨p, hp, ht⟩ := Tokens.mem_above.mp ht
      exact hlater.made (above p hp t ht)
  · refine ⟨hlater.rooted (above p hp), fun ht => ?_⟩
    rw [hlater.lineage (above p hp).made] at ht
    exact hnew (above p hp _ ht)
  · intro c' scope' hscope' htoken
    by_contra hne
    have hbefore : s.scope? c' = some scope' := by
      rw [← hscope']
      exact (congrArg (Option.bind · _) (Scopes.getElem?_openScope _ _ (Ne.symm hne))).symm
    have hmade' := htidy _ none (.inl ⟨c', scope', hbefore, rfl⟩)
    rw [htoken] at hmade'
    exact hnew hmade'
  · exact fun x hu => hnew (htidy _ (some x) hu)
  · intro k timer' hk' htoken
    cases hk : s.timers[k]? with
    | none =>
      obtain ⟨-, _, _, context', ha, hc', hdue⟩ := System.step_newTimer hstep hk hk'
      cases ha
      cases hc.symm.trans hc'
      exact hdue
    | some timer =>
      obtain ⟨isOver, hk'', -⟩ := System.step_timer hstep hk
      cases hk'.symm.trans hk''
      have hmade' := htidy _ none (.inr ⟨timer, Array.mem_of_getElem? hk, rfl⟩)
      rw [show timer.token = s.tokens.entries.size from htoken] at hmade'
      exact absurd hmade' hnew

end Opening.Kept

/-- Why a scope that context `c` has opened ends at the moment `μ`, which leaves the
system `s'`. -/
inductive EndsScope (c : Nat) (parent : Option Nat) (expiry : Option Expiry) (o : Opening)
    (μ : Moment) (s' : System) : Prop
  /-- Its context cancels it, and has it stored. -/
  | closed {scope} : μ.action = .cancelScope c → μ.found.scope? c = some scope →
      scope.token = o.token → EndsScope c parent expiry o μ s'
  /-- Its context opens another, and has it stored. -/
  | reopened {timed scope} : μ.action = .openScope timed c → μ.found.scope? c = some scope →
      scope.token = o.token → EndsScope c parent expiry o μ s'
  /-- Its token is cancelled by one who holds it. -/
  | cancelled : μ.action = .cancel o.token → EndsScope c parent expiry o μ s'
  /-- The parent is cancelled. -/
  | above : μ.found.isCancelledAbove parent = false → s'.isCancelledAbove parent →
      EndsScope c parent expiry o μ s'
  /-- Its own timer goes off, at its own time. -/
  | expired {k timer e} : μ.action = .runTimer k → μ.found.timers[k]? = some timer →
      timer.token = o.token → expiry = some e → e.due o.time ≤ μ.found.elapsed →
      EndsScope c parent expiry o μ s'

namespace Opening.Kept

variable {o o' : Opening} {c : Nat} {parent : Option Nat} {expiry : Option Expiry} {s s' : System}
  {a : Action}

theorem isCancelledAbove (hK : o.Kept c parent expiry s)
    (hlive : s.tokens.isCancelled o.token = false) : s.isCancelledAbove parent = false := by
  cases hp : parent with
  | none => rfl
  | some p =>
    rw [Tokens.isCancelled, hK.lineage, hp, List.any_cons, Bool.or_eq_false_iff] at hlive
    exact hlive.2

/-- A step that cancels the token itself. -/
theorem ends_self (hK : o.Kept c parent expiry s)
    (ht : s.cancels? a = some o.token) : EndsScope c parent expiry o ⟨s, a⟩ s' := by
  cases a with
  | cancel token =>
    cases ht
    exact .cancelled rfl
  | cancelScope c' =>
    obtain ⟨scope, hscope, htoken⟩ := Option.map_eq_some_iff.mp ht
    obtain rfl := hK.alone c' scope hscope htoken
    exact .closed rfl hscope htoken
  | openScope timed c' =>
    obtain ⟨scope, hscope, htoken⟩ := Option.map_eq_some_iff.mp ht
    obtain rfl := hK.alone c' scope hscope htoken
    exact .reopened rfl hscope htoken
  | runTimer k =>
    obtain ⟨timer, htimer, htoken⟩ := Option.map_eq_some_iff.mp ht
    obtain ⟨hk, hgoes⟩ := Option.filter_eq_some_iff.mp htimer
    obtain ⟨e, he, hdue⟩ := hK.due k timer hk htoken
    have helapsed : timer.due ≤ s.elapsed := by
      simp only [Bool.and_eq_true, decide_eq_true_eq] at hgoes
      exact hgoes.2
    exact .expired rfl hk htoken he (by dsimp only; omega)
  | drive x =>
    obtain ⟨ticker, hx, ht⟩ := Option.bind_eq_some_iff.mp ht
    split at ht
    · exact absurd ⟨ticker, hx, Option.some.inj ht⟩ (hK.undriven x)
    · cases ht
  | _ => cases ht

/-- **A live scope ends for one of five reasons.** -/
theorem ends (hK : o.Kept c parent expiry s) (h : s.step a = some s')
    (hlive : s.tokens.isCancelled o.token = false) (hdead : s'.tokens.isCancelled o.token) :
    EndsScope c parent expiry o ⟨s, a⟩ s' := by
  rcases (System.step_cancels h hK.rooted).mp hdead with hbefore | ⟨t, ht, hmem⟩
  · cases hlive.symm.trans hbefore
  · rw [hK.lineage] at hmem
    rcases List.mem_cons.mp hmem with rfl | hmem
    · exact hK.ends_self ht
    · obtain ⟨p, hp, hmem⟩ := Tokens.mem_above.mp hmem
      obtain rfl : parent = some p := hp
      refine .above (hK.isCancelledAbove hlive) ?_
      exact (System.step_cancels h (hK.apart p rfl).1).mpr (.inr ⟨t, ht, hmem⟩)

/-- The timer of another opening does nothing to the scope. -/
theorem spared {k : Nat} {timer : Timer} (hK : o.Kept c parent expiry s)
    (hK' : o'.Kept c parent expiry s) (hne : o'.token ≠ o.token)
    (h : s.step (.runTimer k) = some s') (hk : s.timers[k]? = some timer)
    (htoken : timer.token = o'.token) :
    s'.tokens.isCancelled o.token = s.tokens.isCancelled o.token := by
  refine Bool.eq_iff_iff.mpr ((System.step_cancels h hK.rooted).trans ?_)
  refine or_iff_left ?_
  rintro ⟨t, ht, hmem⟩
  obtain ⟨timer', htimer', rfl⟩ := Option.map_eq_some_iff.mp ht
  obtain rfl := Option.some.inj (hk.symm.trans (Option.filter_eq_some_iff.mp htimer').1)
  rw [htoken, hK.lineage] at hmem
  rcases List.mem_cons.mp hmem with heq | hmem
  · exact hne heq
  · obtain ⟨p, hp, hmem⟩ := Tokens.mem_above.mp hmem
    exact (hK'.apart p hp).2 hmem

/-- The timer of a live scope that is to expire. -/
theorem timer (hK : o.Kept c parent expiry s) (hlive : s.tokens.isCancelled o.token = false)
    {e : Expiry} (he : e ∈ expiry) :
    ∃ (k : Nat) (timer : Timer), s.timers[k]? = some timer ∧ timer.token = o.token ∧
      timer.isOver = false ∧ (timer.due : Int) = e.due o.time := by
  obtain ⟨k, timer, hk, htoken, hover⟩ := hK.timed hlive (Option.isSome_of_mem he)
  obtain ⟨e', he', hdue⟩ := hK.due k timer hk htoken
  obtain rfl : e = e' := Option.some.inj (he.symm.trans he')
  exact ⟨k, timer, hk, htoken, hover, hdue⟩

/-- Where the timers that are due by a time have gone off, a scope whose time has
come by then is cancelled. -/
theorem expires {time : Nat} {e : Expiry} (hK : o.Kept c parent expiry s)
    (hran : ∀ timer ∈ s.timers, timer.due ≤ time → timer.isOver = true) (he : e ∈ expiry)
    (hdue : e.due o.time ≤ time) : s.tokens.isCancelled o.token := by
  by_contra hlive
  obtain ⟨k, timer, hk, -, hover, htime⟩ := hK.timer (by simpa using hlive) he
  have := hran timer (Array.mem_of_getElem? hk) (by omega)
  cases hover.symm.trans this

/-- A live scope whose time has come has a timer that can go off, and ends when it
does. -/
theorem wakes {e : Expiry} (hK : o.Kept c parent expiry s)
    (hlive : s.tokens.isCancelled o.token = false) (he : e ∈ expiry)
    (hdue : e.due o.time ≤ s.elapsed) :
    ∃ k s', s.step (.runTimer k) = some s' ∧ s'.tokens.isCancelled o.token := by
  obtain ⟨k, timer, hk, htoken, hover, htime⟩ := hK.timer hlive he
  have hdue : timer.due ≤ s.elapsed := by omega
  obtain ⟨scopes, hrun⟩ := Option.isSome_iff_exists.mp (Scopes.isSome_runTimer hk hover hdue)
  have hstep : s.step (.runTimer k) = some (s.withScopes scopes) := Option.map_eq_some_iff.mpr
    ⟨scopes, hrun, rfl⟩
  refine ⟨k, _, hstep, (System.step_cancels hstep hK.rooted).mpr (.inr ⟨o.token, ?_, ?_⟩)⟩
  · simp [System.cancels?, hk, htoken, hlive, hdue, Option.filter]
  · exact s.tokens.self_mem_lineage o.token

end Opening.Kept

/-! ### Whole runs -/

/-- Scopes that are live before `μ` and not after it end for a reason. -/
def EndsRightly (c : Nat) (parent : Option Nat) (expiry : Option Expiry) (past : List Moment)
    (μ : Moment) : Prop :=
  ∀ o ∈ openings c past, ∀ s', μ.found.step μ.action = some s' →
    μ.found.tokens.isCancelled o.token = false → s'.tokens.isCancelled o.token →
      EndsScope c parent expiry o μ s'

/-- A timer that goes off at `μ` for one scope leaves every other as it is. -/
def SparesOthers (c : Nat) (past : List Moment) (μ : Moment) : Prop :=
  ∀ o ∈ openings c past, ∀ o' ∈ openings c past, o' ≠ o → ∀ k timer s',
    μ.action = .runTimer k → μ.found.step (.runTimer k) = some s' →
      μ.found.timers[k]? = some timer → timer.token = o'.token →
        s'.tokens.isCancelled o.token = μ.found.tokens.isCancelled o.token

/-- A scope that is opened at `μ` when its time has come starts cancelled. -/
def OpensCancelled (c : Nat) (expiry : Option Expiry) (μ : Moment) : Prop :=
  ∀ timed e, μ.action = .openScope timed c → expiry = some e →
    e.due μ.found.now ≤ μ.found.now → ∃ o s', μ.opened c = some o ∧
      (μ.found.openScope timed c).1 = .ok .success ∧ μ.found.step μ.action = some s' ∧
        s'.tokens.isCancelled o.token

/-- The course of context `c` with that parent and expiry after its moments `H`. -/
structure ScopeCourse (c : Nat) (parent : Option Nat) (expiry : Option Expiry) (H : List Moment)
    (s : System) : Prop where
  tidy : s.Tidy
  above : ∀ p ∈ parent, s.tokens.Rooted p
  context : ∃ scope, s.contexts[c]? = some { parent, expiry, scope }
  kept : ∀ o ∈ openings c H, o.Kept c parent expiry s
  last : ∀ scope, s.scope? c = some scope →
    (openings c H).getLast?.map (·.token) = some scope.token
  distinct : ((openings c H).map (·.token)).Nodup
  ends : Throughout (EndsRightly c parent expiry) H
  spares : Throughout (SparesOthers c) H
  late : Throughout (fun _ μ => OpensCancelled c expiry μ) H

namespace ScopeCourse

variable {c : Nat} {parent : Option Nat} {expiry : Option Expiry} {H : List Moment}
  {s s' : System} {a : Action}

theorem eq_of_token (hC : ScopeCourse c parent expiry H s) {o o' : Opening}
    (ho : o ∈ openings c H) (ho' : o' ∈ openings c H) (htoken : o.token = o'.token) : o = o' :=
  List.inj_on_of_nodup_map hC.distinct ho ho' htoken

/-- A context that has just been made has opened nothing. -/
theorem start (htidy : s.Tidy) (above : ∀ p ∈ parent, s.tokens.Rooted p)
    (h : s.step (.newContext parent expiry) = some s') :
    ScopeCourse s.contexts.size parent expiry [] s' := by
  have hcontext : s'.contexts[s.contexts.size]? = some { parent, expiry, scope := none } := by
    cases h
    simp [System.withScopes, Scopes.newContext]
  refine ⟨System.tidy_step htidy h, fun p hp => (System.step_scopes h).rooted (above p hp),
    ⟨none, hcontext⟩, fun o ho => absurd ho List.not_mem_nil, fun scope hscope => ?_, .nil,
    throughout_nil _, throughout_nil _, throughout_nil _⟩
  simp [Scopes.scope?, hcontext] at hscope

/-- What the context opens at the next moment. -/
theorem opened (hC : ScopeCourse c parent expiry H s) (h : s.step a = some s') {o : Opening}
    (ho : Moment.opened c ⟨s, a⟩ = some o) :
    o.Kept c parent expiry s' ∧ (∃ timed, s'.scope? c = some ⟨o.token, timed⟩) ∧
      ¬ s.tokens.Made o.token := by
  obtain ⟨scope, hc⟩ := hC.context
  cases a with
  | openScope timed c' =>
    have hcc : c' = c := by
      by_contra hne
      simp [Moment.opened, hne] at ho
    subst hcc
    obtain ⟨hkept, hscope, hnew⟩ := Opening.Kept.opened hC.tidy hC.above hc h ho
    exact ⟨hkept, ⟨timed, hscope⟩, hnew⟩
  | _ => cases ho

/-- If the context opens nothing, it keeps its scope or loses it. -/
theorem scope_of_not_opened (hC : ScopeCourse c parent expiry H s) (h : s.step a = some s')
    (ho : Moment.opened c ⟨s, a⟩ = none) {scope : Scope} (hscope : s'.scope? c = some scope) :
    s.scope? c = some scope := by
  obtain ⟨scope₀, hc⟩ := hC.context
  obtain ⟨scope', hc', rfl | ⟨⟨timed, rfl⟩, -⟩⟩ := System.step_context h hc
  · simp only [Scopes.scope?, hc'] at hscope
    simpa only [Scopes.scope?, hc] using hscope
  · cases h
    have hnone : (s.openScope timed c).2.scope? c = none := by simpa [Moment.opened] using ho
    cases hnone.symm.trans hscope

/-- The scopes opened so far end rightly in the next moment. -/
theorem endsRightly (hC : ScopeCourse c parent expiry H s) :
    EndsRightly c parent expiry H ⟨s, a⟩ :=
  fun o ho _ h hlive hdead => (hC.kept o ho).ends h hlive hdead

theorem sparesOthers (hC : ScopeCourse c parent expiry H s) : SparesOthers c H ⟨s, a⟩ := by
  intro o ho o' ho' hne k timer s' _ h hk htoken
  have hne : o'.token ≠ o.token := fun heq => hne (hC.eq_of_token ho' ho heq)
  exact (hC.kept o ho).spared (hC.kept o' ho') hne h hk htoken

theorem opensCancelled (hC : ScopeCourse c parent expiry H s) :
    OpensCancelled c expiry ⟨s, a⟩ := by
  rintro timed e rfl he hdue
  obtain ⟨scope₀, hc⟩ := hC.context
  obtain ⟨hok, scope, hscope, hcancelled⟩ := Scopes.openScope_of_due timed hc he hdue
  exact ⟨⟨scope.token, s.now⟩, _, by simp [Moment.opened, hscope], hok, rfl, hcancelled⟩

/-- **The step lemma.** -/
theorem step (hC : ScopeCourse c parent expiry H s) (h : s.step a = some s') :
    ScopeCourse c parent expiry (H ++ [⟨s, a⟩]) s' := by
  have hkept : ∀ o ∈ openings c H, o.Kept c parent expiry s' := fun o ho => (hC.kept o ho).step h
  have hcontext : ∃ scope, s'.contexts[c]? = some { parent, expiry, scope } := by
    obtain ⟨scope, hc⟩ := hC.context
    obtain ⟨scope', hc', -⟩ := System.step_context h hc
    exact ⟨scope', hc'⟩
  suffices (∀ o ∈ openings c (H ++ [⟨s, a⟩]), o.Kept c parent expiry s') ∧
      (∀ scope, s'.scope? c = some scope →
        (openings c (H ++ [⟨s, a⟩])).getLast?.map (·.token) = some scope.token) ∧
      ((openings c (H ++ [⟨s, a⟩])).map (·.token)).Nodup from
    ⟨System.tidy_step hC.tidy h, fun p hp => (System.step_scopes h).rooted (hC.above p hp), hcontext,
      this.1, this.2.1, this.2.2, throughout_snoc hC.ends hC.endsRightly,
      throughout_snoc hC.spares hC.sparesOthers, throughout_snoc hC.late hC.opensCancelled⟩
  rw [openings_snoc]
  cases ho : Moment.opened c ⟨s, a⟩ with
  | none =>
    rw [Option.toList_none, List.append_nil]
    exact ⟨hkept, fun scope hscope => hC.last scope (hC.scope_of_not_opened h ho hscope), hC.distinct⟩
  | some o =>
    obtain ⟨hnow, ⟨timed, hscope⟩, hnew⟩ := hC.opened h ho
    rw [Option.toList_some]
    refine ⟨fun o' ho' => ?_, fun scope hscope' => ?_, ?_⟩
    · rcases List.mem_append.mp ho' with ho' | ho'
      · exact hkept o' ho'
      · rwa [List.mem_singleton.mp ho']
    · cases hscope.symm.trans hscope'
      simp
    · rw [List.map_append, List.map_singleton, List.nodup_append]
      refine ⟨hC.distinct, by simp, ?_⟩
      rintro t ht u hu rfl
      obtain ⟨o', ho', htoken⟩ := List.mem_map.mp ht
      rw [List.mem_singleton.mp hu] at htoken
      exact hnew (htoken ▸ (hC.kept o' ho').rooted.made)

/-- The scope that is stored is one that the context has opened. -/
theorem of_scope (hC : ScopeCourse c parent expiry H s) {scope : Scope}
    (hscope : s.scope? c = some scope) : ∃ o ∈ openings c H, o.token = scope.token := by
  obtain ⟨o, ho, htoken⟩ := Option.map_eq_some_iff.mp (hC.last scope hscope)
  exact ⟨o, List.mem_of_getLast? ho, htoken⟩

/-- A step that cancels the token of the scope stored. -/
theorem isCancelled_of_cancels? (hC : ScopeCourse c parent expiry H s) (h : s.step a = some s')
    (ha : s.cancels? a = (s.scope? c).map (·.token)) {scope : Scope}
    (hscope : s.scope? c = some scope) : s'.tokens.isCancelled scope.token := by
  obtain ⟨o, ho, htoken⟩ := hC.of_scope hscope
  have hrooted := (hC.kept o ho).rooted
  rw [htoken] at hrooted
  refine (System.step_cancels h hrooted).mpr (.inr ⟨scope.token, ?_, s.tokens.self_mem_lineage _⟩)
  rw [ha, hscope]
  rfl

theorem run {as : List Action} (hC : ScopeCourse c parent expiry H s) (h : s.run as = some s') :
    ScopeCourse c parent expiry (H ++ s.moments as) s' :=
  System.run_induction (ScopeCourse c parent expiry) (fun hC h => hC.step h) hC h

/-- A scope that was stored and is still live is still stored. -/
theorem stored_of_run {as : List Action} (hC : ScopeCourse c parent expiry H s)
    (h : s.run as = some s') {scope : Scope} (hscope : s.scope? c = some scope)
    (hlive : s'.tokens.isCancelled scope.token = false) :
    ∃ scope', s'.scope? c = some scope' ∧ scope'.token = scope.token := by
  obtain ⟨o, ho, htoken⟩ := hC.of_scope hscope
  have ho' : o ∈ openings c (H ++ s.moments as) := by
    rw [openings, List.filterMap_append]
    exact List.mem_append_left _ ho
  rw [← htoken] at hlive ⊢
  exact ((hC.run h).kept o ho').stored hlive

end ScopeCourse

/-- The law of the scopes of context `c` with that parent and expiry, after its
moments `H`, in the system `s`. -/
structure ScopeLaw (c : Nat) (parent : Option Nat) (expiry : Option Expiry) (H : List Moment)
    (s : System) : Prop where
  /-- Every scope has a token of its own. -/
  distinct : ((openings c H).map (·.token)).Nodup
  /-- The scope that is stored is the one opened last. -/
  last : ∀ scope, s.scope? c = some scope →
    (openings c H).getLast?.map (·.token) = some scope.token
  /-- A live scope is the one stored, -/
  stored : ∀ o ∈ openings c H, s.tokens.isCancelled o.token = false →
    ∃ scope, s.scope? c = some scope ∧ scope.token = o.token
  /-- so there is at most one. -/
  alone : ∀ o ∈ openings c H, ∀ o' ∈ openings c H, s.tokens.isCancelled o.token = false →
    s.tokens.isCancelled o'.token = false → o = o'
  ends : Throughout (EndsRightly c parent expiry) H
  spares : Throughout (SparesOthers c) H
  /-- Where the timers that are due by a time have gone off, no scope is live whose
  time has come by then, -/
  expires : ∀ time, (∀ timer ∈ s.timers, timer.due ≤ time → timer.isOver = true) →
    ∀ o ∈ openings c H, ∀ e ∈ expiry, e.due o.time ≤ time → s.tokens.isCancelled o.token
  /-- and until then there is a timer that can go off, and ends the scope. -/
  wakes : ∀ o ∈ openings c H, ∀ e ∈ expiry, e.due o.time ≤ s.elapsed →
    s.tokens.isCancelled o.token = false →
      ∃ k s', s.step (.runTimer k) = some s' ∧ s'.tokens.isCancelled o.token
  late : Throughout (fun _ μ => OpensCancelled c expiry μ) H

theorem ScopeCourse.law {c : Nat} {parent : Option Nat} {expiry : Option Expiry}
    {H : List Moment} {s : System} (hC : ScopeCourse c parent expiry H s) :
    ScopeLaw c parent expiry H s where
  distinct := hC.distinct
  last := hC.last
  stored := fun o ho hlive => (hC.kept o ho).stored hlive
  alone := fun o ho o' ho' hlive hlive' => by
    obtain ⟨scope, hscope, htoken⟩ := (hC.kept o ho).stored hlive
    obtain ⟨scope', hscope', htoken'⟩ := (hC.kept o' ho').stored hlive'
    cases hscope.symm.trans hscope'
    exact hC.eq_of_token ho ho' (htoken.symm.trans htoken')
  ends := hC.ends
  spares := hC.spares
  expires := fun _ hran o ho _ he hdue => (hC.kept o ho).expires hran he hdue
  wakes := fun o ho _ he hdue hlive => (hC.kept o ho).wakes hlive he hdue
  late := hC.late

end TickTree
