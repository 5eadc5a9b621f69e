/-
# The steps of scopes

What one step does to tokens, contexts and timers, said of one of each. A step
cancels one token, if any, and with it those below, and no other
(`System.step_cancels`). A context keeps its scope, unless it opens another, and
then the scope has a new token (`System.step_context`). A timer keeps its token and
its time, and is over only once its token is cancelled (`System.step_timer`).

Opening a scope is the one step that does several things: it cancels the scope
before, makes a token, and starts a timer if the scope is to expire later. What it
answers and leaves is one of four (`Scopes.Opens`).

A token whose ancestors have not all been made could come under one that is made
later; so what is said of the cancellation of a token is said of one that has been
made with all above it (`Tokens.Rooted`).

Key definitions: `Tokens.Rooted`, `Scopes.Opens`, `Context.initAnswer`.
Key theorems: `Scopes.opens`, `System.step_cancels`, `System.step_context`,
`System.step_timer`.
-/
import TickTree.Proofs.TokenUse

namespace TickTree

/-! ### Tokens -/

namespace Tokens

variable {ts : Tokens} {t u : Nat}

theorem self_mem_lineage (ts : Tokens) (u : Nat) : u ∈ ts.lineage u := by
  unfold lineage
  split <;> simp

theorem isCancelled_iff : ts.isCancelled u ↔ ∃ t ∈ ts.lineage u, ts.flagged t :=
  List.any_eq_true

theorem mem_above {parent : Option Nat} :
    t ∈ parent.elim [] ts.lineage ↔ ∃ p ∈ parent, t ∈ ts.lineage p := by
  cases parent <;> simp

/-- The token and all above it have been made. -/
def Rooted (ts : Tokens) (u : Nat) : Prop := ∀ t ∈ ts.lineage u, ts.Made t

theorem Rooted.made (h : ts.Rooted u) : ts.Made u := h u (ts.self_mem_lineage u)

theorem Rooted.under (h : ts.Rooted u) (parent : Option Nat) : (ts.under parent).2.Rooted u := by
  intro v hv
  rw [lineage_under parent h.made] at hv
  exact made_under parent (h v hv)

theorem cancel_of_not_made (h : ¬ ts.Made t) : ts.cancel t = ts := by
  have hsame : ts.entries.modify t (fun token => { token with cancelled := true }) = ts.entries := by
    refine Array.ext (by simp) fun i hi _ => ?_
    have hne : t ≠ i := by
      rintro rfl
      exact h (by simpa [Made] using hi)
    simp [Array.getElem_modify, hne]
  simp only [cancel, hsame]

/-- A token is cancelled after `t` was if it was before, or descends from `t`. -/
theorem isCancelled_cancel_iff (hu : ts.Rooted u) :
    (ts.cancel t).isCancelled u ↔ ts.isCancelled u ∨ t ∈ ts.lineage u := by
  by_cases hmade : ts.Made t
  · rw [isCancelled_cancel ts hmade]
    simp
  · have hnot : t ∉ ts.lineage u := fun ht => hmade (hu t ht)
    simp [cancel_of_not_made hmade, hnot]

theorem isCancelled_cancel_self (h : ts.Made t) : (ts.cancel t).isCancelled t := by
  rw [isCancelled_cancel ts h]
  simp [self_mem_lineage]

/-- Making a token changes nothing about those made. -/
theorem isCancelled_under (parent : Option Nat) (hu : ts.Rooted u) :
    (ts.under parent).2.isCancelled u ↔ ts.isCancelled u := by
  rw [isCancelled_iff, isCancelled_iff, lineage_under parent hu.made]
  refine exists_congr fun t => and_congr_right fun ht => ?_
  rw [flagged_under parent (hu t ht)]

end Tokens

/-! ### Opening a scope -/

/-- What opening a scope answers at the time `now`, where `timed` says whether a
timer service is current. -/
def Context.initAnswer (expiry : Option Expiry) (now : Nat) (timed : Bool) : TickResult :=
  match expiry with
  | none => .ok .success
  | some e => if e.due now ≤ now ∨ timed then .ok .success else .error .expiryNeedsRuntime

namespace Scopes

variable {s s' : Scopes} {c u : Nat} {timed : Bool} {context : Context}

theorem Later.rooted {may : Nat → Prop} (h : Later may s s') (hu : s.tokens.Rooted u) :
    s'.tokens.Rooted u := by
  intro t ht
  rw [h.lineage hu.made] at ht
  exact h.made (hu t ht)

theorem cancelScope_eq (s : Scopes) (c : Nat) :
    s.cancelScope c = { s with tokens := (s.cancelScope c).tokens } := by
  unfold cancelScope
  split <;> rfl

theorem size_cancelScope (s : Scopes) (c : Nat) :
    (s.cancelScope c).tokens.entries.size = s.tokens.entries.size := by
  unfold cancelScope
  split
  · simp [Scopes.cancel, Tokens.cancel]
  · rfl

/-- The scopes with the scope of context `c` cancelled and gone, and with a token
made for its next. -/
def cleared (s : Scopes) (c : Nat) (parent : Option Nat) : Scopes :=
  { s.setScope c none with tokens := ((s.cancelScope c).tokens.under parent).2 }

/-- The scopes with a scope of context `c` stored that has a new token. -/
def reopened (s : Scopes) (c : Nat) (parent : Option Nat) (timed : Bool) : Scopes :=
  (s.cleared c parent).setScope c (some ⟨s.tokens.entries.size, timed⟩)

theorem scope?_cleared (hc : s.contexts[c]? = some context) :
    (s.cleared c context.parent).scope? c = none := by
  simp [cleared, setScope, scope?, Array.getElem?_modify, hc]

theorem scope?_reopened (timed : Bool) (hc : s.contexts[c]? = some context) :
    (s.reopened c context.parent timed).scope? c = some ⟨s.tokens.entries.size, timed⟩ := by
  simp [reopened, cleared, setScope, scope?, Array.getElem?_modify, hc]

/-- What opening a scope answers and leaves. -/
inductive Opens (s : Scopes) (timed : Bool) (c : Nat) (context : Context) :
    TickResult × Scopes → Prop
  /-- The scope never expires. -/
  | endless : context.expiry = none →
      Opens s timed c context (.ok .success, s.reopened c context.parent timed)
  /-- Its time has come, so it starts cancelled. -/
  | expired {e} : context.expiry = some e → e.due s.now ≤ s.now →
      Opens s timed c context
        (.ok .success, (s.reopened c context.parent timed).cancel s.tokens.entries.size)
  /-- A timer is started for it. -/
  | started {e} : context.expiry = some e → s.now < e.due s.now → timed = true →
      Opens s timed c context (.ok .success,
        { s.reopened c context.parent timed with
          timers := s.timers.push ⟨s.tokens.entries.size, (e.due s.now).toNat, false⟩ })
  /-- There is nothing to run a timer with. -/
  | refused {e} : context.expiry = some e → s.now < e.due s.now → timed = false →
      Opens s timed c context (.error .expiryNeedsRuntime, s.cleared c context.parent)

theorem opens (timed : Bool) (hc : s.contexts[c]? = some context) :
    s.Opens timed c context (s.openScope timed c) := by
  have hclosed : (s.cancelScope c).setScope c none =
      { s.setScope c none with tokens := (s.cancelScope c).tokens } := by
    conv_lhs => rw [cancelScope_eq]
    rfl
  have htoken : ((s.cancelScope c).tokens.under context.parent).1 = s.tokens.entries.size := by
    rw [Tokens.under_fst, size_cancelScope]
  unfold openScope
  simp only [hc, hclosed, htoken]
  cases hexpiry : context.expiry with
  | none => exact .endless hexpiry
  | some e =>
    simp only [Option.map_some]
    split
    · rename_i hdue
      exact .expired hexpiry hdue
    · rename_i hdue
      have hdue := Int.not_le.mp hdue
      cases htimed : timed with
      | true => exact .started hexpiry hdue rfl
      | false => exact .refused hexpiry hdue rfl

/-- Opening a scope gives its context a scope with a new token, or none. -/
theorem context_openScope (timed : Bool) (hc : s.contexts[c]? = some context) :
    ∃ scope, (s.openScope timed c).2.contexts[c]? = some { context with scope } ∧
      ∀ sc ∈ scope, sc = ⟨s.tokens.entries.size, timed⟩ := by
  have hopens := opens timed hc
  generalize s.openScope timed c = opened at hopens
  cases hopens with
  | endless | expired | started =>
    refine ⟨some ⟨s.tokens.entries.size, timed⟩, ?_, by simp⟩
    simp [Scopes.cancel, reopened, cleared, setScope, Array.getElem?_modify, hc]
  | refused =>
    refine ⟨none, ?_, by simp⟩
    simp [cleared, setScope, Array.getElem?_modify, hc]

theorem scope_openScope {scope : Scope} (timed : Bool) (hc : s.contexts[c]? = some context)
    (hscope : (s.openScope timed c).2.scope? c = some scope) :
    scope = ⟨s.tokens.entries.size, timed⟩ := by
  obtain ⟨stored, hc', hnew⟩ := context_openScope timed hc
  simp only [scope?, hc', Option.bind_some] at hscope
  exact hnew scope hscope

/-- Opening a scope leaves the other contexts alone. -/
theorem getElem?_openScope {c' : Nat} (s : Scopes) (timed : Bool) (h : c ≠ c') :
    (s.openScope timed c).2.contexts[c']? = s.contexts[c']? := by
  cases hc : s.contexts[c]? with
  | none => simp [openScope, hc]
  | some context =>
    have hopens := opens timed hc
    generalize s.openScope timed c = opened at hopens
    cases hopens <;>
      simp [Scopes.cancel, reopened, cleared, setScope, Array.getElem?_modify, h]

/-- Opening a scope makes a token, and may cancel it. -/
theorem tokens_openScope (timed : Bool) (hc : s.contexts[c]? = some context) :
    (s.openScope timed c).2.tokens = (s.cleared c context.parent).tokens ∨
      (s.openScope timed c).2.tokens =
        (s.cleared c context.parent).tokens.cancel s.tokens.entries.size := by
  have hopens := opens timed hc
  generalize s.openScope timed c = opened at hopens
  cases hopens with
  | endless | started | refused => exact .inl rfl
  | expired => exact .inr rfl

theorem made_openScope (timed : Bool) (hc : s.contexts[c]? = some context) :
    (s.openScope timed c).2.tokens.Made s.tokens.entries.size := by
  have hcleared := Tokens.made_new (s.cancelScope c).tokens context.parent
  rw [Tokens.under_fst, size_cancelScope] at hcleared
  rcases tokens_openScope timed hc with h | h <;> rw [h]
  · exact hcleared
  · exact Tokens.made_cancel.mpr hcleared

/-- The token that opening a scope makes hangs under the parent of the context. -/
theorem lineage_openScope (timed : Bool) (hc : s.contexts[c]? = some context)
    (above : ∀ p ∈ context.parent, s.tokens.Made p) :
    (s.openScope timed c).2.tokens.lineage s.tokens.entries.size =
      s.tokens.entries.size :: context.parent.elim [] s.tokens.lineage := by
  have hcleared := Tokens.lineage_new (s.cancelScope c).tokens context.parent
  rw [Tokens.under_fst, size_cancelScope, (s.later_cancelScope c).above above] at hcleared
  rcases tokens_openScope timed hc with h | h <;> rw [h]
  · exact hcleared
  · exact (Tokens.lineage_cancel _ _ _).trans hcleared

/-- Opening a scope may start a timer, for the new token and the time at which the
scope expires. -/
theorem timers_openScope (s : Scopes) (timed : Bool) (c : Nat) :
    (s.openScope timed c).2.timers = s.timers ∨ ∃ (context : Context) (e : Expiry) (due : Nat),
      s.contexts[c]? = some context ∧ context.expiry = some e ∧ (due : Int) = e.due s.now ∧
        (s.openScope timed c).2.timers = s.timers.push ⟨s.tokens.entries.size, due, false⟩ := by
  cases hc : s.contexts[c]? with
  | none => simp [openScope, hc]
  | some context =>
    have hopens := opens timed hc
    generalize s.openScope timed c = opened at hopens
    cases hopens with
    | endless | expired | refused => exact .inl rfl
    | @started e he hdue => exact .inr ⟨context, e, (e.due s.now).toNat, rfl, he, by omega, rfl⟩

/-- A scope that is opened to expire has a timer, or starts cancelled. -/
theorem timer_openScope {scope : Scope} (timed : Bool) (hc : s.contexts[c]? = some context)
    (hscope : (s.openScope timed c).2.scope? c = some scope)
    (hlive : (s.openScope timed c).2.tokens.isCancelled s.tokens.entries.size = false)
    (he : context.expiry.isSome) : ∃ (k : Nat) (timer : Timer),
      (s.openScope timed c).2.timers[k]? = some timer ∧
        timer.token = s.tokens.entries.size ∧ timer.isOver = false := by
  have hmade := made_openScope timed hc
  have hopens := opens timed hc
  generalize s.openScope timed c = opened at hopens hscope hlive hmade
  cases hopens with
  | endless hexpiry => simp [hexpiry] at he
  | expired =>
    cases hlive.symm.trans (Tokens.isCancelled_cancel_self (Tokens.made_cancel.mp hmade))
  | started => exact ⟨s.timers.size, _, Array.getElem?_push_size, rfl, rfl⟩
  | refused => cases (scope?_cleared hc).symm.trans hscope

/-- A scope that is opened when its time has come starts cancelled. -/
theorem openScope_of_due {e : Expiry} (timed : Bool) (hc : s.contexts[c]? = some context)
    (he : context.expiry = some e) (hdue : e.due s.now ≤ s.now) :
    (s.openScope timed c).1 = .ok .success ∧ ∃ scope,
      (s.openScope timed c).2.scope? c = some scope ∧
        (s.openScope timed c).2.tokens.isCancelled scope.token := by
  have hmade := made_openScope timed hc
  have hstored := scope?_reopened timed hc
  have hopens := opens timed hc
  generalize s.openScope timed c = opened at hopens hmade
  cases hopens with
  | endless hexpiry => cases hexpiry.symm.trans he
  | expired =>
    refine ⟨rfl, ⟨s.tokens.entries.size, timed⟩, hstored, ?_⟩
    exact Tokens.isCancelled_cancel_self (Tokens.made_cancel.mp hmade)
  | started hexpiry hlate | refused hexpiry hlate =>
    cases hexpiry.symm.trans he
    exact absurd hdue (Int.not_le.mpr hlate)

/-- Opening a scope succeeds, unless the scope would need a timer and there is
nothing to run it with; then the context is left without a scope. -/
theorem openScope_answer (timed : Bool) (hc : s.contexts[c]? = some context) :
    (s.openScope timed c).1 = Context.initAnswer context.expiry s.now timed ∧
      ((s.openScope timed c).1 = .ok .success ↔ ((s.openScope timed c).2.scope? c).isSome) := by
  have hstored := scope?_reopened timed hc
  have hopens := opens timed hc
  generalize s.openScope timed c = opened at hopens
  cases hopens with
  | endless he =>
    refine ⟨by simp [Context.initAnswer, he], iff_of_true rfl ?_⟩
    exact congrArg Option.isSome hstored
  | expired he hdue =>
    refine ⟨by simp [Context.initAnswer, he, hdue], iff_of_true rfl ?_⟩
    exact congrArg Option.isSome hstored
  | started he hdue htimed =>
    refine ⟨by simp [Context.initAnswer, he, htimed], iff_of_true rfl ?_⟩
    exact congrArg Option.isSome hstored
  | refused he hdue htimed =>
    refine ⟨by simp [Context.initAnswer, he, htimed, Int.not_le.mpr hdue], ?_⟩
    simp [scope?_cleared hc]

theorem isCancelled_cancelScope (hu : s.tokens.Rooted u) :
    (s.cancelScope c).tokens.isCancelled u ↔
      s.tokens.isCancelled u ∨ ∃ t ∈ (s.scope? c).map (·.token), t ∈ s.tokens.lineage u := by
  unfold cancelScope
  split
  · rename_i scope hscope
    simp [hscope, Scopes.cancel, Tokens.isCancelled_cancel_iff hu]
  · rename_i hscope
    simp [hscope]

theorem rooted_cancelScope (hu : s.tokens.Rooted u) : (s.cancelScope c).tokens.Rooted u :=
  (s.later_cancelScope c).rooted hu

/-- Opening a scope cancels, of the tokens that there are, that of the scope
before and those below it. -/
theorem isCancelled_openScope (hu : s.tokens.Rooted u) :
    (s.openScope timed c).2.tokens.isCancelled u ↔
      s.tokens.isCancelled u ∨ ∃ t ∈ (s.scope? c).map (·.token), t ∈ s.tokens.lineage u := by
  cases hc : s.contexts[c]? with
  | none => simp [openScope, scope?, hc]
  | some context =>
    have hclosed := rooted_cancelScope (c := c) hu
    have hcleared : (s.cleared c context.parent).tokens.isCancelled u ↔ _ :=
      (Tokens.isCancelled_under context.parent hclosed).trans (isCancelled_cancelScope hu)
    rcases tokens_openScope timed hc with h | h <;> rw [h]
    · exact hcleared
    · have hrooted : (s.cleared c context.parent).tokens.Rooted u := hclosed.under context.parent
      have hlineage : (s.cleared c context.parent).tokens.lineage u = s.tokens.lineage u :=
        (Tokens.lineage_under context.parent hclosed.made).trans
          ((s.later_cancelScope c).lineage hu.made)
      have hnew : s.tokens.entries.size ∉ s.tokens.lineage u := fun ht =>
        Nat.lt_irrefl s.tokens.entries.size (hu _ ht)
      rw [Tokens.isCancelled_cancel_iff hrooted, hcleared, hlineage]
      simp [hnew]

/-! ### Timers -/

/-- What a step of a timer can be. -/
theorem runTimer_cases {k : Nat} (h : s.runTimer k = some s') :
    ∃ timer, s.timers[k]? = some timer ∧ timer.isOver = false ∧
      ((s.tokens.isCancelled timer.token = true ∧ s' =
          { s with timers := s.timers.modify k fun timer => { timer with isOver := true } }) ∨
        (s.tokens.isCancelled timer.token = false ∧ timer.due ≤ s.elapsed ∧ s' =
          { s with timers := s.timers.modify k fun timer => { timer with isOver := true },
                   tokens := s.tokens.cancel timer.token })) := by
  unfold runTimer at h
  split at h
  · cases h
  · rename_i timer htimer
    split at h
    · cases h
    · rename_i hover
      refine ⟨timer, htimer, by simpa using hover, ?_⟩
      split at h
      · rename_i hc
        cases h
        exact .inl ⟨hc, rfl⟩
      · rename_i hc
        split at h
        · rename_i hdue
          cases h
          exact .inr ⟨by simpa using hc, hdue, rfl⟩
        · cases h

/-- A timer that is due and not over can take a step. -/
theorem isSome_runTimer {k : Nat} {timer : Timer} (htimer : s.timers[k]? = some timer)
    (hover : timer.isOver = false) (hdue : timer.due ≤ s.elapsed) : (s.runTimer k).isSome := by
  unfold runTimer
  simp only [htimer, hover, hdue, if_true, if_false, Bool.false_eq_true]
  split <;> rfl

theorem isCancelled_runTimer {k : Nat} (h : s.runTimer k = some s') (hu : s.tokens.Rooted u) :
    s'.tokens.isCancelled u ↔ s.tokens.isCancelled u ∨
      ∃ t ∈ (s.timers[k]?.filter fun timer =>
        !s.tokens.isCancelled timer.token && timer.due ≤ s.elapsed).map (·.token),
        t ∈ s.tokens.lineage u := by
  obtain ⟨timer, htimer, -, ⟨hc, rfl⟩ | ⟨hc, hdue, rfl⟩⟩ := runTimer_cases h
  · simp [htimer, hc, Option.filter]
  · simp [htimer, hc, hdue, Option.filter, Tokens.isCancelled_cancel_iff hu]

end Scopes

/-! ### What a step does to tokens, contexts and timers -/

namespace System

variable {s s' : System} {a : Action} {c k u : Nat}

/-- **What a step cancels**: one token, if any, and those below it. -/
theorem step_cancels (h : s.step a = some s') (hu : s.tokens.Rooted u) :
    s'.tokens.isCancelled u ↔
      s.tokens.isCancelled u ∨ ∃ t ∈ s.cancels? a, t ∈ s.tokens.lineage u := by
  have hchange := step_rescopes h
  generalize s'.toScopes = scopes at hchange ⊢
  cases hchange with
  | kept hnone => simp [hnone]
  | cancelled ht => simp [Scopes.cancel, Tokens.isCancelled_cancel_iff hu, ht]
  | made parent hnone => simp [Tokens.isCancelled_under parent hu, hnone]
  | passed ha | caughtUp ha =>
    subst ha
    simp [cancels?]
  | context ha =>
    subst ha
    simp [cancels?, Scopes.newContext]
  | opened ha =>
    subst ha
    exact Scopes.isCancelled_openScope hu
  | ran ha hrun =>
    subst ha
    exact Scopes.isCancelled_runTimer hrun hu

/-- A step keeps a context as it is, but that it may give it a scope with a new
token or take its scope away. -/
theorem step_context {context : Context} (h : s.step a = some s')
    (hc : s.contexts[c]? = some context) :
    ∃ scope, s'.contexts[c]? = some { context with scope } ∧
      (scope = context.scope ∨
        (∃ timed, a = .openScope timed c) ∧ ∀ sc ∈ scope, ¬ s.tokens.Made sc.token) := by
  have hchange := step_rescopes h
  generalize s'.toScopes = scopes at hchange ⊢
  cases hchange with
  | kept | cancelled | made | passed | caughtUp => exact ⟨_, hc, .inl rfl⟩
  | context ha =>
    refine ⟨_, ?_, .inl rfl⟩
    have hlt := (Array.getElem?_eq_some_iff.mp hc).1
    simp only [Scopes.newContext, Array.getElem?_push, hc, if_neg (Nat.ne_of_lt hlt)]
  | @opened timed c' ha =>
    by_cases hcc : c' = c
    · subst hcc
      obtain ⟨scope, hscope, hnew⟩ := Scopes.context_openScope timed hc
      refine ⟨scope, hscope, .inr ⟨⟨timed, ha⟩, fun sc hsc => ?_⟩⟩
      rw [hnew sc hsc]
      exact Nat.lt_irrefl s.tokens.entries.size
    · exact ⟨_, (Scopes.getElem?_openScope _ _ hcc).trans hc, .inl rfl⟩
  | ran ha hrun =>
    obtain ⟨timer, -, -, ⟨-, rfl⟩ | ⟨-, -, rfl⟩⟩ := Scopes.runTimer_cases hrun <;>
      exact ⟨_, hc, .inl rfl⟩

/-- A context that has just been made has no scope. -/
theorem step_newContext {context : Context} (h : s.step a = some s') (hc : s.contexts[c]? = none)
    (hc' : s'.contexts[c]? = some context) : context.scope = none := by
  have hchange := step_rescopes h
  generalize s'.toScopes = scopes at hchange hc'
  cases hchange with
  | kept | cancelled | made | passed | caughtUp => cases hc.symm.trans hc'
  | context ha =>
    simp only [Scopes.newContext, Array.getElem?_push, hc] at hc'
    split at hc'
    · cases hc'
      rfl
    · cases hc'
  | @opened timed c' ha =>
    by_cases hcc : c' = c
    · subst hcc
      simp [Scopes.openScope, hc] at hc'
    · cases hc.symm.trans ((Scopes.getElem?_openScope _ _ hcc).symm.trans hc')
  | ran ha hrun =>
    obtain ⟨timer, -, -, ⟨-, rfl⟩ | ⟨-, -, rfl⟩⟩ := Scopes.runTimer_cases hrun <;>
      cases hc.symm.trans hc'

/-- A scope that a context has after a step it had before, or its token is new. -/
theorem step_scope {scope : Scope} (h : s.step a = some s') (hscope : s'.scope? c = some scope) :
    s.scope? c = some scope ∨ ¬ s.tokens.Made scope.token := by
  obtain ⟨context', hc', hscope⟩ := Option.bind_eq_some_iff.mp hscope
  cases hc : s.contexts[c]? with
  | none => cases (step_newContext h hc hc').symm.trans hscope
  | some context =>
    obtain ⟨_, hc'', hor⟩ := step_context h hc
    cases hc'.symm.trans hc''
    subst hscope
    rcases hor with hsame | ⟨-, hnew⟩
    · exact .inl (by simp [Scopes.scope?, hc, hsame])
    · exact .inr (hnew scope rfl)

/-- A timer keeps its token and its time, and is over only if it was before or its
token is cancelled. -/
theorem step_timer {timer : Timer} (h : s.step a = some s') (hk : s.timers[k]? = some timer) :
    ∃ isOver, s'.timers[k]? = some { timer with isOver } ∧
      (isOver = true → timer.isOver = true ∨
        (s.tokens.Rooted timer.token → s'.tokens.isCancelled timer.token)) := by
  have hchange := step_rescopes h
  generalize s'.toScopes = scopes at hchange ⊢
  cases hchange with
  | kept | cancelled | made | passed | caughtUp | context => exact ⟨_, hk, .inl⟩
  | @opened timed c =>
    rcases s.toScopes.timers_openScope timed c with hsame | ⟨_, _, due, -, -, -, hpush⟩
    · exact ⟨_, (congrArg (·[k]?) hsame).trans hk, .inl⟩
    · refine ⟨_, (congrArg (·[k]?) hpush).trans ?_, .inl⟩
      have hlt := (Array.getElem?_eq_some_iff.mp hk).1
      simp only [Array.getElem?_push, hk, if_neg (Nat.ne_of_lt hlt)]
  | @ran k' _ _ hrun =>
    obtain ⟨timer', hk', -, hran⟩ := Scopes.runTimer_cases hrun
    by_cases hkk : k' = k
    · subst hkk
      obtain rfl : timer' = timer := Option.some.inj (hk'.symm.trans hk)
      rcases hran with ⟨hc, rfl⟩ | ⟨-, -, rfl⟩
      · exact ⟨true, by simp [Array.getElem?_modify, hk], fun _ => .inr fun _ => hc⟩
      · refine ⟨true, by simp [Array.getElem?_modify, hk], fun _ => .inr fun hrooted => ?_⟩
        exact (Tokens.isCancelled_cancel_iff hrooted).mpr (.inr (Tokens.self_mem_lineage _ _))
    · rcases hran with ⟨-, rfl⟩ | ⟨-, -, rfl⟩ <;>
        exact ⟨_, by simp [Array.getElem?_modify, hkk, hk], .inl⟩

/-- A timer that has just been started is for a new token, and goes off when the
scopes of a context expire that has opened one. -/
theorem step_newTimer {timer : Timer} (h : s.step a = some s') (hk : s.timers[k]? = none)
    (hk' : s'.timers[k]? = some timer) :
    timer.token = s.tokens.entries.size ∧ ∃ timed c context, a = .openScope timed c ∧
      s.contexts[c]? = some context ∧ ∃ e ∈ context.expiry, (timer.due : Int) = e.due s.now := by
  have hchange := step_rescopes h
  generalize s'.toScopes = scopes at hchange hk'
  cases hchange with
  | kept | cancelled | made | passed | caughtUp | context => cases hk.symm.trans hk'
  | @opened timed c ha =>
    rcases s.toScopes.timers_openScope timed c with hsame | ⟨context, e, due, hc, he, hdue, hpush⟩
    · rw [hsame, hk] at hk'
      cases hk'
    · rw [hpush, Array.getElem?_push] at hk'
      split at hk'
      · cases hk'
        exact ⟨rfl, timed, c, context, ha, hc, e, he, hdue⟩
      · cases hk.symm.trans hk'
  | @ran k' _ _ hrun =>
    obtain ⟨timer', -, -, ⟨-, rfl⟩ | ⟨-, -, rfl⟩⟩ := Scopes.runTimer_cases hrun <;>
      simp [Array.getElem?_modify, hk] at hk'

end System

end TickTree
