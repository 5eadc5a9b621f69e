/-
# The tokens that a system uses

Contexts, timers and tickers name tokens. A step names no token that was not
named before, unless it has just made it (`step_uses`), so tokens are not shared
by chance; and it cancels only tokens that are named, or held by a user
(`step_scopes`). The ancestors of a token never change.

What a step does to tokens, contexts and timers is one of a few changes
(`step_rescopes`), and of the tokens that there are it cancels at most one
(`cancels?`).

Key definitions: `System.Uses`, `System.Tidy`, `System.cancels?`,
`System.Rescopes`.
Key theorems: `System.step_rescopes`, `System.step_scopes`, `System.step_uses`.
-/
import TickTree.Proofs.History

namespace TickTree

namespace Tokens

theorem made_cancel {ts : Tokens} {t u : Nat} : (ts.cancel t).Made u ↔ ts.Made u := by
  simp [Made, cancel]

theorem flagged_cancel_ne (ts : Tokens) {t u : Nat} (h : u ≠ t) :
    (ts.cancel t).flagged u = ts.flagged u := by
  simp only [flagged, cancel, Array.getElem?_modify, if_neg h.symm]

theorem made_under {ts : Tokens} {u : Nat} (parent : Option Nat) (h : ts.Made u) :
    (ts.under parent).2.Made u := by
  cases parent <;> simp only [under, root, child, Made, Array.size_push] <;>
    exact Nat.lt_succ_of_lt h

theorem made_new (ts : Tokens) (parent : Option Nat) :
    (ts.under parent).2.Made (ts.under parent).1 := by
  cases parent <;> simp [under, root, child, Made]

theorem under_fst (ts : Tokens) (parent : Option Nat) :
    (ts.under parent).1 = ts.entries.size := by
  cases parent <;> rfl

theorem lineage_new (ts : Tokens) (parent : Option Nat) :
    (ts.under parent).2.lineage (ts.under parent).1 =
      (ts.under parent).1 :: parent.elim [] ts.lineage := by
  cases parent <;> simp [under, root, child, lineage]

theorem flagged_new (ts : Tokens) (parent : Option Nat) :
    (ts.under parent).2.flagged (ts.under parent).1 = false := by
  cases parent <;> simp [under, root, child, flagged]

theorem getElem?_under {ts : Tokens} {u : Nat} (parent : Option Nat) (h : ts.Made u) :
    (ts.under parent).2.entries[u]? = ts.entries[u]? := by
  have hne : u ≠ ts.entries.size := Nat.ne_of_lt h
  cases parent <;> simp [under, root, child, Array.getElem?_push, hne]

theorem flagged_under {ts : Tokens} {u : Nat} (parent : Option Nat) (h : ts.Made u) :
    (ts.under parent).2.flagged u = ts.flagged u := by
  simp only [flagged, getElem?_under parent h]

theorem lineage_under {ts : Tokens} {u : Nat} (parent : Option Nat) (h : ts.Made u) :
    (ts.under parent).2.lineage u = ts.lineage u := by
  simp only [lineage, getElem?_under parent h]

end Tokens

/-! ### Scopes -/

namespace Scopes

/-- Is the token that of a scope or of a timer? -/
def Names (s : Scopes) (u : Nat) : Prop :=
  (∃ c scope, s.scope? c = some scope ∧ scope.token = u) ∨ ∃ timer ∈ s.timers, timer.token = u

/-- The scopes `s` may become `s'` without anything happening to the tokens made
in `s`, but that those of which `may` holds may be cancelled; and no such token
gets a name that it did not have. -/
structure Later (may : Nat → Prop) (s s' : Scopes) : Prop where
  made : ∀ {u}, s.tokens.Made u → s'.tokens.Made u
  lineage : ∀ {u}, s.tokens.Made u → s'.tokens.lineage u = s.tokens.lineage u
  flagged : ∀ {u}, s.tokens.Made u → ¬ may u → s'.tokens.flagged u = s.tokens.flagged u
  names : ∀ {u}, s'.Names u → s.Names u ∨ (¬ s.tokens.Made u ∧ s'.tokens.Made u)

namespace Later

variable {may : Nat → Prop} {s s' : Scopes}

theorem refl (may : Nat → Prop) (s : Scopes) : Later may s s where
  made := id
  lineage := fun _ => rfl
  flagged := fun _ _ => rfl
  names := .inl

theorem mono {may' : Nat → Prop} (h : Later may s s') (hmay : ∀ u, may u → may' u) :
    Later may' s s' :=
  { h with flagged := fun hu hn => h.flagged hu fun hm => hn (hmay _ hm) }

/-- What is above a new token stays above it. -/
theorem above (h : Later may s s') {parent : Option Nat} (hmade : ∀ p ∈ parent, s.tokens.Made p) :
    parent.elim [] s'.tokens.lineage = parent.elim [] s.tokens.lineage := by
  cases parent with
  | none => rfl
  | some p => exact h.lineage (hmade p rfl)

/-- A token is cancelled that may be, or that is new. -/
theorem cancel {t : Nat} (h : Later may s s') (ht : may t ∨ ¬ s.tokens.Made t) :
    Later may s (s'.cancel t) where
  made := fun hu => Tokens.made_cancel.mpr (h.made hu)
  lineage := fun hu => (Tokens.lineage_cancel _ _ _).trans (h.lineage hu)
  flagged := fun {u} hu hn => by
    have hne : u ≠ t := by
      rintro rfl
      exact ht.elim hn fun hnot => hnot hu
    exact (Tokens.flagged_cancel_ne _ hne).trans (h.flagged hu hn)
  names := fun hu => (h.names hu).imp_right (.imp_right Tokens.made_cancel.mpr)

/-- A token is made. -/
theorem under (h : Later may s s') (parent : Option Nat) :
    Later may s { s' with tokens := (s'.tokens.under parent).2 } where
  made := fun hu => Tokens.made_under parent (h.made hu)
  lineage := fun hu => (Tokens.lineage_under parent (h.made hu)).trans (h.lineage hu)
  flagged := fun hu hn => (Tokens.flagged_under parent (h.made hu)).trans (h.flagged hu hn)
  names := fun hu => (h.names hu).imp_right (.imp_right (Tokens.made_under parent))

/-- A context loses its scope. -/
theorem unscope (h : Later may s s') (c : Nat) : Later may s (s'.setScope c none) :=
  { h with
    names := fun {u} hu => by
      refine h.names (hu.imp_left ?_)
      rintro ⟨c', scope, hscope, rfl⟩
      refine ⟨c', scope, ?_, rfl⟩
      simp only [scope?, setScope, Array.getElem?_modify] at hscope ⊢
      split at hscope
      · cases hc : s'.contexts[c']? <;> simp [hc] at hscope
      · exact hscope }

/-- A context gets a scope with a new token. -/
theorem setScope (h : Later may s s') (c : Nat) (scope : Scope)
    (hnew : ¬ s.tokens.Made scope.token ∧ s'.tokens.Made scope.token) :
    Later may s (s'.setScope c (some scope)) :=
  { h with
    names := fun {u} hu => by
      rcases hu with ⟨c', scope', hscope, rfl⟩ | htimer
      · simp only [scope?, Scopes.setScope, Array.getElem?_modify] at hscope
        split at hscope
        · cases hc : s'.contexts[c']? <;> simp [hc] at hscope
          subst hscope
          exact .inr hnew
        · exact h.names (.inl ⟨c', scope', hscope, rfl⟩)
      · exact h.names (.inr htimer) }

/-- A timer appears for a new token. -/
theorem pushTimer {timer : Timer} (h : Later may s s')
    (hnew : ¬ s.tokens.Made timer.token ∧ s'.tokens.Made timer.token) :
    Later may s { s' with timers := s'.timers.push timer } :=
  { h with
    names := fun {u} hu => by
      rcases hu with hscope | ⟨timer', htimer, rfl⟩
      · exact h.names (.inl hscope)
      · rcases Array.mem_push.mp htimer with htimer | rfl
        · exact h.names (.inr ⟨timer', htimer, rfl⟩)
        · exact .inr hnew }

end Later

theorem later_newContext (s : Scopes) (parent : Option Nat) (expiry : Option Expiry) :
    Later s.Names s (s.newContext parent expiry).2 :=
  { Later.refl s.Names s with
    names := fun {u} hu => by
      refine .inl (hu.imp_left ?_)
      rintro ⟨c, scope, hscope, rfl⟩
      refine ⟨c, scope, ?_, rfl⟩
      simp only [scope?, newContext, Array.getElem?_push] at hscope ⊢
      split at hscope
      · cases hscope
      · exact hscope }

theorem later_cancelScope (s : Scopes) (c : Nat) : Later s.Names s (s.cancelScope c) := by
  unfold cancelScope
  split
  · rename_i scope hscope
    exact (Later.refl s.Names s).cancel (.inl (.inl ⟨c, scope, hscope, rfl⟩))
  · exact .refl _ s

theorem later_openScope (s : Scopes) (timed : Bool) (c : Nat) :
    Later s.Names s (s.openScope timed c).2 := by
  unfold openScope
  split
  · exact .refl _ s
  · rename_i context _
    have hclosed := (later_cancelScope s c).unscope c
    have hmade := hclosed.under context.parent
    set closed := (s.cancelScope c).setScope c none
    have hnew : ¬ s.tokens.Made (closed.tokens.under context.parent).1 ∧
        (closed.tokens.under context.parent).2.Made (closed.tokens.under context.parent).1 := by
      refine ⟨fun hu => ?_, Tokens.made_new _ _⟩
      have hlt := hclosed.made hu
      rw [Tokens.under_fst] at hlt
      exact absurd hlt (Nat.lt_irrefl _)
    have hopened := hmade.setScope c ⟨_, timed⟩ hnew
    dsimp only
    split
    · exact hopened
    · split
      · exact hopened.cancel (.inr hnew.1)
      · split
        · exact hopened.pushTimer hnew
        · exact hmade

theorem later_runTimer {s s' : Scopes} {k : Nat} (h : s.runTimer k = some s') :
    Later s.Names s s' := by
  unfold runTimer at h
  split at h
  · cases h
  · rename_i timer htimer
    have hended : Later s.Names s
        { s with timers := s.timers.modify k fun timer => { timer with isOver := true } } :=
      { Later.refl s.Names s with
        names := fun {u} hu => by
          refine .inl (hu.imp_right ?_)
          rintro ⟨timer', hmem, rfl⟩
          obtain ⟨j, hj, rfl⟩ := Array.mem_iff_getElem.mp hmem
          simp only [Array.getElem_modify]
          simp only [Array.size_modify] at hj
          split <;> exact ⟨_, Array.getElem_mem hj, rfl⟩ }
    split at h
    · cases h
    · split at h
      · cases h
        exact hended
      · split at h
        · cases h
          exact hended.cancel (.inl (.inr ⟨timer, Array.mem_of_getElem? htimer, rfl⟩))
        · cases h

end Scopes

/-! ### Systems -/

/-- What a driver never changes in its ticker. -/
theorem Ticker.fixed_of_drive {now elapsed : Nat} {cancelled : Bool} {t t' : Ticker}
    (h : t.drive now elapsed cancelled = some t') :
    t'.token = t.token ∧ t'.endsOnFailure = t.endsOnFailure := by
  cases drive_cases h <;> exact ⟨rfl, rfl⟩

theorem Ticker.fixed_of_tickEnded {t t' : Ticker} {outcome : Outcome}
    (h : t.tickEnded outcome = some t') :
    t'.token = t.token ∧ t'.endsOnFailure = t.endsOnFailure := by
  obtain ⟨next, -, ⟨e, -, rfl⟩ | ⟨-, rfl⟩⟩ := tickEnded_cases h <;> exact ⟨rfl, rfl⟩

/-- A ticker was a ticker before, with the same token and of the same kind. -/
theorem Member.Change.was_ticker {s : System} {x : Nat} {a : Action} {member : Member}
    {t' : Ticker} (h : Change s x a member (.ticker t')) :
    ∃ t, member = .ticker t ∧ t'.token = t.token ∧ t'.endsOnFailure = t.endsOnFailure := by
  generalize hm : Member.ticker t' = member' at h
  cases h with
  | kept => exact ⟨t', hm.symm, rfl, rfl⟩
  | asked =>
    cases member with
    | ticker t =>
      cases hm
      exact ⟨t, rfl, rfl, rfl⟩
    | _ => cases hm
  | driven hdrive =>
    cases hm
    exact ⟨_, rfl, Ticker.fixed_of_drive hdrive⟩
  | tickEnded hended =>
    cases hm
    exact ⟨_, rfl, Ticker.fixed_of_tickEnded hended⟩
  | _ => cases hm

namespace System

/-- The token `u` is that of the ticker at a place, or (`none`) of a scope or a
timer. -/
def Uses (s : System) (u : Nat) : Option Nat → Prop
  | none => s.toScopes.Names u
  | some x => ∃ t, s.ticker? x = some t ∧ t.token = u

/-- The action may cancel the token: it is that of a scope or a timer, or it is
cancelled by one who holds it, or by its ticker that has come to an end. -/
def MayCancel (s : System) (a : Action) (u : Nat) : Prop :=
  s.Uses u none ∨ (a = .cancel u ∧ s.isOwned u = false) ∨
    ∃ x t, a = .drive x ∧ s.ticker? x = some t ∧ t.phase = .halted ∧ t.token = u

/-- Every token in use has been made. -/
def Tidy (s : System) : Prop := ∀ u place, s.Uses u place → s.tokens.Made u

theorem toScopes_affect (s : System) (m x : Nat) (effect : Watcher.Effect) :
    (s.affect m x effect).toScopes = s.toScopes := by
  cases effect with
  | record e =>
    simp only [affect]
    split <;> rfl
  | _ => rfl

/-- The token that an action cancels, of those that it finds made. -/
def cancels? (s : System) : Action → Option Nat
  | .cancel token => some token
  | .openScope _ c | .cancelScope c => (s.scope? c).map (·.token)
  | .runTimer k => (s.timers[k]?.filter fun timer =>
      !s.tokens.isCancelled timer.token && timer.due ≤ s.elapsed).map (·.token)
  | .drive x => (s.ticker? x).bind fun t =>
      if t.phase matches .halted then some t.token else none
  | _ => none

/-- What an action makes of the scopes of a system. -/
inductive Rescopes (s : System) (a : Action) : Scopes → Prop
  | kept : s.cancels? a = none → Rescopes s a s.toScopes
  | cancelled {t} : s.cancels? a = some t → Rescopes s a (s.toScopes.cancel t)
  | made (parent : Option Nat) : s.cancels? a = none →
      Rescopes s a { s.toScopes with tokens := (s.tokens.under parent).2 }
  | passed {ms} : a = .pass ms → Rescopes s a { s.toScopes with now := s.now + ms }
  | caughtUp : a = .catchUp → Rescopes s a { s.toScopes with elapsed := s.now }
  | context {parent expiry} : a = .newContext parent expiry →
      Rescopes s a (s.toScopes.newContext parent expiry).2
  | opened {timed c} : a = .openScope timed c → Rescopes s a (s.toScopes.openScope timed c).2
  | ran {k scopes} : a = .runTimer k → s.toScopes.runTimer k = some scopes → Rescopes s a scopes

/-- **What a step does to the scopes.** -/
theorem step_rescopes {s s' : System} {a : Action} (h : s.step a = some s') :
    s.Rescopes a s'.toScopes := by
  cases a with
  | newToken parent =>
    cases h
    exact .made parent rfl
  | newContext parent expiry =>
    cases h
    exact .context rfl
  | openScope timed c =>
    cases h
    exact .opened rfl
  | cancelScope c =>
    cases h
    show Rescopes s _ (s.toScopes.cancelScope c)
    unfold Scopes.cancelScope
    split
    · rename_i scope hscope
      exact .cancelled (by simp [cancels?, hscope])
    · rename_i hscope
      exact .kept (by simp [cancels?, hscope])
  | pass ms =>
    cases h
    exact .passed rfl
  | catchUp =>
    cases h
    exact .caughtUp rfl
  | newManager | newOutsider | stop =>
    cases h
    exact .kept rfl
  | cancel token =>
    simp only [step] at h
    split at h
    · cases h
    · cases h
      exact .cancelled rfl
  | runTimer k =>
    obtain ⟨scopes, hrun, rfl⟩ := Option.map_eq_some_iff.mp h
    exact .ran rfl hrun
  | newTicker parent config endsOnFailure =>
    simp only [step] at h
    split at h
    · cases h
    · cases h
      exact .made parent rfl
  | drive x =>
    obtain ⟨t, t', ht, -, rfl⟩ := drive_cases h
    show Rescopes s _ (if t.phase matches .halted then s.toScopes.cancel t.token else s.toScopes)
    split
    · rename_i hp
      exact .cancelled (by simp [cancels?, ht, hp])
    · exact .kept (by simp [cancels?, ht])
  | tickEnded | supervise =>
    simp only [step, Option.bind_eq_bind, Option.bind_eq_some_iff, Option.pure_def,
      Option.some.injEq] at h
    obtain ⟨_, _, _, _, rfl⟩ := h
    exact .kept rfl
  | drop | settle =>
    simp only [step, Option.bind_eq_bind, Option.bind_eq_some_iff, Option.pure_def,
      Option.some.injEq] at h
    obtain ⟨_, _, rfl⟩ := h
    exact .kept rfl
  | offer m y =>
    simp only [step, Option.bind_eq_bind, Option.bind_eq_some_iff] at h
    obtain ⟨M, -, h⟩ := h
    split at h
    · cases h
    · cases h
      exact .kept rfl
  | post k =>
    simp only [step, Option.bind_eq_bind, Option.bind_eq_some_iff, Option.pure_def,
      Option.some.injEq] at h
    obtain ⟨o, -, M, -, rfl⟩ := h
    split <;> exact .kept rfl
  | watch m k =>
    obtain ⟨M, w, w', effect, -, -, -, rfl⟩ := watch_cases h
    rw [toScopes_affect]
    exact .kept rfl

/-- What an action cancels, it may cancel. -/
theorem mayCancel_of_cancels? {s s' : System} {a : Action} {t : Nat} (h : s.step a = some s')
    (ht : s.cancels? a = some t) : s.MayCancel a t := by
  cases a with
  | cancel token =>
    cases ht
    simp only [step] at h
    split at h
    · cases h
    · rename_i howned
      exact .inr (.inl ⟨rfl, by simpa using howned⟩)
  | openScope timed c | cancelScope c =>
    obtain ⟨scope, hscope, rfl⟩ := Option.map_eq_some_iff.mp ht
    exact .inl (.inl ⟨c, scope, hscope, rfl⟩)
  | runTimer k =>
    obtain ⟨timer, htimer, rfl⟩ := Option.map_eq_some_iff.mp ht
    have hmem := Array.mem_of_getElem? (Option.filter_eq_some_iff.mp htimer).1
    exact .inl (.inr ⟨timer, hmem, rfl⟩)
  | drive x =>
    obtain ⟨ticker, hticker, ht⟩ := Option.bind_eq_some_iff.mp ht
    split at ht
    · rename_i hp
      cases ht
      exact .inr (.inr ⟨x, ticker, rfl, hticker, hp, rfl⟩)
    · cases ht
  | _ => cases ht

/-- **What a step does to the tokens**: it may cancel some, and make new ones. -/
theorem step_scopes {s s' : System} {a : Action} (h : s.step a = some s') :
    Scopes.Later (s.MayCancel a) s.toScopes s'.toScopes := by
  have hrefl := Scopes.Later.refl (s.MayCancel a) s.toScopes
  have hnames : ∀ u, s.toScopes.Names u → s.MayCancel a u := fun u hu => .inl hu
  have hmay := fun t => mayCancel_of_cancels? (t := t) h
  have hchange := step_rescopes h
  generalize s'.toScopes = scopes at hchange
  cases hchange with
  | kept => exact hrefl
  | cancelled ht => exact hrefl.cancel (.inl (hmay _ ht))
  | made parent => exact hrefl.under parent
  | passed | caughtUp => exact { hrefl with }
  | context => exact (s.toScopes.later_newContext _ _).mono hnames
  | opened => exact (s.toScopes.later_openScope _ _).mono hnames
  | ran _ hrun => exact (Scopes.later_runTimer hrun).mono hnames

theorem ticker?_eq_some {s : System} {x : Nat} {t : Ticker} :
    s.ticker? x = some t ↔ s.members[x]? = some (.ticker t) := by
  refine ⟨members_of_ticker?, fun h => ?_⟩
  simp only [ticker?, h]

/-- A token that is used after a step was used so before, or is new. -/
theorem step_uses {s s' : System} {a : Action} {u : Nat} {place : Option Nat}
    (h : s.step a = some s') (hu : s'.Uses u place) :
    s.Uses u place ∨ (¬ s.tokens.Made u ∧ s'.tokens.Made u) := by
  cases place with
  | none => exact (step_scopes h).names hu
  | some x =>
    obtain ⟨t', ht', rfl⟩ := hu
    rcases member_before h (members_of_ticker? ht') with ⟨member, hx, hchange⟩ | ⟨-, hnew⟩
    · obtain ⟨t, rfl, htoken, -⟩ := hchange.was_ticker
      exact .inl ⟨t, ticker?_eq_some.mpr hx, htoken.symm⟩
    · cases hnew with
      | @ticker parent config endsOnFailure =>
        simp only [step] at h
        split at h
        · cases h
        · cases h
          refine .inr ⟨?_, Tokens.made_new s.tokens parent⟩
          simp only [Ticker.start, Tokens.under_fst, Tokens.Made]
          exact Nat.lt_irrefl _

theorem tidy_empty : empty.Tidy := by
  rintro u (_ | x) hu
  · rcases hu with ⟨c, scope, hscope, -⟩ | ⟨timer, htimer, -⟩
    · simp [empty, Scopes.empty, Scopes.scope?] at hscope
    · simp [empty, Scopes.empty] at htimer
  · obtain ⟨t, ht, -⟩ := hu
    simp [ticker?, empty] at ht

theorem tidy_step {s s' : System} {a : Action} (hs : s.Tidy) (h : s.step a = some s') :
    s'.Tidy := by
  intro u place hu
  rcases step_uses h hu with hu | ⟨-, hmade⟩
  · exact (step_scopes h).made (hs u place hu)
  · exact hmade

theorem tidy_run {as : List Action} {s s' : System} (hs : s.Tidy) (h : s.run as = some s') :
    s'.Tidy :=
  run_induction (fun _ s => s.Tidy) (fun hs h => tidy_step hs h) (H := []) hs h

end System

end TickTree
