/-
# Cancellation flows downwards

A user makes tokens, some under others, and hands them to contexts and tickers. These
hang tokens of their own under the one they are given, and cancel only their own. So a
token of a user is cancelled just when the user has cancelled it or one above it, whatever
else becomes of what hangs there (`UserTokens.isCancelledAbove_iff`): cancellation never
flows upwards.

Nor does it flow sideways. A step changes the scope of a context only if it is a step of
that context or the timer of that scope, or if the user cancels a token above
(`ScopeCourse.frame`). It changes a ticker only if it is a step of that ticker, or asks it
to stop, or if the user cancels a token above (`Course.frame`); and of managers only those
ask it to stop that watch it, when it is done or they were asked to stop themselves.

Key definitions: `UserLine`, `ContextOver`, `TickerOver`, `UserTokens`, `MovesScope`,
`MovesTicker`, `ExitCause`, `DownwardLaw`.
Key theorems: `UserToken.step`, `UserTokens.step`, `ScopeCourse.frame`, `Course.frame`,
`cancellation_flows_downwards`.
-/
import TickTree.Proofs.ScopeLife

namespace TickTree

/-! ### The tokens of a user -/

/-- One who holds the token cancels it. -/
def Moment.cancels (t : Nat) (μ : Moment) : Prop :=
  μ.action = .cancel t ∧ μ.found.tokens.Made t

/-- A token that a user has made, on its own or under another such token, if one is named;
and `line`, which is that token and those above it. -/
inductive UserLine : List Moment → Option Nat → List Nat → Prop
  | none {H} : UserLine H none []
  | made {past μ rest parent line} : UserLine past parent line → μ.action = .newToken parent →
      UserLine (past ++ μ :: rest) (some μ.found.tokens.entries.size)
        (μ.found.tokens.entries.size :: line)

namespace UserLine

variable {H rest : List Moment} {μ : Moment} {token : Option Nat} {line : List Nat}

theorem append (h : UserLine H token line) (rest : List Moment) :
    UserLine (H ++ rest) token line := by
  cases h with
  | none => exact .none
  | made hparent ha =>
    rw [List.append_assoc, List.cons_append]
    exact .made hparent ha

/-- A token that a user makes on the way. -/
theorem of_run {before after : List Action} {s : System} (h : System.empty.run before = some s)
    (hl : UserLine (history before) token line) :
    UserLine (history (before ++ .newToken token :: after)) (some s.tokens.entries.size)
      (s.tokens.entries.size :: line) := by
  rw [history, System.moments_append h]
  exact .made hl rfl

/-- A token was there before the last moment, or is made in it. -/
theorem snoc_cases (h : UserLine (H ++ [μ]) token line) :
    UserLine H token line ∨ ∃ parent line', UserLine H parent line' ∧ μ.action = .newToken parent ∧
      token = some μ.found.tokens.entries.size ∧ line = μ.found.tokens.entries.size :: line' := by
  generalize hsnoc : H ++ [μ] = H' at h
  cases h with
  | none => exact .inl .none
  | @made past ν rest parent line hparent ha =>
    rcases List.eq_nil_or_concat rest with rfl | ⟨rest, last, rfl⟩
    · obtain ⟨rfl, hμ⟩ := List.append_inj' hsnoc rfl
      cases hμ
      exact .inr ⟨parent, line, hparent, ha, rfl, rfl⟩
    · rw [List.concat_eq_append, ← List.cons_append, ← List.append_assoc] at hsnoc
      obtain ⟨rfl, -⟩ := List.append_inj' hsnoc rfl
      exact .inl (.made hparent ha)

end UserLine

/-- A token of a user in the system `s`, after the moments `H`: nobody else uses it, and
only who holds it cancels it. -/
structure UserToken (H : List Moment) (s : System) (t : Nat) : Prop where
  made : s.tokens.Made t
  unused : ∀ place, ¬ s.Uses t place
  flagged : s.tokens.flagged t ↔ ∃ μ ∈ H, μ.cancels t

namespace UserToken

variable {H : List Moment} {s s' : System} {a : Action} {t : Nat} {parent : Option Nat}

/-- A step that may cancel the token is that of one who holds it. -/
theorem eq_of_mayCancel (hU : UserToken H s t) (h : s.MayCancel a t) : a = .cancel t := by
  rcases h with hscope | ⟨ha, -⟩ | ⟨x, ticker, -, hx, -, htoken⟩
  · exact absurd hscope (hU.unused none)
  · exact ha
  · exact absurd ⟨ticker, hx, htoken⟩ (hU.unused (some x))

/-- **The step lemma of a token.** -/
theorem step (hU : UserToken H s t) (h : s.step a = some s') :
    UserToken (H ++ [⟨s, a⟩]) s' t where
  made := (System.step_scopes h).made hU.made
  unused := fun place hu => (System.step_uses h hu).elim (hU.unused place) fun hnew =>
    hnew.1 hU.made
  flagged := by
    by_cases ha : a = .cancel t
    · subst ha
      have hcancels : Moment.cancels t ⟨s, .cancel t⟩ := ⟨rfl, hU.made⟩
      simp only [System.step] at h
      split at h
      · cases h
      cases h
      refine iff_of_true ?_ ⟨_, List.mem_concat_self, hcancels⟩
      show (s.tokens.cancel t).flagged t
      simp [Tokens.flagged_cancel _ hU.made]
    · have hnot : ¬ Moment.cancels t ⟨s, a⟩ := fun hcancels => ha hcancels.1
      rw [(System.step_scopes h).flagged hU.made fun hmay => ha (hU.eq_of_mayCancel hmay), hU.flagged]
      simp [or_and_right, exists_or, hnot]

/-- A token that has just been made. -/
theorem new (htidy : s.Tidy) (hpast : ∀ μ ∈ H, ∀ t, μ.found.tokens.Made t → s.tokens.Made t)
    (h : s.step (.newToken parent) = some s') :
    UserToken (H ++ [⟨s, .newToken parent⟩]) s' s.tokens.entries.size := by
  have hnew : ¬ s.tokens.Made s.tokens.entries.size := Nat.lt_irrefl _
  cases h
  refine ⟨?_, fun place hu => ?_, ?_⟩
  · have hmade := Tokens.made_new s.tokens parent
    rwa [Tokens.under_fst] at hmade
  · have hbefore : s.Uses s.tokens.entries.size place := by cases place <;> exact hu
    exact hnew (htidy _ place hbefore)
  · have hflagged := Tokens.flagged_new s.tokens parent
    rw [Tokens.under_fst] at hflagged
    refine iff_of_false (by simp [System.withScopes, hflagged]) ?_
    rintro ⟨μ, hμ, ha, hmade⟩
    rcases List.mem_append.mp hμ with hμ | hμ
    · exact hnew (hpast μ hμ _ hmade)
    · cases List.mem_singleton.mp hμ
      cases ha

end UserToken

/-- The tokens of users in the system `s`, after the moments `H`. -/
structure UserTokens (H : List Moment) (s : System) : Prop where
  tidy : s.Tidy
  past : ∀ μ ∈ H, ∀ t, μ.found.tokens.Made t → s.tokens.Made t
  tokens : ∀ token line, UserLine H token line → ∀ t ∈ line, UserToken H s t
  lineage : ∀ token line, UserLine H token line → token.elim [] s.tokens.lineage = line

namespace UserTokens

variable {H : List Moment} {s s' : System} {a : Action} {token : Option Nat} {line : List Nat}

theorem made (hU : UserTokens H s) (hl : UserLine H token line) :
    ∀ u ∈ token, s.tokens.Rooted u := by
  rintro u rfl t ht
  have hlineage := hU.lineage _ _ hl
  rw [Option.elim_some] at hlineage
  exact (hU.tokens _ _ hl t (hlineage ▸ ht)).made

/-- **The step lemma.** -/
theorem step (hU : UserTokens H s) (h : s.step a = some s') :
    UserTokens (H ++ [⟨s, a⟩]) s' := by
  have hlater := System.step_scopes h
  have habove : ∀ {token line}, UserLine H token line →
      token.elim [] s'.tokens.lineage = line := fun hl =>
    (hlater.above fun u hu => (hU.made hl u hu).made).trans (hU.lineage _ _ hl)
  refine ⟨System.tidy_step hU.tidy h, fun μ hμ t ht => ?_, fun token line hl t ht => ?_,
    fun token line hl => ?_⟩
  · rcases List.mem_append.mp hμ with hμ | hμ
    · exact hlater.made (hU.past μ hμ t ht)
    · cases List.mem_singleton.mp hμ
      exact hlater.made ht
  · rcases hl.snoc_cases with hl | ⟨parent, line', hl', ha, rfl, rfl⟩
    · exact (hU.tokens token line hl t ht).step h
    · rcases List.mem_cons.mp ht with rfl | ht
      · obtain rfl : a = .newToken parent := ha
        exact .new hU.tidy hU.past h
      · exact (hU.tokens parent line' hl' t ht).step h
  · rcases hl.snoc_cases with hl | ⟨parent, line', hl', ha, rfl, rfl⟩
    · exact habove hl
    · obtain rfl : a = .newToken parent := ha
      cases h
      have hlineage := Tokens.lineage_new s.tokens parent
      rw [Tokens.under_fst, hU.lineage parent line' hl'] at hlineage
      exact hlineage

theorem run {as : List Action} (h : System.empty.run as = some s) :
    UserTokens (history as) s := by
  have hempty : UserTokens [] System.empty := by
    refine ⟨System.tidy_empty, fun μ hμ => absurd hμ List.not_mem_nil, fun token line hl => ?_,
      fun token line hl => ?_⟩ <;>
    · generalize hnil : ([] : List Moment) = H at hl
      cases hl with
      | none => simp
      | made => simp at hnil
  exact System.run_induction UserTokens (fun hU h => hU.step h) hempty h

/-- **A token of a user is cancelled iff it or one above it was cancelled by a user.** -/
theorem isCancelledAbove_iff (hU : UserTokens H s) (hl : UserLine H token line) :
    s.isCancelledAbove token ↔ ∃ t ∈ line, ∃ μ ∈ H, μ.cancels t := by
  have hflagged : s.isCancelledAbove token ↔ ∃ t ∈ line, s.tokens.flagged t := by
    rw [← hU.lineage token line hl]
    cases token with
    | none => simp [System.isCancelledAbove]
    | some u => exact Tokens.isCancelled_iff
  rw [hflagged]
  exact exists_congr fun t => and_congr_right fun ht => (hU.tokens token line hl t ht).flagged

/-- A step that does not cancel a token of the line leaves it live, or cancelled. -/
theorem isCancelledAbove_step (hU : UserTokens H s) (hl : UserLine H token line)
    (h : s.step a = some s') (ha : ∀ t ∈ line, a ≠ .cancel t) :
    s'.isCancelledAbove token = s.isCancelledAbove token := by
  have hnot : ∀ t ∈ line, ¬ Moment.cancels t ⟨s, a⟩ := fun t ht hcancels => ha t ht hcancels.1
  rw [Bool.eq_iff_iff, (hU.step h).isCancelledAbove_iff (hl.append _), hU.isCancelledAbove_iff hl]
  refine exists_congr fun t => and_congr_right fun ht => ?_
  simp [or_and_right, exists_or, hnot t ht]

end UserTokens

/-! ### Contexts -/

/-- Context `c` was made under a token of a user, or under none; `line` is that token and
those above it. -/
def ContextOver (c : Nat) (line : List Nat) (H : List Moment) : Prop :=
  ∃ past μ rest parent expiry, H = past ++ μ :: rest ∧ μ.action = .newContext parent expiry ∧
    μ.found.contexts.size = c ∧ UserLine past parent line

/-- The actions that may change the scope of context `c`, or whether that is cancelled. -/
inductive MovesScope (s : System) (c : Nat) (line : List Nat) : Action → Prop
  /-- The context opens another. -/
  | opens {timed} : MovesScope s c line (.openScope timed c)
  /-- It cancels the scope. -/
  | closes : MovesScope s c line (.cancelScope c)
  /-- The timer of the scope goes off. -/
  | expires {k timer scope} : s.timers[k]? = some timer → s.scope? c = some scope →
      timer.token = scope.token → MovesScope s c line (.runTimer k)
  /-- The scope is cancelled by one who holds its token. -/
  | cancels {scope} : s.scope? c = some scope → MovesScope s c line (.cancel scope.token)
  /-- A token above is cancelled by a user. -/
  | above {t} : t ∈ line → MovesScope s c line (.cancel t)

/-- **No other action changes the scope of a context.** -/
theorem ScopeCourse.frame {c : Nat} {parent : Option Nat} {expiry : Option Expiry}
    {line : List Nat} {H rest : List Moment} {s s' : System} {a : Action}
    (hC : ScopeCourse c parent expiry rest s) (hU : UserTokens H s)
    (hl : UserLine H parent line) (h : s.step a = some s') (hmoves : ¬ MovesScope s c line a) :
    s'.scope? c = s.scope? c ∧ ∀ scope ∈ s.scope? c,
      s'.tokens.isCancelled scope.token = s.tokens.isCancelled scope.token := by
  constructor
  · obtain ⟨scope, hc⟩ := hC.context
    obtain ⟨scope', hc', rfl | ⟨⟨timed, rfl⟩, -⟩⟩ := System.step_context h hc
    · simp [Scopes.scope?, hc, hc']
    · exact absurd .opens hmoves
  · intro scope hscope
    obtain ⟨o, ho, htoken⟩ := hC.of_scope hscope
    have hK := hC.kept o ho
    rw [← htoken]
    cases hbefore : s.tokens.isCancelled o.token with
    | true => exact (System.step_cancels h hK.rooted).mpr (.inl hbefore)
    | false =>
      by_contra hafter
      have hafter : s'.tokens.isCancelled o.token := by simpa using hafter
      cases hK.ends h hbefore hafter with
      | closed ha =>
        cases ha
        exact hmoves .closes
      | reopened ha =>
        cases ha
        exact hmoves .opens
      | cancelled ha =>
        cases ha
        exact hmoves (htoken ▸ .cancels hscope)
      | above hlive hdead =>
        refine absurd (hU.isCancelledAbove_step hl h fun t ht ha => ?_) (by simp [hlive, hdead])
        exact hmoves (ha ▸ .above ht)
      | expired ha hk htimer =>
        cases ha
        exact hmoves (.expires hk hscope (htimer.trans htoken))

theorem ContextOver.course {c : Nat} {line : List Nat} {as : List Action} {s : System}
    (h : System.empty.run as = some s) (hc : ContextOver c line (history as)) :
    ∃ parent expiry rest, UserLine (history as) parent line ∧
      ScopeCourse c parent expiry rest s := by
  obtain ⟨past, μ, rest, parent, expiry, hsplit, ha, rfl, hl⟩ := hc
  obtain ⟨before, after, s₁, h₀, rfl, h₁, h₂, rfl⟩ := System.moments_split h hsplit
  have hU := UserTokens.run h₀
  rw [ha] at h₁
  exact ⟨parent, expiry, _, hsplit ▸ hl.append _, (ScopeCourse.start hU.tidy (hU.made hl) h₁).run h₂⟩

/-! ### Tickers -/

/-- Ticker `x` was started under a token of a user, or under none; `line` is that token and
those above it. -/
def TickerOver (x : Nat) (line : List Nat) (H : List Moment) : Prop :=
  ∃ past μ rest parent config endsOnFailure, H = past ++ μ :: rest ∧
    μ.action = .newTicker parent config endsOnFailure ∧ μ.found.members.size = x ∧
    UserLine past parent line

/-- The actions that may change ticker `x`, or whether its token is cancelled. -/
inductive MovesTicker (s : System) (x : Nat) (line : List Nat) : Action → Prop
  /-- Its driver takes a step. -/
  | drives : MovesTicker s x line (.drive x)
  /-- Its tick ends. -/
  | tickEnds {outcome} : MovesTicker s x line (.tickEnded x outcome)
  /-- A user asks it to stop. -/
  | stops : MovesTicker s x line (.stop x)
  /-- A manager that watches it asks it to stop, as it is done, or the manager was itself
  asked to stop. -/
  | watches {m k M w} : s.manager? m = some M → M.watchers[k]? = some w → w.member = x →
      s.isDone x ∨ M.stopRequested → MovesTicker s x line (.watch m k)
  /-- A token above is cancelled by a user. -/
  | above {t} : t ∈ line → MovesTicker s x line (.cancel t)

/-- Only a user, or a manager that has it as a member, asks a ticker to stop. -/
theorem movesTicker_of_asks {s : System} {x : Nat} {line : List Nat} {a : Action}
    (h : Moment.asks x ⟨s, a⟩) : MovesTicker s x line a := by
  cases a with
  | stop y =>
    obtain rfl : y = x := beq_iff_eq.mp h
    exact .stops
  | watch m k =>
    obtain ⟨M, w, w', hM, hw, rfl, hnext⟩ := System.watcherStops_cases (beq_iff_eq.mp h)
    refine .watches hM hw rfl ?_
    rcases Watcher.next_cases hnext with ⟨-, hdone, -⟩ | ⟨-, -, hstop, -⟩ | ⟨-, -, -, heffect⟩ |
      ⟨e, -, -, -, heffect⟩ | ⟨-, -, -, heffect⟩ | ⟨-, -, heffect⟩
    · exact .inl hdone
    · exact .inr hstop
    all_goals cases heffect
  | _ => cases h

/-- A step that may cancel the token of a ticker is one of its driver. -/
theorem OwnToken.drive_of_mayCancel {x : Nat} {parent : Option Nat} {s : System} {a : Action}
    {t : Ticker} (hO : OwnToken x parent s t) (h : s.MayCancel a t.token) : a = .drive x := by
  rcases h with hscope | ⟨-, howned⟩ | ⟨y, t', rfl, ht', -, htoken⟩
  · cases hO.alone none hscope
  · have hmem := Array.mem_of_getElem? (System.members_of_ticker? hO.here)
    unfold System.isOwned at howned
    rw [List.any_eq_false] at howned
    exact absurd (by simp) (howned _ (Array.mem_toList_iff.mpr hmem))
  · rw [Option.some.inj (hO.alone (some y) ⟨t', ht', htoken⟩)]

/-- **No other action changes a ticker.** -/
theorem Course.frame {x : Nat} {parent : Option Nat} {line : List Nat} {H rest : List Moment}
    {s s' : System} {a : Action} {t : Ticker} (hC : Course x parent rest s t)
    (hU : UserTokens H s) (hl : UserLine H parent line) (h : s.step a = some s')
    (hmoves : ¬ MovesTicker s x line a) :
    s'.ticker? x = some t ∧ s'.tokens.isCancelled t.token = s.tokens.isCancelled t.token := by
  have hkept : s'.ticker? x = some t := by
    obtain ⟨member', hx', hchange⟩ := System.step_member h (System.members_of_ticker? hC.own.here)
    cases hchange with
    | kept => exact System.ticker?_eq_some.mpr hx'
    | asked _ hasks => exact absurd (movesTicker_of_asks hasks) hmoves
    | driven => exact absurd .drives hmoves
    | tickEnded => exact absurd .tickEnds hmoves
  have hO' := hC.own.step h hkept rfl id
  refine ⟨hkept, ?_⟩
  have hflagged := (System.step_scopes h).flagged (hC.own.tidy _ _ hC.own.uses) fun hmay =>
    hmoves (hC.own.drive_of_mayCancel hmay ▸ .drives)
  have habove := hU.isCancelledAbove_step hl h fun t ht ha => hmoves (ha ▸ .above ht)
  have hsplit : ∀ {s}, OwnToken x parent s t →
      s.tokens.isCancelled t.token = (s.tokens.flagged t.token || s.isCancelledAbove parent) := by
    intro s hO
    unfold Tokens.isCancelled System.isCancelledAbove
    rw [hO.lineage, List.any_cons]
    cases parent <;> rfl
  rw [hsplit hO', hsplit hC.own, hflagged, habove]

/-- Why ticker `x` has left its loop with that error, after the moments `H`. -/
inductive ExitCause (x : Nat) (line : List Nat) (H : List Moment) : Option RunError → Prop
  /-- Its own tick returned an error. -/
  | erred {μ e} : μ ∈ H → μ.action = .tickEnded x (.returned (.error e)) →
      ExitCause x line H (some (.tick e))
  /-- Its own tick panicked. -/
  | panicked {μ payload} : μ ∈ H → μ.action = .tickEnded x (.panicked payload) →
      ExitCause x line H (some (.ofPanic payload))
  /-- A token above was cancelled by a user. -/
  | cancelled {t μ} : t ∈ line → μ ∈ H → μ.cancels t → ExitCause x line H (some .cancelled)
  /-- It was asked to stop. -/
  | stopped {μ} : μ ∈ H → μ.asks x → ExitCause x line H none

theorem TickerOver.course {x : Nat} {line : List Nat} {as : List Action} {s : System}
    (h : System.empty.run as = some s) (hx : TickerOver x line (history as)) :
    ∃ past parent rest t, history as = past ++ rest ∧ UserLine past parent line ∧
      Course x parent rest s t := by
  obtain ⟨past, μ, rest, parent, config, endsOnFailure, hsplit, ha, rfl, hl⟩ := hx
  obtain ⟨before, after, s₁, h₀, rfl, h₁, h₂, rfl⟩ := System.moments_split h hsplit
  have hU := UserTokens.run h₀
  rw [ha] at h₁
  have hown := OwnToken.start hU.tidy (fun p hp => (hU.made hl p hp).made) h₁
  obtain ⟨t, hC, -⟩ := Course.run ⟨hown, .start _ _ _ _ _, .start _ _ _ _ _⟩ h₂
  refine ⟨System.empty.moments before ++ [μ], parent, _, t, ?_, hl.append _, hC⟩
  rw [hsplit, List.append_assoc, List.singleton_append, List.nil_append]

/-- A ticker that is started on the way. -/
theorem TickerOver.of_run {before after : List Action} {s : System} {parent : Option Nat}
    {line : List Nat} {config : TickerConfig} {endsOnFailure : Bool}
    (h : System.empty.run before = some s) (hl : UserLine (history before) parent line) :
    TickerOver s.members.size line
      (history (before ++ .newTicker parent config endsOnFailure :: after)) := by
  rw [history, System.moments_append h]
  exact ⟨_, _, _, parent, config, endsOnFailure, rfl, rfl, rfl, hl⟩

/-- A ticker leaves its loop for a cause of its own, or one from above. -/
theorem exitCause_of_firstExit {x : Nat} {parent : Option Nat} {line : List Nat}
    {past rest : List Moment} {as : List Action} {s : System} {e : Option RunError}
    (h : System.empty.run as = some s) (hsplit : history as = past ++ rest)
    (hl : UserLine past parent line) (he : FirstExit x parent rest e) :
    ExitCause x line (history as) e := by
  obtain ⟨before, μ, after, rfl, -, hleaves⟩ := he
  rw [← List.append_assoc] at hsplit
  have hmem : ∀ ν ∈ (past ++ before) ++ [μ], ν ∈ history as := by
    intro ν hν
    rw [hsplit, ← List.singleton_append (l := after), ← List.append_assoc]
    exact List.mem_append_left _ hν
  have hμ := hmem μ List.mem_concat_self
  cases hleaves with
  | erred ha => exact .erred hμ ha
  | panicked ha => exact .panicked hμ ha
  | cancelled _ hc =>
    obtain ⟨bs, _, _, h₀, hpast, -⟩ := System.moments_split h hsplit
    have hU : UserTokens (past ++ before) μ.found := hpast ▸ UserTokens.run h₀
    obtain ⟨t, ht, ν, hν, hcancels⟩ := (hU.isCancelledAbove_iff (hl.append _)).mp hc
    exact .cancelled ht (hmem ν (List.mem_append_left _ hν)) hcancels
  | stopped _ _ hasks =>
    obtain ⟨ν, hν, hasks⟩ := hasks
    exact .stopped (hmem ν (List.mem_append_left _ (List.mem_append_right _ hν))) hasks

/-- An error that a ticker shows is the one that it has left its loop with. -/
theorem Course.left?_of_error {x : Nat} {parent : Option Nat} {H : List Moment} {s : System}
    {t : Ticker} {e : RunError} (hC : Course x parent H s t) (he : s.error x = some e) :
    t.left? = some (some e) := by
  rw [System.error_of_getElem? (System.members_of_ticker? hC.own.here)] at he
  have herror : t.error = some e := by
    simp only [Member.error, Ticker.shownError] at he
    split at he
    · exact (Option.filter_eq_some_iff.mp he).1
    · exact he
  rw [Ticker.left?_of_hasRecorded (hC.hasRecorded_of_error (by simp [herror])), herror]

/-! ### Whole runs -/

/-- Cancellation flows downwards, in the system `s` after the moments `H`. -/
structure DownwardLaw (H : List Moment) (s : System) : Prop where
  /-- A token of a user is cancelled iff a user has cancelled it or one above it. -/
  tokens : ∀ u line, UserLine H (some u) line →
    (s.tokens.isCancelled u ↔ ∃ t ∈ line, ∃ μ ∈ H, μ.cancels t)
  /-- So nothing else that happens cancels it. -/
  upwards : ∀ u line, UserLine H (some u) line → ∀ a s', s.step a = some s' →
    (∀ t ∈ line, a ≠ .cancel t) → s'.tokens.isCancelled u = s.tokens.isCancelled u
  /-- A scope that hangs under a user's token changes only in one of a few ways, -/
  scopes : ∀ c line, ContextOver c line H → ∀ a s', s.step a = some s' → ¬ MovesScope s c line a →
    s'.scope? c = s.scope? c ∧ ∀ scope ∈ s.scope? c,
      s'.tokens.isCancelled scope.token = s.tokens.isCancelled scope.token
  /-- and so does a ticker, with the error that it shows, -/
  tickers : ∀ x line, TickerOver x line H → ∀ a s', s.step a = some s' → ¬ MovesTicker s x line a →
    s'.error x = s.error x ∧ ∃ t, s.ticker? x = some t ∧ s'.ticker? x = some t ∧
      s'.tokens.isCancelled t.token = s.tokens.isCancelled t.token
  /-- which leaves its loop for a cause of its own or from above, -/
  exits : ∀ x line, TickerOver x line H → ∀ e, (s.ticker? x).bind Ticker.left? = some e →
    ExitCause x line H e
  /-- and shows no other error. -/
  shown : ∀ x line, TickerOver x line H → ∀ e ∈ s.error x, ExitCause x line H (some e)

/-- **Cancellation flows downwards.** Let a system run in any order of actions, with any
tokens of users and any contexts, tickers and managers over them. Whatever becomes of
those, no token of a user is cancelled by it, and no scope or ticker next to it changes,
but by the managers that watch that ticker. -/
theorem cancellation_flows_downwards {as : List Action} {s : System}
    (h : System.empty.run as = some s) : DownwardLaw (history as) s where
  tokens := fun _ _ hl => (UserTokens.run h).isCancelledAbove_iff hl
  upwards := fun _ _ hl _ _ hstep ha => (UserTokens.run h).isCancelledAbove_step hl hstep ha
  scopes := by
    intro c line hc a s' hstep hmoves
    obtain ⟨parent, expiry, rest, hl, hC⟩ := hc.course h
    exact hC.frame (UserTokens.run h) hl hstep hmoves
  tickers := by
    intro x line hx a s' hstep hmoves
    obtain ⟨past, parent, rest, t, hsplit, hl, hC⟩ := hx.course h
    obtain ⟨hkept, htoken⟩ := hC.frame (UserTokens.run h) (hsplit ▸ hl.append rest) hstep hmoves
    refine ⟨?_, t, hC.own.here, hkept, htoken⟩
    rw [System.error_of_getElem? (System.members_of_ticker? hkept),
      System.error_of_getElem? (System.members_of_ticker? hC.own.here)]
  exits := by
    intro x line hx e he
    obtain ⟨past, parent, rest, t, hsplit, hl, hC⟩ := hx.course h
    rw [hC.own.here, Option.bind_some] at he
    exact exitCause_of_firstExit h hsplit hl (hC.exiting.left e he)
  shown := by
    intro x line hx e he
    obtain ⟨past, parent, rest, t, hsplit, hl, hC⟩ := hx.course h
    exact exitCause_of_firstExit h hsplit hl (hC.exiting.left _ (hC.left?_of_error he))

/-- A user makes a token and another under it, and starts a ticker under each; the lower
token is cancelled, so that its ticker ends. -/
def lowerCancelled : List Action :=
  [.newToken none, .newToken (some 0), .newTicker (some 1) {} false, .newTicker (some 0) {} true,
    .drive 0, .drive 1, .cancel 1, .drive 0, .drive 0, .drive 0, .drive 0, .drive 0]

theorem cancellation_flows_downwards_lowerCancelled : ∃ s, System.empty.run lowerCancelled = some s ∧
    s.isDone 0 ∧ s.isDone 1 = false ∧ s.tokens.isCancelled 0 = false ∧ s.tokens.isCancelled 1 ∧
    (∃ t ∈ [1, 0], ∃ μ ∈ history lowerCancelled, μ.cancels t) ∧
    ExitCause 0 [1, 0] (history lowerCancelled) (some .cancelled) := by
  have law := @cancellation_flows_downwards lowerCancelled _ rfl
  have hupper : UserLine (history [.newToken none]) (some 0) [0] :=
    @UserLine.of_run none [] [] [] _ rfl .none
  have hlower : ∀ after, UserLine (history (.newToken none :: .newToken (some 0) :: after)) (some 1)
      [1, 0] := fun after => @UserLine.of_run (some 0) [0] [.newToken none] after _ rfl hupper
  have hticker : TickerOver 0 [1, 0] (history lowerCancelled) :=
    @TickerOver.of_run [.newToken none, .newToken (some 0)] (lowerCancelled.drop 3) _ (some 1) [1, 0]
      {} false rfl (hlower [])
  exact ⟨_, rfl, rfl, rfl, rfl, rfl, (law.tokens 1 [1, 0] (hlower _)).mp rfl,
    law.shown 0 [1, 0] hticker .cancelled rfl⟩

end TickTree
