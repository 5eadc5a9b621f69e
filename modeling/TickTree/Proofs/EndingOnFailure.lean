/-
# Tickers that end on failures

A ticker that ends on failures runs its root under a wrapper, which answers the stop
signal where the root answers failure and is the root in everything else. The signal
travels as an error, so the ticker leaves its loop as for any error of a tick; but it
shows no error for it, then or later.

Up to the first failure of its root the ticker is its plain twin. From then on it
starts no tick, takes four more steps of its own to be done, and shows no error. What
it shows once it is done is the error of the first cause to leave, unless that is the
signal. The signal itself is shown by no member of any system, neither as an error of
its own nor inside an error that a manager has collected, however deep.

Key definitions: `Action.exits`, `EndsQuietly`, `RunError.signals`, `Moment.IsGenuine`.
Key theorems: `Node.ticked_exitOnFailure`, `Course.after_signal`, `System.hides`,
`ends_quietly_on_failure`.
-/
import TickTree.Proofs.Among
import TickTree.Proofs.PlainTwin

namespace TickTree

/-! ### The root -/

/-- How a call of the wrapped root ends when the root ends so. -/
def Outcome.exitOnFailure : Outcome → Outcome
  | .returned result => .returned result.exitOnFailure
  | .panicked payload => .panicked payload

section Root
variable {I : Interface} {σ : Type}

theorem Node.call_exitOnFailure (node : Node I) :
    (Node.exitOnFailure node).call = node.call.bind fun result => .pure result.exitOnFailure := by
  change (node.expand.bind _).bind _ = (node.expand.bind _).bind _
  rw [Prog.bind_assoc, Prog.bind_assoc]
  refine congrArg (Prog.bind _) (funext fun expansion => ?_)
  obtain ⟨tick?, children⟩ := expansion
  cases tick? with
  | none => rfl
  | some tick => rfl

/-- A tick of the wrapped root is a tick of the root, and ends with the stop signal where
that ends with failure. -/
theorem Node.ticked_exitOnFailure {env : Environment I σ} {others : Others I σ} {caller : Caller}
    {node : Node I} {w w' : World I σ} {ending : Ending TickResult} :
    (Node.exitOnFailure node).Ticked env others caller w ending w' ↔
      ∃ first, node.Ticked env others caller w first w' ∧
        ending.outcome = first.outcome.exitOnFailure := by
  have houtcome : ∀ first : Ending TickResult,
      (first.map TickResult.exitOnFailure).outcome = first.outcome.exitOnFailure := fun first => by
    cases first <;> rfl
  have hinjective : ∀ {e e' : Ending TickResult}, e.outcome = e'.outcome → e = e' := by
    rintro (_ | _) (_ | _) h <;> cases h <;> rfl
  unfold Node.Ticked
  rw [Node.call_exitOnFailure]
  constructor
  · rintro ⟨held, w₁, h, rfl⟩
    obtain ⟨first, hfirst, rfl⟩ := Prog.Among.map_iff.mp h
    exact ⟨first, ⟨held, w₁, hfirst, rfl⟩, houtcome first⟩
  · rintro ⟨first, ⟨held, w₁, hfirst, rfl⟩, hend⟩
    have hmap : ending = first.map TickResult.exitOnFailure :=
      hinjective (hend.trans (houtcome first).symm)
    exact ⟨held, w₁, Prog.Among.map_iff.mpr ⟨first, hfirst, hmap⟩, rfl⟩

end Root

/-! ### After a failure -/

/-- The action, with the root of ticker `x` wrapped. -/
def Action.exits (x : Nat) : Action → Action
  | .tickEnded y outcome => .tickEnded y (if y = x then outcome.exitOnFailure else outcome)
  | a => a

/-- The root of ticker `x` fails. -/
def Action.failed (x : Nat) : Action := .tickEnded x (.returned (.ok .failure))

/-- Does the driver of ticker `x` take a step? -/
def Action.drives (x : Nat) : Action → Bool
  | .drive y => y == x
  | _ => false

/-- How many steps the driver has taken since it left its loop. -/
def Ticker.Phase.stepsOut : Ticker.Phase → Nat
  | .recorded => 1
  | .halted => 2
  | .released => 3
  | .finished => 4
  | _ => 0

theorem Action.exits_eq {x : Nat} {a : Action} (hfails : a ≠ .failed x) : a.exits x = a := by
  cases a with
  | tickEnded y outcome =>
    show Action.tickEnded y (if y = x then _ else _) = _
    by_cases hy : y = x
    · subst hy
      rw [if_pos rfl]
      rcases outcome with (error | status) | payload
      · rfl
      · cases status with
        | running | success => rfl
        | failure => exact absurd rfl hfails
      · rfl
    · rw [if_neg hy]
  | _ => rfl

theorem Action.map_exits {x : Nat} {as : List Action} (hfails : .failed x ∉ as) :
    as.map (Action.exits x) = as := by
  refine (List.map_congr_left fun a ha => ?_).trans as.map_id
  exact Action.exits_eq fun he => hfails (he ▸ ha)

theorem FirstExit.append {x : Nat} {parent : Option Nat} {H : List Moment} {e : Option RunError}
    (h : FirstExit x parent H e) (later : List Moment) : FirstExit x parent (H ++ later) e := by
  obtain ⟨past, μ, rest, rfl, hno, hleaves⟩ := h
  exact ⟨past, μ, rest ++ later, by simp, hno, hleaves⟩

/-- Out of its loop, the driver only takes its own steps. -/
theorem Member.Change.stepsOut {s : System} {x : Nat} {a : Action} {t t' : Ticker}
    (h : Change s x a (.ticker t) (.ticker t')) (hleft : t.left?.isSome) :
    t'.left?.isSome ∧
      t'.phase.stepsOut = t.phase.stepsOut + if a.drives x then 1 else 0 := by
  have hquiet : Moment.touches x ⟨s, a⟩ = false → a.drives x = false := fun htouch => by
    cases a with
    | drive y => exact htouch
    | _ => rfl
  generalize hm : Member.ticker t' = member' at h
  cases h with
  | kept htouch | asked htouch =>
    cases hm
    rw [hquiet htouch]
    exact ⟨hleft, rfl⟩
  | driven hdrive =>
    cases hm
    have hself : (Action.drive x).drives x = true := beq_self_eq_true x
    rw [hself]
    cases Ticker.drive_cases hdrive with
    | begun hp | sawCancelled hp | sawStopped hp | ticked hp =>
      simp [Ticker.left?, hp] at hleft
    | recorded hp | halted hp | released hp | finished hp =>
      rw [hp]
      exact ⟨rfl, rfl⟩
  | tickEnded hended =>
    rw [Ticker.left?_of_tickEnded hended] at hleft
    cases hleft

namespace Course

variable {x : Nat} {parent : Option Nat} {H : List Moment} {s s' : System} {t : Ticker}

theorem steps_out {as : List Action} (hC : Course x parent H s t) (hleft : t.left?.isSome)
    (h : s.run as = some s') : ∃ t', Course x parent (H ++ s.moments as) s' t' ∧
      t'.endsOnFailure = t.endsOnFailure ∧
      t'.phase.stepsOut = t.phase.stepsOut + as.countP (Action.drives x) := by
  induction as generalizing H s t with
  | nil =>
    cases h
    exact ⟨t, by simpa [System.moments] using hC, rfl, rfl⟩
  | cons a as ih =>
    obtain ⟨s₁, hstep, hrest⟩ := Option.bind_eq_some_iff.mp h
    obtain ⟨t₁, hC₁, hkind, hchange⟩ := hC.step hstep
    obtain ⟨hleft₁, hsteps⟩ := hchange.stepsOut hleft
    obtain ⟨t', hC', hkind', hsteps'⟩ := ih hC₁ hleft₁ hrest
    refine ⟨t', ?_, hkind'.trans hkind, ?_⟩
    · rw [List.append_assoc, List.singleton_append] at hC'
      simpa only [System.moments, hstep] using hC'
    · rw [hsteps', hsteps, List.countP_cons]
      omega

/-- Once there was a cause to leave, no tick starts. -/
theorem not_begins {later : List Moment} (hC : Course x parent (H ++ later) s t)
    {e : Option RunError} (hfirst : FirstExit x parent H e) : ∀ μ ∈ later, μ.begins x = false := by
  intro μ hμ
  obtain ⟨between, rest, rfl⟩ := List.append_of_mem hμ
  by_contra hbegins
  have hsplit : H ++ (between ++ μ :: rest) = (H ++ between) ++ μ :: rest := by simp
  obtain ⟨-, -, hno, -⟩ := hC.ticking.starts _ _ _ hsplit (by simpa using hbegins)
  exact hno.not_firstExit (hfirst.append between)

/-- Once the root has failed, the ticker starts no tick, shows no error, and is done after
four steps of its own. -/
theorem after_signal {as : List Action} (hC : Course x parent H s t) (hends : t.endsOnFailure)
    (hsignal : t.phase = .leaving (some (.tick .exitOnFailure))) (h : s.run as = some s') :
    (∀ μ ∈ s.moments as, μ.begins x = false) ∧ s'.error x = none ∧
      (s'.isDone x = false → (s'.step (.drive x)).isSome) ∧
      (s'.isDone x ↔ 4 ≤ as.countP (Action.drives x)) := by
  have hleft : t.left? = some (some (.tick .exitOnFailure)) := by
    unfold Ticker.left?
    rw [hsignal]
  have hfirst := hC.exiting.left _ hleft
  obtain ⟨t', hC', hkind, hsteps⟩ := hC.steps_out (hleft ▸ rfl) h
  have hx' := System.members_of_ticker? hC'.own.here
  have hleft' := (hC'.left?_iff _).mpr (hfirst.append (s.moments as))
  have hdone : s'.isDone x = t'.isDone := System.isDone_of_getElem? hx'
  refine ⟨hC'.not_begins hfirst, ?_, fun hnot => ?_, ?_⟩
  · have herror : t'.error = none ∨ t'.error = some (.tick .exitOnFailure) := by
      by_cases hrec : t'.hasRecorded
      · exact .inr (Option.some.inj ((Ticker.left?_of_hasRecorded hrec).symm.trans hleft'))
      · exact .inl (hC'.exiting.unset (Bool.eq_false_iff.mpr hrec))
    rw [System.error_of_getElem? hx']
    show t'.shownError = none
    unfold Ticker.shownError
    rw [if_pos (hkind.trans hends)]
    rcases herror with herror | herror
    · rw [herror]
      rfl
    · rw [herror]
      rfl
  · rw [hdone] at hnot
    exact hC'.closes (hleft' ▸ rfl) (by rw [hnot]; exact Bool.false_ne_true)
  · have hcount : t'.phase.stepsOut = as.countP (Action.drives x) := by
      rw [hsteps, hsignal]
      exact Nat.zero_add _
    rw [hdone, hC'.exiting.done, ← hcount]
    unfold Ticker.Phase.stepsOut
    cases t'.phase <;> simp

end Course

/-! ### The signal stays hidden -/

namespace TickError

mutual

/-- Is the stop signal in the error, however deep? -/
def signals : TickError → Bool
  | missingTick | message _ => false
  | child _ _ source => source.signals
  | foreign error => error.kind == .exitOnFailure
  | wrapped inner => inner.signals
  | joined errors => signalsAny errors
termination_by structural e => e

/-- Is it in one of the errors? -/
def signalsAny : List TickError → Bool
  | [] => false
  | e :: es => e.signals || signalsAny es
termination_by structural es => es

end

end TickError

/-- Is the stop signal in the error or in one that it aggregates, however deep? -/
def RunError.signals (e : RunError) : Bool :=
  e.any fun
    | .tick error => error.signals
    | _ => false

/-- Does a call end with the stop signal in its error? -/
def Outcome.signals : Outcome → Bool
  | .returned (.error e) => e.signals
  | _ => false

/-- The tick that ends at the moment is that of a root which knows nothing of the stop
signal, wrapped if its ticker ends on failures; and a member from outside settles without
the signal. -/
def Moment.IsGenuine (μ : Moment) : Prop :=
  match μ.action with
  | .tickEnded y outcome => ∃ raw : Outcome, raw.signals = false ∧
      outcome = if (μ.found.ticker? y).any (·.endsOnFailure) then raw.exitOnFailure else raw
  | .settle _ error => ∀ e ∈ error, e.signals = false
  | _ => True

/-- An error that the ticker may have recorded: the signal only if it ends on failures,
and then only by itself. -/
def Ticker.MayKeep (t : Ticker) (e : RunError) : Prop :=
  e.signals = false ∨ t.endsOnFailure ∧ e = .tick .exitOnFailure

/-- The member keeps the signal only where it does not show it. -/
def Member.Hides : Member → Prop
  | .ticker t => (∀ e ∈ t.error, t.MayKeep e) ∧ ∀ e, t.phase = .leaving (some e) → t.MayKeep e
  | .manager m => ∀ e ∈ m.errors, e.signals = false
  | .outsider o => ∀ e ∈ o.error, e.signals = false

theorem Member.Hides.error {member : Member} (h : member.Hides) :
    ∀ e ∈ member.error, e.signals = false := by
  intro e he
  cases member with
  | outsider o => exact h e he
  | ticker t =>
    have he : t.shownError = some e := he
    unfold Ticker.shownError at he
    by_cases hends : t.endsOnFailure
    · rw [if_pos hends, Option.filter_eq_some_iff] at he
      obtain ⟨hkept, hshown⟩ := he
      rcases h.1 e hkept with hquiet | ⟨-, rfl⟩
      · exact hquiet
      · cases hshown
    · rw [if_neg hends] at he
      exact (h.1 e he).resolve_right fun hsignal => hends hsignal.1
  | manager m =>
    have he : m.shownError = some e := he
    unfold Manager.shownError at he
    by_cases hempty : m.errors.isEmpty
    · rw [if_pos hempty] at he
      cases he
    · rw [if_neg hempty] at he
      cases he
      show (false || RunError.anyOf _ m.errors) = false
      rw [RunError.anyOf_eq_any, Bool.false_or, List.any_eq_false]
      exact fun e he => Bool.eq_false_iff.mp (h e he)

theorem Ticker.mayKeep_ofOutcome {t : Ticker} {raw : Outcome} {e : RunError}
    (hraw : raw.signals = false)
    (he : RunError.ofOutcome (if t.endsOnFailure then raw.exitOnFailure else raw) = some e) :
    t.MayKeep e := by
  by_cases hends : t.endsOnFailure
  · rw [if_pos hends] at he
    rcases raw with (error | status) | payload
    · cases he
      exact .inl hraw
    · cases status with
      | running | success => cases he
      | failure =>
        cases he
        exact .inr ⟨hends, rfl⟩
    · cases he
      exact .inl rfl
  · rw [if_neg hends] at he
    rcases raw with (error | status) | payload
    · cases he
      exact .inl hraw
    · cases he
    · cases he
      exact .inl rfl

/-- **No step uncovers the signal.** -/
theorem Member.Change.hides {s : System} {x : Nat} {a : Action} {member member' : Member}
    (h : Change s x a member member') (hx : s.members[x]? = some member)
    (hs : ∀ (y : Nat) (other : Member), s.members[y]? = some other → other.Hides)
    (hgenuine : Moment.IsGenuine ⟨s, a⟩) : member'.Hides := by
  have hmember := hs x member hx
  cases h with
  | kept => exact hmember
  | asked => cases member <;> exact hmember
  | driven hdrive =>
    cases Ticker.drive_cases hdrive with
    | begun | sawStopped | ticked | halted | released | finished => exact ⟨hmember.1, nofun⟩
    | sawCancelled =>
      refine ⟨hmember.1, fun e he => ?_⟩
      cases he
      exact .inl rfl
    | recorded hp =>
      refine ⟨fun e he => hmember.2 e ?_, nofun⟩
      exact hp.trans (congrArg Ticker.Phase.leaving he)
  | @tickEnded t _ outcome hended =>
    obtain ⟨raw, hraw, houtcome⟩ := hgenuine
    have ht : s.ticker? x = some t := System.ticker?_eq_some.mpr hx
    simp only [ht, Option.any_some] at houtcome
    obtain ⟨next, hp, ⟨e, he, rfl⟩ | ⟨-, rfl⟩⟩ := Ticker.tickEnded_cases hended
    · refine ⟨hmember.1, fun e' he' => ?_⟩
      cases he'
      rw [houtcome] at he
      exact Ticker.mayKeep_ofOutcome hraw he
    · exact ⟨hmember.1, nofun⟩
  | took | dropped => exact hmember
  | @supervised m m' hsup =>
    have herrors : m'.errors = m.errors := by
      rcases Manager.supervise_cases hsup with ⟨-, -, rfl⟩ | ⟨_, _, -, -, rfl⟩ | ⟨-, -, rfl⟩ |
        ⟨-, -, rfl⟩ <;> rfl
    intro e he
    exact hmember e (herrors ▸ he)
  | @watched m k w w' effect hw hnext =>
    cases effect with
    | nothing => exact hmember
    | stopMember =>
      intro e he
      refine hmember e ?_
      simp only [Manager.affected] at he
      split at he <;> exact he
    | stopManager => exact hmember
    | record e =>
      -- what a watcher records is what its member shows
      obtain ⟨e', -, herror, -, heffect⟩ : ∃ e', w.phase = .settling ∧
          s.error w.member = some e' ∧ w' = { w with phase := .raising } ∧
          Watcher.Effect.record e = .record e' := by
        rcases Watcher.next_cases hnext with ⟨-, -, -, h⟩ | ⟨-, -, -, -, h⟩ | ⟨-, -, -, h⟩ | h |
          ⟨-, -, -, h⟩ | ⟨-, -, h⟩
        · cases h
        · cases h
        · cases h
        · exact h
        · cases h
        · cases h
      cases heffect
      obtain ⟨other, hother, hshows⟩ := Option.bind_eq_some_iff.mp herror
      have hquiet := (hs w.member other hother).error e hshows
      intro e' he'
      rcases List.mem_append.mp he' with he' | he'
      · exact hmember e' he'
      · exact List.mem_singleton.mp he' ▸ hquiet
  | settled => exact hgenuine

theorem Member.New.hides {s : System} {a : Action} {member : Member} (h : New s a member) :
    member.Hides := by
  cases h with
  | ticker => exact ⟨nofun, nofun⟩
  | manager => exact nofun
  | outsider => exact nofun

/-- In a run that begins with nothing, no member shows the signal. -/
theorem System.hides {as : List Action} {s : System} (h : System.empty.run as = some s)
    (hgenuine : ∀ μ ∈ history as, μ.IsGenuine) :
    ∀ (y : Nat) (member : Member), s.members[y]? = some member → member.Hides := by
  have hrun := run_induction
    (fun H s => (∀ μ ∈ H, μ.IsGenuine) → ∀ (y : Nat) (member : Member),
      s.members[y]? = some member → member.Hides)
    (fun {H s a s'} ih hstep hall y member hy => by
      have hs := ih fun μ hμ => hall μ (List.mem_append_left _ hμ)
      have ha := hall ⟨s, a⟩ (List.mem_append_right _ (List.mem_singleton.mpr rfl))
      rcases member_before hstep hy with ⟨before, hbefore, hchange⟩ | ⟨-, hnew⟩
      · exact hchange.hides hbefore hs ha
      · exact hnew.hides)
    (H := []) (fun _ y member hy => by simp [empty] at hy) h
  exact hrun (by simpa [history] using hgenuine)

/-! ### The law -/

/-- The ticker at place `x` under the token `parent`, plain in the system `plain` and
ending on failures in the system `ending`. The actions `as` are told with the ticks of
the root as they are; `ending` sees them through the wrapper of the root. -/
structure EndsQuietly (x : Nat) (parent : Option Nat) (plain ending : System) : Prop where
  /-- As long as the root does not fail, one can do what the other can, and comes to the
  same system but for the kind of the ticker. -/
  runs : ∀ as : List Action, (∀ a ∈ as, ¬ a.Signals x) → .failed x ∉ as →
    plain.run as = (ending.run (as.map (Action.exits x))).map (System.plain x)
  /-- Meanwhile the same ticks start at the same points. -/
  ticks : ∀ as : List Action, (∀ a ∈ as, ¬ a.Signals x) → .failed x ∉ as →
    (plain.moments as).map (Moment.begins x) =
      (ending.moments (as.map (Action.exits x))).map (Moment.begins x)
  /-- And every member is done in the one if it is in the other, with the same error. -/
  shows : ∀ (as : List Action) (s p : System), (∀ a ∈ as, ¬ a.Signals x) → .failed x ∉ as →
    plain.run as = some p → ending.run (as.map (Action.exits x)) = some s →
    ∀ y, p.isDone y = s.isDone y ∧ p.error y = s.error y
  /-- Once the root has failed, whatever came before or comes after, no tick starts, the
  ticker is done after four steps of its own, each of them possible, and it shows no
  error. -/
  fails : ∀ (before : List Action) (s s' : System), ending.run (before.map (Action.exits x)) = some s →
    s.step ((Action.failed x).exits x) = some s' → ∀ (after : List Action) s'', s'.run after = some s'' →
      (∀ μ ∈ s'.moments after, μ.begins x = false) ∧ s''.error x = none ∧
      (s''.isDone x = false → (s''.step (.drive x)).isSome) ∧
      (s''.isDone x ↔ 4 ≤ after.countP (Action.drives x))
  /-- Once the ticker is done, it shows the error of the first cause to leave, if that is
  not the signal. -/
  done : ∀ (as : List Action) (s : System), ending.run (as.map (Action.exits x)) = some s → s.isDone x →
    ∀ e, s.error x = some e ↔
      FirstExit x parent (ending.moments (as.map (Action.exits x))) (some e) ∧ e.isExit = false
  /-- The signal is the cause only where the root has failed. -/
  signal : ∀ (as : List Action) (e : RunError), (∀ a ∈ as, ¬ a.Signals x) →
    FirstExit x parent (ending.moments (as.map (Action.exits x))) (some e) → e.isExit →
    .failed x ∈ as

theorem System.action_mem {as : List Action} {s : System} {μ : Moment} (hμ : μ ∈ s.moments as) :
    μ.action ∈ as := by
  induction as generalizing s with
  | nil => exact absurd hμ List.not_mem_nil
  | cons a as ih =>
    rcases List.mem_cons.mp hμ with rfl | hμ
    · exact List.mem_cons_self
    · cases hstep : s.step a with
      | none => simp [hstep] at hμ
      | some s₁ =>
        rw [hstep] at hμ
        exact List.mem_cons_of_mem a (ih hμ)

/-- Only a failure of the root is seen as the signal. -/
theorem Action.eq_failed {x : Nat} {a : Action} (ha : ¬ a.Signals x)
    (hsignals : (a.exits x).Signals x) : a = .failed x := by
  by_contra hfails
  rw [Action.exits_eq hfails] at hsignals
  exact ha hsignals

theorem Leaves.signals {x : Nat} {parent : Option Nat} {past : List Moment} {μ : Moment}
    {e : RunError} (h : Leaves x parent past μ (some e)) (hexit : e.isExit) :
    μ.action.Signals x := by
  cases h with
  | erred ha => exact ⟨_, ha, hexit⟩
  | panicked | cancelled => cases hexit

/-- The two tickers begin as twins. -/
theorem System.newTicker_plain {s₀ plain ending : System} {parent : Option Nat}
    {config : TickerConfig} (hplain : s₀.step (.newTicker parent config false) = some plain)
    (hending : s₀.step (.newTicker parent config true) = some ending) :
    plain = ending.plain s₀.members.size := by
  simp only [step] at hplain hending
  split at hplain
  · cases hplain
  · rename_i hperiod
    rw [if_neg hperiod] at hending
    cases hplain
    cases hending
    exact (plain_addMember_self
      (s₀.withScopes { s₀.toScopes with tokens := (s₀.tokens.under parent).2 })
      (.ticker (.start (s₀.tokens.under parent).1 config true))).symm

namespace Course

variable {x : Nat} {parent : Option Nat} {ending s s' : System} {t : Ticker}

/-- A root that fails sends its ticker out of the loop with the signal. -/
theorem step_failed {H : List Moment} (hC : Course x parent H s t)
    (h : s.step ((Action.failed x).exits x) = some s') :
    ∃ H' t', Course x parent H' s' t' ∧ t'.endsOnFailure = t.endsOnFailure ∧
      t'.phase = .leaving (some (.tick .exitOnFailure)) := by
  have hexits : (Action.failed x).exits x = .tickEnded x (.returned (.error .exitOnFailure)) :=
    congrArg (Action.tickEnded x) (if_pos rfl)
  rw [hexits] at h
  obtain ⟨t', hC', hkind, hchange⟩ := hC.step h
  refine ⟨_, t', hC', hkind, ?_⟩
  generalize hm : Member.ticker t' = member' at hchange
  cases hchange with
  | kept htouch | asked htouch =>
    have htouch : (x == x) = false := htouch
    simp at htouch
  | tickEnded hended =>
    cases hm
    obtain ⟨next, -, ⟨e, he, rfl⟩ | ⟨he, -⟩⟩ := Ticker.tickEnded_cases hended
    · cases he
      rfl
    · cases he

/-- A done ticker shows the error that it left with, if that is not the signal. -/
theorem error_of_done {H : List Moment} (hC : Course x parent H s t) (hends : t.endsOnFailure)
    (hd : s.isDone x) (e : RunError) :
    s.error x = some e ↔ FirstExit x parent H (some e) ∧ e.isExit = false := by
  have hx := System.members_of_ticker? hC.own.here
  have hd : t.isDone := (System.isDone_of_getElem? hx).symm.trans hd
  have hleft := Ticker.left?_of_hasRecorded (hC.hasRecorded_of_isDone hd)
  have hshown : s.error x = t.error.filter fun e => !e.isExit := by
    rw [System.error_of_getElem? hx]
    exact if_pos hends
  rw [hshown, Option.filter_eq_some_iff, ← hC.left?_iff, hleft]
  simp

end Course

/-- **A ticker that ends on failures ends quietly.** Let a system run in any order of
actions, and start a ticker under a token on the way: a plain one, or one that ends on
failures.

* A tick of the wrapped root is a tick of the root itself, with the same effects and the
  same end, but for the signal in the place of failure.
* Up to the first failure of the root the two tickers start the same ticks, are done
  alike and show the same error; from then on the one that ends on failures starts no
  tick, is done after four steps, and shows no error. What it shows once it is done is
  the error of the first cause to leave, unless that is the signal (`EndsQuietly`).
* In no run does any member show the signal, nor has any manager collected it. -/
theorem ends_quietly_on_failure {before : List Action} {parent : Option Nat}
    {config : TickerConfig} {s₀ plain ending : System} (h₀ : System.empty.run before = some s₀)
    (above : ∀ p ∈ parent, s₀.tokens.Made p)
    (hplain : s₀.step (.newTicker parent config false) = some plain)
    (hending : s₀.step (.newTicker parent config true) = some ending) :
    (∀ (I : Interface) (σ : Type) (env : Environment I σ) (others : Others I σ) (caller : Caller)
      (root : Node I) w o w', (Node.exitOnFailure root).Ticked env others caller w o w' ↔
        ∃ first, root.Ticked env others caller w first w' ∧
          o.outcome = first.outcome.exitOnFailure) ∧
    EndsQuietly s₀.members.size parent plain ending ∧
    ∀ as s, System.empty.run as = some s → (∀ μ ∈ history as, μ.IsGenuine) →
      ∀ y, (∀ e ∈ s.error y, e.signals = false) ∧
        ∀ m, s.manager? y = some m → ∀ e ∈ m.errors, e.signals = false := by
  have hown := OwnToken.start (System.tidy_run System.tidy_empty h₀) above hending
  have hC : Course s₀.members.size parent [] ending _ :=
    ⟨hown, .start _ _ _ _ _, .start _ _ _ _ _⟩
  have hquiet : ending.Quiet s₀.members.size := ⟨_, hown.here, nofun, nofun⟩
  have htwin := System.newTicker_plain hplain hending
  subst htwin
  have hruns : ∀ as : List Action, (∀ a ∈ as, ¬ a.Signals s₀.members.size) →
      .failed s₀.members.size ∉ as → (ending.plain s₀.members.size).run as =
        (ending.run (as.map (Action.exits s₀.members.size))).map (System.plain s₀.members.size) := by
    intro as has hfails
    rw [Action.map_exits hfails]
    exact (System.run_plain hquiet has).1
  refine ⟨fun _ _ _ _ _ _ _ _ _ => Node.ticked_exitOnFailure, ⟨hruns, ?_, ?_, ?_, ?_, ?_⟩, ?_⟩
  · intro as has hfails
    rw [Action.map_exits hfails, (System.run_plain hquiet has).2, List.map_map]
    exact List.map_congr_left fun μ hμ => (hquiet.moments has μ hμ).begins_plain
  · intro as s p has hfails hp hs y
    have hrun := hruns as has hfails
    rw [hp, hs] at hrun
    cases hrun
    rw [Action.map_exits hfails] at hs
    exact ⟨System.isDone_plain s _ y, (hquiet.run has hs).error_plain y⟩
  · intro before s s' hs hs' after s'' hafter
    obtain ⟨t, hCs, hkind⟩ := hC.run hs
    obtain ⟨H', t', hCs', hkind', hsignal⟩ := hCs.step_failed hs'
    exact hCs'.after_signal (hkind'.trans hkind) hsignal hafter
  · intro as s hs hd e
    obtain ⟨t, hCs, hkind⟩ := hC.run hs
    exact hCs.error_of_done hkind hd e
  · rintro as e has ⟨past, μ, rest, hsplit, -, hleaves⟩ hexit
    have hμ : μ ∈ ending.moments (as.map (Action.exits s₀.members.size)) := by
      rw [hsplit]
      exact List.mem_append_right _ List.mem_cons_self
    obtain ⟨a, ha, hmap⟩ := List.mem_map.mp (System.action_mem hμ)
    have hsignals := hleaves.signals hexit
    rw [← hmap] at hsignals
    exact Action.eq_failed (has a ha) hsignals ▸ ha
  · intro as s hs hgenuine y
    have hhides := System.hides hs hgenuine y
    constructor
    · intro e he
      obtain ⟨member, hy, hshown⟩ := Option.bind_eq_some_iff.mp he
      exact (hhides member hy).error e hshown
    · intro m hm
      exact hhides (.manager m) (System.members_of_manager? hm)

/-- A ticker is asked to stop and the token above it is cancelled while its tick is in
progress. -/
def cancelledMeanwhile : List Action :=
  [.drive 0, .pass 10, .catchUp, .drive 0, .stop 0, .cancel 0]

/-- The tick then ends with failure; four steps later the ticker is done, without an
error. -/
theorem ends_quietly_on_failure_cancelledMeanwhile : ∃ s₀ plain ending s s' s'',
    System.empty.run [.newToken none] = some s₀ ∧ (∀ p ∈ some 0, s₀.tokens.Made p) ∧
    s₀.step (.newTicker (some 0) {} false) = some plain ∧
    s₀.step (.newTicker (some 0) {} true) = some ending ∧
    ending.run (cancelledMeanwhile.map (Action.exits 0)) = some s ∧
    s.step ((Action.failed 0).exits 0) = some s' ∧ s'.run (List.replicate 4 (.drive 0)) = some s'' ∧
    s''.isDone 0 ∧ s''.error 0 = none := by
  have made : ∀ p ∈ some 0, Tokens.Made ⟨#[⟨[], false⟩]⟩ p := by simp [Tokens.Made]
  obtain ⟨s₀, plain, ending, s, s', s'', hsize, h₀, above, hplain, hending, hs, hs', hs''⟩ :
      ∃ s₀ plain ending s s' s'', s₀.members.size = 0 ∧
        System.empty.run [.newToken none] = some s₀ ∧ (∀ p ∈ some 0, s₀.tokens.Made p) ∧
        s₀.step (.newTicker (some 0) {} false) = some plain ∧
        s₀.step (.newTicker (some 0) {} true) = some ending ∧
        ending.run (cancelledMeanwhile.map (Action.exits 0)) = some s ∧
        s.step ((Action.failed 0).exits 0) = some s' ∧
        s'.run (List.replicate 4 (.drive 0)) = some s'' :=
    ⟨_, _, _, _, _, _, rfl, rfl, made, rfl, rfl, rfl, rfl, rfl⟩
  have hlaw := (ends_quietly_on_failure h₀ above hplain hending).2.1
  rw [hsize] at hlaw
  obtain ⟨-, herror, -, hdone⟩ := hlaw.fails _ _ _ hs hs' _ _ hs''
  exact ⟨s₀, plain, ending, s, s', s'', h₀, above, hplain, hending, hs, hs', hs'',
    hdone.mpr (by decide), herror⟩

end TickTree
