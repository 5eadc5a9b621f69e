/-
# The exit of a ticker

The driver of a ticker leaves its loop for one of four causes: the tick in
progress ends with an error; it panics; between two ticks the driver finds the
token above the ticker cancelled; or it finds that token live and the ticker
asked to stop. It leaves at the first of them, with the error of that cause.
What happens during a tick counts only when the driver looks after it, so the
error of the tick comes before a cancellation or a stop that the tick overlaps;
and a cancellation comes before a stop, however much earlier that was.

The token of a ticker hangs under the token above it, and nobody else uses it;
so while the driver is in its loop it is cancelled only with the token above.

Key definitions: `Moment.looks`, `Leaves`, `FirstExit`, `ExitLaw`.
Key theorems: `OwnToken.step`, `Exiting.step`, `Ticking.step`,
`exits_at_first_cause`.
-/
import TickTree.Proofs.TokenUse

namespace TickTree

/-! ### Causes -/

/-- Is the token above cancelled? -/
def System.isCancelledAbove (s : System) (parent : Option Nat) : Bool :=
  parent.any s.tokens.isCancelled

/-- The driver of ticker `x` looks around between two ticks. -/
def Moment.looks (x : Nat) (μ : Moment) : Prop :=
  μ.action = .drive x ∧ ∃ t due, μ.found.ticker? x = some t ∧ t.phase = .waiting due

/-- The moment `μ`, after the moments `past` of a ticker, is a cause to leave the
loop, with that error. -/
inductive Leaves (x : Nat) (parent : Option Nat) (past : List Moment) (μ : Moment) :
    Option RunError → Prop
  /-- The tick in progress returns an error. -/
  | erred {e} : μ.action = .tickEnded x (.returned (.error e)) →
      Leaves x parent past μ (some (.tick e))
  /-- The tick in progress panics. -/
  | panicked {payload} : μ.action = .tickEnded x (.panicked payload) →
      Leaves x parent past μ (some (.ofPanic payload))
  /-- The driver finds the token above cancelled. -/
  | cancelled : μ.looks x → μ.found.isCancelledAbove parent →
      Leaves x parent past μ (some .cancelled)
  /-- The driver finds the token above live, and the ticker asked to stop. -/
  | stopped : μ.looks x → μ.found.isCancelledAbove parent = false → (∃ ν ∈ past, ν.asks x) →
      Leaves x parent past μ none

/-- There was no cause to leave. -/
def NoExit (x : Nat) (parent : Option Nat) (H : List Moment) : Prop :=
  Throughout (fun past μ => ∀ e, ¬ Leaves x parent past μ e) H

/-- The first cause to leave comes with that error. -/
def FirstExit (x : Nat) (parent : Option Nat) (H : List Moment) (e : Option RunError) : Prop :=
  ∃ past μ rest, H = past ++ μ :: rest ∧ NoExit x parent past ∧ Leaves x parent past μ e

section
variable {x : Nat} {parent : Option Nat} {H past : List Moment} {μ : Moment}
  {e e' : Option RunError}

theorem Leaves.unique (h : Leaves x parent past μ e) (h' : Leaves x parent past μ e') :
    e = e' := by
  cases h with
  | erred ha =>
    cases h' with
    | erred ha' => cases ha.symm.trans ha'; rfl
    | panicked ha' => cases ha.symm.trans ha'
    | cancelled hl => cases ha.symm.trans hl.1
    | stopped hl => cases ha.symm.trans hl.1
  | panicked ha =>
    cases h' with
    | erred ha' => cases ha.symm.trans ha'
    | panicked ha' => cases ha.symm.trans ha'; rfl
    | cancelled hl => cases ha.symm.trans hl.1
    | stopped hl => cases ha.symm.trans hl.1
  | cancelled hl hc =>
    cases h' with
    | erred ha' => cases ha'.symm.trans hl.1
    | panicked ha' => cases ha'.symm.trans hl.1
    | cancelled => rfl
    | stopped _ hc' => exact absurd (hc.symm.trans hc') (by decide)
  | stopped hl hc =>
    cases h' with
    | erred ha' => cases ha'.symm.trans hl.1
    | panicked ha' => cases ha'.symm.trans hl.1
    | cancelled _ hc' => exact absurd (hc.symm.trans hc') (by decide)
    | stopped => rfl

/-- A moment that does nothing to the ticker itself is no cause. -/
theorem not_leaves_of_touches (h : μ.touches x = false) : ¬ Leaves x parent past μ e := by
  obtain ⟨s, a⟩ := μ
  intro hl
  cases hl with
  | erred ha | panicked ha =>
    obtain rfl : a = _ := ha
    simp [Moment.touches] at h
  | cancelled hlook | stopped hlook =>
    obtain rfl : a = _ := hlook.1
    simp [Moment.touches] at h

theorem FirstExit.snoc (h : FirstExit x parent H e) (μ : Moment) :
    FirstExit x parent (H ++ [μ]) e := by
  obtain ⟨past, ν, rest, rfl, hno, hl⟩ := h
  exact ⟨past, ν, rest ++ [μ], by simp, hno, hl⟩

theorem NoExit.firstExit (hno : NoExit x parent H) (hl : Leaves x parent H μ e) :
    FirstExit x parent (H ++ [μ]) e :=
  ⟨H, μ, [], rfl, hno, hl⟩

theorem NoExit.not_firstExit (hno : NoExit x parent H) : ¬ FirstExit x parent H e := by
  rintro ⟨past, ν, rest, hsplit, -, hl⟩
  exact hno past ν rest hsplit e hl

theorem FirstExit.unique (h : FirstExit x parent H e) (h' : FirstExit x parent H e') :
    e = e' := by
  obtain ⟨past, μ, rest, rfl, hno, hl⟩ := h
  obtain ⟨past', μ', rest', hsplit, hno', hl'⟩ := h'
  rcases List.append_eq_append_iff.mp hsplit with ⟨mid, rfl, hrest⟩ | ⟨mid, rfl, hrest⟩
  · cases mid with
    | nil =>
      obtain ⟨rfl, -⟩ := List.cons.inj hrest
      rw [List.append_nil] at hl'
      exact hl.unique hl'
    | cons ν mid =>
      obtain ⟨rfl, -⟩ := List.cons.inj hrest
      exact absurd hl (hno' past _ mid rfl e)
  · cases mid with
    | nil =>
      obtain ⟨rfl, -⟩ := List.cons.inj hrest
      rw [List.append_nil] at hl
      exact hl.unique hl'
    | cons ν mid =>
      obtain ⟨rfl, -⟩ := List.cons.inj hrest
      exact absurd hl' (hno past' _ mid rfl e')

end

/-! ### The token of a ticker -/

namespace Ticker

/-- The way out that the driver has taken, if it has left its loop. -/
def left? (t : Ticker) : Option (Option RunError) :=
  match t.phase with
  | .starting | .waiting _ | .ticking _ => none
  | .leaving error => some error
  | .recorded | .halted | .released | .finished => some t.error

/-- Has the driver recorded its error? -/
def hasRecorded (t : Ticker) : Bool :=
  t.phase matches .recorded | .halted | .released | .finished

theorem left?_of_hasRecorded {t : Ticker} (h : t.hasRecorded) : t.left? = some t.error := by
  unfold hasRecorded at h
  unfold left?
  split at h <;> simp_all

theorem left?_of_waiting {t : Ticker} {due : Nat} (h : t.phase = .waiting due) :
    t.left? = none := by
  simp [left?, h]

/-- A driver that has left its loop does not come back. -/
theorem left?_of_drive {now elapsed : Nat} {cancelled : Bool} {t t' : Ticker}
    (h : t.drive now elapsed cancelled = some t') (hleft : t'.left? = none) : t.left? = none := by
  cases drive_cases h with
  | begun hp | sawCancelled hp | sawStopped hp | ticked hp => simp [left?, hp]
  | recorded | halted | released | finished => cases hleft

/-- A waiting driver that finds a cancellation or a stop does not wait on. -/
theorem isSome_drive_of_waiting {now elapsed due : Nat} {cancelled : Bool} {t : Ticker}
    (hp : t.phase = .waiting due) (hcause : cancelled ∨ t.stopRequested) :
    (t.drive now elapsed cancelled).isSome := by
  simp only [drive, hp]
  rcases hcause with hc | hstop
  · rw [if_pos hc]
    rfl
  · rw [if_pos hstop]
    split <;> rfl

/-- A driver that has left its loop goes on to its end. -/
theorem isSome_drive_of_left {now elapsed : Nat} {cancelled : Bool} {t : Ticker}
    (hleft : t.left?.isSome) (hp : t.phase ≠ .finished) :
    (t.drive now elapsed cancelled).isSome := by
  unfold drive
  cases hphase : t.phase with
  | starting | waiting | ticking => simp [left?, hphase] at hleft
  | leaving | recorded | halted | released => rfl
  | finished => exact absurd hphase hp

theorem left?_of_tickEnded {t t' : Ticker} {outcome : Outcome}
    (h : t.tickEnded outcome = some t') : t.left? = none := by
  obtain ⟨next, hp, -⟩ := tickEnded_cases h
  simp [left?, hp]

end Ticker

theorem System.isSome_drive {s : System} {x : Nat} {t : Ticker} (ht : s.ticker? x = some t)
    (h : (t.drive s.now s.elapsed (s.tokens.isCancelled t.token)).isSome) :
    (s.drive x).isSome := by
  obtain ⟨t', ht'⟩ := Option.isSome_iff_exists.mp h
  simp [drive, ht, ht']

/-- A recorded error stays, and a done ticker stays done. -/
theorem Member.Change.keeps_error {s : System} {x : Nat} {a : Action} {t t' : Ticker}
    (h : Change s x a (.ticker t) (.ticker t')) (hrec : t.hasRecorded) :
    t'.hasRecorded ∧ t'.error = t.error ∧ (t.isDone → t'.isDone) := by
  generalize hm : Member.ticker t' = member' at h
  cases h with
  | kept | asked =>
    cases hm
    exact ⟨hrec, rfl, id⟩
  | driven hdrive =>
    cases hm
    cases Ticker.drive_cases hdrive with
    | begun hp | sawCancelled hp | sawStopped hp | ticked hp | recorded hp =>
      simp [Ticker.hasRecorded, hp] at hrec
    | halted | released => exact ⟨rfl, rfl, id⟩
    | finished => exact ⟨rfl, rfl, fun _ => rfl⟩
  | tickEnded hended =>
    cases hm
    obtain ⟨next, hp, -⟩ := Ticker.tickEnded_cases hended
    simp [Ticker.hasRecorded, hp] at hrec

theorem Member.Change.left?_eq_none {s : System} {x : Nat} {a : Action} {t t' : Ticker}
    (h : Change s x a (.ticker t) (.ticker t')) (hleft : t'.left? = none) : t.left? = none := by
  generalize hm : Member.ticker t' = member' at h
  cases h with
  | kept =>
    cases hm
    exact hleft
  | asked =>
    cases hm
    exact hleft
  | driven hdrive =>
    cases hm
    exact Ticker.left?_of_drive hdrive hleft
  | tickEnded hended => exact Ticker.left?_of_tickEnded hended

/-- The token of ticker `t` at place `x`: it hangs under the token above, nobody
else uses it, and it is not cancelled itself while the driver is in its loop. -/
structure OwnToken (x : Nat) (parent : Option Nat) (s : System) (t : Ticker) : Prop where
  tidy : s.Tidy
  here : s.ticker? x = some t
  alone : ∀ place, s.Uses t.token place → place = some x
  above : ∀ p ∈ parent, s.tokens.Made p
  lineage : s.tokens.lineage t.token = t.token :: parent.elim [] s.tokens.lineage
  live : t.left? = none → s.tokens.flagged t.token = false

namespace OwnToken

variable {x : Nat} {parent : Option Nat} {s s' : System} {a : Action} {t t' : Ticker}

theorem uses (hO : OwnToken x parent s t) : s.Uses t.token (some x) := ⟨t, hO.here, rfl⟩

/-- In the loop, the token is cancelled with the one above. -/
theorem isCancelled (hO : OwnToken x parent s t) (hloop : t.left? = none) :
    s.tokens.isCancelled t.token = s.isCancelledAbove parent := by
  unfold Tokens.isCancelled System.isCancelledAbove
  rw [hO.lineage, List.any_cons, hO.live hloop, Bool.false_or]
  cases parent with
  | none => rfl
  | some p => rfl

/-- No step cancels the token itself while the driver is in its loop. -/
theorem not_mayCancel (hO : OwnToken x parent s t) (hloop : t.left? = none) :
    ¬ s.MayCancel a t.token := by
  rintro (hscope | ⟨-, howned⟩ | ⟨y, t', -, ht', hp, htoken⟩)
  · cases hO.alone none hscope
  · have hmem := Array.mem_of_getElem? (System.members_of_ticker? hO.here)
    unfold System.isOwned at howned
    rw [List.any_eq_false] at howned
    exact howned _ (Array.mem_toList_iff.mpr hmem) (by simp)
  · have hplace := hO.alone (some y) ⟨t', ht', htoken⟩
    obtain rfl : y = x := Option.some.inj hplace
    obtain rfl : t = t' := Option.some.inj (hO.here.symm.trans ht')
    simp [Ticker.left?, hp] at hloop

theorem step (hO : OwnToken x parent s t) (h : s.step a = some s')
    (ht' : s'.ticker? x = some t') (htoken : t'.token = t.token)
    (hloop : t'.left? = none → t.left? = none) : OwnToken x parent s' t' := by
  have hlater := System.step_scopes h
  have hmade := hO.tidy _ _ hO.uses
  refine ⟨System.tidy_step hO.tidy h, ht', fun place hu => ?_, fun p hp => ?_, ?_, fun hleft => ?_⟩
  · rw [htoken] at hu
    rcases System.step_uses h hu with hu | ⟨hnew, -⟩
    · exact hO.alone place hu
    · exact absurd hmade hnew
  · exact hlater.made (hO.above p hp)
  · rw [htoken, hlater.lineage hmade, hO.lineage, hlater.above hO.above]
  · have hloop := hloop hleft
    rw [htoken, hlater.flagged hmade (hO.not_mayCancel hloop)]
    exact hO.live hloop

/-- A ticker that has just been started has a token of its own. -/
theorem start {config : TickerConfig} {endsOnFailure : Bool} (htidy : s.Tidy)
    (above : ∀ p ∈ parent, s.tokens.Made p)
    (h : s.step (.newTicker parent config endsOnFailure) = some s') :
    OwnToken s.members.size parent s' (.start (s.tokens.under parent).1 config endsOnFailure) := by
  have hlater := System.step_scopes h
  have hunused : ∀ place, ¬ s.Uses (s.tokens.under parent).1 place := by
    intro place hu
    have hmade := htidy _ _ hu
    rw [Tokens.under_fst] at hmade
    exact Nat.lt_irrefl _ hmade
  have htidy' := System.tidy_step htidy h
  simp only [System.step] at h
  split at h
  · cases h
  cases h
  refine ⟨htidy', ?_, fun place hu => ?_, fun p hp => hlater.made (above p hp), ?_, fun _ => ?_⟩
  · simp [System.ticker?, System.addMember, System.withScopes]
  · cases place with
    | none => exact absurd hu (hunused none)
    | some y =>
      obtain ⟨t, ht, htoken⟩ := hu
      have hy := System.members_of_ticker? ht
      simp only [System.addMember, System.withScopes, Array.getElem?_push] at hy
      split at hy
      · rename_i hsize
        rw [hsize]
      · exact absurd ⟨t, System.ticker?_eq_some.mpr hy, htoken⟩ (hunused (some y))
  · exact (Tokens.lineage_new s.tokens parent).trans (congrArg _ (hlater.above above).symm)
  · exact Tokens.flagged_new s.tokens parent

end OwnToken

/-! ### Leaving the loop -/

/-- What the moments `H` of ticker `t` at place `x` say about its way out. -/
structure Exiting (x : Nat) (parent : Option Nat) (H : List Moment) (t : Ticker) : Prop where
  asked : t.left? = none → (t.stopRequested ↔ ∃ ν ∈ H, ν.asks x)
  loop : t.left? = none → NoExit x parent H
  left : ∀ e, t.left? = some e → FirstExit x parent H e
  unset : t.hasRecorded = false → t.error = none
  done : t.isDone ↔ t.phase = .finished

namespace Exiting

variable {x : Nat} {parent : Option Nat} {H : List Moment} {s s' : System} {a : Action}
  {t t' : Ticker} {μ : Moment}

theorem start (x : Nat) (parent : Option Nat) (token : Nat) (config : TickerConfig)
    (endsOnFailure : Bool) : Exiting x parent [] (.start token config endsOnFailure) where
  asked := fun _ => by simp [Ticker.start]
  loop := fun _ => throughout_nil _
  left := fun e h => by simp [Ticker.left?, Ticker.start] at h
  unset := fun _ => rfl
  done := by simp [Ticker.start]

/-- A moment that is no cause to leave finds and leaves the driver in its loop,
or finds and leaves it on the same way out. -/
theorem quiet (hE : Exiting x parent H t) (hno : ∀ e, ¬ Leaves x parent H μ e)
    (hleft : t'.left? = t.left?)
    (hstop : t.left? = none → (t'.stopRequested ↔ t.stopRequested ∨ μ.asks x))
    (hunset : t'.hasRecorded = false → t'.error = none)
    (hdone : t'.isDone ↔ t'.phase = .finished) : Exiting x parent (H ++ [μ]) t' where
  asked := fun hloop => by
    have hloop : t.left? = none := hleft ▸ hloop
    rw [hstop hloop, hE.asked hloop]
    simp [or_and_right, exists_or]
  loop := fun hloop => throughout_snoc (hE.loop (hleft ▸ hloop)) hno
  left := fun e h => (hE.left e (hleft ▸ h)).snoc μ
  unset := hunset
  done := hdone

/-- A moment that is a cause to leave finds the driver in its loop. -/
theorem leave {e : Option RunError} (hE : Exiting x parent H t) (hloop : t.left? = none)
    (hcause : Leaves x parent H μ e) (hleft : t'.left? = some e)
    (hunset : t'.hasRecorded = false → t'.error = none)
    (hdone : t'.isDone ↔ t'.phase = .finished) : Exiting x parent (H ++ [μ]) t' where
  asked := fun h => absurd (hleft.symm.trans h) (by simp)
  loop := fun h => absurd (hleft.symm.trans h) (by simp)
  left := fun e' h => by
    obtain rfl : e = e' := Option.some.inj (hleft.symm.trans h)
    exact (hE.loop hloop).firstExit hcause
  unset := hunset
  done := hdone

/-- The driver takes a step. -/
theorem driven (hE : Exiting x parent H t) (ht : s.ticker? x = some t)
    (htoken : t.left? = none → s.tokens.isCancelled t.token = s.isCancelledAbove parent)
    (h : t.drive s.now s.elapsed (s.tokens.isCancelled t.token) = some t') :
    Exiting x parent (H ++ [⟨s, .drive x⟩]) t' := by
  have hlooks : ∀ {due}, t.phase = .waiting due → Moment.looks x ⟨s, .drive x⟩ :=
    fun hp => ⟨rfl, t, _, ht, hp⟩
  -- away from `waiting` the driver does not look, so its step is no cause to leave
  have hno : (∀ due, t.phase ≠ .waiting due) → ∀ e, ¬ Leaves x parent H ⟨s, .drive x⟩ e := by
    intro hp e hl
    have hlook : Moment.looks x ⟨s, .drive x⟩ := by
      cases hl with
      | erred ha | panicked ha => cases ha
      | cancelled hlook | stopped hlook => exact hlook
    obtain ⟨-, t₁, due, ht₁, hp₁⟩ := hlook
    obtain rfl : t = t₁ := Option.some.inj (ht.symm.trans ht₁)
    exact hp due hp₁
  have hasks : Moment.asks x ⟨s, .drive x⟩ = false := rfl
  have hunset : t.hasRecorded = false → t.error = none := hE.unset
  have hdone := hE.done
  cases Ticker.drive_cases h with
  | begun hp =>
    have herror := hunset (by simp [Ticker.hasRecorded, hp])
    refine hE.quiet (hno (by simp [hp])) ?_ (fun _ => by simp [hasks]) (fun _ => herror) ?_
    · simp [Ticker.left?, hp]
    · simpa [hp] using hdone
  | sawCancelled hp hc =>
    have hloop := Ticker.left?_of_waiting hp
    have herror := hunset (by simp [Ticker.hasRecorded, hp])
    have habove := (htoken hloop).symm.trans hc
    refine hE.leave hloop (.cancelled (hlooks hp) habove) rfl (fun _ => herror) ?_
    simpa [hp] using hdone
  | sawStopped hp hc hstop =>
    have hloop := Ticker.left?_of_waiting hp
    have herror := hunset (by simp [Ticker.hasRecorded, hp])
    have habove := (htoken hloop).symm.trans hc
    have hasked := (hE.asked hloop).mp hstop
    refine hE.leave hloop (.stopped (hlooks hp) habove hasked) rfl (fun _ => herror) ?_
    simpa [hp] using hdone
  | ticked hp hc hstop hdue =>
    have hloop := Ticker.left?_of_waiting hp
    have herror := hunset (by simp [Ticker.hasRecorded, hp])
    have habove := (htoken hloop).symm.trans hc
    have hnotasked : ¬ ∃ ν ∈ H, ν.asks x := by
      rw [← hE.asked hloop, hstop]
      exact Bool.false_ne_true
    refine hE.quiet (fun e hl => ?_) ?_ (fun _ => by simp [hasks]) (fun _ => herror) ?_
    · cases hl with
      | erred ha | panicked ha => cases ha
      | cancelled _ hc' => exact absurd (habove.symm.trans hc') (by decide)
      | stopped _ _ hasked => exact hnotasked hasked
    · simp [Ticker.left?, hp]
    · simpa [hp] using hdone
  | recorded hp =>
    refine hE.quiet (hno (by simp [hp])) ?_ (fun hloop => ?_) (fun hrec => ?_) ?_
    · simp [Ticker.left?, hp]
    · simp [Ticker.left?, hp] at hloop
    · simp [Ticker.hasRecorded] at hrec
    · simpa [hp] using hdone
  | halted hp | released hp =>
    refine hE.quiet (hno (by simp [hp])) ?_ (fun hloop => ?_) (fun hrec => ?_) ?_
    · simp [Ticker.left?, hp]
    · simp [Ticker.left?, hp] at hloop
    · simp [Ticker.hasRecorded] at hrec
    · simpa [hp] using hdone
  | finished hp =>
    refine hE.quiet (hno (by simp [hp])) ?_ (fun hloop => ?_) (fun hrec => ?_) ?_
    · simp [Ticker.left?, hp]
    · simp [Ticker.left?, hp] at hloop
    · simp [Ticker.hasRecorded] at hrec
    · simp

/-- The tick in progress ends. -/
theorem tickEnded {outcome : Outcome} (hE : Exiting x parent H t)
    (h : t.tickEnded outcome = some t') :
    Exiting x parent (H ++ [⟨s, .tickEnded x outcome⟩]) t' := by
  have hloop := Ticker.left?_of_tickEnded h
  obtain ⟨next, hp, hnext⟩ := Ticker.tickEnded_cases h
  have herror := hE.unset (by simp [Ticker.hasRecorded, hp])
  have hdone := hE.done
  rcases hnext with ⟨e, he, rfl⟩ | ⟨he, rfl⟩
  · have hcause : Leaves x parent H ⟨s, .tickEnded x outcome⟩ (some e) := by
      unfold RunError.ofOutcome at he
      split at he
      · cases he
      · cases he
        exact .erred rfl
      · cases he
        exact .panicked rfl
    refine hE.leave hloop hcause rfl (fun _ => herror) ?_
    simpa [hp] using hdone
  · refine hE.quiet (fun e hl => ?_) ?_ (fun _ => by simp [Moment.asks]) (fun _ => herror) ?_
    · cases hl with
      | erred ha | panicked ha =>
        cases ha
        cases he
      | cancelled hlook | stopped hlook => cases hlook.1
    · simp [Ticker.left?, hp]
    · simpa [hp] using hdone

/-- **In every step, the driver leaves its loop if that is a cause to, and only
then.** -/
theorem step (hE : Exiting x parent H t) (ht : s.ticker? x = some t)
    (htoken : t.left? = none → s.tokens.isCancelled t.token = s.isCancelledAbove parent)
    (hchange : Member.Change s x a (.ticker t) (.ticker t')) :
    Exiting x parent (H ++ [⟨s, a⟩]) t' := by
  generalize hm : Member.ticker t' = member' at hchange
  cases hchange with
  | kept htouch hask =>
    cases hm
    exact hE.quiet (fun _ => not_leaves_of_touches htouch) rfl (fun _ => by simp [hask]) hE.unset
      hE.done
  | asked htouch hask =>
    cases hm
    exact hE.quiet (fun _ => not_leaves_of_touches htouch) rfl (fun _ => by simp [hask]) hE.unset
      hE.done
  | driven hdrive =>
    cases hm
    exact hE.driven ht htoken hdrive
  | tickEnded hended =>
    cases hm
    exact hE.tickEnded hended

end Exiting

/-! ### Ticks -/

namespace Moment

/-- Does a tick of ticker `x` start? -/
def begins (x : Nat) (μ : Moment) : Bool :=
  match μ.action with
  | .drive y => y == x && ((μ.found.step μ.action).bind (·.ticker? x)).any Ticker.isTicking
  | _ => false

/-- Does a tick of ticker `x` end? -/
def ends (x : Nat) (μ : Moment) : Bool :=
  match μ.action with
  | .tickEnded y _ => y == x
  | _ => false

theorem begins_of_touches {x : Nat} {μ : Moment} (h : μ.touches x = false) :
    μ.begins x = false := by
  obtain ⟨s, a⟩ := μ
  cases a with
  | drive y =>
    have hne : (y == x) = false := h
    simp only [begins, hne, Bool.false_and]
  | _ => rfl

theorem ends_of_touches {x : Nat} {μ : Moment} (h : μ.touches x = false) : μ.ends x = false := by
  obtain ⟨s, a⟩ := μ
  cases a with
  | tickEnded y outcome => exact h
  | _ => rfl

theorem begins_drive {x : Nat} {s s' : System} {t' : Ticker} (h : s.step (.drive x) = some s')
    (ht' : s'.ticker? x = some t') : begins x ⟨s, .drive x⟩ = t'.isTicking := by
  simp [begins, h, ht']

end Moment

/-- How many ticks of ticker `x` have started. -/
def begun (x : Nat) (H : List Moment) : Nat := H.countP (Moment.begins x)

/-- How many ticks of ticker `x` have ended. -/
def ended (x : Nat) (H : List Moment) : Nat := H.countP (Moment.ends x)

theorem begun_snoc (x : Nat) (H : List Moment) (μ : Moment) :
    begun x (H ++ [μ]) = begun x H + if μ.begins x then 1 else 0 := by
  simp [begun, List.countP_append, List.countP_singleton]

theorem ended_snoc (x : Nat) (H : List Moment) (μ : Moment) :
    ended x (H ++ [μ]) = ended x H + if μ.ends x then 1 else 0 := by
  simp [ended, List.countP_append, List.countP_singleton]

/-- If a tick starts at `μ`, then the token above is live, the ticker was not
asked to stop before, there was no cause to leave, and no tick is in progress. -/
def StartsFreely (x : Nat) (parent : Option Nat) (past : List Moment) (μ : Moment) : Prop :=
  μ.begins x → μ.found.isCancelledAbove parent = false ∧ (∀ ν ∈ past, ν.asks x = false) ∧
    NoExit x parent past ∧ begun x past = ended x past

/-- If a tick ends at `μ`, then it is the only one in progress. -/
def EndsAlone (x : Nat) (past : List Moment) (μ : Moment) : Prop :=
  μ.ends x → begun x past = ended x past + 1

/-- What the moments `H` of ticker `t` at place `x` say about its ticks. -/
structure Ticking (x : Nat) (parent : Option Nat) (H : List Moment) (t : Ticker) : Prop where
  balance : begun x H = ended x H + if t.isTicking then 1 else 0
  starts : Throughout (StartsFreely x parent) H
  ends : Throughout (EndsAlone x) H

namespace Ticking

variable {x : Nat} {parent : Option Nat} {H : List Moment} {s s' : System} {a : Action}
  {t t' : Ticker} {μ : Moment}

theorem start (x : Nat) (parent : Option Nat) (token : Nat) (config : TickerConfig)
    (endsOnFailure : Bool) : Ticking x parent [] (.start token config endsOnFailure) :=
  ⟨rfl, throughout_nil _, throughout_nil _⟩

/-- A moment at which no tick starts or ends. -/
theorem quiet (hT : Ticking x parent H t) (hbegins : μ.begins x = false)
    (hends : μ.ends x = false) (htick : t'.isTicking = t.isTicking) :
    Ticking x parent (H ++ [μ]) t' where
  balance := by
    rw [begun_snoc, ended_snoc, hbegins, hends, htick]
    exact hT.balance
  starts := throughout_snoc hT.starts fun h => absurd (hbegins.symm.trans h) (by decide)
  ends := throughout_snoc hT.ends fun h => absurd (hends.symm.trans h) (by decide)

/-- The driver takes a step. -/
theorem driven (hT : Ticking x parent H t) (hE : Exiting x parent H t)
    (htoken : t.left? = none → s.tokens.isCancelled t.token = s.isCancelledAbove parent)
    (h : s.step (.drive x) = some s') (ht' : s'.ticker? x = some t')
    (hdrive : t.drive s.now s.elapsed (s.tokens.isCancelled t.token) = some t') :
    Ticking x parent (H ++ [⟨s, .drive x⟩]) t' := by
  have hbegins := Moment.begins_drive h ht'
  have hends : Moment.ends x ⟨s, .drive x⟩ = false := rfl
  cases Ticker.drive_cases hdrive with
  | ticked hp hc hstop hdue =>
    have hloop := Ticker.left?_of_waiting hp
    have hidle : t.isTicking = false := by simp [Ticker.isTicking, hp]
    have hbalance := hT.balance
    rw [hidle] at hbalance
    refine ⟨?_, throughout_snoc hT.starts fun _ => ?_, throughout_snoc hT.ends fun h => ?_⟩
    · rw [begun_snoc, ended_snoc, hbegins, hends, hbalance]
    · have hnotasked : ∀ ν ∈ H, ν.asks x = false := by
        intro ν hν
        by_contra hask
        have hreq := (hE.asked hloop).mpr ⟨ν, hν, by simpa using hask⟩
        exact absurd (hstop.symm.trans hreq) (by decide)
      exact ⟨(htoken hloop).symm.trans hc, hnotasked, hE.loop hloop, hbalance⟩
    · exact absurd (hends.symm.trans h) (by decide)
  | begun hp | sawCancelled hp | sawStopped hp | recorded hp | halted hp | released hp
  | finished hp => exact hT.quiet hbegins hends (by simp [Ticker.isTicking, hp])

/-- The tick in progress ends. -/
theorem tickEnded {outcome : Outcome} (hT : Ticking x parent H t)
    (h : t.tickEnded outcome = some t') :
    Ticking x parent (H ++ [⟨s, .tickEnded x outcome⟩]) t' := by
  have hbegins : Moment.begins x ⟨s, .tickEnded x outcome⟩ = false := rfl
  have hends : Moment.ends x ⟨s, .tickEnded x outcome⟩ = true := by simp [Moment.ends]
  obtain ⟨next, hp, hnext⟩ := Ticker.tickEnded_cases h
  have hbusy : t.isTicking = true := by simp [Ticker.isTicking, hp]
  have hbalance := hT.balance
  rw [hbusy, if_pos rfl] at hbalance
  have hidle : t'.isTicking = false := by
    rcases hnext with ⟨e, -, rfl⟩ | ⟨-, rfl⟩ <;> rfl
  refine ⟨?_, throughout_snoc hT.starts fun h => ?_, throughout_snoc hT.ends fun _ => hbalance⟩
  · rw [begun_snoc, ended_snoc, hbegins, hends, hidle, hbalance]
    rfl
  · exact absurd (hbegins.symm.trans h) (by decide)

/-- **In every step, ticks start freely and end alone.** -/
theorem step (hT : Ticking x parent H t) (hE : Exiting x parent H t)
    (htoken : t.left? = none → s.tokens.isCancelled t.token = s.isCancelledAbove parent)
    (h : s.step a = some s') (ht' : s'.ticker? x = some t')
    (hchange : Member.Change s x a (.ticker t) (.ticker t')) :
    Ticking x parent (H ++ [⟨s, a⟩]) t' := by
  generalize hm : Member.ticker t' = member' at hchange
  cases hchange with
  | kept htouch | asked htouch =>
    cases hm
    exact hT.quiet (Moment.begins_of_touches htouch) (Moment.ends_of_touches htouch) rfl
  | driven hdrive =>
    cases hm
    exact hT.driven hE htoken h ht' hdrive
  | tickEnded hended =>
    cases hm
    exact hT.tickEnded hended

end Ticking

/-! ### Whole runs -/

/-- The course of a ticker after its moments `H`. -/
structure Course (x : Nat) (parent : Option Nat) (H : List Moment) (s : System) (t : Ticker) :
    Prop where
  own : OwnToken x parent s t
  exiting : Exiting x parent H t
  ticking : Ticking x parent H t

namespace Course

variable {x : Nat} {parent : Option Nat} {H : List Moment} {s s' : System} {a : Action}
  {t : Ticker}

/-- One step of the system: the ticker, of the same kind, goes on its course. -/
theorem step (hC : Course x parent H s t) (h : s.step a = some s') :
    ∃ t', Course x parent (H ++ [⟨s, a⟩]) s' t' ∧ t'.endsOnFailure = t.endsOnFailure ∧
      Member.Change s x a (.ticker t) (.ticker t') := by
  obtain ⟨member', hx', hchange⟩ := System.step_member h (System.members_of_ticker? hC.own.here)
  obtain ⟨t', rfl⟩ : ∃ t', member' = .ticker t' := by
    cases hchange with
    | kept | driven | tickEnded => exact ⟨_, rfl⟩
    | asked => exact ⟨_, rfl⟩
  obtain ⟨_, heq, htoken, hkind⟩ := hchange.was_ticker
  cases heq
  have ht' := System.ticker?_eq_some.mpr hx'
  refine ⟨t', ⟨?_, ?_, ?_⟩, hkind, hchange⟩
  · exact hC.own.step h ht' htoken hchange.left?_eq_none
  · exact hC.exiting.step hC.own.here hC.own.isCancelled hchange
  · exact hC.ticking.step hC.exiting hC.own.isCancelled h ht' hchange

theorem run {as : List Action} (hC : Course x parent H s t) (h : s.run as = some s') :
    ∃ t', Course x parent (H ++ s.moments as) s' t' ∧ t'.endsOnFailure = t.endsOnFailure :=
  System.run_induction
    (fun H s => ∃ t', Course x parent H s t' ∧ t'.endsOnFailure = t.endsOnFailure)
    (fun ⟨_, hC, hkind⟩ h =>
      have ⟨t', hC', hkind', _⟩ := hC.step h
      ⟨t', hC', hkind'.trans hkind⟩)
    ⟨t, hC, rfl⟩ h

/-- The recorded error of a ticker is final. -/
theorem final {as : List Action} (hC : Course x parent H s t) (hrec : t.hasRecorded)
    (h : s.run as = some s') :
    ∃ t', s'.ticker? x = some t' ∧ t'.endsOnFailure = t.endsOnFailure ∧ t'.error = t.error ∧
      (t.isDone → t'.isDone) := by
  have := System.run_induction
    (fun H s => ∃ t', Course x parent H s t' ∧ t'.endsOnFailure = t.endsOnFailure ∧
      t'.hasRecorded ∧ t'.error = t.error ∧ (t.isDone → t'.isDone))
    (fun ⟨t₁, hC₁, hkind₁, hrec₁, herror₁, hdone₁⟩ h =>
      have ⟨t₂, hC₂, hkind₂, hchange⟩ := hC₁.step h
      have ⟨hrec₂, herror₂, hdone₂⟩ := hchange.keeps_error hrec₁
      ⟨t₂, hC₂, hkind₂.trans hkind₁, hrec₂, herror₂.trans herror₁, hdone₂ ∘ hdone₁⟩)
    ⟨t, hC, rfl, hrec, rfl, id⟩ h
  obtain ⟨t', hC', hkind, -, herror, hdone⟩ := this
  exact ⟨t', hC'.own.here, hkind, herror, hdone⟩

theorem hasRecorded_of_isDone (hC : Course x parent H s t) (hd : t.isDone) : t.hasRecorded := by
  simp [Ticker.hasRecorded, hC.exiting.done.mp hd]

theorem hasRecorded_of_error (hC : Course x parent H s t) (he : t.error ≠ none) :
    t.hasRecorded := by
  by_contra hrec
  exact he (hC.exiting.unset (by simpa using hrec))

/-- The driver has left its loop iff there was a cause. -/
theorem left?_iff (hC : Course x parent H s t) (e : Option RunError) :
    t.left? = some e ↔ FirstExit x parent H e := by
  refine ⟨hC.exiting.left e, fun h => ?_⟩
  cases hleft : t.left? with
  | none => exact absurd h (hC.exiting.loop hleft).not_firstExit
  | some e' => rw [(hC.exiting.left e' hleft).unique h]

/-- A waiting driver can take a step if it would find a cause to leave. -/
theorem wakes (hC : Course x parent H s t) {due : Nat} (hp : t.phase = .waiting due)
    (hcause : s.isCancelledAbove parent ∨ ∃ ν ∈ H, ν.asks x) : (s.drive x).isSome := by
  have hloop := Ticker.left?_of_waiting hp
  refine System.isSome_drive hC.own.here (Ticker.isSome_drive_of_waiting hp ?_)
  rw [hC.own.isCancelled hloop, hC.exiting.asked hloop]
  exact hcause

/-- A driver that has left its loop can take a step until the ticker is done. -/
theorem closes (hC : Course x parent H s t) (hleft : t.left?.isSome) (hdone : ¬ t.isDone) :
    (s.drive x).isSome := by
  have hp : t.phase ≠ .finished := fun hp => hdone (hC.exiting.done.mpr hp)
  exact System.isSome_drive hC.own.here (Ticker.isSome_drive_of_left hleft hp)

end Course

/-- The law of a ticker at place `x` under the token `parent`, after its moments
`H`, in the system `s`. -/
structure ExitLaw (x : Nat) (parent : Option Nat) (H : List Moment) (s : System) : Prop where
  /-- The driver has left its loop iff there was a cause, and it left at the
  first, with the error of that. -/
  exits : ∀ e, (s.ticker? x).bind Ticker.left? = some e ↔ FirstExit x parent H e
  /-- An error that the ticker shows is that of the first cause. -/
  shown : s.error x ≠ none → FirstExit x parent H (s.error x)
  /-- So is the error, or that there is none, once the ticker is done. -/
  done : s.isDone x → FirstExit x parent H (s.error x)
  /-- What the ticker shows once it shows an error or is done, it shows for good. -/
  final : ∀ bs s', s.run bs = some s' → s.error x ≠ none ∨ s.isDone x →
    s'.error x = s.error x ∧ (s.isDone x → s'.isDone x)
  starts : Throughout (StartsFreely x parent) H
  ends : Throughout (EndsAlone x) H
  /-- A cause between two ticks wakes the driver. -/
  wakes : Moment.looks x ⟨s, .drive x⟩ → s.isCancelledAbove parent ∨ (∃ ν ∈ H, ν.asks x) →
    (s.step (.drive x)).isSome
  /-- Once the driver has left, only its own steps are missing until the ticker
  is done. -/
  closes : ∀ e, FirstExit x parent H e → ¬ s.isDone x → (s.step (.drive x)).isSome

/-- **A ticker leaves at the first cause.** Let a system run in any order of
actions, and start a ticker under a token on the way. Whatever its ticks return,
and whoever cancels the token or asks the ticker to stop, during a tick or
between two, the ticker keeps to its law. -/
theorem exits_at_first_cause {before as : List Action} {parent : Option Nat}
    {config : TickerConfig} {s₀ s₁ s : System} (h₀ : System.empty.run before = some s₀)
    (above : ∀ p ∈ parent, s₀.tokens.Made p)
    (h₁ : s₀.step (.newTicker parent config false) = some s₁) (h : s₁.run as = some s) :
    ExitLaw s₀.members.size parent (s₁.moments as) s := by
  have hown := OwnToken.start (System.tidy_run System.tidy_empty h₀) above h₁
  obtain ⟨t, hC, hkind⟩ := Course.run ⟨hown, .start _ _ _ _ _, .start _ _ _ _ _⟩ h
  rw [List.nil_append] at hC
  have hkind : t.endsOnFailure = false := hkind
  have hx := System.members_of_ticker? hC.own.here
  have hshown : s.error s₀.members.size = t.error := by
    simp [System.error_of_getElem? hx, Member.error, Ticker.shownError, hkind]
  have hdone : s.isDone s₀.members.size = t.isDone := System.isDone_of_getElem? hx
  have hleft : ∀ e, (s.ticker? s₀.members.size).bind Ticker.left? = some e ↔
      FirstExit s₀.members.size parent (s₁.moments as) e := by
    intro e
    rw [hC.own.here]
    exact hC.left?_iff e
  have hrecorded : t.error ≠ none ∨ t.isDone → t.hasRecorded := fun hor =>
    hor.elim hC.hasRecorded_of_error hC.hasRecorded_of_isDone
  have hfirst : t.error ≠ none ∨ t.isDone →
      FirstExit s₀.members.size parent (s₁.moments as) t.error := fun hor =>
    hC.exiting.left _ (Ticker.left?_of_hasRecorded (hrecorded hor))
  refine ⟨hleft, ?_, ?_, ?_, hC.ticking.starts, hC.ticking.ends, ?_, ?_⟩
  · rw [hshown]
    exact fun he => hfirst (.inl he)
  · rw [hdone, hshown]
    exact fun hd => hfirst (.inr hd)
  · intro bs s' h' hor
    rw [hshown, hdone] at hor
    obtain ⟨t', ht', hkind', herror, hdone'⟩ := hC.final (hrecorded hor) h'
    have hx' := System.members_of_ticker? ht'
    have hshown' : s'.error s₀.members.size = t'.error := by
      simp [System.error_of_getElem? hx', Member.error, Ticker.shownError, hkind'.trans hkind]
    rw [hshown', hshown, hdone, System.isDone_of_getElem? hx']
    exact ⟨herror, hdone'⟩
  · rintro ⟨-, t₁, due, ht₁, hp⟩ hcause
    obtain rfl : t = t₁ := Option.some.inj (hC.own.here.symm.trans ht₁)
    exact hC.wakes hp hcause
  · intro e he hnot
    rw [hdone] at hnot
    have := (hC.left?_iff e).mpr he
    exact hC.closes (by simp [this]) hnot

/-- A ticker is asked to stop before its first tick is over, then the token above
it is cancelled, then the tick fails; so the ticker looks, and leaves. -/
def stoppedThenCancelled : List Action :=
  [.drive 0, .pass 10, .catchUp, .drive 0, .stop 0, .cancel 0, .tickEnded 0 (.returned (.ok .failure)),
    .drive 0, .drive 0, .drive 0, .drive 0, .drive 0]

theorem exits_at_first_cause_stoppedThenCancelled : ∃ s₀ s₁ s,
    System.empty.run [.newToken none] = some s₀ ∧ (∀ p ∈ some 0, s₀.tokens.Made p) ∧
    s₀.step (.newTicker (some 0) {} false) = some s₁ ∧ s₁.run stoppedThenCancelled = some s ∧
    s.isDone 0 ∧ FirstExit 0 (some 0) (s₁.moments stoppedThenCancelled) (some .cancelled) := by
  have made : ∀ p ∈ some 0, Tokens.Made ⟨#[⟨[], false⟩]⟩ p := by simp [Tokens.Made]
  refine ⟨_, _, _, rfl, made, rfl, rfl, rfl, ?_⟩
  exact (@exits_at_first_cause [.newToken none] stoppedThenCancelled (some 0) {} _ _ _ rfl made
    rfl rfl).done rfl

end TickTree
