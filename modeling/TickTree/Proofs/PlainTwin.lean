/-
# A system and its plain twin

Whether a ticker ends on failures shows in a system through nothing but the error that
the ticker shows, and there only if the stop signal is the error that it has recorded.
The plain twin of a system is the same system with one of its tickers made plain. As
long as that ticker has no stop signal to hide, a step of the twin is the twin of the
step, whatever the action is, so the two systems go on in step.

Key definitions: `System.plain`, `Ticker.Unsignalled`.
Key theorems: `System.step_plain`, `System.run_plain`.
-/
import TickTree.Proofs.TickerExit

namespace TickTree

/-- The ticker, not ending on failures. -/
def Ticker.plain (t : Ticker) : Ticker := { t with endsOnFailure := false }

/-- The member, not ending on failures if it is a ticker. -/
def Member.plain : Member → Member
  | .ticker t => .ticker t.plain
  | member => member

/-- The system with the ticker at place `x` made plain. -/
def System.plain (x : Nat) (s : System) : System :=
  { s with members := s.members.modify x Member.plain }

/-- What the ticker at place `y` becomes where the one at place `x` is made plain. -/
def Ticker.plainAt (x y : Nat) (t : Ticker) : Ticker := if x = y then t.plain else t

/-- The ticker has neither recorded the stop signal nor left with it. -/
structure Ticker.Unsignalled (t : Ticker) : Prop where
  recorded : ∀ e ∈ t.error, e.isExit = false
  leaving : ∀ e, t.phase = .leaving (some e) → e.isExit = false

theorem Ticker.drive_plain (now elapsed : Nat) (cancelled : Bool) (t : Ticker) :
    t.plain.drive now elapsed cancelled = (t.drive now elapsed cancelled).map plain := by
  have hphase : t.plain.phase = t.phase := rfl
  unfold drive
  rw [hphase]
  split
  case h_2 due hp =>
    have hstop : t.plain.stopRequested = t.stopRequested := rfl
    rw [hstop]
    split
    · rfl
    · split
      · rfl
      · split <;> rfl
  all_goals rfl

theorem Ticker.tickEnded_plain (outcome : Outcome) (t : Ticker) :
    t.plain.tickEnded outcome = (t.tickEnded outcome).map plain := by
  have hphase : t.plain.phase = t.phase := rfl
  unfold tickEnded
  rw [hphase]
  split
  · split <;> rfl
  · rfl

theorem Ticker.plainAt_self (x : Nat) : plainAt x x = plain := funext fun _ => if_pos rfl

theorem Ticker.plainAt_ne {x y : Nat} (hne : x ≠ y) : plainAt x y = id :=
  funext fun _ => if_neg hne

theorem Ticker.drive_plainAt (x y now elapsed : Nat) (cancelled : Bool) (t : Ticker) :
    (t.plainAt x y).drive now elapsed cancelled =
      (t.drive now elapsed cancelled).map (plainAt x y) := by
  by_cases hxy : x = y
  · subst hxy
    rw [plainAt_self]
    exact t.drive_plain now elapsed cancelled
  · rw [plainAt_ne hxy, Option.map_id]
    rfl

theorem Ticker.tickEnded_plainAt (x y : Nat) (outcome : Outcome) (t : Ticker) :
    (t.plainAt x y).tickEnded outcome = (t.tickEnded outcome).map (plainAt x y) := by
  by_cases hxy : x = y
  · subst hxy
    rw [plainAt_self]
    exact t.tickEnded_plain outcome
  · rw [plainAt_ne hxy, Option.map_id]
    rfl

/-- A ticker that does not show the stop signal has it nowhere. -/
theorem Ticker.shownError_plain {t : Ticker} (h : t.Unsignalled) :
    t.plain.shownError = t.shownError := by
  show t.error = _
  unfold shownError
  split
  · cases he : t.error with
    | none => rfl
    | some e =>
      simp [Option.filter, h.recorded e he]
  · rfl

namespace Member

@[simp] theorem isDone_plain (member : Member) : member.plain.isDone = member.isDone := by
  cases member <;> rfl

@[simp] theorem stop_plain (member : Member) : member.plain.stop = member.stop.plain := by
  cases member <;> rfl

end Member

namespace System

variable {s s' : System} {x : Nat}

theorem getElem?_plain (s : System) (x y : Nat) :
    (s.plain x).members[y]? = if x = y then s.members[y]?.map Member.plain else s.members[y]? := by
  simp only [plain, Array.getElem?_modify]

theorem size_plain (s : System) (x : Nat) : (s.plain x).members.size = s.members.size := by
  simp only [plain, Array.size_modify]

theorem ticker?_plain (s : System) (x y : Nat) :
    (s.plain x).ticker? y = (s.ticker? y).map (Ticker.plainAt x y) := by
  unfold ticker? Ticker.plainAt
  rw [getElem?_plain]
  by_cases hxy : x = y
  · simp only [if_pos hxy]
    rcases s.members[y]? with _ | (_ | _ | _) <;> rfl
  · simp only [if_neg hxy]
    rcases s.members[y]? with _ | (_ | _ | _) <;> rfl

/-- What tells a member and its plain twin apart in nothing finds the same. -/
theorem bind_plain {α : Type} {f : Member → Option α} (hf : ∀ member, f member.plain = f member)
    (s : System) (x y : Nat) : (s.plain x).members[y]?.bind f = s.members[y]?.bind f := by
  rw [getElem?_plain]
  by_cases hxy : x = y
  · rw [if_pos hxy]
    cases s.members[y]? with
    | none => rfl
    | some member => exact hf member
  · rw [if_neg hxy]

theorem manager?_eq (s : System) (y : Nat) : s.manager? y = s.members[y]?.bind fun
    | .manager m => some m
    | _ => none := by
  unfold manager?
  rcases s.members[y]? with _ | (_ | _ | _) <;> rfl

theorem outsider?_eq (s : System) (y : Nat) : s.outsider? y = s.members[y]?.bind fun
    | .outsider o => some o
    | _ => none := by
  unfold outsider?
  rcases s.members[y]? with _ | (_ | _ | _) <;> rfl

theorem manager?_plain (s : System) (x y : Nat) : (s.plain x).manager? y = s.manager? y := by
  rw [manager?_eq, manager?_eq, bind_plain fun member => by cases member <;> rfl]

theorem outsider?_plain (s : System) (x y : Nat) : (s.plain x).outsider? y = s.outsider? y := by
  rw [outsider?_eq, outsider?_eq, bind_plain fun member => by cases member <;> rfl]

theorem isDone_plain (s : System) (x y : Nat) : (s.plain x).isDone y = s.isDone y := by
  have hbind := bind_plain (f := fun member => some member.isDone) (fun member => by simp) s x y
  unfold isDone
  rw [Option.map_eq_bind, Option.map_eq_bind]
  exact congrArg (·.getD false) hbind

theorem error_plain (h : ∀ t ∈ s.ticker? x, t.Unsignalled) (y : Nat) :
    (s.plain x).error y = s.error y := by
  unfold error
  rw [getElem?_plain]
  split
  · rename_i heq
    subst heq
    rcases hx : s.members[x]? with _ | (t | _ | _)
    · rfl
    · exact Ticker.shownError_plain (h t (ticker?_eq_some.mpr hx))
    · rfl
    · rfl
  · rfl

theorem plain_setMember (s : System) (x y : Nat) (member : Member) :
    (s.setMember y member).plain x =
      (s.plain x).setMember y (if x = y then member.plain else member) := by
  have hmembers : (s.members.setIfInBounds y member).modify x Member.plain =
      (s.members.modify x Member.plain).setIfInBounds y
        (if x = y then member.plain else member) := by
    apply Array.ext_getElem?
    intro z
    simp only [Array.getElem?_modify, Array.getElem?_setIfInBounds, Array.size_modify]
    grind
  exact congrArg (fun members => { s with members }) hmembers

theorem plain_stop (s : System) (x y : Nat) : (s.stop y).plain x = (s.plain x).stop y := by
  have hmembers : (s.members.modify y Member.stop).modify x Member.plain =
      (s.members.modify x Member.plain).modify y Member.stop := by
    apply Array.ext_getElem?
    intro z
    simp only [Array.getElem?_modify]
    cases s.members[z]? <;> grind [Member.stop_plain]
  exact congrArg (fun members => { s with members }) hmembers

theorem plain_addMember (hx : x < s.members.size) (member : Member) :
    (s.addMember member).plain x = (s.plain x).addMember member := by
  have hmembers : (s.members.push member).modify x Member.plain =
      (s.members.modify x Member.plain).push member := by
    apply Array.ext_getElem?
    intro z
    simp only [Array.getElem?_modify, Array.getElem?_push, Array.size_modify]
    grind
  exact congrArg (fun members => { s with members }) hmembers

/-- The member that is added last is made plain. -/
theorem plain_addMember_self (s : System) (member : Member) :
    (s.addMember member).plain s.members.size = s.addMember member.plain := by
  have hmembers : (s.members.push member).modify s.members.size Member.plain =
      s.members.push member.plain := by
    apply Array.ext_getElem?
    intro z
    simp only [Array.getElem?_modify, Array.getElem?_push]
    grind
  exact congrArg (fun members => { s with members }) hmembers

theorem any_members {s : System} {p : Member → Bool} :
    s.members.toList.any p ↔ ∃ (y : Nat) (member : Member), s.members[y]? = some member ∧ p member := by
  rw [List.any_eq_true]
  constructor
  · rintro ⟨member, hmem, hp⟩
    obtain ⟨y, hy⟩ := Array.mem_iff_getElem?.mp (Array.mem_toList_iff.mp hmem)
    exact ⟨y, member, hy, hp⟩
  · rintro ⟨y, member, hy, hp⟩
    exact ⟨member, Array.mem_toList_iff.mpr (Array.mem_of_getElem? hy), hp⟩

theorem any_plain (s : System) (x : Nat) {p : Member → Bool} (hp : ∀ m, p m.plain = p m) :
    (s.plain x).members.toList.any p = s.members.toList.any p := by
  rw [Bool.eq_iff_iff, any_members, any_members]
  refine exists_congr fun y => ?_
  rw [getElem?_plain]
  by_cases hxy : x = y
  · rw [if_pos hxy]
    cases s.members[y]? with
    | none => simp
    | some member => simp [hp]
  · rw [if_neg hxy]

theorem isOwned_plain (s : System) (x token : Nat) : (s.plain x).isOwned token = s.isOwned token :=
  any_plain s x fun member => by cases member <;> rfl

theorem isHeld_plain (s : System) (x y : Nat) : (s.plain x).isHeld y = s.isHeld y := by
  unfold isHeld
  rw [manager?_plain, any_plain s x fun member => by cases member <;> rfl]
  rfl

/-- A manager is no ticker, and stays as it is. -/
theorem plain_setManager (s : System) (x y : Nat) (m : Manager) :
    (s.setMember y (.manager m)).plain x = (s.plain x).setMember y (.manager m) := by
  rw [plain_setMember]
  split <;> rfl

theorem affect_plain (s : System) (x m y : Nat) (effect : Watcher.Effect) :
    (s.affect m y effect).plain x = (s.plain x).affect m y effect := by
  cases effect with
  | nothing => rfl
  | stopMember => exact plain_stop s x y
  | record e =>
    unfold affect
    rw [manager?_plain]
    cases s.manager? m with
    | none => rfl
    | some manager =>
      exact plain_setManager s x m _
  | stopManager => exact plain_stop s x m

theorem plain_setTicker (s : System) (x y : Nat) (t : Ticker) :
    (s.setMember y (.ticker t)).plain x = (s.plain x).setMember y (.ticker (t.plainAt x y)) := by
  rw [plain_setMember, Ticker.plainAt]
  split <;> rfl

theorem drive_plain (s : System) (x y : Nat) : (s.plain x).drive y = (s.drive y).map (plain x) := by
  have hphase : ∀ t : Ticker, (t.plainAt x y).phase = t.phase := fun t => by
    unfold Ticker.plainAt
    split <;> rfl
  have htoken : ∀ t : Ticker, (t.plainAt x y).token = t.token := fun t => by
    unfold Ticker.plainAt
    split <;> rfl
  unfold drive
  rw [ticker?_plain]
  cases s.ticker? y with
  | none => rfl
  | some t =>
    simp only [Option.map_some, Option.bind_eq_bind, Option.bind_some, htoken, hphase]
    show (Ticker.drive s.now s.elapsed (s.tokens.isCancelled t.token) _).bind _ = _
    rw [Ticker.drive_plainAt]
    cases t.drive s.now s.elapsed (s.tokens.isCancelled t.token) with
    | none => rfl
    | some t' =>
      simp only [Option.map_some, Option.bind_some]
      refine congrArg some ?_
      rw [← plain_setTicker]
      split <;> rfl

theorem watch_plain (hsilent : ∀ t ∈ s.ticker? x, t.Unsignalled) (m k : Nat) :
    (s.plain x).watch m k = (s.watch m k).map (plain x) := by
  unfold watch
  rw [manager?_plain]
  cases s.manager? m with
  | none => rfl
  | some M =>
    simp only [Option.bind_eq_bind, Option.bind_some, isDone_plain, error_plain hsilent]
    cases M.watchers[k]? with
    | none => rfl
    | some w =>
      simp only [Option.bind_some]
      cases w.next (s.isDone w.member) (s.error w.member) M.stopRequested with
      | none => rfl
      | some next =>
        refine congrArg some ?_
        rw [affect_plain, plain_setManager]

/-- **The twin goes on in step.** -/
theorem step_plain (hx : x < s.members.size) (hsilent : ∀ t ∈ s.ticker? x, t.Unsignalled)
    (a : Action) : (s.plain x).step a = (s.step a).map (plain x) := by
  cases a with
  | newToken | newContext | openScope | cancelScope | pass | catchUp => rfl
  | newManager | newOutsider => exact congrArg some (plain_addMember hx _).symm
  | cancel token =>
    simp only [step, isOwned_plain]
    split <;> rfl
  | runTimer timer =>
    show ((s.plain x).toScopes.runTimer timer).map _ = ((s.toScopes.runTimer timer).map _).map _
    rw [Option.map_map]
    rfl
  | newTicker parent config endsOnFailure =>
    simp only [step]
    split
    · rfl
    · have hadd := plain_addMember
        (s := s.withScopes { s.toScopes with tokens := (s.tokens.under parent).2 }) hx
        (.ticker (.start (s.tokens.under parent).1 config endsOnFailure))
      exact congrArg some hadd.symm
  | drive y => exact drive_plain s x y
  | tickEnded y outcome =>
    simp only [step, ticker?_plain]
    cases s.ticker? y with
    | none => rfl
    | some t =>
      simp only [Option.map_some, Option.bind_eq_bind, Option.bind_some, Ticker.tickEnded_plainAt]
      cases t.tickEnded outcome with
      | none => rfl
      | some t' => exact congrArg some (plain_setTicker s x y t').symm
  | stop y => exact congrArg some (plain_stop s x y).symm
  | offer m y =>
    simp only [step, manager?_plain, size_plain]
    cases s.manager? m with
    | none => rfl
    | some M =>
      simp only [Option.bind_eq_bind, Option.bind_some]
      split <;> rfl
  | post k =>
    simp only [step]
    show (s.offers[k]?).bind _ = _
    cases s.offers[k]? with
    | none => rfl
    | some offer =>
      simp only [Option.bind_eq_bind, Option.bind_some, manager?_plain]
      cases s.manager? offer.manager with
      | none => rfl
      | some M =>
        refine congrArg some ?_
        split
        · exact (plain_setManager { s with offers := s.offers.eraseIdx k } x _ _).symm
        · rfl
  | drop m =>
    simp only [step, manager?_plain]
    cases s.manager? m with
    | none => rfl
    | some M => exact congrArg some (plain_setManager s x m _).symm
  | supervise m =>
    simp only [step, manager?_plain, isHeld_plain]
    cases s.manager? m with
    | none => rfl
    | some M =>
      simp only [Option.bind_eq_bind, Option.bind_some]
      cases M.supervise (s.isHeld m) with
      | none => rfl
      | some M' => exact congrArg some (plain_setManager s x m M').symm
  | watch m k => exact watch_plain hsilent m k
  | settle y error =>
    simp only [step, outsider?_plain]
    cases s.outsider? y with
    | none => rfl
    | some o =>
      refine congrArg some ?_
      rw [plain_setMember]
      split <;> rfl

end System

/-! ### Runs -/

/-- The moment as the twin goes through it. -/
def Moment.plain (x : Nat) (μ : Moment) : Moment := ⟨μ.found.plain x, μ.action⟩

/-- A tick of ticker `x` ends with the stop signal. -/
def Action.Signals (x : Nat) (a : Action) : Prop :=
  ∃ e, a = .tickEnded x (.returned (.error e)) ∧ e.isForeign .exitOnFailure

/-- No other action brings the stop signal to the ticker. -/
theorem Member.Change.unsignalled {s : System} {x : Nat} {a : Action} {t t' : Ticker}
    (h : Change s x a (.ticker t) (.ticker t')) (ha : ¬ a.Signals x) (ht : t.Unsignalled) :
    t'.Unsignalled := by
  generalize hm : Member.ticker t' = member' at h
  cases h with
  | kept | asked =>
    cases hm
    exact ⟨ht.recorded, ht.leaving⟩
  | driven hdrive =>
    cases hm
    cases Ticker.drive_cases hdrive with
    | begun | sawStopped | ticked | halted | released | finished => exact ⟨ht.recorded, nofun⟩
    | sawCancelled =>
      refine ⟨ht.recorded, fun e he => ?_⟩
      cases he
      rfl
    | recorded hp =>
      refine ⟨fun e he => ht.leaving e ?_, nofun⟩
      exact hp.trans (congrArg Ticker.Phase.leaving he)
  | @tickEnded _ _ outcome hended =>
    cases hm
    obtain ⟨next, hp, ⟨e, he, rfl⟩ | ⟨-, rfl⟩⟩ := Ticker.tickEnded_cases hended
    · refine ⟨ht.recorded, fun e' he' => ?_⟩
      cases he'
      rcases outcome with (error | status) | payload
      · cases he
        exact Bool.eq_false_iff.mpr fun hexit => ha ⟨error, rfl, hexit⟩
      · cases he
      · cases he
        rfl
    · exact ⟨ht.recorded, nofun⟩

namespace System

variable {s s' : System} {x : Nat}

/-- A system whose ticker at place `x` has no stop signal to hide. -/
def Quiet (x : Nat) (s : System) : Prop := ∃ t, s.ticker? x = some t ∧ t.Unsignalled

theorem Quiet.step_plain (h : s.Quiet x) (a : Action) :
    (s.plain x).step a = (s.step a).map (plain x) := by
  obtain ⟨t, ht, hsilent⟩ := h
  have hx := (Array.getElem?_eq_some_iff.mp (members_of_ticker? ht)).1
  refine System.step_plain hx (fun t' ht' => ?_) a
  obtain rfl : t = t' := Option.some.inj (ht.symm.trans ht')
  exact hsilent

theorem Quiet.step {a : Action} (h : s.Quiet x) (ha : ¬ a.Signals x) (hstep : s.step a = some s') :
    s'.Quiet x := by
  obtain ⟨t, ht, hsilent⟩ := h
  obtain ⟨member', hx', hchange⟩ := step_member hstep (members_of_ticker? ht)
  obtain ⟨t', rfl⟩ : ∃ t', member' = .ticker t' := by
    cases hchange with
    | kept | asked | driven | tickEnded => exact ⟨_, rfl⟩
  exact ⟨t', ticker?_eq_some.mpr hx', hchange.unsignalled ha hsilent⟩

theorem Quiet.error_plain (h : s.Quiet x) (y : Nat) : (s.plain x).error y = s.error y := by
  obtain ⟨t, ht, hsilent⟩ := h
  refine System.error_plain (fun t' ht' => ?_) y
  obtain rfl : t = t' := Option.some.inj (ht.symm.trans ht')
  exact hsilent

theorem Quiet.run {as : List Action} (h : s.Quiet x) (has : ∀ a ∈ as, ¬ a.Signals x)
    (hrun : s.run as = some s') : s'.Quiet x := by
  induction as generalizing s with
  | nil =>
    cases hrun
    exact h
  | cons a as ih =>
    obtain ⟨s₁, hstep, hrest⟩ := Option.bind_eq_some_iff.mp hrun
    have h₁ := h.step (has a List.mem_cons_self) hstep
    exact ih h₁ (fun b hb => has b (List.mem_cons_of_mem a hb)) hrest

/-- **The twin runs alike**, through the same moments. -/
theorem run_plain {as : List Action} (h : s.Quiet x) (has : ∀ a ∈ as, ¬ a.Signals x) :
    (s.plain x).run as = (s.run as).map (plain x) ∧
      (s.plain x).moments as = (s.moments as).map (Moment.plain x) := by
  induction as generalizing s with
  | nil => exact ⟨rfl, rfl⟩
  | cons a as ih =>
    have hstep := h.step_plain a
    unfold System.run System.moments
    rw [hstep]
    cases ha : s.step a with
    | none => exact ⟨rfl, rfl⟩
    | some s₁ =>
      have h₁ := h.step (has a List.mem_cons_self) ha
      obtain ⟨hrun, hmoments⟩ := ih h₁ fun b hb => has b (List.mem_cons_of_mem a hb)
      refine ⟨hrun, ?_⟩
      show _ :: (s₁.plain x).moments as = _
      rw [hmoments]
      rfl

/-- The twin starts the same ticks. -/
theorem Quiet.begins_plain {μ : Moment} (h : μ.found.Quiet x) :
    (μ.plain x).begins x = μ.begins x := by
  obtain ⟨s, a⟩ := μ
  have hstep := h.step_plain a
  cases a with
  | drive y =>
    show (y == x && (((s.plain x).step (.drive y)).bind _).any _) = _
    rw [hstep]
    unfold Moment.begins
    cases s.step (.drive y) with
    | none => rfl
    | some s' =>
      simp only [Option.map_some, Option.bind_some, ticker?_plain, Ticker.plainAt_self]
      cases s'.ticker? x <;> rfl
  | _ => rfl

theorem Quiet.moments {as : List Action} (h : s.Quiet x) (has : ∀ a ∈ as, ¬ a.Signals x) :
    ∀ μ ∈ s.moments as, μ.found.Quiet x := by
  induction as generalizing s with
  | nil => exact fun _ hμ => absurd hμ List.not_mem_nil
  | cons a as ih =>
    intro μ hμ
    rcases List.mem_cons.mp hμ with rfl | hμ
    · exact h
    · cases ha : s.step a with
      | none => simp [ha] at hμ
      | some s₁ =>
        rw [ha] at hμ
        have h₁ := h.step (has a List.mem_cons_self) ha
        exact ih h₁ (fun b hb => has b (List.mem_cons_of_mem a hb)) μ hμ

end System

end TickTree
