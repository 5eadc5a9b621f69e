/-
# The timetable of a ticker

The ticks of a ticker and the times for which they were scheduled can be read off the
history of a system (`timetable`). The first is scheduled a period after the driver
begins, and each other by the rule of the configuration, from the time for which the
one before was scheduled and that at which it started (`TickerConfig.SetsUp`). Whatever
the rule and however long ticks take, the times increase, by a period at least; so ticks
never come faster than one in a period. In a burst the times are a period apart. If
ticks are skipped they are multiples of the period after the beginning, and after a late
start the next one is the first that is left.

All this is arithmetic of the rule, over the ticks so far (`TickerConfig.SetsUp.law`).
That a driver keeps to the rule, starts no tick before its time and none before the last
has returned, holds of every run (`OnSchedule.step`).

Key definitions: `TickStart`, `timetable`, `beginning`, `TickerConfig.SetsUp`,
`TimetableLaw`, `ScheduleLaw`.
Key theorems: `TickerConfig.SetsUp.le_due`, `TickerConfig.SetsUp.law`,
`OnSchedule.step`, `keeps_schedule`.
-/
import TickTree.Proofs.ScopeSteps
import TickTree.Proofs.TickerExit

namespace TickTree

/-- The start of a tick: the time for which it was scheduled, and the time. -/
structure TickStart where
  due : Nat
  time : Nat
  deriving DecidableEq, Repr

/-! ### The rule -/

namespace TickerConfig

section
variable {c : TickerConfig} {due time : Nat}

theorem next_burst (h : c.missed = .burst) : c.next due time = due + c.period := by
  simp [next, h]

/-- After a late start, the multiples of the period that have passed are dropped. -/
theorem next_skip (h : c.missed = .skip) (hlate : due + c.tolerance < time) :
    c.next due time = due + ((time - due) / c.period + 1) * c.period := by
  have hdiv := Nat.div_add_mod' (time - due) c.period
  simp only [next, h, if_neg (Nat.not_le.mpr hlate)]
  rw [Nat.add_mul, Nat.one_mul]
  omega

/-- The next tick is scheduled a period later, at least. -/
theorem le_next (c : TickerConfig) (due time : Nat) : due + c.period ≤ c.next due time := by
  by_cases hlate : time ≤ due + c.tolerance
  · exact Nat.le_of_eq (by rw [next, if_pos hlate])
  · cases h : c.missed with
    | burst => exact Nat.le_of_eq (next_burst h).symm
    | delay =>
      simp only [next, h, if_neg hlate]
      omega
    | skip =>
      rw [next_skip h (Nat.not_le.mp hlate), Nat.add_mul, Nat.one_mul]
      omega

/-- After a late start with skipping, the next tick is scheduled within a period. -/
theorem next_of_late (hpos : 0 < c.period) (h : c.missed = .skip)
    (hlate : due + c.tolerance < time) :
    time < c.next due time ∧ c.next due time ≤ time + c.period := by
  have hlt := Nat.mod_lt (time - due) hpos
  simp only [next, h, if_neg (Nat.not_le.mpr hlate)]
  omega

end

/-- A driver that began at `start` and has started these ticks, none before its time, has
scheduled the next one for `due`. -/
inductive SetsUp (c : TickerConfig) (start : Nat) : List TickStart → Nat → Prop
  | first : SetsUp c start [] (start + c.period)
  | next {ticks due time} : SetsUp c start ticks due → due ≤ time →
      SetsUp c start (ticks ++ [⟨due, time⟩]) (c.next due time)

namespace SetsUp

variable {c : TickerConfig} {start due : Nat} {ticks past rest : List TickStart} {a : TickStart}

/-- The times are a period apart, at least. -/
theorem le_due (h : c.SetsUp start ticks due) :
    start + (ticks.length + 1) * c.period ≤ due := by
  induction h with
  | first => simp
  | @next ticks due time _ _ ih =>
    have hnext := c.le_next due time
    rw [List.length_append, List.length_singleton, Nat.add_mul, Nat.one_mul]
    omega

theorem due_eq_of_burst (h : c.SetsUp start ticks due) (hburst : c.missed = .burst) :
    due = start + (ticks.length + 1) * c.period := by
  induction h with
  | first => simp
  | next _ _ ih =>
    rw [next_burst hburst, ih, List.length_append, List.length_singleton, Nat.add_mul (_ + 1),
      Nat.one_mul, Nat.add_assoc]

theorem due_of_skip (h : c.SetsUp start ticks due) (hskip : c.missed = .skip) :
    ∃ k, due = start + k * c.period := by
  induction h with
  | first => exact ⟨1, by rw [Nat.one_mul]⟩
  | @next ticks due time _ _ ih =>
    obtain ⟨k, rfl⟩ := ih
    by_cases hlate : time ≤ start + k * c.period + c.tolerance
    · exact ⟨k + 1, by rw [TickerConfig.next, if_pos hlate, Nat.add_mul, Nat.one_mul, Nat.add_assoc]⟩
    · refine ⟨k + ((time - (start + k * c.period)) / c.period + 1), ?_⟩
      rw [next_skip hskip (Nat.not_le.mp hlate), Nat.add_mul k, Nat.add_assoc]

/-- A tick was scheduled by those before it, and did not start before its time; the one
after it is scheduled by the rule. -/
theorem split (h : c.SetsUp start ticks due) (hsplit : ticks = past ++ a :: rest) :
    c.SetsUp start past a.due ∧ a.due ≤ a.time ∧
      (rest.map (·.due) ++ [due]).head? = some (c.next a.due a.time) := by
  induction h generalizing rest with
  | first => simp at hsplit
  | @next ticks due time hbefore hdue ih =>
    rcases List.eq_nil_or_concat rest with rfl | ⟨rest, b, rfl⟩
    · obtain ⟨rfl, hb⟩ := List.append_inj' hsplit rfl
      cases hb
      exact ⟨hbefore, hdue, rfl⟩
    · rw [List.concat_eq_append, ← List.cons_append, ← List.append_assoc] at hsplit
      obtain ⟨rfl, hb⟩ := List.append_inj' hsplit rfl
      cases hb
      obtain ⟨hpast, htime, hhead⟩ := ih rfl
      refine ⟨hpast, htime, ?_⟩
      cases rest <;> exact hhead

theorem split_of_getElem? (h : c.SetsUp start ticks due) {n : Nat} (hn : ticks[n]? = some a) :
    c.SetsUp start (ticks.take n) a.due ∧ (ticks.take n).length = n ∧ a.due ≤ a.time ∧
      (ticks.map (·.due) ++ [due])[n + 1]? = some (c.next a.due a.time) := by
  obtain ⟨hlt, ha⟩ := List.getElem?_eq_some_iff.mp hn
  have hsplit : ticks = ticks.take n ++ a :: ticks.drop (n + 1) := by
    rw [← ha, ← List.drop_eq_getElem_cons hlt, List.take_append_drop]
  obtain ⟨hpast, htime, hhead⟩ := h.split hsplit
  refine ⟨hpast, List.length_take_of_le (Nat.le_of_lt hlt), htime, ?_⟩
  rw [← hhead, List.head?_eq_getElem?]
  conv_lhs => rw [← List.take_append_drop (n + 1) ticks]
  have hlength : ((ticks.take (n + 1)).map (·.due)).length = n + 1 := by
    rw [List.length_map, List.length_take_of_le hlt]
  rw [List.map_append, List.append_assoc, List.getElem?_append_right (Nat.le_of_eq hlength),
    hlength, Nat.sub_self]

/-- Each time was scheduled by the ticks before it. -/
theorem scheduled (h : c.SetsUp start ticks due) {n d : Nat}
    (hd : (ticks.map (·.due) ++ [due])[n]? = some d) :
    ∃ past, past.length = n ∧ c.SetsUp start past d := by
  by_cases hlt : n < ticks.length
  · obtain ⟨hpast, hlength, -⟩ := h.split_of_getElem? (List.getElem?_eq_getElem hlt)
    rw [List.getElem?_append_left (by simpa using hlt), List.getElem?_map,
      List.getElem?_eq_getElem hlt] at hd
    cases hd
    exact ⟨_, hlength, hpast⟩
  · rw [List.getElem?_append_right (by simpa using hlt)] at hd
    obtain ⟨hlt', rfl⟩ := List.getElem?_eq_some_iff.mp hd
    simp only [List.length_map, List.length_singleton] at hlt'
    exact ⟨ticks, by omega, by simpa using h⟩

/-- No tick starts sooner than if all were on time. -/
theorem le_time (h : c.SetsUp start ticks due) {n : Nat} (ha : ticks[n]? = some a) :
    start + (n + 1) * c.period ≤ a.time := by
  obtain ⟨hpast, hlength, htime, -⟩ := h.split_of_getElem? ha
  have hdue := hpast.le_due
  rw [hlength] at hdue
  exact Nat.le_trans hdue htime

/-- The times increase. -/
theorem increasing (hpos : 0 < c.period) (h : c.SetsUp start ticks due) :
    (ticks.map (·.due) ++ [due]).Pairwise (· < ·) := by
  induction h with
  | first => exact List.pairwise_singleton _ _
  | @next ticks due time _ _ ih =>
    have hlt : due < c.next due time := Nat.lt_of_lt_of_le (by omega) (c.le_next due time)
    rw [List.map_append, List.map_singleton, List.pairwise_append]
    refine ⟨ih, List.pairwise_singleton _ _, fun d hd e he => ?_⟩
    obtain rfl := List.mem_singleton.mp he
    rcases List.mem_append.mp hd with hd | hd
    · exact Nat.lt_trans ((List.pairwise_append.mp ih).2.2 d hd due (List.mem_singleton.mpr rfl)) hlt
    · exact List.mem_singleton.mp hd ▸ hlt

end SetsUp

end TickerConfig

theorem getElem?_extends {α : Type} {l l' : List α} {n : Nat} {a : α} (h : l <+: l')
    (hn : l[n]? = some a) : l'[n]? = some a := by
  obtain ⟨rest, rfl⟩ := h
  rw [List.getElem?_append_left (List.getElem?_eq_some_iff.mp hn).1, hn]

/-- At most `k` of a list have a property that only the first `k` can have. -/
theorem countP_le_of_getElem? {α : Type} {P : α → Bool} {k : Nat} {l : List α}
    (h : ∀ n a, l[n]? = some a → P a → n < k) : l.countP P ≤ k := by
  have hrest : (l.drop k).countP P = 0 := by
    refine List.countP_eq_zero.mpr fun a ha hP => ?_
    obtain ⟨n, hn⟩ := List.getElem?_of_mem ha
    rw [List.getElem?_drop] at hn
    exact absurd (h _ a hn hP) (by omega)
  calc l.countP P = (l.take k).countP P + (l.drop k).countP P := by
        rw [← List.countP_append, List.take_append_drop]
    _ ≤ (l.take k).length := by
        rw [hrest]
        exact List.countP_le_length
    _ ≤ k := List.length_take_le k l

/-- The law of the ticks of a driver that began at `start`; `schedule` is the times for
which ticks were scheduled, that of the next one included. -/
structure TimetableLaw (c : TickerConfig) (start : Nat) (ticks : List TickStart)
    (schedule : List Nat) : Prop where
  /-- Each tick was scheduled, and did not start before its time. -/
  due : ∀ (n : Nat) (a : TickStart), ticks[n]? = some a → schedule[n]? = some a.due ∧ a.due ≤ a.time
  increasing : schedule.Pairwise (· < ·)
  /-- So no tick starts sooner than if all were on time, -/
  bound : ∀ (n : Nat) (a : TickStart), ticks[n]? = some a → start + (n + 1) * c.period ≤ a.time
  /-- and no more start in a time than it has periods. -/
  count : ∀ time, ticks.countP (·.time ≤ start + time) ≤ time / c.period
  burst : c.missed = .burst → ∀ (n d : Nat), schedule[n]? = some d → d = start + (n + 1) * c.period
  skip : c.missed = .skip → ∀ d ∈ schedule, ∃ k, d = start + k * c.period
  /-- After a late start with skipping, the next tick is still to come, within a period. -/
  late : c.missed = .skip → ∀ (n : Nat) (a : TickStart) (d : Nat), ticks[n]? = some a →
    schedule[n + 1]? = some d → a.due + c.tolerance < a.time →
    a.time < d ∧ d ≤ a.time + c.period

/-- **What a driver sets up is a timetable**, also without its last entry. -/
theorem TickerConfig.SetsUp.law {c : TickerConfig} {start due : Nat} {ticks : List TickStart}
    {schedule : List Nat} (h : c.SetsUp start ticks due) (hpos : 0 < c.period)
    (hfrom : ticks.map (·.due) <+: schedule) (hto : schedule <+: ticks.map (·.due) ++ [due]) :
    TimetableLaw c start ticks schedule where
  due := by
    intro n a ha
    refine ⟨getElem?_extends hfrom ?_, (h.split_of_getElem? ha).2.2.1⟩
    rw [List.getElem?_map, ha, Option.map_some]
  increasing := (h.increasing hpos).sublist hto.sublist
  bound := fun _ _ => h.le_time
  count := by
    refine fun time => countP_le_of_getElem? fun n a ha htime => ?_
    have hle := h.le_time ha
    have htime : a.time ≤ start + time := by simpa using htime
    have hperiods : n + 1 ≤ time / c.period := (Nat.le_div_iff_mul_le hpos).mpr (by omega)
    omega
  burst := by
    intro hburst n d hd
    obtain ⟨past, rfl, hpast⟩ := h.scheduled (getElem?_extends hto hd)
    exact hpast.due_eq_of_burst hburst
  skip := by
    intro hskip d hd
    obtain ⟨n, hn⟩ := List.getElem?_of_mem hd
    obtain ⟨past, -, hpast⟩ := h.scheduled (getElem?_extends hto hn)
    exact hpast.due_of_skip hskip
  late := by
    intro hskip n a d ha hd hlate
    have hnext := (h.split_of_getElem? ha).2.2.2
    obtain rfl := Option.some.inj ((getElem?_extends hto hd).symm.trans hnext)
    exact TickerConfig.next_of_late hpos hskip hlate

/-! ### The ticks of a run -/

/-- The time for which the next tick is scheduled. -/
def Ticker.next? (t : Ticker) : Option Nat :=
  match t.phase with
  | .waiting due => some due
  | .ticking next => some next
  | _ => none

namespace Moment

/-- The start of a tick of ticker `x`. -/
def start? (x : Nat) (μ : Moment) : Option TickStart :=
  if μ.begins x then
    (μ.found.ticker? x).bind fun t => t.next?.map fun due => ⟨due, μ.found.now⟩
  else none

/-- The time, if the driver of ticker `x` begins. -/
def beginning? (x : Nat) (μ : Moment) : Option Nat :=
  match μ.action with
  | .drive y =>
    if y == x && (μ.found.ticker? x).any (·.phase matches .starting) then some μ.found.now else none
  | _ => none

theorem start?_of_begins {x : Nat} {μ : Moment} (h : μ.begins x = false) : μ.start? x = none := by
  rw [start?, h, if_neg Bool.false_ne_true]

theorem beginning?_of_touches {x : Nat} {μ : Moment} (h : μ.touches x = false) :
    μ.beginning? x = none := by
  obtain ⟨s, a⟩ := μ
  cases a with
  | drive y =>
    have hne : (y == x) = false := h
    simp [beginning?, hne]
  | _ => rfl

theorem beginning?_drive {x : Nat} {s : System} {t : Ticker} (ht : s.ticker? x = some t) :
    beginning? x ⟨s, .drive x⟩ = if t.phase matches .starting then some s.now else none := by
  simp [beginning?, ht]

end Moment

/-- The ticks of ticker `x`, in order. -/
def timetable (x : Nat) (H : List Moment) : List TickStart := H.filterMap (Moment.start? x)

/-- The time at which the driver of ticker `x` began. -/
def beginning (x : Nat) (H : List Moment) : Option Nat := H.findSome? (Moment.beginning? x)

/-- The times for which ticks of ticker `x` were scheduled, that of the next one included. -/
def schedule (x : Nat) (H : List Moment) (s : System) : List Nat :=
  (timetable x H).map (·.due) ++ ((s.ticker? x).bind Ticker.next?).toList

@[simp] theorem timetable_snoc (x : Nat) (H : List Moment) (μ : Moment) :
    timetable x (H ++ [μ]) = timetable x H ++ (μ.start? x).toList := by
  cases h : μ.start? x <;> simp [timetable, h]

@[simp] theorem beginning_snoc (x : Nat) (H : List Moment) (μ : Moment) :
    beginning x (H ++ [μ]) = (beginning x H).or (μ.beginning? x) := by
  simp [beginning, List.findSome?_append]

/-- Opening a scope takes no time. -/
theorem Scopes.clock_openScope (s : Scopes) (timed : Bool) (c : Nat) :
    (s.openScope timed c).2.now = s.now ∧ (s.openScope timed c).2.elapsed = s.elapsed := by
  cases hc : s.contexts[c]? with
  | none => simp [openScope, hc]
  | some context =>
    have hopens := opens timed hc
    generalize s.openScope timed c = opened at hopens
    cases hopens <;> exact ⟨rfl, rfl⟩

/-- The timers that have gone off were due. -/
theorem System.step_clock {s s' : System} {a : Action} (h : s.step a = some s')
    (hs : s.elapsed ≤ s.now) : s'.elapsed ≤ s'.now := by
  have hchange := step_rescopes h
  generalize s'.toScopes = scopes at hchange ⊢
  cases hchange with
  | kept | cancelled | made | context => exact hs
  | passed => exact Nat.le_trans hs (Nat.le_add_right _ _)
  | caughtUp => exact Nat.le_refl s.now
  | @opened timed c =>
    obtain ⟨hnow, helapsed⟩ := s.toScopes.clock_openScope timed c
    rwa [hnow, helapsed]
  | ran _ hrun =>
    obtain ⟨timer, -, -, ⟨-, rfl⟩ | ⟨-, -, rfl⟩⟩ := Scopes.runTimer_cases hrun <;> exact hs

theorem System.clock_run {as : List Action} {s s' : System} (hs : s.elapsed ≤ s.now)
    (h : s.run as = some s') : s'.elapsed ≤ s'.now :=
  run_induction (fun _ s => s.elapsed ≤ s.now) (fun hs h => step_clock h hs) (H := []) hs h

/-- Ticker `t` at place `x`, with the configuration `c`, has kept to its schedule in its
moments `H`. -/
structure OnSchedule (x : Nat) (c : TickerConfig) (H : List Moment) (s : System) (t : Ticker) :
    Prop where
  config : t.config = c
  clock : s.elapsed ≤ s.now
  listed : (timetable x H).length = begun x H
  unbegun : t.phase = .starting → beginning x H = none ∧ timetable x H = []
  setUp : t.phase ≠ .starting → ∃ start due, beginning x H = some start ∧
    c.SetsUp start (timetable x H) due ∧ ∀ d ∈ t.next?, d = due

namespace OnSchedule

variable {x : Nat} {c : TickerConfig} {H : List Moment} {s s' : System} {a : Action}
  {t t' : Ticker} {μ : Moment}

/-- A moment at which the driver does not begin, and starts no tick. -/
theorem quiet (hS : OnSchedule x c H s t) (hclock : s'.elapsed ≤ s'.now)
    (hbegins : μ.begins x = false) (hbeginning : μ.beginning? x = none)
    (hconfig : t'.config = t.config) (hphase : t'.phase = .starting ↔ t.phase = .starting)
    (hnext : ∀ d ∈ t'.next?, d ∈ t.next?) : OnSchedule x c (H ++ [μ]) s' t' where
  config := hconfig.trans hS.config
  clock := hclock
  listed := by simpa [Moment.start?_of_begins hbegins, begun_snoc, hbegins] using hS.listed
  unbegun := fun hp => by
    simpa [Moment.start?_of_begins hbegins, hbeginning] using hS.unbegun (hphase.mp hp)
  setUp := fun hp => by
    obtain ⟨start, due, hstart, hticks, hdue⟩ := hS.setUp (mt hphase.mpr hp)
    refine ⟨start, due, ?_, ?_, fun d hd => hdue d (hnext d hd)⟩
    · rw [beginning_snoc, hbeginning, hstart, Option.some_or]
    · simpa [Moment.start?_of_begins hbegins] using hticks

/-- The driver takes a step. -/
theorem driven (hS : OnSchedule x c H s t) (ht : s.ticker? x = some t)
    (h : s.step (.drive x) = some s') (ht' : s'.ticker? x = some t')
    (hdrive : t.drive s.now s.elapsed (s.tokens.isCancelled t.token) = some t') :
    OnSchedule x c (H ++ [⟨s, .drive x⟩]) s' t' := by
  have hclock := System.step_clock h hS.clock
  have hbegins := Moment.begins_drive h ht'
  have hbeginning := Moment.beginning?_drive ht
  cases Ticker.drive_cases hdrive with
  | begun hp =>
    obtain ⟨hnone, hempty⟩ := hS.unbegun hp
    have hstart : Moment.start? x ⟨s, .drive x⟩ = none := Moment.start?_of_begins hbegins
    rw [hp] at hbeginning
    have hdue : ∀ d ∈ some (s.now + t.config.period), d = s.now + c.period := by simp [hS.config]
    refine ⟨hS.config, hclock, ?_, by simp, fun _ => ⟨s.now, _, ?_, ?_, hdue⟩⟩
    · simpa [hstart, begun_snoc, hbegins, Ticker.isTicking] using hS.listed
    · rw [beginning_snoc, hnone, hbeginning]
      rfl
    · rw [timetable_snoc, hempty, hstart]
      exact .first
  | @ticked due hp _ _ hdue =>
    obtain ⟨start, due', hstart, hticks, hnext⟩ := hS.setUp (by simp [hp])
    obtain rfl : due = due' := hnext due (by simp [Ticker.next?, hp])
    have htick : Moment.start? x ⟨s, .drive x⟩ = some ⟨due, s.now⟩ := by
      simp [Moment.start?, hbegins, Ticker.isTicking, ht, Ticker.next?, hp]
    have hthen : ∀ d ∈ some (t.config.next due s.now), d = c.next due s.now := by simp [hS.config]
    refine ⟨hS.config, hclock, ?_, by simp, fun _ => ⟨start, _, ?_, ?_, hthen⟩⟩
    · simp [htick, begun_snoc, hbegins, hS.listed, Ticker.isTicking]
    · rw [beginning_snoc, hstart, Option.some_or]
    · rw [timetable_snoc, htick]
      exact .next hticks (Nat.le_trans hdue hS.clock)
  | sawCancelled hp | sawStopped hp | recorded hp | halted hp | released hp | finished hp =>
    rw [hp] at hbeginning
    exact hS.quiet hclock hbegins hbeginning rfl (by simp [hp]) (by simp [Ticker.next?])

/-- **In every step, the driver keeps to the schedule.** -/
theorem step (hS : OnSchedule x c H s t) (ht : s.ticker? x = some t) (h : s.step a = some s')
    (ht' : s'.ticker? x = some t') (hchange : Member.Change s x a (.ticker t) (.ticker t')) :
    OnSchedule x c (H ++ [⟨s, a⟩]) s' t' := by
  have hclock := System.step_clock h hS.clock
  generalize hm : Member.ticker t' = member' at hchange
  cases hchange with
  | kept htouch | asked htouch =>
    cases hm
    exact hS.quiet hclock (Moment.begins_of_touches htouch) (Moment.beginning?_of_touches htouch)
      rfl Iff.rfl fun _ => id
  | driven hdrive =>
    cases hm
    exact hS.driven ht h ht' hdrive
  | tickEnded hended =>
    cases hm
    obtain ⟨next, hp, ⟨e, -, rfl⟩ | ⟨-, rfl⟩⟩ := Ticker.tickEnded_cases hended <;>
      exact hS.quiet hclock rfl rfl rfl (by simp [hp]) (by simp [Ticker.next?, hp])

theorem start (x : Nat) {c : TickerConfig} {s : System} (token : Nat) (endsOnFailure : Bool)
    (hclock : s.elapsed ≤ s.now) : OnSchedule x c [] s (.start token c endsOnFailure) where
  config := rfl
  clock := hclock
  listed := rfl
  unbegun := fun _ => ⟨rfl, rfl⟩
  setUp := fun hp => absurd rfl hp

/-- **So it does in a run.** -/
theorem run {parent : Option Nat} {as : List Action} (hC : Course x parent H s t)
    (hS : OnSchedule x c H s t) (h : s.run as = some s') :
    ∃ t', Course x parent (H ++ s.moments as) s' t' ∧ OnSchedule x c (H ++ s.moments as) s' t' :=
  System.run_induction (fun H s => ∃ t, Course x parent H s t ∧ OnSchedule x c H s t)
    (fun {H s a s'} ih h => by
      obtain ⟨t, hC, hS⟩ := ih
      obtain ⟨t', hC', -, hchange⟩ := hC.step h
      exact ⟨t', hC', hS.step hC.own.here h hC'.own.here hchange⟩)
    ⟨t, hC, hS⟩ h

end OnSchedule

/-- The law of the ticks of ticker `x`, with the configuration `c`, after its moments `H`. -/
structure ScheduleLaw (x : Nat) (c : TickerConfig) (H : List Moment) (s : System) : Prop where
  /-- A tick starts when all before it have ended, -/
  starts : Throughout (fun past μ => μ.begins x → begun x past = ended x past) H
  /-- and ends before another starts. -/
  ends : Throughout (EndsAlone x) H
  /-- The timetable lists the ticks that have started. -/
  listed : (timetable x H).length = begun x H
  /-- Nothing is scheduled before the driver begins. -/
  idle : beginning x H = none → schedule x H s = []
  scheduled : ∀ start ∈ beginning x H, TimetableLaw c start (timetable x H) (schedule x H s)

/-- **A driver keeps to its schedule.** Let a system run in any order of actions, and start
a ticker on the way. However late its driver comes, however long its ticks take, and
whatever they return, its ticks start one after the other, by the law of its timetable. -/
theorem keeps_schedule {before as : List Action} {parent : Option Nat} {config : TickerConfig}
    {endsOnFailure : Bool} {s₀ s₁ s : System} (h₀ : System.empty.run before = some s₀)
    (above : ∀ p ∈ parent, s₀.tokens.Made p)
    (h₁ : s₀.step (.newTicker parent config endsOnFailure) = some s₁) (h : s₁.run as = some s) :
    ScheduleLaw s₀.members.size config (s₁.moments as) s := by
  have hpos : 0 < config.period := by
    by_contra hzero
    simp [System.step, Nat.eq_zero_of_not_pos hzero] at h₁
  have hown := OwnToken.start (System.tidy_run System.tidy_empty h₀) above h₁
  have hclock := System.step_clock h₁ (System.clock_run (Nat.le_refl 0) h₀)
  obtain ⟨t, hC, hS⟩ := OnSchedule.run ⟨hown, .start _ _ _ _ _, .start _ _ _ _ _⟩
    (.start _ _ _ hclock) h
  rw [List.nil_append] at hC hS
  have hschedule : schedule s₀.members.size (s₁.moments as) s =
      (timetable s₀.members.size (s₁.moments as)).map (·.due) ++ t.next?.toList := by
    rw [schedule, hC.own.here, Option.bind_some]
  refine { starts := ?starts, ends := hC.ticking.ends, listed := hS.listed, idle := ?idle,
           scheduled := ?scheduled }
  case starts =>
    intro past μ rest hsplit hbegins
    exact (hC.ticking.starts past μ rest hsplit hbegins).2.2.2
  case idle =>
    intro hidle
    have hp : t.phase = .starting := by
      by_contra hp
      obtain ⟨start, -, hstart, -⟩ := hS.setUp hp
      cases hidle.symm.trans hstart
    rw [hschedule, (hS.unbegun hp).2]
    simp [Ticker.next?, hp]
  case scheduled =>
    intro start hstart
    have hp : t.phase ≠ .starting := fun hp => by cases (hS.unbegun hp).1.symm.trans hstart
    obtain ⟨start', due, hstart', hticks, hnext⟩ := hS.setUp hp
    obtain rfl : start = start' := Option.some.inj (hstart.symm.trans hstart')
    rw [hschedule]
    refine hticks.law hpos (List.prefix_append _ _) ((List.prefix_append_right_inj _).mpr ?_)
    cases hd : t.next? with
    | none => exact List.nil_prefix
    | some d =>
      rw [hnext d hd]
      exact List.prefix_rfl

/-- A driver whose first tick is on time starts the second 12 ms late; the third is
scheduled for the next multiple of the period. -/
def secondTickLate : List Action :=
  [.drive 0, .pass 10, .catchUp, .drive 0, .tickEnded 0 (.returned (.ok .running)), .pass 22, .catchUp,
    .drive 0, .tickEnded 0 (.returned (.ok .running))]

theorem keeps_schedule_secondTickLate : ∃ s₀ s₁ s,
    System.empty.run [.newToken none] = some s₀ ∧ (∀ p ∈ some 0, s₀.tokens.Made p) ∧
    s₀.step (.newTicker (some 0) {} false) = some s₁ ∧ s₁.run secondTickLate = some s ∧
    beginning 0 (s₁.moments secondTickLate) = some 0 ∧
    timetable 0 (s₁.moments secondTickLate) = [⟨10, 10⟩, ⟨20, 32⟩] ∧
    schedule 0 (s₁.moments secondTickLate) s = [10, 20, 40] ∧
    TimetableLaw {} 0 [⟨10, 10⟩, ⟨20, 32⟩] [10, 20, 40] := by
  have made : ∀ p ∈ some 0, Tokens.Made ⟨#[⟨[], false⟩]⟩ p := by simp [Tokens.Made]
  refine ⟨_, _, _, rfl, made, rfl, rfl, rfl, rfl, rfl, ?_⟩
  exact (@keeps_schedule [.newToken none] secondTickLate (some 0) {} false _ _ _ rfl made rfl
    rfl).scheduled 0 rfl

end TickTree
