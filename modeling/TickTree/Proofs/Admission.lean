/-
# Adding a member to a manager

Whoever adds a member to a manager looks whether the manager was asked to stop,
and if not, offers the member and posts the offer; if the manager was asked to
stop, or the mailbox is closed, it reads the errors of the manager and is refused
with them (`Admission`). Anything may happen in between. A manager that was asked
to stop goes on taking what was offered before until its supervisor closes the
mailbox, and a watcher records an error before it asks its manager to stop.

What a manager has recorded, and whether its stop has begun, is read off the
history (`errorsAfter`, `StopBegun`), and the manager agrees with that at every
time (`Register`). A mailbox that nobody has let go of closes only after the stop
has begun (`ClosedLate`), so a refusal means that it has.

Key definitions: `Moment.recorded`, `Moment.beginsStop`, `Register`, `ClosedLate`,
`Admission`, `Added`.
Key theorems: `Register.step`, `ClosedLate.step`, `admission_at_once`,
`admission_law`.
-/
import TickTree.Proofs.Hierarchy

namespace TickTree

/-! ### What watchers record -/

/-- The member of watcher `k` of manager `m`, and what the next step of the watcher
does. -/
def System.watcherDoes (s : System) (m k : Nat) : Option (Nat × Watcher.Effect) := do
  let manager ← s.manager? m
  let w ← manager.watchers[k]?
  let (_, effect) ← w.next (s.isDone w.member) (s.error w.member) manager.stopRequested
  return (w.member, effect)

theorem System.watcherDoes_eq {s : System} {m k : Nat} {M : Manager} {w w' : Watcher}
    {effect : Watcher.Effect} (hM : s.manager? m = some M) (hw : M.watchers[k]? = some w)
    (hnext : w.next (s.isDone w.member) (s.error w.member) M.stopRequested = some (w', effect)) :
    s.watcherDoes m k = some (w.member, effect) := by
  simp [watcherDoes, hM, hw, hnext]

theorem System.manager?_of_watcherDoes {s : System} {m k : Nat} {does : Nat × Watcher.Effect}
    (h : s.watcherDoes m k = some does) : ∃ M, s.manager? m = some M := by
  simp only [watcherDoes, Option.bind_eq_bind, Option.bind_eq_some_iff] at h
  obtain ⟨M, hM, -⟩ := h
  exact ⟨M, hM⟩

namespace Moment

/-- What a watcher of manager `m` does, and to which member. -/
def done (m : Nat) (μ : Moment) : Option (Nat × Watcher.Effect) :=
  match μ.action with
  | .watch m' k => if m' = m then μ.found.watcherDoes m k else none
  | _ => none

/-- The error that a watcher of manager `m` records, and the member that shows it. -/
def recorded (m : Nat) (μ : Moment) : Option (Nat × RunError) :=
  match μ.done m with
  | some (x, .record e) => some (x, e)
  | _ => none

/-- Does a watcher of manager `m` that has recorded an error ask the manager to
stop? -/
def raises (m : Nat) (μ : Moment) : Bool :=
  match μ.done m with
  | some (_, .stopManager) => true
  | _ => false

/-- Is there a manager `m`, and is it asked to stop, by others or by one of its
watchers? -/
def beginsStop (m : Nat) (μ : Moment) : Bool :=
  (μ.found.manager? m).isSome && (μ.asks m || μ.raises m)

/-- Does whoever offers a member to manager `m` hold a handle of it? -/
def byHolder (m : Nat) (μ : Moment) : Bool :=
  match μ.action with
  | .offer m' _ => m' != m || (μ.found.manager? m).any (·.held)
  | _ => true

theorem done_of_touches {m : Nat} {μ : Moment} (h : μ.touches m = false) : μ.done m = none := by
  obtain ⟨s, a⟩ := μ
  cases a with
  | watch m' k => simpa [done, touches] using fun heq => absurd heq (by simpa [touches] using h)
  | _ => rfl

theorem done_of_no_manager {m : Nat} {μ : Moment} (h : μ.found.manager? m = none) :
    μ.done m = none := by
  obtain ⟨s, a⟩ := μ
  cases a with
  | watch m' k =>
    cases hdoes : s.watcherDoes m k with
    | none => simp [done, hdoes]
    | some does =>
      obtain ⟨M, hM⟩ := System.manager?_of_watcherDoes hdoes
      exact absurd (h.symm.trans hM) (by simp)
  | _ => rfl

theorem recorded_of_done {m : Nat} {μ : Moment} (h : μ.done m = none) : μ.recorded m = none := by
  simp [recorded, h]

theorem raises_of_done {m : Nat} {μ : Moment} (h : μ.done m = none) : μ.raises m = false := by
  simp [raises, h]

end Moment

/-- The errors that the watchers of manager `m` record, in order, each with the
member that shows it. -/
def recordedBy (m : Nat) (H : List Moment) : List (Nat × RunError) :=
  H.filterMap (Moment.recorded m)

@[simp] theorem recordedBy_snoc (m : Nat) (H : List Moment) (μ : Moment) :
    recordedBy m (H ++ [μ]) = recordedBy m H ++ (μ.recorded m).toList := by
  cases h : μ.recorded m <;> simp [recordedBy, h]

/-! ### The register -/

/-- What the history `H` says about the errors and the stop of the manager `M` at
place `m`, and about whom it has to do with. -/
structure Register (m : Nat) (H : List Moment) (M : Manager) : Prop where
  /-- The errors are those recorded, in order. -/
  errors : M.errors = (recordedBy m H).map Prod.snd
  begun : M.stopRequested ↔ ∃ ν ∈ H, ν.beginsStop m
  taken : takenBy m H = M.watchers.map Watcher.member ++ M.mailbox
  /-- Errors are recorded of members taken. -/
  source : ∀ y e, (y, e) ∈ recordedBy m H → y ∈ takenBy m H
  /-- Members taken are asked to stop. -/
  stopped : ∀ k, ∀ y ∈ stoppedBy m k H, y ∈ takenBy m H
  raising : ∀ w ∈ M.watchers, w.phase = .raising → M.errors ≠ []
  raised : ∀ ν ∈ H, ν.raises m → M.errors ≠ []

namespace Register

variable {m : Nat} {H : List Moment} {s s' : System} {M M' : Manager} {a : Action}

/-- The register of a manager that has just been made. -/
theorem start (h : ∀ ν ∈ H, ν.found.manager? m = none) : Register m H .start := by
  have hrecorded : recordedBy m H = [] := List.filterMap_eq_nil_iff.mpr fun ν hν =>
    Moment.recorded_of_done (Moment.done_of_no_manager (h ν hν))
  have htaken : takenBy m H = [] := List.filterMap_eq_nil_iff.mpr fun ν hν =>
    (Moment.idle_of_no_manager (h ν hν)).1
  have hstopped : ∀ k, stoppedBy m k H = [] := fun k =>
    List.filterMap_eq_nil_iff.mpr fun ν hν => (Moment.idle_of_no_manager (h ν hν)).2 k
  have hraises : ∀ ν ∈ H, ν.raises m = false := fun ν hν =>
    Moment.raises_of_done (Moment.done_of_no_manager (h ν hν))
  exact {
    errors := by rw [hrecorded]; rfl
    begun := ⟨fun hs => (by cases hs), fun ⟨ν, hν, hb⟩ => by simp [Moment.beginsStop, h ν hν] at hb⟩
    taken := htaken
    source := fun y e he => by simp [hrecorded] at he
    stopped := fun k y hy => by simp [hstopped] at hy
    raising := fun w hw => absurd hw List.not_mem_nil
    raised := fun ν hν hr => by simp [hraises ν hν] at hr }

theorem mem_taken (hR : Register m H M) {w : Watcher} (hw : w ∈ M.watchers) :
    w.member ∈ takenBy m H := by
  rw [hR.taken]
  exact List.mem_append_left _ (List.mem_map_of_mem hw)

/-- A moment like this: the errors that it records are those of the manager after it, and
so are those that it begins to stop, takes and asks to stop. -/
theorem later {μ : Moment} (hR : Register m H M)
    (herrors : M'.errors = M.errors ++ (μ.recorded m).toList.map Prod.snd)
    (hsource : ∀ y e, μ.recorded m = some (y, e) → y ∈ takenBy m H)
    (hbegun : M'.stopRequested ↔ M.stopRequested ∨ μ.beginsStop m)
    (htaken : M'.watchers.map Watcher.member ++ M'.mailbox =
      M.watchers.map Watcher.member ++ M.mailbox ++ (μ.taken m).toList)
    (hstopped : ∀ k, ∀ y ∈ μ.stopped m k, y ∈ takenBy m H)
    (hraising : ∀ w ∈ M'.watchers, w.phase = .raising → M'.errors ≠ [])
    (hraises : μ.raises m → M.errors ≠ []) : Register m (H ++ [μ]) M' where
  errors := by rw [herrors, recordedBy_snoc, List.map_append, hR.errors]
  begun := by
    rw [hbegun, hR.begun]
    simp [or_and_right, exists_or]
  taken := by rw [htaken, takenBy_snoc, hR.taken]
  source := fun y e he => by
    rw [recordedBy_snoc] at he
    rw [takenBy_snoc]
    refine List.mem_append_left _ ?_
    rcases List.mem_append.mp he with he | he
    · exact hR.source y e he
    · exact hsource y e (by simpa using he)
  stopped := fun k y hy => by
    rw [stoppedBy_snoc] at hy
    rw [takenBy_snoc]
    refine List.mem_append_left _ ?_
    rcases List.mem_append.mp hy with hy | hy
    · exact hR.stopped k y hy
    · exact hstopped k y (by simpa using hy)
  raising := hraising
  raised := fun ν hν hr => by
    have hsome : M.errors ≠ [] := by
      rcases List.mem_append.mp hν with hν | hν
      · exact hR.raised ν hν hr
      · obtain rfl := List.mem_singleton.mp hν
        exact hraises hr
    rw [herrors]
    exact List.append_ne_nil_of_left_ne_nil hsome _

/-- A moment at which no watcher of the manager takes a step. -/
theorem unwatched {μ : Moment} (hR : Register m H M) (hM : μ.found.manager? m = some M)
    (hdone : μ.done m = none) (hstopped : ∀ k, μ.stopped m k = none)
    (herrors : M'.errors = M.errors) (hbegun : M'.stopRequested ↔ M.stopRequested ∨ μ.asks m)
    (htaken : M'.watchers.map Watcher.member ++ M'.mailbox =
      M.watchers.map Watcher.member ++ M.mailbox ++ (μ.taken m).toList)
    (hwatchers : ∀ w ∈ M'.watchers, w ∈ M.watchers ∨ w.phase = .watching) :
    Register m (H ++ [μ]) M' := by
  have hrecorded := Moment.recorded_of_done hdone
  have hraises := Moment.raises_of_done hdone
  refine hR.later (by simp [hrecorded, herrors]) (fun y e he => ?_) ?_ htaken (fun k y hy => ?_)
    (fun w hw hp => ?_) (fun hr => ?_)
  · simp [hrecorded] at he
  · simpa [Moment.beginsStop, hM, hraises] using hbegun
  · simp [hstopped] at hy
  · rw [herrors]
    rcases hwatchers w hw with hw | hw
    · exact hR.raising w hw hp
    · simp [hw] at hp
  · simp [hraises] at hr

/-- A step of the supervisor. -/
theorem supervised {held : Bool} (hR : Register m H M) (hM : s.manager? m = some M)
    (h : M.supervise held = some M') : Register m (H ++ [⟨s, .supervise m⟩]) M' := by
  have hasks : Moment.asks m ⟨s, .supervise m⟩ = false := rfl
  have htaken : Moment.taken m ⟨s, .supervise m⟩ = none := rfl
  rcases Manager.supervise_cases h with
    ⟨-, -, rfl⟩ | ⟨y, ys, -, hbox, rfl⟩ | ⟨-, hbox, rfl⟩ | ⟨-, -, rfl⟩
  · exact hR.unwatched hM rfl (fun _ => rfl) rfl (by simp [hasks]) (by simp [htaken])
      fun w hw => .inl hw
  · refine hR.unwatched hM rfl (fun _ => rfl) rfl (by simp [hasks, Manager.watch])
      (by simp [htaken, hbox, Manager.watch]) fun w hw => ?_
    rcases List.mem_append.mp hw with hw | hw
    · exact .inl hw
    · obtain rfl := List.mem_singleton.mp hw
      exact .inr rfl
  · exact hR.unwatched hM rfl (fun _ => rfl) rfl (by simp [hasks]) (by simp [htaken])
      fun w hw => .inl hw
  · exact hR.unwatched hM rfl (fun _ => rfl) rfl (by simp [hasks]) (by simp [htaken])
      fun w hw => .inl hw

/-- A step of a watcher. -/
theorem watched {k : Nat} {w w' : Watcher} {effect : Watcher.Effect} (hR : Register m H M)
    (hM : s.manager? m = some M) (hw : M.watchers[k]? = some w)
    (hnext : w.next (s.isDone w.member) (s.error w.member) M.stopRequested = some (w', effect)) :
    Register m (H ++ [⟨s, .watch m k⟩])
      ({ M with watchers := M.watchers.set k w' }.affected (w.member == m) effect) := by
  have hmem := List.mem_of_getElem? hw
  have hdone : Moment.done m ⟨s, .watch m k⟩ = some (w.member, effect) := by
    simp [Moment.done, System.watcherDoes_eq hM hw hnext]
  have hstops := System.watcherStops_eq hM hw hnext
  have herrors : ({ M with watchers := M.watchers.set k w' }.affected (w.member == m)
      effect).errors = M.errors ++ (Moment.recorded m ⟨s, .watch m k⟩).toList.map Prod.snd := by
    cases effect with
    | stopMember =>
      by_cases hm : w.member = m <;> simp [Moment.recorded, hdone, Manager.affected, hm]
    | _ => simp [Moment.recorded, hdone, Manager.affected]
  refine hR.later herrors (fun y e he => ?source) ?begun ?taken (fun j y hy => ?stopped)
    (fun v hv hp => ?raising) fun hr => ?raises
  case source =>
    obtain rfl : w.member = y := by
      cases effect with
      | record e' => simp_all [Moment.recorded]
      | _ => simp [Moment.recorded, hdone] at he
    exact hR.mem_taken hmem
  case begun =>
    cases effect with
    | stopMember =>
      by_cases hm : w.member = m <;>
        simp [Moment.beginsStop, Moment.asks, Moment.raises, hdone, hstops, hM, hm,
          Manager.affected]
    | _ =>
      simp [Moment.beginsStop, Moment.asks, Moment.raises, hdone, hstops, hM, Manager.affected]
  case taken =>
    have hmembers := filterMap_set_of_eq (fun w => some (Watcher.member w)) hw
      (congrArg some (Watcher.next_member hnext))
    simpa [List.filterMap_eq_map', Moment.taken] using hmembers
  case stopped =>
    obtain ⟨ha, hy⟩ := Moment.stopped_cases hy
    obtain ⟨-, rfl⟩ : m = m ∧ k = j := by simpa using ha
    obtain rfl : w.member = y := by
      rw [show s.watcherStops m k = some y from hy] at hstops
      cases effect <;> simp_all
    exact hR.mem_taken hmem
  case raising =>
    -- a watcher is raising because it was before, or because it has just recorded an error
    rw [herrors]
    rw [Manager.affected_watchers] at hv
    rcases List.mem_or_eq_of_mem_set hv with hv | rfl
    · exact List.append_ne_nil_of_left_ne_nil (hR.raising v hv hp) _
    · rcases Watcher.next_cases hnext with h | h | h | ⟨e, h⟩ | h | h <;>
        simp_all [Moment.recorded]
  case raises =>
    obtain rfl : effect = .stopManager := by
      cases effect with
      | stopManager => rfl
      | _ => simp [Moment.raises, hdone] at hr
    have hphase : w.phase = .raising := by
      rcases Watcher.next_cases hnext with h | h | h | ⟨e, h⟩ | h | h <;> simp_all
    exact hR.raising w hmem hphase

/-- **The register is kept in every step.** -/
theorem step {member' : Member} (hR : Register m H M) (hM : s.manager? m = some M)
    (hchange : Member.Change s m a (.manager M) member') :
    ∃ M', member' = .manager M' ∧ Register m (H ++ [⟨s, a⟩]) M' := by
  cases hchange with
  | kept htouch hask =>
    refine ⟨M, rfl, hR.unwatched hM (Moment.done_of_touches htouch)
      (Moment.stopped_of_touches htouch) rfl (by simp [hask]) ?_ fun w hw => .inl hw⟩
    simp [Moment.taken_of_touches htouch]
  | asked htouch hask =>
    refine ⟨_, rfl, hR.unwatched hM (Moment.done_of_touches htouch)
      (Moment.stopped_of_touches htouch) rfl (by simp [hask]) ?_ fun w hw => .inl hw⟩
    simp [Moment.taken_of_touches htouch]
  | took hopen htaken =>
    exact ⟨_, rfl, hR.unwatched hM rfl (fun _ => rfl) rfl (by simp [Manager.post, Moment.asks])
      (by simp [Manager.post, htaken]) fun w hw => .inl hw⟩
  | dropped =>
    exact ⟨_, rfl, hR.unwatched hM rfl (fun _ => rfl) rfl (by simp [Moment.asks])
      (by simp [Moment.taken]) fun w hw => .inl hw⟩
  | supervised hsup => exact ⟨_, rfl, hR.supervised hM hsup⟩
  | watched hw hnext => exact ⟨_, rfl, hR.watched hM hw hnext⟩

end Register

/-! ### When the mailbox closes -/

theorem Manager.supervise_held {held : Bool} {M M' : Manager} (h : M.supervise held = some M') :
    M'.held = M.held ∧ M'.stopRequested = M.stopRequested := by
  rcases supervise_cases h with ⟨-, -, rfl⟩ | ⟨y, ys, -, -, rfl⟩ | ⟨-, -, rfl⟩ | ⟨-, -, rfl⟩ <;>
    exact ⟨rfl, rfl⟩

/-- An open mailbox is closed because of a stop, or because nobody is left to hand in
members. -/
theorem Manager.supervise_closes {held : Bool} {M M' : Manager} (h : M.supervise held = some M')
    (hopen : M.isOpen) (hclosed : M'.isOpen = false) : M.stopRequested ∨ held = false := by
  have hp : M.phase = .supervising := by simpa [isOpen] using hopen
  unfold supervise at h
  simp only [hp] at h
  split at h
  · rename_i hstop
    exact .inl hstop
  · split at h
    · cases h
      simp [isOpen, watch] at hclosed
    · split at h
      · cases h
      · rename_i hheld
        exact .inr (by simpa using hheld)

namespace System

/-- Where an offer of a later system comes from. -/
theorem offers_step {s s' : System} {a : Action} {o : Offer} (h : s.step a = some s')
    (ho : o ∈ s'.offers) : o ∈ s.offers ∨ a = .offer o.manager o.member := by
  cases a with
  | newToken | newContext | openScope | cancelScope | pass | catchUp | newManager | newOutsider |
    stop =>
    cases h
    exact .inl ho
  | cancel token =>
    simp only [step] at h
    split at h <;> cases h
    exact .inl ho
  | runTimer k =>
    obtain ⟨scopes, -, rfl⟩ := Option.map_eq_some_iff.mp h
    exact .inl ho
  | newTicker parent config endsOnFailure =>
    simp only [step] at h
    split at h <;> cases h
    exact .inl ho
  | drive y =>
    obtain ⟨t, t', -, -, rfl⟩ := drive_cases h
    exact .inl ho
  | offer m y =>
    simp only [step, Option.bind_eq_bind, Option.bind_eq_some_iff] at h
    obtain ⟨M, -, h⟩ := h
    split at h <;> cases h
    rcases List.mem_append.mp ho with ho | ho
    · exact .inl ho
    · obtain rfl := List.mem_singleton.mp ho
      exact .inr rfl
  | post k =>
    simp only [step, Option.bind_eq_bind, Option.bind_eq_some_iff, Option.pure_def,
      Option.some.injEq] at h
    obtain ⟨o', -, M, -, rfl⟩ := h
    split at ho <;> exact .inl (List.mem_of_mem_eraseIdx ho)
  | watch m k =>
    obtain ⟨M, w, w', effect, -, -, -, rfl⟩ := watch_cases h
    cases effect with
    | record e =>
      simp only [affect] at ho
      split at ho <;> exact .inl ho
    | _ => exact .inl ho
  | tickEnded | supervise =>
    simp only [step, Option.bind_eq_bind, Option.bind_eq_some_iff, Option.pure_def,
      Option.some.injEq] at h
    obtain ⟨_, _, _, _, rfl⟩ := h
    exact .inl ho
  | drop | settle =>
    simp only [step, Option.bind_eq_bind, Option.bind_eq_some_iff, Option.pure_def,
      Option.some.injEq] at h
    obtain ⟨_, _, rfl⟩ := h
    exact .inl ho

/-- Nobody hands members to a manager that is not held. -/
theorem unheld_of_isHeld {s : System} {m : Nat} {M : Manager} (hM : s.manager? m = some M)
    (h : s.isHeld m = false) : M.held = false ∧ ∀ o ∈ s.offers, o.manager ≠ m := by
  simp only [isHeld, hM, Option.any_some, Bool.or_eq_false_iff, List.any_eq_false] at h
  obtain ⟨⟨hheld, -⟩, hoffers⟩ := h
  refine ⟨hheld, fun o ho heq => ?_⟩
  simpa [heq] using hoffers o ho

end System

/-- The mailbox of manager `M` at place `m` is open, or the manager was asked to stop,
or nobody is left to hand in members. -/
def ClosedLate (m : Nat) (s : System) (M : Manager) : Prop :=
  M.isOpen = false → M.stopRequested ∨ (M.held = false ∧ ∀ o ∈ s.offers, o.manager ≠ m)

namespace ClosedLate

variable {m : Nat} {s s' : System} {M M' : Manager} {a : Action}

/-- **A mailbox that anyone can still reach closes only for a stop.** -/
theorem step (hC : ClosedLate m s M) (hM : s.manager? m = some M) (h : s.step a = some s')
    (holder : Moment.byHolder m ⟨s, a⟩)
    (hchange : Member.Change s m a (.manager M) (.manager M')) : ClosedLate m s' M' := by
  intro hclosed
  -- nobody offers anything if the handles are gone
  have hoffers : M.held = false → (∀ o ∈ s.offers, o.manager ≠ m) →
      ∀ o ∈ s'.offers, o.manager ≠ m := by
    intro hheld hnone o ho heq
    rcases System.offers_step h ho with ho | rfl
    · exact hnone o ho heq
    · simp [Moment.byHolder, heq, hM, hheld] at holder
  generalize hmember : Member.manager M' = member' at hchange
  cases hchange with
  | kept =>
    obtain rfl := Member.manager.inj hmember
    exact (hC hclosed).imp_right fun ⟨hheld, hnone⟩ => ⟨hheld, hoffers hheld hnone⟩
  | asked =>
    obtain rfl := Member.manager.inj hmember
    exact .inl rfl
  | took hopen =>
    obtain rfl := Member.manager.inj hmember
    have hclosed : M.isOpen = false := hclosed
    exact absurd hopen (by simp [hclosed])
  | dropped =>
    obtain rfl := Member.manager.inj hmember
    exact (hC hclosed).imp_right fun ⟨hheld, hnone⟩ => ⟨rfl, hoffers hheld hnone⟩
  | supervised hsup =>
    obtain rfl := Member.manager.inj hmember
    obtain ⟨hheld', hstop'⟩ := Manager.supervise_held hsup
    rw [hheld', hstop']
    by_cases hopen : M.isOpen
    · refine (Manager.supervise_closes hsup hopen hclosed).imp_right fun hheld => ?_
      obtain ⟨hheld, hnone⟩ := System.unheld_of_isHeld hM hheld
      exact ⟨hheld, hoffers hheld hnone⟩
    · exact (hC (by simpa using hopen)).imp_right fun ⟨hheld, hnone⟩ =>
        ⟨hheld, hoffers hheld hnone⟩
  | @watched M k w w' effect hw hnext =>
    obtain rfl := Member.manager.inj hmember
    have hlate := hC (by simpa [Manager.isOpen] using hclosed)
    have hheld : ∀ b,
        ({ M with watchers := M.watchers.set k w' }.affected b effect).held = M.held := by
      intro b
      cases effect <;> cases b <;> rfl
    have hstop : ∀ b, M.stopRequested →
        ({ M with watchers := M.watchers.set k w' }.affected b effect).stopRequested := by
      intro b hs
      cases effect <;> cases b <;> first | exact hs | rfl
    refine hlate.imp (hstop _) fun ⟨hh, hnone⟩ => ⟨?_, hoffers hh hnone⟩
    rw [hheld, hh]

end ClosedLate

/-! ### Runs -/

/-- What is known of manager `m` after the history `H`. -/
structure Registered (m : Nat) (H : List Moment) (s : System) : Prop where
  sound : s.Sound
  register : ∀ M, s.manager? m = some M → Register m H M ∧ ClosedLate m s M
  before : s.manager? m = none → ∀ ν ∈ H, ν.found.manager? m = none

namespace Registered

variable {m : Nat} {H : List Moment} {s s' : System} {a : Action}

theorem step (hR : Registered m H s) (holder : Moment.byHolder m ⟨s, a⟩)
    (h : s.step a = some s') : Registered m (H ++ [⟨s, a⟩]) s' := by
  have hbefore : s.manager? m = none → ∀ ν ∈ H ++ [⟨s, a⟩], ν.found.manager? m = none := by
    intro hM ν hν
    rcases List.mem_append.mp hν with hν | hν
    · exact hR.before hM ν hν
    · obtain rfl := List.mem_singleton.mp hν
      exact hM
  have managed := System.manager_step (m := m)
    (P := fun M' => Register m (H ++ [⟨s, a⟩]) M' ∧ ClosedLate m s' M') h
    (fun hM => ⟨.start (hbefore hM), fun hclosed => absurd hclosed (by decide)⟩)
    (fun M member' hM hchange => by
      obtain ⟨hreg, hclosed⟩ := hR.register M hM
      obtain ⟨M', rfl, hreg'⟩ := hreg.step hM hchange
      exact ⟨M', rfl, hreg', hclosed.step hM h holder hchange⟩)
  exact ⟨System.sound_step hR.sound h, managed.1, fun hM' => hbefore (managed.2 hM')⟩

/-- The manager has to do only with members that it has taken. -/
theorem taken_of_concerned (hR : Registered m H s) {y : Nat}
    (h : (∃ k, y ∈ stoppedBy m k H) ∨ ∃ e, (y, e) ∈ recordedBy m H) : y ∈ takenBy m H := by
  cases hM : s.manager? m with
  | some M =>
    obtain ⟨hreg, -⟩ := hR.register M hM
    exact h.elim (fun ⟨k, hk⟩ => hreg.stopped k y hk) fun ⟨e, he⟩ => hreg.source y e he
  | none =>
    have hreg := Register.start (hR.before hM)
    exact h.elim (fun ⟨k, hk⟩ => hreg.stopped k y hk) fun ⟨e, he⟩ => hreg.source y e he

theorem run {as : List Action} (h : System.empty.run as = some s)
    (holders : ∀ μ ∈ history as, μ.byHolder m) : Registered m (history as) s := by
  have := System.run_induction (fun H s => (∀ μ ∈ H, μ.byHolder m) → Registered m H s)
    (fun {H s a s'} ih h holders =>
      (ih fun μ hμ => holders μ (List.mem_append_left _ hμ)).step
        (holders _ (List.mem_append_right _ List.mem_cons_self)) h)
    (fun _ => {
      sound := System.sound_empty
      register := fun M hM => absurd hM (by simp [System.manager?, System.empty])
      before := fun _ ν hν => absurd hν List.not_mem_nil }) h
  exact this holders

end Registered

namespace System

theorem error_of_manager? {s : System} {m : Nat} {M : Manager} (hM : s.manager? m = some M) :
    s.error m = M.shownError := error_of_getElem? (members_of_manager? hM)

theorem manager?_of_members {s : System} {m : Nat} {M : Manager}
    (h : s.members[m]? = some (.manager M)) : s.manager? m = some M := by
  simp only [manager?, h]

/-- A manager stays one. -/
theorem manager_run {as : List Action} {s s' : System} {m : Nat} {M : Manager}
    (h : s.run as = some s') (hM : s.manager? m = some M) : ∃ M', s'.manager? m = some M' :=
  run_induction (fun _ s => ∃ M', s.manager? m = some M')
    (fun {_ s a s'} ih h => by
      obtain ⟨M', hM'⟩ := ih
      obtain ⟨member'', hx'', hchange⟩ := step_member h (members_of_manager? hM')
      cases hchange <;> exact ⟨_, manager?_of_members hx''⟩)
    (H := []) ⟨M, hM⟩ h

end System

/-- A manager that is done records nothing more. -/
theorem Manager.errors_of_done {as : List Action} {s s' : System} {m : Nat} {M M' : Manager}
    (hs : s.Sound) (h : s.run as = some s') (hM : s.manager? m = some M) (hd : M.isDone)
    (hM' : s'.manager? m = some M') : M'.errors = M.errors := by
  have hrun := System.run_induction
    (fun _ s => s.Sound ∧ ∃ M', s.manager? m = some M' ∧ M'.isDone ∧ M'.errors = M.errors)
    (fun {H s a s'} ih h => by
      obtain ⟨hs, M', hM', hd', herrors⟩ := ih
      refine ⟨System.sound_step hs h, ?_⟩
      obtain ⟨hphase, hfinished⟩ := hs m _ (System.members_of_manager? hM')
      obtain ⟨member'', hx'', hchange⟩ := System.step_member h (System.members_of_manager? hM')
      cases hchange with
      | kept | asked | took | dropped =>
        exact ⟨_, System.manager?_of_members hx'', hd', herrors⟩
      | supervised hsup => simp [supervise, hphase hd'] at hsup
      | watched hw hnext =>
        rw [Watcher.next_of_finished (hfinished (hphase hd') _ (List.mem_of_getElem? hw))] at hnext
        cases hnext)
    (H := []) ⟨hs, M, hM, hd, rfl⟩ h
  obtain ⟨-, M'', hM'', -, herrors⟩ := hrun
  obtain rfl : M' = M'' := Option.some.inj (hM'.symm.trans hM'')
  exact herrors

/-! ### Adding a member -/

/-- Has the stop of manager `m` begun after the actions `as`? -/
def StopBegun (m : Nat) (as : List Action) : Prop := ∃ ν ∈ history as, ν.beginsStop m

/-- The errors recorded by the watchers of manager `m` during the actions `as`. -/
def errorsAfter (m : Nat) (as : List Action) : List RunError :=
  (recordedBy m (history as)).map Prod.snd

/-- The cause that some errors make together. -/
def causeOf (errors : List RunError) : Option RunError :=
  if errors.isEmpty then none else some (.combined errors)

/-- Member `x` is added to manager `m`: this begins in the system `s`, ends in `s'` after
the actions in between, which are those of others too, and is answered with nothing or
with a refusal. -/
inductive Admission (m x : Nat) : System → List Action → System → Option RunError → Prop
  /-- The manager is found asked to stop, and its errors are read some time later. -/
  | turnedAway {s s' : System} {as : List Action} {M : Manager} : s.manager? m = some M →
      M.stopRequested → s.run as = some s' →
      Admission m x s as s' (some (.managerStopped (s'.error m)))
  /-- The member is offered, but the mailbox is closed when the offer is posted; the errors
  are read some time later. -/
  | refused {s s₁ s' : System} {before after : List Action} {k : Nat} {M : Manager} :
      s.run (.offer m x :: before) = some s₁ → s₁.offers[k]? = some ⟨m, x⟩ →
      s₁.manager? m = some M → M.isOpen = false → s₁.run (.post k :: after) = some s' →
      Admission m x s (.offer m x :: before ++ .post k :: after) s'
        (some (.managerStopped (s'.error m)))
  /-- The member is offered, and the mailbox is open when the offer is posted. -/
  | taken {s s₁ s' : System} {before : List Action} {k : Nat} {M : Manager} :
      s.run (.offer m x :: before) = some s₁ → s₁.offers[k]? = some ⟨m, x⟩ →
      s₁.manager? m = some M → M.isOpen → s₁.run [.post k] = some s' →
      Admission m x s (.offer m x :: before ++ [.post k]) s' none

/-- After the actions `past`, member `x` is added to manager `m` while `during` happens. -/
def Added (m x : Nat) (past during : List Action) (answer : Option RunError) : Prop :=
  ∃ s s', System.empty.run past = some s ∧ Admission m x s during s' answer

theorem Admission.run {m x : Nat} {s s' : System} {as : List Action} {answer : Option RunError}
    (h : Admission m x s as s' answer) : s.run as = some s' := by
  cases h with
  | turnedAway _ _ hrun => exact hrun
  | refused hbefore _ _ _ hafter => exact System.run_append hbefore hafter
  | taken hbefore _ _ _ hafter => exact System.run_append hbefore hafter

/-- **Anything can be added to any manager at any time**, and what `refusal` says is the
answer if nothing happens in between. -/
theorem admission_at_once {s : System} {m x : Nat} {M : Manager} (hM : s.manager? m = some M)
    (hx : x < s.members.size) : ∃ as s', Admission m x s as s' (s.refusal m) := by
  have hshown := System.error_of_manager? hM
  by_cases hstop : M.stopRequested
  · have hanswer : s.refusal m = some (.managerStopped (s.error m)) := by
      simp [System.refusal, hM, Manager.admits, hstop, hshown]
    rw [hanswer]
    exact ⟨[], s, .turnedAway hM hstop rfl⟩
  · have hoffer : s.run [.offer m x] = some { s with offers := s.offers ++ [⟨m, x⟩] } := by
      simp [System.run, System.step, hM, hstop, hx]
    have hk : (s.offers ++ [⟨m, x⟩])[s.offers.length]? = some (⟨m, x⟩ : Offer) := by simp
    have herase : (s.offers ++ [(⟨m, x⟩ : Offer)]).eraseIdx s.offers.length = s.offers := by
      simp [List.eraseIdx_append_of_length_le]
    have hM₁ : System.manager? { s with offers := s.offers ++ [⟨m, x⟩] } m = some M := hM
    by_cases hopen : M.isOpen
    · have hpost : System.run { s with offers := s.offers ++ [⟨m, x⟩] } [.post s.offers.length] =
          some (s.setMember m (.manager (M.post x))) := by
        simp [System.run, System.step, hM₁, hopen, herase, System.setMember]
      have hanswer : s.refusal m = none := by
        simp [System.refusal, hM, Manager.admits, hstop, hopen]
      rw [hanswer]
      exact ⟨_, _, .taken hoffer hk hM₁ hopen hpost⟩
    · have hopen : M.isOpen = false := by simpa using hopen
      have hpost : System.run { s with offers := s.offers ++ [⟨m, x⟩] } [.post s.offers.length] =
          some s := by
        simp [System.run, System.step, hM₁, hopen, herase]
      have hanswer : s.refusal m = some (.managerStopped (s.error m)) := by
        simp [System.refusal, hM, Manager.admits, hopen, hshown]
      rw [hanswer]
      exact ⟨_, _, .refused hoffer hk hM₁ hopen hpost⟩

section Law

variable {m : Nat} {as : List Action} {s : System}

theorem Registered.upTo {past rest : List Action} (h : System.empty.run (past ++ rest) = some s)
    (holders : ∀ μ ∈ history (past ++ rest), μ.byHolder m) :
    ∃ s₁, System.empty.run past = some s₁ ∧ Registered m (history past) s₁ := by
  obtain ⟨s₁, h₁, -⟩ := System.run_split h
  refine ⟨s₁, h₁, Registered.run h₁ fun μ hμ => holders μ ?_⟩
  rw [history, System.moments_append h₁]
  exact List.mem_append_left _ hμ

theorem history_grows {past rest : List Action} {s₁ : System}
    (h : System.empty.run past = some s₁) : history past <+: history (past ++ rest) := by
  rw [history, history, System.moments_append h]
  exact List.prefix_append _ _

theorem errorsAfter_grows {past rest : List Action} {s₁ : System}
    (h : System.empty.run past = some s₁) : errorsAfter m past <+: errorsAfter m (past ++ rest) :=
  ((history_grows h).filterMap _).map _

/-- Whether the member is taken is settled at a point of the adding: it is taken if the
stop of the manager has not begun there. -/
theorem Admission.settled {past during : List Action} {s₁ s' : System} {x : Nat}
    {answer : Option RunError} (h₁ : System.empty.run past = some s₁)
    (hadd : Admission m x s₁ during s' answer)
    (holders : ∀ μ ∈ history (past ++ during), μ.byHolder m) :
    ∃ first second, during = first ++ second ∧
      (answer = none ↔ ¬ StopBegun m (past ++ first)) := by
  cases hadd with
  | turnedAway hM hstop hrun =>
    obtain ⟨_, h₁', hR⟩ := Registered.upTo (System.run_append h₁ hrun) holders
    cases h₁.symm.trans h₁'
    refine ⟨[], during, rfl, ?_⟩
    simpa [StopBegun] using (hR.register _ hM).1.begun.mp hstop
  | refused hbefore hk hM hclosed hafter =>
    have h₂ := System.run_append h₁ hbefore
    rw [← List.append_assoc] at holders
    obtain ⟨_, h₂', hR⟩ := Registered.upTo (System.run_append h₂ hafter) holders
    cases h₂.symm.trans h₂'
    obtain ⟨hreg, hlate⟩ := hR.register _ hM
    have hstop := (hlate hclosed).resolve_right fun ⟨_, hnone⟩ =>
      hnone _ (List.mem_of_getElem? hk) rfl
    refine ⟨_, _, rfl, ?_⟩
    simpa [StopBegun] using hreg.begun.mp hstop
  | taken hbefore hk _ hopen hafter =>
    obtain ⟨_, h₁', hR⟩ :=
      Registered.upTo (System.run_append h₁ (System.run_append hbefore hafter)) holders
    cases h₁.symm.trans h₁'
    obtain ⟨_, hoffer, -⟩ := Option.bind_eq_some_iff.mp hbefore
    simp only [System.step, Option.bind_eq_bind, Option.bind_eq_some_iff] at hoffer
    obtain ⟨M, hM, hoffer⟩ := hoffer
    have hstop : ¬ M.stopRequested := fun hstop => by simp [hstop] at hoffer
    refine ⟨[], _, rfl, ?_⟩
    simpa [StopBegun] using fun hb => hstop ((hR.register M hM).1.begun.mpr hb)

/-- A refusal carries the errors so far. -/
theorem Admission.explained {past during : List Action} {s₁ s' : System} {x : Nat} {e : RunError}
    (h₁ : System.empty.run past = some s₁) (hadd : Admission m x s₁ during s' (some e))
    (holders : ∀ μ ∈ history (past ++ during), μ.byHolder m) :
    e = .managerStopped (causeOf (errorsAfter m (past ++ during))) := by
  have hR := Registered.run (System.run_append h₁ hadd.run) holders
  have shown : ∀ {s₂ : System} {M : Manager} {bs : List Action}, s₂.manager? m = some M →
      s₂.run bs = some s' → s'.error m = causeOf (errorsAfter m (past ++ during)) := by
    intro s₂ M bs hM hrun
    obtain ⟨M', hM'⟩ := System.manager_run hrun hM
    rw [System.error_of_manager? hM', errorsAfter, ← (hR.register M' hM').1.errors]
    rfl
  cases hadd with
  | turnedAway hM _ hrun => rw [shown hM hrun]
  | refused _ _ hM _ hafter => rw [shown hM hafter]

/-- A manager that nobody asked to stop begins to only after an error. -/
theorem errorsAfter_ne_nil {past rest : List Action}
    (h : System.empty.run (past ++ rest) = some s)
    (holders : ∀ μ ∈ history (past ++ rest), μ.byHolder m)
    (unasked : ∀ ν ∈ history (past ++ rest), ¬ ν.asks m) (hbegun : StopBegun m past) :
    errorsAfter m (past ++ rest) ≠ [] := by
  obtain ⟨s₁, h₁, hR₁⟩ := Registered.upTo h holders
  obtain ⟨ν, hν, hb⟩ := hbegun
  obtain ⟨hsome, hb⟩ : (ν.found.manager? m).isSome ∧ (ν.asks m ∨ ν.raises m) := by
    simpa [Moment.beginsStop] using hb
  have hraises := hb.resolve_left (unasked ν ((history_grows h₁).subset hν))
  cases hM : s₁.manager? m with
  | none => simp [hR₁.before hM ν hν] at hsome
  | some M =>
    have hreg := (hR₁.register M hM).1
    have hne := hreg.raised ν hν hraises
    rw [hreg.errors] at hne
    exact fun hnil => hne (List.prefix_nil.mp (hnil ▸ errorsAfter_grows h₁))

/-- Every member that a manager takes has been added to it. -/
theorem added_of_taken {x : Nat} (h : System.empty.run as = some s)
    (hx : x ∈ takenBy m (history as)) :
    ∃ past during rest, as = past ++ during ++ rest ∧ Added m x past during none := by
  obtain ⟨⟨s₁, a⟩, hμ, htaken⟩ := List.mem_filterMap.mp hx
  obtain ⟨first, rest, rfl, h₁⟩ := System.run_to_moment hμ
  cases a with
  | post k =>
    obtain ⟨o, ho, rfl⟩ := Option.map_eq_some_iff.mp htaken
    obtain ⟨ho, hm⟩ := Option.filter_eq_some_iff.mp ho
    obtain ⟨hk, hopen⟩ := Option.filter_eq_some_iff.mp ho
    obtain ⟨m', x⟩ := o
    obtain rfl : m' = m := by simpa using hm
    obtain ⟨M, hM, hopen⟩ : ∃ M, s₁.manager? m' = some M ∧ M.isOpen := by
      simpa [Option.any_eq_true] using hopen
    -- the offer posted was made before
    have hmade := System.run_induction
      (fun H s => ∀ o ∈ s.offers, ∃ ν ∈ H, ν.action = .offer o.manager o.member)
      (fun {H s a s'} ih h o ho => by
        rcases System.offers_step h ho with ho | rfl
        · obtain ⟨ν, hν, hν'⟩ := ih o ho
          exact ⟨ν, List.mem_append_left _ hν, hν'⟩
        · exact ⟨_, List.mem_append_right _ List.mem_cons_self, rfl⟩)
      (H := []) (fun o ho => absurd ho List.not_mem_nil) h₁
    obtain ⟨⟨s₀, _⟩, hν, rfl⟩ := hmade _ (List.mem_of_getElem? hk)
    obtain ⟨past, before, rfl, h₀⟩ := System.run_to_moment hν
    obtain ⟨_, h₀', hbefore⟩ := System.run_split h₁
    cases h₀.symm.trans h₀'
    obtain ⟨_, h₁', hrest⟩ := System.run_split h
    cases h₁.symm.trans h₁'
    obtain ⟨s', hpost, -⟩ := Option.bind_eq_some_iff.mp hrest
    refine ⟨past, .offer m' x :: before ++ [.post k], rest, by simp, s₀, s', h₀, ?_⟩
    exact .taken hbefore hk hM hopen (by simpa [System.run] using hpost)
  | _ => cases htaken

/-- **The law of adding.** Let a system run in any order of actions, where whoever
offers a member to manager `m` holds a handle of it.

Each time a member is added, there is a point of the adding at which it is settled: the
member is taken if the stop of the manager has not begun there, and refused if it has. A
refusal says that the manager has stopped, and carries as its cause the errors recorded
so far, in order, or nothing if there are none; if nobody has asked the manager to stop,
there are some. A member that is taken by none of its addings is never watched, and the
manager neither asks it to stop nor records an error of it. What the manager shows at
any two times are the errors recorded by then; the earlier are a prefix of the later, and
the same if the manager was done. -/
theorem admission_law (h : System.empty.run as = some s)
    (holders : ∀ μ ∈ history as, μ.byHolder m) :
    (∀ past during rest x answer, as = past ++ during ++ rest → Added m x past during answer →
      (∃ first second, during = first ++ second ∧
        (answer = none ↔ ¬ StopBegun m (past ++ first))) ∧
      (∀ e, answer = some e →
        e = .managerStopped (causeOf (errorsAfter m (past ++ during)))) ∧
      ((∀ ν ∈ history (past ++ during), ¬ ν.asks m) → answer ≠ none →
        errorsAfter m (past ++ during) ≠ [])) ∧
    (∀ x, (∀ past during rest, as = past ++ during ++ rest → ¬ Added m x past during none) →
      (∀ past rest s₁ M, as = past ++ rest → System.empty.run past = some s₁ →
        s₁.manager? m = some M → ∀ w ∈ M.watchers, w.member ≠ x) ∧
      (∀ k, x ∉ stoppedBy m k (history as)) ∧ ∀ e, (x, e) ∉ recordedBy m (history as)) ∧
    (∀ past between rest s₁ s₂ M₁ M₂, as = past ++ between ++ rest →
      System.empty.run past = some s₁ → s₁.run between = some s₂ →
      s₁.manager? m = some M₁ → s₂.manager? m = some M₂ →
      M₁.shownError = causeOf (errorsAfter m past) ∧
      errorsAfter m past <+: errorsAfter m (past ++ between) ∧
      (M₁.isDone → errorsAfter m (past ++ between) = errorsAfter m past)) := by
  refine ⟨?answers, ?untaken, ?shown⟩
  case answers =>
    rintro past during rest x answer rfl ⟨s₁, s', h₁, hadd⟩
    have h' := System.run_append h₁ hadd.run
    have holders' : ∀ μ ∈ history (past ++ during), μ.byHolder m :=
      fun μ hμ => holders μ ((history_grows h').subset hμ)
    obtain ⟨first, second, rfl, hsettled⟩ := hadd.settled h₁ holders'
    refine ⟨⟨first, second, rfl, hsettled⟩, ?_, fun unasked hrefused => ?_⟩
    · rintro e rfl
      exact hadd.explained h₁ holders'
    · rw [← List.append_assoc] at h' holders' unasked ⊢
      exact errorsAfter_ne_nil h' holders' unasked (not_not.mp (mt hsettled.mpr hrefused))
  case untaken =>
    intro x hnever
    have hnot : x ∉ takenBy m (history as) := fun hx => by
      obtain ⟨past, during, rest, heq, hadded⟩ := added_of_taken h hx
      exact hnever past during rest heq hadded
    have hR := Registered.run h holders
    refine ⟨?_, fun k hk => hnot (hR.taken_of_concerned (.inl ⟨k, hk⟩)),
      fun e he => hnot (hR.taken_of_concerned (.inr ⟨e, he⟩))⟩
    rintro past rest s₁ M rfl h₁ hM w hw rfl
    obtain ⟨_, h₁', hR₁⟩ := Registered.upTo h holders
    cases h₁.symm.trans h₁'
    exact hnot (((history_grows h₁).filterMap _).subset ((hR₁.register M hM).1.mem_taken hw))
  case shown =>
    rintro past between rest s₁ s₂ M₁ M₂ rfl h₁ hbetween hM₁ hM₂
    have h₂ := System.run_append h₁ hbetween
    have holders₂ : ∀ μ ∈ history (past ++ between), μ.byHolder m :=
      fun μ hμ => holders μ ((history_grows h₂).subset hμ)
    obtain ⟨_, h₁', hR₁⟩ := Registered.upTo h₂ holders₂
    cases h₁.symm.trans h₁'
    have herrors₁ := (hR₁.register M₁ hM₁).1.errors
    have herrors₂ := ((Registered.run h₂ holders₂).register M₂ hM₂).1.errors
    refine ⟨?_, errorsAfter_grows h₁, fun hd => ?_⟩
    · rw [errorsAfter, ← herrors₁]
      rfl
    · rw [errorsAfter, errorsAfter, ← herrors₁, ← herrors₂]
      exact Manager.errors_of_done hR₁.sound hbetween hM₁ hd hM₂

end Law

/-- A member is added to a manager, and done with an error, which its watcher records. -/
def erroneous : List Action :=
  [.newManager, .newOutsider, .newOutsider, .offer 0 1, .post 0, .supervise 0,
    .settle 1 (some .cancelled), .watch 0 0, .watch 0 0]

/-- Another member is offered before the watcher asks the manager to stop, and posted
after the mailbox is closed. -/
def lateOffer : List Action := [.offer 0 2, .watch 0 0, .supervise 0, .post 0]

theorem admission_law_lateOffer :
    (∀ μ ∈ history (erroneous ++ lateOffer), μ.byHolder 0) ∧
    Added 0 2 erroneous lateOffer (some (.managerStopped (some (.combined [.cancelled])))) ∧
    (∃ first second, lateOffer = first ++ second ∧ StopBegun 0 (erroneous ++ first)) ∧
    (∀ ν ∈ history (erroneous ++ lateOffer), ¬ ν.asks 0) ∧
    errorsAfter 0 (erroneous ++ lateOffer) ≠ [] := by
  have holders : ∀ μ ∈ history (erroneous ++ lateOffer), μ.byHolder 0 := by decide
  have unasked : ∀ ν ∈ history (erroneous ++ lateOffer), ¬ ν.asks 0 := by decide
  let s₁ := (System.empty.run erroneous).getD .empty
  have refused := @Admission.refused 0 2 s₁ _ _ [.watch 0 0, .supervise 0] [] 0 _ rfl rfl rfl rfl
    rfl
  have added : Added 0 2 erroneous lateOffer
      (some (.managerStopped (some (.combined [.cancelled])))) := ⟨s₁, _, rfl, refused⟩
  have law := @admission_law 0 (erroneous ++ lateOffer) _ rfl holders
  obtain ⟨⟨first, second, hsplit, hsettled⟩, -, hcause⟩ :=
    law.1 erroneous lateOffer [] 2 _ rfl added
  exact ⟨holders, added, ⟨first, second, hsplit, by simpa using hsettled⟩, unasked,
    hcause unasked (by simp)⟩

end TickTree
