/-
# The shutdown of a manager

A manager attends to the members that it takes (`Attends`): each waits in the
mailbox or has a watcher, and the manager is done only when the mailbox is empty
and every watcher has ended. A watcher asks its member to stop once, ends only
when the member is done, and reports its error; so the errors of a done manager
are those of the members taken, as often as each was taken (`Ledger.errors`).

A watcher asks a member to stop that is not done only after the manager itself
was asked to stop, from outside or by a watcher that had recorded an error.

Key definitions: `Ledger`.
Key theorems: `Ledger.step`, `shutdown_complete`.
-/
import TickTree.Proofs.Attending
import Mathlib.Data.List.Perm.Basic

namespace TickTree

/-! ### Watchers -/

namespace Watcher

/-- Has the watcher read the error of its member? -/
def hasRead (w : Watcher) : Bool := w.phase matches .raising | .finished

theorem sawEnd_of_hasRead {w : Watcher} (h : w.hasRead) : w.sawEnd := by
  unfold hasRead at h
  unfold sawEnd
  split at h <;> simp_all

end Watcher

/-- The error that a watcher has read. -/
def System.readBy (s : System) (w : Watcher) : Option RunError :=
  if w.hasRead then s.error w.member else none

theorem filterMap_set_of_eq {α β : Type} (f : α → Option β) {b : α} : ∀ {l : List α} {k : Nat} {a : α},
    l[k]? = some a → f b = f a → (l.set k b).filterMap f = l.filterMap f
  | [], k, _, h, _ => by simp at h
  | x :: l, 0, a, h, hf => by
    obtain rfl : x = a := by simpa using h
    simp only [List.set_cons_zero, List.filterMap_cons, hf]
  | x :: l, k + 1, a, h, hf => by
    have := filterMap_set_of_eq f (l := l) (k := k) (by simpa using h) hf
    simp only [List.set_cons_succ, List.filterMap_cons, this]

theorem perm_filterMap_set {α β : Type} (f : α → Option β) {b : α} :
    ∀ {l : List α} {k : Nat} {a : α}, l[k]? = some a → f a = none →
      ((l.set k b).filterMap f).Perm (l.filterMap f ++ (f b).toList)
  | [], k, _, h, _ => by simp at h
  | x :: l, 0, a, h, hf => by
    obtain rfl : x = a := by simpa using h
    simp only [List.set_cons_zero, List.filterMap_cons, hf]
    cases f b with
    | none => simp
    | some y => exact (List.perm_append_singleton y _).symm
  | x :: l, k + 1, a, h, hf => by
    have := perm_filterMap_set f (b := b) (l := l) (k := k) (by simpa using h) hf
    simp only [List.set_cons_succ, List.filterMap_cons]
    cases f x with
    | none => exact this
    | some y => exact this.cons y

/-! ### The ledger -/

/-- What the history `H` of the system `s` says about its manager `M` at place
`m`. -/
structure Ledger (m : Nat) (H : List Moment) (s : System) (M : Manager) : Prop where
  /-- Every member taken has a watcher or lies in the mailbox. -/
  taken : takenBy m H = M.watchers.map Watcher.member ++ M.mailbox
  /-- Nothing is left behind in the mailbox. -/
  mailbox : M.phase = .waiting ∨ M.phase = .finished → M.mailbox = []
  /-- A watcher that no longer watches has asked its member to stop, once. -/
  stopped : ∀ k, stoppedBy m k H =
    ((M.watchers[k]?.filter (·.phase != .watching)).map Watcher.member).toList
  done : ∀ w ∈ M.watchers, w.sawEnd → s.isDone w.member
  /-- The errors are those that the watchers have read. -/
  errors : M.errors.Perm (M.watchers.filterMap s.readBy)
  raised : ∀ w ∈ M.watchers, w.phase = .raising → M.errors ≠ []
  asked : M.stopRequested → (∃ ν ∈ H, ν.asks m) ∨ M.errors ≠ []

namespace Ledger

variable {m : Nat} {H : List Moment} {s s' : System} {M : Manager}

/-- A manager with a ledger attends to its members. -/
theorem attends (hL : Ledger m H s M) : Attends m H s M where
  taken := hL.taken
  mailbox := hL.mailbox
  done := hL.done

theorem start (htaken : takenBy m H = [])
    (hstopped : ∀ k, stoppedBy m k H = []) : Ledger m H s .start where
  __ := Attends.start htaken
  stopped := hstopped
  errors := .nil
  raised := fun w hw => absurd hw List.not_mem_nil
  asked := fun h => absurd h (by decide)

theorem mem_taken (hL : Ledger m H s M) {w : Watcher} (hw : w ∈ M.watchers) :
    w.member ∈ takenBy m H := by
  rw [hL.taken]
  exact List.mem_append_left _ (List.mem_map_of_mem hw)

/-- The ledger holds on in a system in which done members have not changed. -/
theorem later (hL : Ledger m H s M)
    (final : ∀ x ∈ takenBy m H, s.isDone x →
      s'.isDone x ∧ s'.error x = s.error x) : Ledger m H s' M where
  taken := hL.taken
  mailbox := hL.mailbox
  stopped := hL.stopped
  done := fun w hw he => (final _ (hL.mem_taken hw) (hL.done w hw he)).1
  errors := by
    refine hL.errors.trans (.of_eq (List.filterMap_congr fun w hw => ?_))
    unfold System.readBy
    split
    · rename_i hread
      exact (final _ (hL.mem_taken hw) (hL.done w hw (Watcher.sawEnd_of_hasRead hread))).2.symm
    · rfl
  raised := hL.raised
  asked := hL.asked

/-- A moment at which the manager takes nobody and none of its watchers asks
anyone to stop leaves the ledger as it is. -/
theorem idle {μ : Moment} (hL : Ledger m H s M) (htaken : μ.taken m = none)
    (hstopped : ∀ k, μ.stopped m k = none) : Ledger m (H ++ [μ]) s M where
  __ := hL.attends.idle htaken rfl rfl rfl
  stopped := fun k => by simp [hstopped, hL.stopped]
  errors := hL.errors
  raised := hL.raised
  asked := fun h => (hL.asked h).imp_left fun ⟨ν, hν, hask⟩ => ⟨ν, List.mem_append_left _ hν, hask⟩

/-- The manager is asked to stop. -/
theorem stop {μ : Moment} (hL : Ledger m (H ++ [μ]) s M) (hask : μ.asks m) :
    Ledger m (H ++ [μ]) s { M with stopRequested := true } :=
  { hL with asked := fun _ => .inl ⟨μ, by simp, hask⟩ }

/-- The manager takes a member. -/
theorem take {k y : Nat} {a : System} (hL : Ledger m H s M) (hopen : M.isOpen)
    (htaken : Moment.taken m ⟨a, .post k⟩ = some y) :
    Ledger m (H ++ [⟨a, .post k⟩]) s (M.post y) where
  __ := hL.attends.take hopen htaken
  stopped := fun j => by simp [Moment.stopped, hL.stopped, Manager.post]
  errors := hL.errors
  raised := hL.raised
  asked := fun h => (hL.asked h).imp_left fun ⟨ν, hν, hask⟩ => ⟨ν, List.mem_append_left _ hν, hask⟩

/-- The supervisor starts a watcher for the next member in the mailbox. -/
theorem watch {y : Nat} {ys : List Nat} (hL : Ledger m H s M) (hbox : M.mailbox = y :: ys)
    (hp : M.phase = .supervising ∨ M.phase = .draining) :
    Ledger m H s ({ M with mailbox := ys }.watch y) where
  __ := hL.attends.watch hbox hp
  stopped := fun k => by
    rw [hL.stopped]
    simp only [Manager.watch, List.getElem?_append, List.getElem?_singleton]
    split
    · rfl
    · rename_i hk
      rw [List.getElem?_eq_none (by omega)]
      split <;> rfl
  errors := by simpa [Manager.watch, System.readBy, Watcher.hasRead] using hL.errors
  raised := fun w hw hr => by
    rcases List.mem_append.mp hw with hw | hw
    · exact hL.raised w hw hr
    · obtain rfl := List.mem_singleton.mp hw
      cases hr
  asked := hL.asked

/-- A step of the supervisor. -/
theorem supervise {held : Bool} {M' : Manager} (hL : Ledger m H s M)
    (h : M.supervise held = some M') : Ledger m H s M' := by
  rcases Manager.supervise_cases h with
    ⟨-, -, rfl⟩ | ⟨y, ys, hp, hbox, rfl⟩ | ⟨-, hbox, rfl⟩ | ⟨hp, -, rfl⟩
  · exact { hL with mailbox := fun hp => by simp at hp }
  · exact hL.watch hbox hp
  · exact { hL with mailbox := fun _ => hbox }
  · exact { hL with mailbox := fun _ => hL.mailbox (.inl hp) }

/-- Watcher `k` takes a step from `w` to `w'`, and reports `report`. -/
theorem advance {k : Nat} {w : Watcher} (w' : Watcher) (report : Option RunError)
    (hL : Ledger m H s M) (hw : M.watchers[k]? = some w) (hmember : w'.member = w.member)
    (hstops : s.watcherStops m k = if w.phase = .watching then some w.member else none)
    (hphase : w'.phase ≠ .watching) (hdone : w'.sawEnd → s.isDone w.member)
    (hraise : w'.phase = .raising → report.isSome)
    (hread : s.readBy w = none ∧ s.readBy w' = report ∨
      report = none ∧ s.readBy w' = s.readBy w) :
    Ledger m (H ++ [⟨s, .watch m k⟩]) s
      { M with watchers := M.watchers.set k w', errors := M.errors ++ report.toList } where
  __ := (hL.attends.advance hw hmember hdone).idle rfl rfl rfl rfl
  stopped := fun j => by
    have hlt := (List.getElem?_eq_some_iff.mp hw).1
    rw [stoppedBy_snoc, hL.stopped, List.getElem?_set]
    by_cases hj : k = j
    · subst hj
      rw [hw, if_pos rfl, if_pos hlt]
      by_cases hwatch : w.phase = .watching <;>
        simp [Moment.stopped, hstops, hwatch, hphase, hmember, Option.filter]
    · simp [Moment.stopped, hj]
  errors := by
    rcases hread with ⟨hnone, hsome⟩ | ⟨rfl, hsame⟩
    · have := perm_filterMap_set s.readBy (b := w') hw hnone
      rw [hsome] at this
      exact (hL.errors.append_right _).trans this.symm
    · rw [filterMap_set_of_eq s.readBy hw hsame]
      simpa using hL.errors
  raised := fun v hv hr => by
    rcases List.mem_or_eq_of_mem_set hv with hv | rfl
    · simp [hL.raised v hv hr]
    · obtain ⟨e, rfl⟩ := Option.isSome_iff_exists.mp (hraise hr)
      simp
  asked := fun h => (hL.asked h).imp
    (fun ⟨ν, hν, hask⟩ => ⟨ν, List.mem_append_left _ hν, hask⟩) fun he => by simp [he]

/-- A step of one of the watchers. -/
theorem watched {k : Nat} {w w' : Watcher} {effect : Watcher.Effect} (hL : Ledger m H s M)
    (hM : s.manager? m = some M) (hw : M.watchers[k]? = some w)
    (hnext : w.next (s.isDone w.member) (s.error w.member) M.stopRequested = some (w', effect)) :
    Ledger m (H ++ [⟨s, .watch m k⟩]) s
      ({ M with watchers := M.watchers.set k w' }.affected (w.member == m) effect) := by
  have hstops := System.watcherStops_eq hM hw hnext
  have hmem := List.mem_of_getElem? hw
  have hdone : w'.sawEnd → s.isDone w.member := fun he =>
    (Watcher.sawEnd_of_next hnext he).elim id (hL.done w hmem)
  -- what a watcher that asks its member to stop leaves, whether the member is the manager or not
  have hask : ∀ {M' : Manager}, effect = .stopMember →
      Ledger m (H ++ [⟨s, .watch m k⟩]) s M' →
      Ledger m (H ++ [⟨s, .watch m k⟩]) s (M'.affected (w.member == m) effect) := by
    rintro M' rfl hM'
    by_cases hself : w.member = m
    · simp only [Manager.affected, hself, beq_self_eq_true, if_true]
      exact hM'.stop (by simp [Moment.asks, hstops, hself])
    · simpa [Manager.affected, hself] using hM'
  rcases Watcher.next_cases hnext with
    ⟨hp, -, rfl, rfl⟩ | ⟨hp, -, -, rfl, rfl⟩ | ⟨hp, -, rfl, rfl⟩ | ⟨e, hp, he, rfl, rfl⟩ |
    ⟨hp, he, rfl, rfl⟩ | ⟨hp, rfl, rfl⟩
  · refine hask rfl ?_
    simpa using hL.advance { w with phase := .settling } none hw rfl
      (by simp [hstops, hp]) (by simp) hdone (by simp)
      (.inr ⟨rfl, by simp [System.readBy, Watcher.hasRead, hp]⟩)
  · refine hask rfl ?_
    simpa using hL.advance { w with phase := .stopping } none hw rfl
      (by simp [hstops, hp]) (by simp) hdone (by simp)
      (.inr ⟨rfl, by simp [System.readBy, Watcher.hasRead, hp]⟩)
  · simpa [Manager.affected] using hL.advance { w with phase := .settling } none hw rfl
      (by simp [hstops, hp]) (by simp) hdone (by simp)
      (.inr ⟨rfl, by simp [System.readBy, Watcher.hasRead, hp]⟩)
  · exact hL.advance { w with phase := .raising } (some e) hw rfl
      (by simp [hstops, hp]) (by simp) hdone (by simp)
      (.inl ⟨by simp [System.readBy, Watcher.hasRead, hp],
        by simp [System.readBy, Watcher.hasRead, he]⟩)
  · simpa [Manager.affected] using hL.advance { w with phase := .finished } none hw rfl
      (by simp [hstops, hp]) (by simp) hdone (by simp)
      (.inr ⟨rfl, by simp [System.readBy, Watcher.hasRead, hp, he]⟩)
  · have hL' := hL.advance { w with phase := .finished } none hw rfl
      (by simp [hstops, hp]) (by simp) hdone (by simp)
      (.inr ⟨rfl, by simp [System.readBy, Watcher.hasRead, hp]⟩)
    simp only [Option.toList_none, List.append_nil] at hL'
    exact { hL' with asked := fun _ => .inr (hL.raised w hmem hp) }

/-- **The ledger is kept in every step.** -/
theorem step {a : Action} {member' : Member} (hL : Ledger m H s M) (hs : s.Sound)
    (hM : s.manager? m = some M) (h : s.step a = some s')
    (keeps : ∀ x ∈ takenBy m (H ++ [⟨s, a⟩]), KeepsError [⟨s, a⟩] x)
    (hchange : Member.Change s m a (.manager M) member') :
    ∃ M', member' = .manager M' ∧ Ledger m (H ++ [⟨s, a⟩]) s' M' := by
  have final : ∀ x ∈ takenBy m (H ++ [⟨s, a⟩]), s.isDone x →
      s'.isDone x ∧ s'.error x = s.error x := fun x hx hd => System.step_final hs (keeps x hx) h hd
  suffices ∃ M', member' = .manager M' ∧ Ledger m (H ++ [⟨s, a⟩]) s M' by
    obtain ⟨M', hM', hL'⟩ := this
    exact ⟨M', hM', hL'.later final⟩
  cases hchange with
  | kept htouch hask =>
    exact ⟨M, rfl, hL.idle (Moment.taken_of_touches htouch) (Moment.stopped_of_touches htouch)⟩
  | asked htouch hask =>
    have hL' := hL.idle (Moment.taken_of_touches htouch) (Moment.stopped_of_touches htouch)
    exact ⟨_, rfl, hL'.stop hask⟩
  | took hopen htaken => exact ⟨_, rfl, hL.take hopen htaken⟩
  | dropped =>
    have hL' : Ledger m (H ++ [⟨s, .drop m⟩]) s M := hL.idle rfl fun _ => rfl
    exact ⟨_, rfl, { hL' with }⟩
  | supervised hsup => exact ⟨_, rfl, (hL.idle rfl fun _ => rfl).supervise hsup⟩
  | watched hw hnext => exact ⟨_, rfl, hL.watched hM hw hnext⟩

/-- Every error recorded is that of a member taken, which is done. -/
theorem source (hL : Ledger m H s M) {e : RunError} (he : e ∈ M.errors) :
    ∃ y ∈ takenBy m H, s.isDone y ∧ s.error y = some e := by
  obtain ⟨w, hw, hread⟩ := List.mem_filterMap.mp (hL.errors.mem_iff.mp he)
  unfold System.readBy at hread
  split at hread
  · rename_i hr
    exact ⟨w.member, hL.mem_taken hw, hL.done w hw (Watcher.sawEnd_of_hasRead hr), hread⟩
  · cases hread

end Ledger

/-! ### Whole runs -/

/-- If a watcher of manager `m` asks a member to stop at `μ` that is not done,
then before that the manager was asked to stop, or has recorded the error of a
member that it took. -/
def Prompted (m : Nat) (past : List Moment) (μ : Moment) : Prop :=
  ∀ k x, μ.stopped m k = some x → μ.found.isDone x = false →
    (∃ ν ∈ past, ν.asks m) ∨
      ∃ M, μ.found.manager? m = some M ∧ ∃ e ∈ M.errors,
        ∃ y ∈ takenBy m past, μ.found.isDone y ∧ μ.found.error y = some e

theorem Ledger.prompted {m : Nat} {H : List Moment} {s : System} {M : Manager} {a : Action}
    (hL : Ledger m H s M) (hM : s.manager? m = some M) : Prompted m H ⟨s, a⟩ := by
  intro k x hstop hdone
  have hreq : M.stopRequested := by
    obtain ⟨M', w, w', hM', -, rfl, hnext⟩ :=
      System.watcherStops_cases (Moment.stopped_cases hstop).2
    have hdone : s.isDone w.member = false := hdone
    obtain rfl : M = M' := Option.some.inj (hM.symm.trans hM')
    rcases Watcher.next_cases hnext with h | h | h | ⟨_, h⟩ | h | h <;> simp_all
  rcases hL.asked hreq with hask | herr
  · exact .inl hask
  · obtain ⟨e, he⟩ := List.exists_mem_of_ne_nil _ herr
    exact .inr ⟨M, hM, e, he, hL.source he⟩

/-- The books of manager `m` after the history `H`: nothing before it is made, the
ledger after that. -/
structure Books (m : Nat) (H : List Moment) (s : System) : Prop where
  sound : s.Sound
  ledger : ∀ M, s.manager? m = some M → Ledger m H s M
  before : s.manager? m = none →
    takenBy m H = [] ∧ ∀ k, stoppedBy m k H = []
  prompted : Throughout (Prompted m) H

namespace Books

variable {m : Nat} {H : List Moment} {s s' : System} {a : Action}

theorem start (m : Nat) : Books m [] .empty where
  sound := System.sound_empty
  ledger := fun M hM => absurd hM (by simp [System.manager?, System.empty])
  before := fun _ => ⟨rfl, fun _ => rfl⟩
  prompted := throughout_nil _

theorem stays_empty (hB : Books m H s) (hM : s.manager? m = none) (a : Action) :
    takenBy m (H ++ [⟨s, a⟩]) = [] ∧
      ∀ k, stoppedBy m k (H ++ [⟨s, a⟩]) = [] := by
  obtain ⟨htaken, hstopped⟩ := hB.before hM
  obtain ⟨htaken', hstopped'⟩ := Moment.idle_of_no_manager (μ := ⟨s, a⟩) hM
  constructor
  · simp [htaken, htaken']
  · intro k
    simp [hstopped, hstopped']

theorem step (hB : Books m H s)
    (keeps : ∀ x ∈ takenBy m (H ++ [⟨s, a⟩]),
      KeepsError [⟨s, a⟩] x)
    (h : s.step a = some s') : Books m (H ++ [⟨s, a⟩]) s' := by
  have managed := System.manager_step (m := m) (P := Ledger m (H ++ [⟨s, a⟩]) s') h
    (fun hM => .start (hB.stays_empty hM a).1 (hB.stays_empty hM a).2)
    (fun M member' hM hchange => (hB.ledger M hM).step hB.sound hM h keeps hchange)
  refine ⟨System.sound_step hB.sound h, managed.1, fun hM' => hB.stays_empty (managed.2 hM') a,
    throughout_snoc hB.prompted ?_⟩
  cases hM : s.manager? m with
  | some M => exact (hB.ledger M hM).prompted hM
  | none =>
    intro k x hstop
    rw [(Moment.idle_of_no_manager (μ := ⟨s, a⟩) hM).2] at hstop
    cases hstop

/-- The books are in order after every run. -/
theorem run {as : List Action} (h : System.empty.run as = some s)
    (keeps : ∀ x ∈ takenBy m (history as),
      KeepsError (history as) x) : Books m (history as) s := by
  have := System.run_induction
    (fun H s => (∀ x ∈ takenBy m H, KeepsError H x) → Books m H s)
    (fun {H s a s'} ih h keeps => by
      have hearlier : ∀ x ∈ takenBy m H, KeepsError H x := fun x hx ν hν =>
        keeps x (by rw [takenBy_snoc]; exact List.mem_append_left _ hx) ν
          (List.mem_append_left _ hν)
      exact (ih hearlier).step (fun x hx ν hν => keeps x hx ν (List.mem_append_right _ hν)) h)
    (fun _ => start m) h
  exact this keeps

end Books

/-- **A manager loses nobody, and is done only when all is done.** Let a system
run in any order of actions, where the members that manager `m` takes keep their
final error. When the manager is done, the watcher of each member taken has asked
that member to stop, once, and the member is done; and the errors of the manager
are those of the members taken, each as often as it was taken. At any time, a
watcher asks a member to stop that is not done only if the manager was asked to
stop before, or has recorded the error of a member that it took. -/
theorem shutdown_complete {as : List Action} {s : System} {m : Nat} {M : Manager}
    (h : System.empty.run as = some s) (hM : s.manager? m = some M)
    (keeps : ∀ x ∈ takenBy m (history as),
      KeepsError (history as) x) :
    (M.isDone →
      (∀ (k x : Nat), (takenBy m (history as))[k]? = some x →
        stoppedBy m k (history as) = [x] ∧ s.isDone x) ∧
      M.errors.Perm ((takenBy m (history as)).filterMap s.error)) ∧
    Throughout (Prompted m) (history as) := by
  have hB := Books.run h keeps
  have hL := hB.ledger M hM
  refine ⟨fun hd => ?_, hB.prompted⟩
  obtain ⟨hphase, hfinished⟩ := hB.sound m _ (System.members_of_manager? hM)
  have hp := hphase hd
  have hall := hfinished hp
  have htaken := hL.taken
  rw [hL.mailbox (.inr hp), List.append_nil] at htaken
  constructor
  · intro k x hk
    rw [htaken, List.getElem?_map, Option.map_eq_some_iff] at hk
    obtain ⟨w, hw, rfl⟩ := hk
    have hmem := List.mem_of_getElem? hw
    have hwp := hall w hmem
    exact ⟨by simp [hL.stopped, hw, hwp, Option.filter],
      hL.done w hmem (by simp [Watcher.sawEnd, hwp])⟩
  · rw [htaken, List.filterMap_map]
    refine hL.errors.trans (.of_eq (List.filterMap_congr fun w hw => ?_))
    simp [System.readBy, Watcher.hasRead, hall w hw]

/-- Two members are offered to a manager and one is posted; then the manager is
asked to stop, and the other is posted before the mailbox is closed. -/
def latePost : List Action :=
  [.newManager, .newOutsider, .newOutsider, .offer 0 1, .offer 0 2, .post 0, .supervise 0, .stop 0,
    .post 0, .supervise 0, .supervise 0, .supervise 0, .watch 0 0, .watch 0 1,
    .settle 1 (some .cancelled), .settle 2 none, .watch 0 0, .watch 0 0, .watch 0 0, .watch 0 1,
    .watch 0 1, .supervise 0]

theorem shutdown_complete_latePost : ∃ s M, System.empty.run latePost = some s ∧
    s.manager? 0 = some M ∧
    (∀ x ∈ takenBy 0 (history latePost), KeepsError (history latePost) x) ∧
    M.isDone ∧ takenBy 0 (history latePost) = [1, 2] ∧
    (stoppedBy 0 1 (history latePost) = [2] ∧ s.isDone 2) ∧
    M.errors.Perm ((takenBy 0 (history latePost)).filterMap s.error) ∧
    Throughout (Prompted 0) (history latePost) :=
  have keeps : ∀ x ∈ takenBy 0 (history latePost), KeepsError (history latePost) x :=
    fun x _ => keepsError_of_settled_once rfl x
  have law := @shutdown_complete latePost _ 0 _ rfl rfl keeps
  ⟨_, _, rfl, rfl, keeps, rfl, rfl, (law.1 rfl).1 1 2 rfl, (law.1 rfl).2, law.2⟩

end TickTree
