/-
# Histories of a system

The history of a run is the list of its moments: each action together with the
system as the action found it. What a member has been through is read off the
history, without looking into the member; what a step does to one member is
said once, by `Member.Change`.

The error that a member shows once it is done is to be final. Tickers and
managers see to that themselves (`step_final`); of members from outside it is
asked (`KeepsError`).

Key definitions: `Moment`, `history`, `Moment.asks`, `takenBy`, `stoppedBy`,
`Throughout`, `Member.Change`, `Member.Sound`, `KeepsError`.
Key theorems: `run_induction`, `step_member`, `step_final`.
-/
import TickTree.System
import Mathlib.Data.List.Basic

namespace TickTree

/-- A moment of a run: an action, and the system as the action found it. -/
structure Moment where
  found : System
  action : Action

namespace System

/-- The moments of a run. -/
def moments : System → List Action → List Moment
  | _, [] => []
  | s, a :: as => ⟨s, a⟩ :: match s.step a with
    | some s => s.moments as
    | none => []

/-- **Runs, one action after the other.** What holds of the empty history, and
of a longer one whenever it holds of the shorter, holds of every run. -/
theorem run_induction (P : List Moment → System → Prop)
    (next : ∀ {H s a s'}, P H s → s.step a = some s' → P (H ++ [⟨s, a⟩]) s') {as : List Action} :
    ∀ {H s s'}, P H s → s.run as = some s' → P (H ++ s.moments as) s' := by
  induction as with
  | nil =>
    intro H s s' base h
    cases h
    simpa [moments] using base
  | cons a as ih =>
    intro H s s' base h
    obtain ⟨s₁, h₁, h₂⟩ := Option.bind_eq_some_iff.mp h
    have := ih (next base h₁) h₂
    simpa only [moments, h₁, List.append_assoc, List.singleton_append] using this

theorem run_append {as bs : List Action} : ∀ {s s' s'' : System}, s.run as = some s' →
    s'.run bs = some s'' → s.run (as ++ bs) = some s'' := by
  induction as with
  | nil =>
    intro s s' s'' h h'
    cases h
    exact h'
  | cons a as ih =>
    intro s s' s'' h h'
    obtain ⟨s₁, h₁, h₂⟩ := Option.bind_eq_some_iff.mp h
    exact Option.bind_eq_some_iff.mpr ⟨s₁, h₁, ih h₂ h'⟩

theorem run_split {as bs : List Action} : ∀ {s s'' : System}, s.run (as ++ bs) = some s'' →
    ∃ s', s.run as = some s' ∧ s'.run bs = some s'' := by
  induction as with
  | nil => exact fun h => ⟨_, rfl, h⟩
  | cons a as ih =>
    intro s s'' h
    obtain ⟨s₁, h₁, h₂⟩ := Option.bind_eq_some_iff.mp h
    obtain ⟨s', h', hrest⟩ := ih h₂
    exact ⟨s', Option.bind_eq_some_iff.mpr ⟨s₁, h₁, h'⟩, hrest⟩

theorem moments_append {as bs : List Action} : ∀ {s s' : System}, s.run as = some s' →
    s.moments (as ++ bs) = s.moments as ++ s'.moments bs := by
  induction as with
  | nil =>
    intro s s' h
    cases h
    rfl
  | cons a as ih =>
    intro s s' h
    obtain ⟨s₁, h₁, h₂⟩ := Option.bind_eq_some_iff.mp h
    simp [moments, h₁, ih h₂]

/-- The run up to one of its moments. -/
theorem run_to_moment {as : List Action} {μ : Moment} : ∀ {s : System}, μ ∈ s.moments as →
    ∃ past rest, as = past ++ μ.action :: rest ∧ s.run past = some μ.found := by
  induction as with
  | nil =>
    intro s h
    simp [moments] at h
  | cons a as ih =>
    intro s h
    rcases List.mem_cons.mp h with rfl | h
    · exact ⟨[], as, rfl, rfl⟩
    · cases h₁ : s.step a with
      | none => simp [h₁] at h
      | some s₁ =>
        rw [h₁] at h
        obtain ⟨past, rest, rfl, hrun⟩ := ih h
        exact ⟨a :: past, rest, rfl, Option.bind_eq_some_iff.mpr ⟨s₁, h₁, hrun⟩⟩

/-- The run before and after one of its moments. -/
theorem moments_split {as : List Action} {μ : Moment} {rest : List Moment} {s' : System} :
    ∀ {s : System} {past : List Moment}, s.run as = some s' → s.moments as = past ++ μ :: rest →
      ∃ before after s₁, s.run before = some μ.found ∧ s.moments before = past ∧
        μ.found.step μ.action = some s₁ ∧ s₁.run after = some s' ∧ s₁.moments after = rest := by
  induction as with
  | nil =>
    intro s past h hsplit
    simp [moments] at hsplit
  | cons a as ih =>
    intro s past h hsplit
    obtain ⟨s₁, h₁, h₂⟩ := Option.bind_eq_some_iff.mp h
    simp only [moments, h₁] at hsplit
    cases past with
    | nil =>
      obtain ⟨rfl, rfl⟩ := List.cons.inj hsplit
      exact ⟨[], as, s₁, rfl, rfl, h₁, h₂, rfl⟩
    | cons ν past =>
      obtain ⟨rfl, hrest⟩ := List.cons.inj hsplit
      obtain ⟨before, after, s₂, hbefore, hpast, hafter⟩ := ih h₂ hrest
      refine ⟨a :: before, after, s₂, Option.bind_eq_some_iff.mpr ⟨s₁, h₁, hbefore⟩, ?_, hafter⟩
      simp only [moments, h₁, hpast]

/-- The member that watcher `k` of manager `m` would ask to stop in its next
step. -/
def watcherStops (s : System) (m k : Nat) : Option Nat := do
  let manager ← s.manager? m
  let w ← manager.watchers[k]?
  match w.next (s.isDone w.member) (s.error w.member) manager.stopRequested with
  | some (_, .stopMember) => some w.member
  | _ => none

/-- The offer at a place, if its manager would take it. -/
def taken? (s : System) (k : Nat) : Option Offer :=
  s.offers[k]?.filter fun o => (s.manager? o.manager).any (·.isOpen)

end System

namespace Moment

/-- Is member `x` asked to stop, by a user or by a watcher? -/
def asks (x : Nat) (μ : Moment) : Bool :=
  match μ.action with
  | .stop y => y == x
  | .watch m k => μ.found.watcherStops m k == some x
  | _ => false

/-- The member that manager `m` takes. -/
def taken (m : Nat) (μ : Moment) : Option Nat :=
  match μ.action with
  | .post k => ((μ.found.taken? k).filter (·.manager == m)).map (·.member)
  | _ => none

/-- The member that watcher `k` of manager `m` asks to stop. -/
def stopped (m k : Nat) (μ : Moment) : Option Nat :=
  match μ.action with
  | .watch m' k' => if m' = m ∧ k' = k then μ.found.watcherStops m k else none
  | _ => none

/-- Does the action of its own kind change the member at place `x`? -/
def touches (x : Nat) (μ : Moment) : Bool :=
  match μ.action with
  | .drive y | .tickEnded y _ | .drop y | .supervise y | .settle y _ | .watch y _ => y == x
  | .post _ => (μ.taken x).isSome
  | _ => false

theorem taken_of_touches {x : Nat} {μ : Moment} (h : μ.touches x = false) : μ.taken x = none := by
  obtain ⟨s, a⟩ := μ
  cases a <;> first | rfl | simpa [touches] using h

theorem stopped_of_touches {x : Nat} {μ : Moment} (h : μ.touches x = false) (k : Nat) :
    μ.stopped x k = none := by
  obtain ⟨s, a⟩ := μ
  cases a with
  | watch m j =>
    have hne : m ≠ x := by simpa [touches] using h
    simp [stopped, hne]
  | _ => rfl

theorem stopped_cases {m k x : Nat} {μ : Moment} (h : μ.stopped m k = some x) :
    μ.action = .watch m k ∧ μ.found.watcherStops m k = some x := by
  obtain ⟨s, a⟩ := μ
  cases a with
  | watch m' k' =>
    simp only [stopped] at h
    split at h
    · rename_i heq
      obtain ⟨rfl, rfl⟩ := heq
      exact ⟨rfl, h⟩
    · cases h
  | _ => cases h

end Moment

/-- What one step of a watcher can be. -/
theorem Watcher.next_cases {isDone stopRequested : Bool} {error : Option RunError}
    {w w' : Watcher} {effect : Watcher.Effect}
    (h : w.next isDone error stopRequested = some (w', effect)) :
    (w.phase = .watching ∧ isDone ∧ w' = { w with phase := .settling } ∧ effect = .stopMember) ∨
    (w.phase = .watching ∧ isDone = false ∧ stopRequested ∧ w' = { w with phase := .stopping } ∧
      effect = .stopMember) ∨
    (w.phase = .stopping ∧ isDone ∧ w' = { w with phase := .settling } ∧ effect = .nothing) ∨
    (∃ e, w.phase = .settling ∧ error = some e ∧ w' = { w with phase := .raising } ∧
      effect = .record e) ∨
    (w.phase = .settling ∧ error = none ∧ w' = { w with phase := .finished } ∧
      effect = .nothing) ∨
    (w.phase = .raising ∧ w' = { w with phase := .finished } ∧ effect = .stopManager) := by
  unfold Watcher.next at h
  split at h
  case h_1 hp =>
    split at h
    · cases h
      simp_all
    · split at h
      · cases h
        simp_all
      · cases h
  case h_2 hp =>
    split at h
    · cases h
      simp_all
    · cases h
  case h_3 hp =>
    split at h
    · cases h
      simp_all
    · cases h
      simp_all
  case h_4 hp =>
    cases h
    simp_all
  case h_5 => cases h

theorem Watcher.next_member {isDone stopRequested : Bool} {error : Option RunError}
    {w w' : Watcher} {effect : Watcher.Effect}
    (h : w.next isDone error stopRequested = some (w', effect)) : w'.member = w.member := by
  rcases next_cases h with h | h | h | ⟨e, h⟩ | h | h <;> simp [h]

/-- The history of a run that begins with nothing. -/
def history (as : List Action) : List Moment := System.empty.moments as

/-- The members that manager `m` takes, in order. -/
def takenBy (m : Nat) (H : List Moment) : List Nat := H.filterMap (Moment.taken m)

/-- The members that watcher `k` of manager `m` asks to stop, in order. -/
def stoppedBy (m k : Nat) (H : List Moment) : List Nat := H.filterMap (Moment.stopped m k)

@[simp] theorem takenBy_snoc (m : Nat) (H : List Moment) (μ : Moment) :
    takenBy m (H ++ [μ]) = takenBy m H ++ (μ.taken m).toList := by
  cases h : μ.taken m <;> simp [takenBy, h]

@[simp] theorem stoppedBy_snoc (m k : Nat) (H : List Moment) (μ : Moment) :
    stoppedBy m k (H ++ [μ]) = stoppedBy m k H ++ (μ.stopped m k).toList := by
  cases h : μ.stopped m k <;> simp [stoppedBy, h]

/-- `Q` holds of every moment of the history and the moments before it. -/
def Throughout (Q : List Moment → Moment → Prop) (H : List Moment) : Prop :=
  ∀ past μ rest, H = past ++ μ :: rest → Q past μ

theorem throughout_nil (Q : List Moment → Moment → Prop) : Throughout Q [] := by
  intro past μ rest h
  exact absurd h.symm (by simp)

theorem throughout_snoc {Q : List Moment → Moment → Prop} {H : List Moment} {μ : Moment}
    (h : Throughout Q H) (hμ : Q H μ) : Throughout Q (H ++ [μ]) := by
  intro past ν rest hsplit
  rcases List.eq_nil_or_concat rest with rfl | ⟨rest', last, rfl⟩
  · obtain ⟨rfl, hν⟩ := List.append_inj' hsplit rfl
    cases hν
    exact hμ
  · rw [List.concat_eq_append, ← List.cons_append, ← List.append_assoc] at hsplit
    exact h past ν rest' (List.append_inj' hsplit rfl).1

/-- A manager after the effect of one of its watchers, whose member is the
manager itself if `isSelf`. -/
def Manager.affected (m : Manager) (isSelf : Bool) : Watcher.Effect → Manager
  | .nothing => m
  | .stopMember => if isSelf then { m with stopRequested := true } else m
  | .record e => { m with errors := m.errors ++ [e] }
  | .stopManager => { m with stopRequested := true }

/-- What an action does to the member at place `x` of the system `s`. -/
inductive Member.Change (s : System) (x : Nat) : Action → Member → Member → Prop
  | kept {a member} : Moment.touches x ⟨s, a⟩ = false → Moment.asks x ⟨s, a⟩ = false →
      Change s x a member member
  | asked {a member} : Moment.touches x ⟨s, a⟩ = false → Moment.asks x ⟨s, a⟩ →
      Change s x a member member.stop
  | driven {t t'} : t.drive s.now s.elapsed (s.tokens.isCancelled t.token) = some t' →
      Change s x (.drive x) (.ticker t) (.ticker t')
  | tickEnded {t t' outcome} : t.tickEnded outcome = some t' →
      Change s x (.tickEnded x outcome) (.ticker t) (.ticker t')
  | took {k m y} : m.isOpen → Moment.taken x ⟨s, .post k⟩ = some y →
      Change s x (.post k) (.manager m) (.manager (m.post y))
  | dropped {m} : Change s x (.drop x) (.manager m) (.manager { m with held := false })
  | supervised {m m'} : m.supervise (s.isHeld x) = some m' →
      Change s x (.supervise x) (.manager m) (.manager m')
  | watched {m k w w' effect} : m.watchers[k]? = some w →
      w.next (s.isDone w.member) (s.error w.member) m.stopRequested = some (w', effect) →
      Change s x (.watch x k) (.manager m)
        (.manager ({ m with watchers := m.watchers.set k w' }.affected (w.member == x) effect))
  | settled {o error} :
      Change s x (.settle x error) (.outsider o) (.outsider { o with isDone := true, error })

/-- A manager was a manager before. -/
theorem Member.Change.was_manager {s : System} {x : Nat} {a : Action} {member member' : Member}
    {M' : Manager} (h : Change s x a member member') (hM' : member' = .manager M') :
    ∃ M, member = .manager M := by
  cases h with
  | kept => exact ⟨M', hM'⟩
  | asked =>
    cases member with
    | manager M => exact ⟨M, rfl⟩
    | _ => cases hM'
  | took | dropped | supervised | watched => exact ⟨_, rfl⟩
  | driven | tickEnded | settled => cases hM'

namespace System

theorem getElem?_setMember (s : System) (y x : Nat) (member : Member) :
    (s.setMember y member).members[x]? =
      if y = x then s.members[x]?.map fun _ => member else s.members[x]? := by
  simp only [setMember, Array.getElem?_setIfInBounds]
  split
  · subst_vars
    by_cases hx : x < s.members.size <;> simp [hx]
  · rfl

theorem getElem?_stop (s : System) (y x : Nat) :
    (s.stop y).members[x]? =
      if y = x then s.members[x]?.map Member.stop else s.members[x]? := by
  simp only [stop, Array.getElem?_modify]

theorem getElem?_addMember {s : System} {x : Nat} {member : Member} (new : Member)
    (hx : s.members[x]? = some member) : (s.addMember new).members[x]? = some member := by
  have hlt := (Array.getElem?_eq_some_iff.mp hx).1
  simp only [addMember, Array.getElem?_push, hx, if_neg (Nat.ne_of_lt hlt)]

theorem members_of_ticker? {s : System} {x : Nat} {t : Ticker} (h : s.ticker? x = some t) :
    s.members[x]? = some (.ticker t) := by
  unfold ticker? at h
  split at h
  · simp_all
  · cases h

theorem members_of_manager? {s : System} {x : Nat} {m : Manager} (h : s.manager? x = some m) :
    s.members[x]? = some (.manager m) := by
  unfold manager? at h
  split at h
  · simp_all
  · cases h

theorem members_of_outsider? {s : System} {x : Nat} {o : Outsider} (h : s.outsider? x = some o) :
    s.members[x]? = some (.outsider o) := by
  unfold outsider? at h
  split at h
  · simp_all
  · cases h

/-- A watcher's step: the manager and the watcher that took it, and what it did. -/
theorem watch_cases {s s' : System} {m k : Nat} (h : s.watch m k = some s') :
    ∃ M w w' effect, s.manager? m = some M ∧ M.watchers[k]? = some w ∧
      w.next (s.isDone w.member) (s.error w.member) M.stopRequested = some (w', effect) ∧
      s' = (s.setMember m (.manager { M with watchers := M.watchers.set k w' })).affect m
        w.member effect := by
  simp only [watch, Option.bind_eq_bind, Option.bind_eq_some_iff, Option.pure_def,
    Option.some.injEq] at h
  obtain ⟨M, hM, w, hw, ⟨w', effect⟩, hnext, rfl⟩ := h
  exact ⟨M, w, w', effect, hM, hw, hnext, by rw [Watcher.next_member hnext]⟩

theorem watcherStops_eq {s : System} {m k : Nat} {M : Manager} {w w' : Watcher}
    {effect : Watcher.Effect} (hM : s.manager? m = some M) (hw : M.watchers[k]? = some w)
    (hnext : w.next (s.isDone w.member) (s.error w.member) M.stopRequested = some (w', effect)) :
    s.watcherStops m k = if effect matches .stopMember then some w.member else none := by
  cases effect <;> simp [watcherStops, hM, hw, hnext]

theorem watcherStops_cases {s : System} {m k x : Nat} (h : s.watcherStops m k = some x) :
    ∃ M w w', s.manager? m = some M ∧ M.watchers[k]? = some w ∧ w.member = x ∧
      w.next (s.isDone w.member) (s.error w.member) M.stopRequested = some (w', .stopMember) := by
  simp only [watcherStops, Option.bind_eq_bind, Option.bind_eq_some_iff] at h
  obtain ⟨M, hM, w, hw, h⟩ := h
  split at h
  · rename_i w' hnext
    cases h
    exact ⟨M, w, w', hM, hw, rfl, hnext⟩
  · cases h

theorem manager?_setMember {s : System} {m : Nat} {M : Manager} (hM : s.manager? m = some M)
    (M' : Manager) : (s.setMember m (.manager M')).manager? m = some M' := by
  simp [manager?, getElem?_setMember, members_of_manager? hM]

/-- A watcher's step changes its manager, and the member that it asks to stop. -/
theorem step_member_watch {s s' : System} {m k x : Nat} {member : Member}
    (h : s.watch m k = some s') (hx : s.members[x]? = some member) :
    ∃ member', s'.members[x]? = some member' ∧ Member.Change s x (.watch m k) member member' := by
  obtain ⟨M, w, w', effect, hM, hw, hnext, rfl⟩ := watch_cases h
  have hstops := watcherStops_eq hM hw hnext
  by_cases hmx : m = x
  · subst hmx
    obtain rfl : member = .manager M := by
      rw [members_of_manager? hM] at hx
      exact (Option.some.inj hx).symm
    refine ⟨_, ?_, .watched hw hnext⟩
    have hset := manager?_setMember hM { M with watchers := M.watchers.set k w' }
    cases effect with
    | nothing => exact members_of_manager? hset
    | stopMember =>
      simp only [affect, getElem?_stop, members_of_manager? hset, Manager.affected]
      by_cases hself : w.member = m <;> simp [hself, Member.stop]
    | record e =>
      simp only [affect, hset, getElem?_setMember, members_of_manager? hset, if_true,
        Option.map_some, Manager.affected]
    | stopManager =>
      simp only [affect, getElem?_stop, members_of_manager? hset, if_true, Option.map_some,
        Manager.affected, Member.stop]
  · have htouch : Moment.touches x ⟨s, .watch m k⟩ = false := by simpa [Moment.touches] using hmx
    have hset : ∀ M', (s.setMember m (.manager M')).members[x]? = some member := by
      intro M'
      rw [getElem?_setMember, if_neg hmx, hx]
    by_cases hask : Moment.asks x ⟨s, .watch m k⟩
    · refine ⟨_, ?_, .asked htouch hask⟩
      cases effect <;> simp [Moment.asks, hstops] at hask
      subst hask
      simp only [affect, getElem?_stop, if_true, hset, Option.map_some]
    · refine ⟨_, ?_, .kept htouch (by simpa using hask)⟩
      cases effect with
      | nothing => exact hset _
      | stopMember =>
        have hne : w.member ≠ x := by simpa [Moment.asks, hstops] using hask
        simp only [affect, getElem?_stop, if_neg hne, hset]
      | record e =>
        have hM' := manager?_setMember hM { M with watchers := M.watchers.set k w' }
        simp only [affect, hM', getElem?_setMember, if_neg hmx, hx]
      | stopManager => simp only [affect, getElem?_stop, if_neg hmx, hset]

/-- A driver's step: the ticker before and after it, and the token cancelled. -/
theorem drive_cases {s s' : System} {x : Nat} (h : s.drive x = some s') :
    ∃ t t', s.ticker? x = some t ∧
      t.drive s.now s.elapsed (s.tokens.isCancelled t.token) = some t' ∧
      s' = (s.setMember x (.ticker t')).withScopes
        (if t.phase matches .halted then s.toScopes.cancel t.token else s.toScopes) := by
  simp only [drive, Option.bind_eq_bind, Option.bind_eq_some_iff, Option.pure_def,
    Option.some.injEq] at h
  obtain ⟨t, ht, t', hdrive, rfl⟩ := h
  refine ⟨t, t', ht, hdrive, ?_⟩
  cases t.phase <;> rfl

/-- Where one member is replaced, the others stay as they are. -/
theorem change_setMember {s : System} {a : Action} {x y : Nat} {member old new : Member}
    (hold : s.members[y]? = some old) (hx : s.members[x]? = some member)
    (htouch : ∀ z, Moment.touches z ⟨s, a⟩ = (y == z)) (hask : ∀ z, Moment.asks z ⟨s, a⟩ = false)
    (hchange : Member.Change s y a old new) :
    ∃ member', (s.setMember y new).members[x]? = some member' ∧
      Member.Change s x a member member' := by
  rw [getElem?_setMember]
  by_cases hy : y = x
  · subst hy
    rw [hold] at hx
    cases hx
    exact ⟨new, by rw [if_pos rfl, hold, Option.map_some], hchange⟩
  · exact ⟨member, by rw [if_neg hy, hx], .kept (by simpa [htouch] using hy) (hask x)⟩

/-- Posting an offer changes the manager it was made to, if the mailbox is open. -/
theorem step_member_post {s s' : System} {k x : Nat} {member : Member}
    (h : s.step (.post k) = some s') (hx : s.members[x]? = some member) :
    ∃ member', s'.members[x]? = some member' ∧ Member.Change s x (.post k) member member' := by
  simp only [step, Option.bind_eq_bind, Option.bind_eq_some_iff, Option.pure_def,
    Option.some.injEq] at h
  obtain ⟨⟨m, y⟩, ho, M, hM, rfl⟩ := h
  by_cases hopen : M.isOpen
  · have htaken : s.taken? k = some ⟨m, y⟩ := by simp [taken?, ho, hM, hopen, Option.filter]
    rw [if_pos hopen, getElem?_setMember]
    by_cases hmx : m = x
    · subst hmx
      obtain rfl : member = .manager M := by
        rw [members_of_manager? hM] at hx
        exact (Option.some.inj hx).symm
      refine ⟨_, by rw [if_pos rfl, hx]; rfl, .took hopen ?_⟩
      simp [Moment.taken, htaken, Option.filter]
    · refine ⟨member, by rw [if_neg hmx, hx], .kept ?_ rfl⟩
      simp [Moment.touches, Moment.taken, htaken, Option.filter, hmx]
  · have htaken : s.taken? k = none := by simp [taken?, ho, hM, hopen, Option.filter]
    rw [if_neg hopen]
    exact ⟨member, hx, .kept (by simp [Moment.touches, Moment.taken, htaken]) rfl⟩

/-- **What a step does to one member**: a change of its own, or nothing. -/
theorem step_member {s s' : System} {a : Action} {x : Nat} {member : Member}
    (h : s.step a = some s') (hx : s.members[x]? = some member) :
    ∃ member', s'.members[x]? = some member' ∧ Member.Change s x a member member' := by
  cases a with
  | newToken | newContext | openScope | cancelScope | pass | catchUp =>
    cases h
    exact ⟨member, hx, .kept rfl rfl⟩
  | newManager | newOutsider =>
    cases h
    exact ⟨member, getElem?_addMember _ hx, .kept rfl rfl⟩
  | cancel token =>
    simp only [step] at h
    split at h
    · cases h
    · cases h
      exact ⟨member, hx, .kept rfl rfl⟩
  | runTimer k =>
    obtain ⟨scopes, -, rfl⟩ := Option.map_eq_some_iff.mp h
    exact ⟨member, hx, .kept rfl rfl⟩
  | newTicker parent config endsOnFailure =>
    simp only [step] at h
    split at h
    · cases h
    · cases h
      exact ⟨member, getElem?_addMember _ hx, .kept rfl rfl⟩
  | drive y =>
    obtain ⟨t, t', ht, hdrive, rfl⟩ := drive_cases h
    exact change_setMember (members_of_ticker? ht) hx (fun _ => rfl) (fun _ => rfl) (.driven hdrive)
  | tickEnded y outcome =>
    simp only [step, Option.bind_eq_bind, Option.bind_eq_some_iff, Option.pure_def,
      Option.some.injEq] at h
    obtain ⟨t, ht, t', hended, rfl⟩ := h
    exact change_setMember (members_of_ticker? ht) hx (fun _ => rfl) (fun _ => rfl)
      (.tickEnded hended)
  | stop y =>
    cases h
    by_cases hy : y = x
    · subst hy
      exact ⟨member.stop, by simp [getElem?_stop, hx], .asked rfl (by simp [Moment.asks])⟩
    · exact ⟨member, by rw [getElem?_stop, if_neg hy, hx], .kept rfl (by simpa [Moment.asks])⟩
  | offer m y =>
    simp only [step, Option.bind_eq_bind, Option.bind_eq_some_iff] at h
    obtain ⟨M, -, h⟩ := h
    split at h
    · cases h
    · cases h
      exact ⟨member, hx, .kept rfl rfl⟩
  | post k => exact step_member_post h hx
  | drop m =>
    simp only [step, Option.bind_eq_bind, Option.bind_eq_some_iff, Option.pure_def,
      Option.some.injEq] at h
    obtain ⟨M, hM, rfl⟩ := h
    exact change_setMember (members_of_manager? hM) hx (fun _ => rfl) (fun _ => rfl) .dropped
  | supervise m =>
    simp only [step, Option.bind_eq_bind, Option.bind_eq_some_iff, Option.pure_def,
      Option.some.injEq] at h
    obtain ⟨M, hM, M', hsup, rfl⟩ := h
    exact change_setMember (members_of_manager? hM) hx (fun _ => rfl) (fun _ => rfl)
      (.supervised hsup)
  | watch m k => exact step_member_watch h hx
  | settle y error =>
    simp only [step, Option.bind_eq_bind, Option.bind_eq_some_iff, Option.pure_def,
      Option.some.injEq] at h
    obtain ⟨o, ho, rfl⟩ := h
    exact change_setMember (members_of_outsider? ho) hx (fun _ => rfl) (fun _ => rfl) .settled

end System

/-- A member that an action has made in the system `s`. -/
inductive Member.New (s : System) : Action → Member → Prop
  | ticker {parent config endsOnFailure} : New s (.newTicker parent config endsOnFailure)
      (.ticker (.start (s.tokens.under parent).1 config endsOnFailure))
  | manager : New s .newManager (.manager .start)
  | outsider : New s .newOutsider (.outsider { isDone := false, error := none, stops := 0 })

namespace System

theorem getElem?_setMember_none {s : System} {x y : Nat} {member : Member}
    (hx : s.members[x]? = none) : (s.setMember y member).members[x]? = none := by
  rw [getElem?_setMember, hx]
  split <;> rfl

theorem getElem?_stop_none {s : System} {x y : Nat} (hx : s.members[x]? = none) :
    (s.stop y).members[x]? = none := by
  rw [getElem?_stop, hx]
  split <;> rfl

theorem getElem?_affect_none {s : System} {m x y : Nat} (hx : s.members[x]? = none)
    (effect : Watcher.Effect) : (s.affect m y effect).members[x]? = none := by
  cases effect with
  | nothing => exact hx
  | stopMember => exact getElem?_stop_none hx
  | record e =>
    simp only [affect]
    split
    · exact getElem?_setMember_none hx
    · exact hx
  | stopManager => exact getElem?_stop_none hx

theorem new_of_addMember {s : System} {x : Nat} {new member : Member} (hx : s.members[x]? = none)
    (h : (s.addMember new).members[x]? = some member) : member = new := by
  simp only [addMember, Array.getElem?_push, hx] at h
  split at h
  · exact (Option.some.inj h).symm
  · cases h

/-- A member that a step finds missing and leaves there has just been made. -/
theorem step_new {s s' : System} {a : Action} {x : Nat} {member : Member}
    (h : s.step a = some s') (hx : s.members[x]? = none) (hx' : s'.members[x]? = some member) :
    Member.New s a member := by
  cases a with
  | newToken | newContext | openScope | cancelScope | pass | catchUp =>
    cases h
    exact absurd hx' (by simp [withScopes, hx])
  | newManager =>
    cases h
    exact new_of_addMember hx hx' ▸ .manager
  | newOutsider =>
    cases h
    exact new_of_addMember hx hx' ▸ .outsider
  | cancel token =>
    simp only [step] at h
    split at h
    · cases h
    · cases h
      exact absurd hx' (by simp [withScopes, hx])
  | runTimer k =>
    obtain ⟨scopes, -, rfl⟩ := Option.map_eq_some_iff.mp h
    exact absurd hx' (by simp [withScopes, hx])
  | newTicker parent config endsOnFailure =>
    simp only [step] at h
    split at h
    · cases h
    · cases h
      exact new_of_addMember (by simpa [withScopes] using hx) hx' ▸ .ticker
  | drive y =>
    obtain ⟨t, t', ht, hdrive, rfl⟩ := drive_cases h
    exact absurd hx' (by simp [withScopes, getElem?_setMember_none hx])
  | stop y =>
    cases h
    exact absurd hx' (by simp [getElem?_stop_none hx])
  | offer m y =>
    simp only [step, Option.bind_eq_bind, Option.bind_eq_some_iff] at h
    obtain ⟨M, -, h⟩ := h
    split at h
    · cases h
    · cases h
      exact absurd hx' (by simp [hx])
  | post k =>
    simp only [step, Option.bind_eq_bind, Option.bind_eq_some_iff, Option.pure_def,
      Option.some.injEq] at h
    obtain ⟨o, ho, M, hM, rfl⟩ := h
    split at hx'
    · exact absurd hx' (by simp [getElem?_setMember, hx])
    · exact absurd hx' (by simp [hx])
  | watch m k =>
    obtain ⟨M, w, w', effect, hM, hw, hnext, rfl⟩ := watch_cases h
    exact absurd hx' (by simp [getElem?_affect_none (getElem?_setMember_none hx)])
  | tickEnded | supervise =>
    simp only [step, Option.bind_eq_bind, Option.bind_eq_some_iff, Option.pure_def,
      Option.some.injEq] at h
    obtain ⟨_, _, _, _, rfl⟩ := h
    exact absurd hx' (by simp [getElem?_setMember_none hx])
  | drop | settle =>
    simp only [step, Option.bind_eq_bind, Option.bind_eq_some_iff, Option.pure_def,
      Option.some.injEq] at h
    obtain ⟨_, _, rfl⟩ := h
    exact absurd hx' (by simp [getElem?_setMember_none hx])

/-- Where a member of a later system comes from. -/
theorem member_before {s s' : System} {a : Action} {x : Nat} {member' : Member}
    (h : s.step a = some s') (hx' : s'.members[x]? = some member') :
    (∃ member, s.members[x]? = some member ∧ Member.Change s x a member member') ∨
      (s.members[x]? = none ∧ Member.New s a member') := by
  cases hx : s.members[x]? with
  | none => exact .inr ⟨rfl, step_new h hx hx'⟩
  | some member =>
    obtain ⟨m, hm, hchange⟩ := step_member h hx
    rw [hm] at hx'
    cases hx'
    exact .inl ⟨member, rfl, hchange⟩

/-- The manager at a place after a step, if there is one, was made by the step or there
before. -/
theorem manager_step {s s' : System} {a : Action} {m : Nat} {P : Manager → Prop}
    (h : s.step a = some s') (start : s.manager? m = none → P .start)
    (next : ∀ M member', s.manager? m = some M → Member.Change s m a (.manager M) member' →
      ∃ M', member' = .manager M' ∧ P M') :
    (∀ M', s'.manager? m = some M' → P M') ∧ (s'.manager? m = none → s.manager? m = none) := by
  constructor
  · intro M' hM'
    rcases member_before h (members_of_manager? hM') with ⟨member, hx, hchange⟩ | ⟨hx, hnew⟩
    · obtain ⟨M, rfl⟩ := hchange.was_manager rfl
      obtain ⟨_, heq, hP⟩ := next M _ (by simp [manager?, hx]) hchange
      cases heq
      exact hP
    · cases hnew
      exact start (by simp [manager?, hx])
  · intro hM'
    cases hM : s.manager? m with
    | none => rfl
    | some M =>
      obtain ⟨member', hx', hchange⟩ := step_member h (members_of_manager? hM)
      obtain ⟨M', rfl, -⟩ := next M member' hM hchange
      simp [manager?, hx'] at hM'

end System

/-! ### What a done member shows is final -/

/-- A done ticker has come to its end, and so has a done manager with all its
watchers. -/
def Member.Sound : Member → Prop
  | .ticker t => t.isDone → t.phase = .finished
  | .manager m => (m.isDone → m.phase = .finished) ∧
      (m.phase = .finished → ∀ w ∈ m.watchers, w.phase = .finished)
  | .outsider _ => True

theorem Member.New.sound {s : System} {a : Action} {member : Member} (h : New s a member) :
    member.Sound := by
  cases h <;> simp [Sound, Ticker.start, Manager.start]

theorem Watcher.next_of_finished {isDone stopRequested : Bool} {error : Option RunError}
    {w : Watcher} (h : w.phase = .finished) : w.next isDone error stopRequested = none := by
  simp [next, h]

@[simp] theorem Manager.affected_phase (m : Manager) (isSelf : Bool) (effect : Watcher.Effect) :
    (m.affected isSelf effect).phase = m.phase := by
  cases effect <;> cases isSelf <;> rfl

@[simp] theorem Manager.affected_watchers (m : Manager) (isSelf : Bool) (effect : Watcher.Effect) :
    (m.affected isSelf effect).watchers = m.watchers := by
  cases effect <;> cases isSelf <;> rfl

@[simp] theorem Manager.affected_mailbox (m : Manager) (isSelf : Bool) (effect : Watcher.Effect) :
    (m.affected isSelf effect).mailbox = m.mailbox := by
  cases effect <;> cases isSelf <;> rfl

@[simp] theorem Manager.affected_isDone (m : Manager) (isSelf : Bool) (effect : Watcher.Effect) :
    (m.affected isSelf effect).isDone = m.isDone := by
  cases effect <;> cases isSelf <;> rfl

/-- What one step of a supervisor can be. -/
theorem Manager.supervise_cases {held : Bool} {m m' : Manager} (h : m.supervise held = some m') :
    (m.phase = .supervising ∧ (m.stopRequested ∨ m.mailbox = []) ∧
      m' = { m with phase := .draining }) ∨
    (∃ y ys, (m.phase = .supervising ∨ m.phase = .draining) ∧ m.mailbox = y :: ys ∧
      m' = { m with mailbox := ys }.watch y) ∨
    (m.phase = .draining ∧ m.mailbox = [] ∧ m' = { m with phase := .waiting }) ∨
    (m.phase = .waiting ∧ (∀ w ∈ m.watchers, w.phase = .finished) ∧
      m' = { m with phase := .finished, isDone := true }) := by
  unfold supervise at h
  split at h
  case h_1 hp =>
    split at h
    · cases h
      simp_all
    · split at h
      · cases h
        simp_all
      · split at h
        · cases h
        · cases h
          simp_all
  case h_2 hp =>
    split at h
    · cases h
      simp_all
    · cases h
      simp_all
  case h_3 hp =>
    split at h
    · rename_i hall
      cases h
      refine .inr (.inr (.inr ⟨hp, ?_, rfl⟩))
      simpa using hall
    · cases h
  case h_4 => cases h

theorem Ticker.drive_of_finished {now elapsed : Nat} {cancelled : Bool} {t : Ticker}
    (h : t.phase = .finished) : t.drive now elapsed cancelled = none := by
  simp [drive, h]

/-- What one step of a driver can be. -/
inductive Ticker.Driven (now elapsed : Nat) (cancelled : Bool) (t : Ticker) : Ticker → Prop
  | begun : t.phase = .starting →
      Driven now elapsed cancelled t { t with phase := .waiting (now + t.config.period) }
  | sawCancelled {due} : t.phase = .waiting due → cancelled →
      Driven now elapsed cancelled t { t with phase := .leaving (some .cancelled) }
  | sawStopped {due} : t.phase = .waiting due → cancelled = false → t.stopRequested →
      Driven now elapsed cancelled t { t with phase := .leaving none }
  | ticked {due} : t.phase = .waiting due → cancelled = false → t.stopRequested = false →
      due ≤ elapsed →
      Driven now elapsed cancelled t { t with phase := .ticking (t.config.next due now) }
  | recorded {error} : t.phase = .leaving error →
      Driven now elapsed cancelled t { t with error, phase := .recorded }
  | halted : t.phase = .recorded →
      Driven now elapsed cancelled t { t with stopRequested := true, phase := .halted }
  | released : t.phase = .halted → Driven now elapsed cancelled t { t with phase := .released }
  | finished : t.phase = .released →
      Driven now elapsed cancelled t { t with isDone := true, phase := .finished }

theorem Ticker.drive_cases {now elapsed : Nat} {cancelled : Bool} {t t' : Ticker}
    (h : t.drive now elapsed cancelled = some t') : Driven now elapsed cancelled t t' := by
  unfold drive at h
  split at h
  case h_1 hp =>
    cases h
    exact .begun hp
  case h_2 due hp =>
    split at h
    · rename_i hc
      cases h
      exact .sawCancelled hp hc
    · rename_i hc
      have hc : cancelled = false := by simpa using hc
      split at h
      · rename_i hstop
        cases h
        exact .sawStopped hp hc hstop
      · rename_i hstop
        split at h
        · rename_i hdue
          cases h
          exact .ticked hp hc (by simpa using hstop) hdue
        · cases h
  case h_3 => cases h
  case h_4 hp =>
    cases h
    exact .recorded hp
  case h_5 hp =>
    cases h
    exact .halted hp
  case h_6 hp =>
    cases h
    exact .released hp
  case h_7 hp =>
    cases h
    exact .finished hp
  case h_8 => cases h

theorem Ticker.tickEnded_cases {t t' : Ticker} {outcome : Outcome}
    (h : t.tickEnded outcome = some t') :
    ∃ next, t.phase = .ticking next ∧
      ((∃ e, RunError.ofOutcome outcome = some e ∧ t' = { t with phase := .leaving (some e) }) ∨
        (RunError.ofOutcome outcome = none ∧ t' = { t with phase := .waiting next })) := by
  unfold tickEnded at h
  split at h
  · rename_i next hp
    refine ⟨next, hp, ?_⟩
    split at h
    · rename_i e he
      cases h
      exact .inl ⟨e, he, rfl⟩
    · rename_i he
      cases h
      exact .inr ⟨he, rfl⟩
  · cases h

/-- A step of a driver that leaves the ticker done brings it to its end. -/
theorem Ticker.phase_of_drive {now elapsed : Nat} {cancelled : Bool} {t t' : Ticker}
    (hs : t.isDone → t.phase = .finished) (h : t.drive now elapsed cancelled = some t')
    (hd : t'.isDone) : t'.phase = .finished := by
  by_cases hdone : t.isDone
  · rw [drive_of_finished (hs hdone)] at h
    cases h
  · cases drive_cases h with
    | finished => rfl
    | _ => exact absurd hd hdone

theorem Ticker.phase_of_tickEnded {t t' : Ticker} {outcome : Outcome}
    (hs : t.isDone → t.phase = .finished) (h : t.tickEnded outcome = some t') : ¬ t'.isDone := by
  obtain ⟨next, hp, hnext⟩ := tickEnded_cases h
  have hdone : ¬ t.isDone := fun hd => by simp [hs hd] at hp
  rcases hnext with ⟨e, -, rfl⟩ | ⟨-, rfl⟩ <;> exact hdone

theorem Manager.sound_supervise {held : Bool} {m m' : Manager}
    (hs : Member.Sound (.manager m)) (h : m.supervise held = some m') :
    Member.Sound (.manager m') := by
  obtain ⟨hdone, -⟩ := hs
  rcases supervise_cases h with ⟨hp, -, rfl⟩ | ⟨y, ys, hp, -, rfl⟩ | ⟨hp, -, rfl⟩ | ⟨hp, hall, rfl⟩
  · exact ⟨fun hd => absurd (hdone hd) (by simp [hp]), by simp⟩
  · refine ⟨fun hd => hdone hd, fun hf => ?_⟩
    have hf : m.phase = .finished := hf
    rcases hp with hp | hp <;> simp [hp] at hf
  · exact ⟨fun hd => absurd (hdone hd) (by simp [hp]), by simp⟩
  · exact ⟨fun _ => rfl, fun _ => hall⟩

theorem Member.Change.sound {s : System} {x : Nat} {a : Action} {member member' : Member}
    (h : Change s x a member member') (hs : member.Sound) : member'.Sound := by
  cases h with
  | kept => exact hs
  | asked => cases member <;> exact hs
  | driven hdrive => exact Ticker.phase_of_drive hs hdrive
  | tickEnded hended => exact fun hd => absurd hd (Ticker.phase_of_tickEnded hs hended)
  | took | dropped => exact hs
  | supervised hsup => exact Manager.sound_supervise hs hsup
  | @watched m k w w' effect hw hnext =>
    refine ⟨by simpa using hs.1, fun hf => ?_⟩
    have hw' := hs.2 (by simpa using hf) w (List.mem_of_getElem? hw)
    rw [Watcher.next_of_finished hw'] at hnext
    cases hnext
  | settled => trivial

/-- A sound member that is done stays so, and shows the same error unless it comes from
outside and settles with another. -/
theorem Member.Change.of_done {s : System} {x : Nat} {a : Action} {member member' : Member}
    (h : Change s x a member member') (hs : member.Sound) (hd : member.isDone) :
    member'.isDone ∧ ((∀ e, a = .settle x e → member.error = e) → member'.error = member.error) := by
  cases h with
  | kept => exact ⟨hd, fun _ => rfl⟩
  | asked => cases member <;> exact ⟨hd, fun _ => rfl⟩
  | @driven t t' hdrive =>
    rw [Ticker.drive_of_finished (hs hd)] at hdrive
    cases hdrive
  | @tickEnded t t' outcome hended => simp [Ticker.tickEnded, show t.phase = _ from hs hd] at hended
  | took | dropped => exact ⟨hd, fun _ => rfl⟩
  | @supervised m m' hsup => simp [Manager.supervise, hs.1 hd] at hsup
  | @watched m k w w' effect hw hnext =>
    have hw' := hs.2 (hs.1 hd) w (List.mem_of_getElem? hw)
    rw [Watcher.next_of_finished hw'] at hnext
    cases hnext
  | settled => exact ⟨rfl, fun honest => (honest _ rfl).symm⟩

/-- A sound member that is done stays so, and shows the same error. -/
theorem Member.Change.final {s : System} {x : Nat} {a : Action} {member member' : Member}
    (h : Change s x a member member') (hs : member.Sound) (hd : member.isDone)
    (honest : ∀ e, a = .settle x e → member.error = e) :
    member'.isDone ∧ member'.error = member.error :=
  (h.of_done hs hd).imp_right fun hkeeps => hkeeps honest

/-- The error that a member from outside shows once it is done is final. -/
def KeepsError (H : List Moment) (x : Nat) : Prop :=
  ∀ μ ∈ H, ∀ e, μ.action = .settle x e → μ.found.isDone x → μ.found.error x = e

/-- Members from outside keep their error if none of them settles twice. -/
theorem keepsError_of_settled_once {H : List Moment}
    (h : H.all (fun μ => match μ.action with
      | .settle x _ => !μ.found.isDone x
      | _ => true) = true) (x : Nat) : KeepsError H x := by
  intro μ hμ e ha hd
  have := List.all_eq_true.mp h μ hμ
  simp [ha, hd] at this

namespace System

/-- Every member is sound. -/
def Sound (s : System) : Prop :=
  ∀ (x : Nat) (member : Member), s.members[x]? = some member → member.Sound

theorem sound_empty : empty.Sound := by
  intro x member h
  simp [empty] at h

theorem sound_step {s s' : System} {a : Action} (hs : s.Sound) (h : s.step a = some s') :
    s'.Sound := by
  intro x member' hx'
  rcases member_before h hx' with ⟨member, hx, hchange⟩ | ⟨-, hnew⟩
  · exact hchange.sound (hs x member hx)
  · exact hnew.sound

theorem sound_run {as : List Action} {s s' : System} (hs : s.Sound) (h : s.run as = some s') :
    s'.Sound :=
  run_induction (fun _ s => s.Sound) (fun hs h => sound_step hs h) (H := []) hs h

theorem isDone_of_getElem? {s : System} {x : Nat} {member : Member}
    (hx : s.members[x]? = some member) : s.isDone x = member.isDone := by
  simp [isDone, hx]

theorem error_of_getElem? {s : System} {x : Nat} {member : Member}
    (hx : s.members[x]? = some member) : s.error x = member.error := by
  simp [error, hx]

theorem getElem?_of_isDone {s : System} {x : Nat} (h : s.isDone x) :
    ∃ member, s.members[x]? = some member ∧ member.isDone := by
  unfold isDone at h
  cases hx : s.members[x]? with
  | none => simp [hx] at h
  | some member => exact ⟨member, rfl, by simpa [hx] using h⟩

/-- A done member is done for good. -/
theorem isDone_step {s s' : System} {a : Action} {x : Nat} (hs : s.Sound)
    (h : s.step a = some s') (hd : s.isDone x) : s'.isDone x := by
  obtain ⟨member, hx, hmd⟩ := getElem?_of_isDone hd
  obtain ⟨member', hx', hchange⟩ := step_member h hx
  rw [isDone_of_getElem? hx']
  exact (hchange.of_done (hs x member hx) hmd).1

theorem isDone_run {as : List Action} {s s' : System} {x : Nat} (hs : s.Sound)
    (h : s.run as = some s') (hd : s.isDone x) : s'.isDone x :=
  (run_induction (fun _ s => s.Sound ∧ s.isDone x)
    (fun ⟨hs, hd⟩ h => ⟨sound_step hs h, isDone_step hs h hd⟩) (H := []) ⟨hs, hd⟩ h).2

/-- A member that was done at some moment of a run is done at its end. -/
theorem isDone_of_moment {as : List Action} {s : System} {μ : Moment} {x : Nat}
    (h : empty.run as = some s) (hμ : μ ∈ history as) (hd : μ.found.isDone x) : s.isDone x := by
  obtain ⟨past, rest, rfl, hpast⟩ := run_to_moment hμ
  obtain ⟨found, hfound, hrest⟩ := run_split h
  obtain rfl : μ.found = found := Option.some.inj (hpast.symm.trans hfound)
  exact isDone_run (sound_run sound_empty hpast) hrest hd

/-- **A done member is done for good, and the error that it shows is final.** -/
theorem step_final {s s' : System} {a : Action} {x : Nat} (hs : s.Sound)
    (keeps : KeepsError [⟨s, a⟩] x) (h : s.step a = some s') (hd : s.isDone x) :
    s'.isDone x ∧ s'.error x = s.error x := by
  obtain ⟨member, hx, hmd⟩ := getElem?_of_isDone hd
  obtain ⟨member', hx', hchange⟩ := step_member h hx
  have hfinal := hchange.final (hs x member hx) hmd fun e he => by
    rw [← error_of_getElem? hx]
    exact keeps ⟨s, a⟩ (by simp) e he hd
  rwa [isDone_of_getElem? hx', error_of_getElem? hx', error_of_getElem? hx]

end System

end TickTree
