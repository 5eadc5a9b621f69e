/-
# Members in the care of a manager

A member that a manager takes waits in the mailbox until the supervisor, before or after
it has closed the mailbox, starts a watcher for it. So the members taken are at every time
those of the watchers followed by those in the mailbox, in the order in which they were
taken (`Attends.taken`). The supervisor ends when the mailbox is empty and every watcher
has ended, and a watcher that has ended has seen its member done; so then all the members
taken are done (`Attends.members_done`).

Nothing of this depends on the errors of the members.

Key definitions: `Attends`.
Key theorems: `Attends.step`, `Attends.members_done`.
-/
import TickTree.Proofs.History

namespace TickTree

/-! ### Watchers -/

/-- Has the watcher seen its member done? -/
def Watcher.sawEnd (w : Watcher) : Bool := w.phase matches .settling | .raising | .finished

/-- A watcher that has seen its member done has just done so, or had before. -/
theorem Watcher.sawEnd_of_next {isDone stopRequested : Bool} {error : Option RunError}
    {w w' : Watcher} {effect : Watcher.Effect}
    (h : w.next isDone error stopRequested = some (w', effect)) (he : w'.sawEnd) :
    isDone ∨ w.sawEnd := by
  rcases next_cases h with ⟨-, hd, -⟩ | ⟨-, -, -, rfl, -⟩ | ⟨-, hd, -⟩ | ⟨e, hp, -⟩ | ⟨hp, -⟩ |
    ⟨hp, -⟩
  · exact .inl hd
  · simp [sawEnd] at he
  · exact .inl hd
  all_goals exact .inr (by simp [sawEnd, hp])

theorem map_set_of_eq {α β : Type} (f : α → β) {l : List α} {k : Nat} {a b : α}
    (h : l[k]? = some a) (hf : f b = f a) : (l.set k b).map f = l.map f := by
  obtain ⟨hk, rfl⟩ := List.getElem?_eq_some_iff.mp h
  rw [List.map_set, hf, ← List.map_set, List.set_getElem_self]

/-! ### One manager -/

/-- After the history `H`, manager `M` at place `m` has a watcher for every member taken
that no longer waits in the mailbox, and watchers that have seen the end of their member
are right. -/
structure Attends (m : Nat) (H : List Moment) (s : System) (M : Manager) : Prop where
  taken : takenBy m H = M.watchers.map Watcher.member ++ M.mailbox
  mailbox : M.phase = .waiting ∨ M.phase = .finished → M.mailbox = []
  done : ∀ w ∈ M.watchers, w.sawEnd → s.isDone w.member

namespace Attends

variable {m : Nat} {H : List Moment} {s s' : System} {M M' : Manager} {a : Action}

theorem start (h : takenBy m H = []) : Attends m H s .start where
  taken := h
  mailbox := fun _ => rfl
  done := fun _ hw => absurd hw List.not_mem_nil

/-- A moment at which the manager takes nobody, and after which its members, mailbox and
phase are as before. -/
theorem idle {μ : Moment} (hA : Attends m H s M) (htaken : μ.taken m = none)
    (hwatchers : M'.watchers = M.watchers) (hmailbox : M'.mailbox = M.mailbox)
    (hphase : M'.phase = M.phase) : Attends m (H ++ [μ]) s M' where
  taken := by rw [takenBy_snoc, htaken, hA.taken, hwatchers, hmailbox, Option.toList_none,
    List.append_nil]
  mailbox := by rw [hphase, hmailbox]; exact hA.mailbox
  done := by rw [hwatchers]; exact hA.done

/-- The manager takes a member. -/
theorem take {μ : Moment} {y : Nat} (hA : Attends m H s M) (hopen : M.isOpen)
    (htaken : μ.taken m = some y) : Attends m (H ++ [μ]) s (M.post y) where
  taken := by rw [takenBy_snoc, htaken, hA.taken, Option.toList_some, List.append_assoc]; rfl
  mailbox := fun hp => by
    have hp : M.phase = .waiting ∨ M.phase = .finished := hp
    have hopen : M.phase = .supervising := by simpa [Manager.isOpen] using hopen
    simp [hopen] at hp
  done := hA.done

/-- The supervisor starts a watcher for the next member in the mailbox. -/
theorem watch {y : Nat} {ys : List Nat} (hA : Attends m H s M) (hbox : M.mailbox = y :: ys)
    (hp : M.phase = .supervising ∨ M.phase = .draining) :
    Attends m H s ({ M with mailbox := ys }.watch y) where
  taken := by
    rw [hA.taken, hbox]
    simp [Manager.watch]
  mailbox := fun hp' => by
    have hp' : M.phase = .waiting ∨ M.phase = .finished := hp'
    rcases hp with hp | hp <;> simp [hp] at hp'
  done := fun w hw he => by
    rcases List.mem_append.mp hw with hw | hw
    · exact hA.done w hw he
    · obtain rfl := List.mem_singleton.mp hw
      simp [Watcher.sawEnd] at he

/-- A step of the supervisor. -/
theorem supervise {held : Bool} (hA : Attends m H s M) (h : M.supervise held = some M') :
    Attends m H s M' := by
  rcases Manager.supervise_cases h with
    ⟨-, -, rfl⟩ | ⟨y, ys, hp, hbox, rfl⟩ | ⟨-, hbox, rfl⟩ | ⟨hp, -, rfl⟩
  · exact { hA with mailbox := fun hp => by simp at hp }
  · exact hA.watch hbox hp
  · exact { hA with mailbox := fun _ => hbox }
  · exact { hA with mailbox := fun _ => hA.mailbox (.inl hp) }

/-- A watcher goes on from `w` to `w'`. -/
theorem advance {k : Nat} {w w' : Watcher} (hA : Attends m H s M) (hw : M.watchers[k]? = some w)
    (hmember : w'.member = w.member) (hdone : w'.sawEnd → s.isDone w.member) :
    Attends m H s { M with watchers := M.watchers.set k w' } where
  taken := by rw [hA.taken, map_set_of_eq Watcher.member hw hmember]
  mailbox := hA.mailbox
  done := fun v hv he => by
    rcases List.mem_or_eq_of_mem_set hv with hv | rfl
    · exact hA.done v hv he
    · rw [hmember]
      exact hdone he

/-- A step of one of the watchers. -/
theorem watched {μ : Moment} {k : Nat} {w w' : Watcher} {effect : Watcher.Effect} {isSelf : Bool}
    (hA : Attends m H s M) (htaken : μ.taken m = none) (hw : M.watchers[k]? = some w)
    (hnext : w.next (s.isDone w.member) (s.error w.member) M.stopRequested = some (w', effect)) :
    Attends m (H ++ [μ]) s
      ({ M with watchers := M.watchers.set k w' }.affected isSelf effect) := by
  have hadvance := hA.advance hw (Watcher.next_member hnext) fun he =>
    (Watcher.sawEnd_of_next hnext he).elim id (hA.done w (List.mem_of_getElem? hw))
  exact hadvance.idle htaken (by simp) (by simp) (by simp)

/-- **Managers go on attending to their members in every step.** -/
theorem step {member' : Member} (hA : Attends m H s M) (hs : s.Sound) (h : s.step a = some s')
    (hchange : Member.Change s m a (.manager M) member') :
    ∃ M', member' = .manager M' ∧ Attends m (H ++ [⟨s, a⟩]) s' M' := by
  suffices ∃ M', member' = .manager M' ∧ Attends m (H ++ [⟨s, a⟩]) s M' by
    obtain ⟨M', hM', hA'⟩ := this
    exact ⟨M', hM', { hA' with
      done := fun w hw he => System.isDone_step hs h (hA'.done w hw he) }⟩
  cases hchange with
  | kept htouch => exact ⟨M, rfl, hA.idle (Moment.taken_of_touches htouch) rfl rfl rfl⟩
  | asked htouch => exact ⟨_, rfl, hA.idle (Moment.taken_of_touches htouch) rfl rfl rfl⟩
  | took hopen htaken => exact ⟨_, rfl, hA.take hopen htaken⟩
  | dropped => exact ⟨_, rfl, hA.idle rfl rfl rfl rfl⟩
  | supervised hsup => exact ⟨_, rfl, (hA.idle rfl rfl rfl rfl).supervise hsup⟩
  | watched hw hnext => exact ⟨_, rfl, hA.watched rfl hw hnext⟩

/-- If every watcher has ended, all the members are done. -/
theorem members_done (hA : Attends m H s M) (hp : M.phase = .waiting ∨ M.phase = .finished)
    (hall : ∀ w ∈ M.watchers, w.phase = .finished) {x : Nat} (hx : x ∈ takenBy m H) :
    s.isDone x := by
  rw [hA.taken, hA.mailbox hp, List.append_nil] at hx
  obtain ⟨w, hw, rfl⟩ := List.mem_map.mp hx
  exact hA.done w hw (by simp [Watcher.sawEnd, hall w hw])

end Attends

/-! ### No manager -/

/-- A moment that finds no manager at place `m` takes nobody there, and has no
watcher of `m` at work. -/
theorem Moment.idle_of_no_manager {m : Nat} {μ : Moment} (h : μ.found.manager? m = none) :
    μ.taken m = none ∧ ∀ k, μ.stopped m k = none := by
  obtain ⟨s, a⟩ := μ
  have h : s.manager? m = none := h
  constructor
  · cases a with
    | post k =>
      simp only [taken, System.taken?, Option.map_eq_none_iff, Option.filter_eq_none_iff]
      intro o ho hm
      obtain ⟨-, hopen⟩ := Option.filter_eq_some_iff.mp ho
      rw [beq_iff_eq] at hm
      simp [hm, h] at hopen
    | _ => rfl
  · intro k
    cases hstop : stopped m k ⟨s, a⟩ with
    | none => rfl
    | some x =>
      obtain ⟨M, w, w', hM, -⟩ := System.watcherStops_cases (stopped_cases hstop).2
      exact absurd (h.symm.trans hM) (by simp)

end TickTree
