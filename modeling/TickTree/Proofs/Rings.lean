/-
# Rings of managers

A manager is done only after every member that it has taken, and once it is done it takes
nobody. So from a manager that is done to a member that it has taken, from there to one
taken by that, and so on, every way down comes to an end (`Attended.run`). Where managers
have taken one another in a ring, or one has taken itself, there is a way that goes round
for ever. So none of these is ever done, and no manager above one of them
(`rings_never_done`).

The invariant is about watchers (`Attends`): those that have seen their member done are
right. It asks nothing of errors, so members may show any, and change them.

Key definitions: `Accepted`, `Attends`, `Attended`.
Key theorems: `Attends.step`, `Attended.grounded_step`, `Attended.run`, `rings_never_done`.
-/
import TickTree.Proofs.Attending
import Mathlib.Data.List.Cycle

namespace TickTree

/-- Has manager `m` taken the member `x`? -/
def Accepted (H : List Moment) (x m : Nat) : Prop := x ∈ takenBy m H

theorem accepted_of_snoc {H : List Moment} {μ : Moment} {x m : Nat} (htaken : μ.taken m = none)
    (h : Accepted (H ++ [μ]) x m) : Accepted H x m := by
  rwa [Accepted, takenBy_snoc, htaken, Option.toList_none, List.append_nil] at h

/-! ### All managers -/

/-- Only a manager takes members, and only while its mailbox is open. -/
theorem Member.Change.taken {s : System} {x : Nat} {a : Action} {member member' : Member}
    (h : Change s x a member member') :
    Moment.taken x ⟨s, a⟩ = none ∨ ∃ M, member = .manager M ∧ M.isOpen := by
  cases h with
  | kept htouch | asked htouch => exact .inl (Moment.taken_of_touches htouch)
  | took hopen => exact .inr ⟨_, rfl, hopen⟩
  | _ => exact .inl rfl

/-- A manager becomes done when its supervisor has seen every watcher end. -/
theorem Member.Change.finishes {s : System} {x : Nat} {a : Action} {M M' : Manager}
    (h : Change s x a (.manager M) (.manager M')) (hd : ¬ M.isDone) (hd' : M'.isDone) :
    M.phase = .waiting ∧ ∀ w ∈ M.watchers, w.phase = .finished := by
  generalize hmember : Member.manager M' = member' at h
  cases h with
  | kept | asked | took | dropped =>
    obtain rfl := Member.manager.inj hmember
    exact absurd hd' hd
  | supervised hsup =>
    obtain rfl := Member.manager.inj hmember
    rcases Manager.supervise_cases hsup with
      ⟨-, -, rfl⟩ | ⟨y, ys, -, -, rfl⟩ | ⟨-, -, rfl⟩ | ⟨hp, hall, rfl⟩
    · exact absurd hd' hd
    · exact absurd hd' hd
    · exact absurd hd' hd
    · exact ⟨hp, hall⟩
  | watched =>
    obtain rfl := Member.manager.inj hmember
    exact absurd (by simpa using hd') hd

/-- Every manager attends to its members, and only managers have taken any. -/
structure Attended (H : List Moment) (s : System) : Prop where
  sound : s.Sound
  attends : ∀ m M, s.manager? m = some M → Attends m H s M
  before : ∀ m, s.manager? m = none → takenBy m H = []

namespace Attended

variable {H : List Moment} {s s' : System} {a : Action} {m x : Nat}

theorem stays_empty (hA : Attended H s) (hM : s.manager? m = none) (a : Action) :
    takenBy m (H ++ [⟨s, a⟩]) = [] := by
  obtain ⟨htaken, -⟩ := Moment.idle_of_no_manager (μ := ⟨s, a⟩) hM
  rw [takenBy_snoc, htaken, hA.before m hM]
  rfl

theorem step (hA : Attended H s) (h : s.step a = some s') : Attended (H ++ [⟨s, a⟩]) s' := by
  have managed (m : Nat) := System.manager_step (m := m) (P := Attends m (H ++ [⟨s, a⟩]) s') h
    (fun hM => .start (hA.stays_empty hM a))
    (fun M member' hM hchange => (hA.attends m M hM).step hA.sound h hchange)
  exact ⟨System.sound_step hA.sound h, fun m => (managed m).1,
    fun m hM' => hA.stays_empty ((managed m).2 hM') a⟩

theorem empty : Attended [] .empty where
  sound := System.sound_empty
  attends := fun m M hM => absurd hM (by simp [System.manager?, System.empty])
  before := fun _ _ => rfl

/-- Whoever has taken members is a manager. -/
theorem manager_of_accepted (hA : Attended H s) (hx : Accepted H x m) :
    ∃ M, s.manager? m = some M := by
  cases hM : s.manager? m with
  | some M => exact ⟨M, rfl⟩
  | none =>
    rw [Accepted, hA.before m hM] at hx
    exact absurd hx List.not_mem_nil

/-- The members that a done manager has taken are done. -/
theorem members_done (hA : Attended H s) (hd : s.isDone m) (hx : Accepted H x m) :
    s.isDone x := by
  obtain ⟨M, hM⟩ := hA.manager_of_accepted hx
  have hmember := System.members_of_manager? hM
  obtain ⟨hphase, hfinished⟩ := hA.sound m _ hmember
  have hp : M.phase = .finished := hphase ((System.isDone_of_getElem? hmember).symm.trans hd)
  exact (hA.attends m M hM).members_done (.inr hp) (hfinished hp) hx

/-- A manager that is done takes nobody. -/
theorem accepted_step (hA : Attended H s) (h : s.step a = some s') (hd : s.isDone m)
    (hx : Accepted (H ++ [⟨s, a⟩]) x m) : Accepted H x m := by
  obtain ⟨member, hmember, hmd⟩ := System.getElem?_of_isDone hd
  obtain ⟨member', -, hchange⟩ := System.step_member h hmember
  have htaken : Moment.taken m ⟨s, a⟩ = none := by
    rcases hchange.taken with htaken | ⟨M, rfl, hopen⟩
    · exact htaken
    · have hp : M.phase = .finished := (hA.sound m _ hmember).1 hmd
      simp [Manager.isOpen, hp] at hopen
  exact accepted_of_snoc htaken hx

/-- Every way down from a done member that came to an end still does. -/
theorem acc_step (hA : Attended H s) (h : s.step a = some s') (hacc : Acc (Accepted H) m) :
    s.isDone m → Acc (Accepted (H ++ [⟨s, a⟩])) m := by
  induction hacc with
  | intro m _ ih =>
    intro hd
    refine .intro m fun x hx => ?_
    have hx := hA.accepted_step h hd hx
    exact ih x hx (hA.members_done hd hx)

/-- What a manager has taken that becomes done in a step was done before the step. -/
theorem members_done_before (hA : Attended H s) (h : s.step a = some s') (hd : ¬ s.isDone m)
    (hd' : s'.isDone m) (hx : Accepted (H ++ [⟨s, a⟩]) x m) : s.isDone x := by
  obtain ⟨M', hM'⟩ := (hA.step h).manager_of_accepted hx
  have hmember' := System.members_of_manager? hM'
  rcases System.member_before h hmember' with ⟨member, hmember, hchange⟩ | ⟨hnone, -⟩
  · obtain ⟨M, rfl⟩ := hchange.was_manager rfl
    have hM : s.manager? m = some M := by simp [System.manager?, hmember]
    obtain ⟨hp, hall⟩ := hchange.finishes
      (by rwa [System.isDone_of_getElem? hmember] at hd)
      ((System.isDone_of_getElem? hmember').symm.trans hd')
    have hx : Accepted H x m := by
      rcases hchange.taken with htaken | ⟨M₁, heq, hopen⟩
      · exact accepted_of_snoc htaken hx
      · cases heq
        simp [Manager.isOpen, hp] at hopen
    exact (hA.attends m M hM).members_done (.inl hp) hall hx
  · have hempty := hA.stays_empty (m := m) (by simp [System.manager?, hnone]) a
    rw [Accepted, hempty] at hx
    exact absurd hx List.not_mem_nil

/-- **One step keeps the ways down from done members finite.** -/
theorem grounded_step (hA : Attended H s) (h : s.step a = some s')
    (hground : ∀ m, s.isDone m → Acc (Accepted H) m) (hd' : s'.isDone m) :
    Acc (Accepted (H ++ [⟨s, a⟩])) m := by
  by_cases hd : s.isDone m
  · exact hA.acc_step h (hground m hd) hd
  · refine .intro m fun x hx => ?_
    have hxd : s.isDone x := hA.members_done_before h hd hd' hx
    exact hA.acc_step h (hground x hxd) hxd

/-- **Ways down from done members are finite in every run.** -/
theorem run {as : List Action} (h : System.empty.run as = some s) :
    Attended (history as) s ∧ ∀ m, s.isDone m → Acc (Accepted (history as)) m :=
  System.run_induction (fun H s => Attended H s ∧ ∀ m, s.isDone m → Acc (Accepted H) m)
    (fun ⟨hA, hground⟩ h => ⟨hA.step h, fun _ hd => hA.grounded_step h hground hd⟩) (H := [])
    ⟨.empty, fun m hd => absurd hd (by simp [System.isDone, System.empty])⟩ h

end Attended

/-! ### Rings -/

section Ring

variable {α : Type} {r : α → α → Prop} {ring : Cycle α} {x y : α}

/-- In a ring, each stands below each. -/
theorem below_of_ring (hring : ring.Chain r) (hx : x ∈ ring) (hy : y ∈ ring) :
    Relation.TransGen r x y :=
  Cycle.chain_iff_pairwise.mp (hring.imp fun _ _ => .single) x hx y hy

/-- From a member of a ring, one way down goes round for ever. -/
theorem not_acc_of_ring (hring : ring.Chain r) (hx : x ∈ ring) : ¬ Acc r x := by
  intro hacc
  have hbelow : Relation.TransGen r x x := below_of_ring hring hx hx
  have htrans : Acc (Relation.TransGen r) x := hacc.transGen
  clear hx hacc
  induction htrans with
  | intro x _ ih => exact ih x hbelow hbelow

theorem acc_of_above (h : Relation.ReflTransGen r x y) (hacc : Acc r y) : Acc r x := by
  induction h with
  | refl => exact hacc
  | tail _ hstep ih => exact ih (hacc.inv hstep)

end Ring

/-- **Managers that have taken one another in a ring are never done.** Let a system run in
any order of actions, in which each manager of a ring is taken by the next, and the last
by the first; the ring may be one manager that has taken itself. Whoever is in the ring,
or has taken one of those below it, directly or through others, is a manager, and is
done neither at the end of the run nor at any time before. -/
theorem rings_never_done {as : List Action} {s : System} {ring : Cycle Nat}
    (h : System.empty.run as = some s) (hring : ring.Chain (Accepted (history as))) :
    ∀ x ∈ ring, ∀ m, Relation.ReflTransGen (Accepted (history as)) x m →
      (∃ M, s.manager? m = some M ∧ M.isDone = false) ∧
        ∀ μ ∈ history as, μ.found.isDone m = false := by
  intro x hx m habove
  obtain ⟨hA, hground⟩ := Attended.run h
  have hnot : ¬ s.isDone m := fun hd =>
    not_acc_of_ring hring hx (acc_of_above habove (hground m hd))
  have hmanager : ∃ M, s.manager? m = some M := by
    rcases habove.cases_tail with rfl | ⟨y, -, hy⟩
    · obtain ⟨y, -, hy⟩ := Relation.TransGen.tail'_iff.mp (below_of_ring hring hx hx)
      exact hA.manager_of_accepted hy
    · exact hA.manager_of_accepted hy
  obtain ⟨M, hM⟩ := hmanager
  refine ⟨⟨M, hM, ?_⟩, fun μ hμ => ?_⟩
  · rw [← Bool.not_eq_true, ← show s.isDone m = M.isDone from
      System.isDone_of_getElem? (System.members_of_manager? hM)]
    exact hnot
  · rw [← Bool.not_eq_true]
    exact fun hd => hnot (System.isDone_of_moment h hμ hd)

/-- Two managers take each other and a third takes one of them; then all are asked to
stop, and go on until they wait. -/
def stoppedRing : List Action :=
  [.newManager, .newManager, .newManager, .offer 1 0, .post 0, .offer 0 1, .post 0, .offer 2 0,
    .post 0, .supervise 0, .stop 0, .drop 0, .drop 1, .supervise 0, .supervise 0, .watch 0 0,
    .supervise 1, .supervise 1, .supervise 1, .watch 1 0, .stop 2, .supervise 2, .supervise 2,
    .supervise 2, .watch 2 0]

theorem rings_never_done_stopped : ∃ s, System.empty.run stoppedRing = some s ∧
    Cycle.Chain (Accepted (history stoppedRing)) [0, 1] ∧ Accepted (history stoppedRing) 0 2 ∧
    (s.manager? 0).map (·.phase) = some .waiting ∧ (s.manager? 2).map (·.phase) = some .waiting ∧
    s.isDone 0 = false ∧ s.isDone 2 = false := by
  let s := (System.empty.run stoppedRing).getD .empty
  have hs : System.empty.run stoppedRing = some s := rfl
  have h₀ : Accepted (history stoppedRing) 0 1 := List.mem_singleton.mpr rfl
  have h₁ : Accepted (history stoppedRing) 1 0 := List.mem_singleton.mpr rfl
  have h₂ : Accepted (history stoppedRing) 0 2 := List.mem_singleton.mpr rfl
  have hring : Cycle.Chain (Accepted (history stoppedRing)) [0, 1] := by
    rw [Cycle.chain_coe_cons]
    simp [h₀, h₁]
  have law := rings_never_done hs hring 0 (by simp)
  obtain ⟨⟨M₀, hM₀, hd₀⟩, -⟩ := law 0 .refl
  obtain ⟨⟨M₂, hM₂, hd₂⟩, -⟩ := law 2 (.single h₂)
  refine ⟨s, hs, hring, h₂, rfl, rfl, ?_, ?_⟩
  · exact (System.isDone_of_getElem? (System.members_of_manager? hM₀)).trans hd₀
  · exact (System.isDone_of_getElem? (System.members_of_manager? hM₂)).trans hd₂

end TickTree
