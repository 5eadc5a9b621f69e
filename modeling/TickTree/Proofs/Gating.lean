/-
# One sibling at a time

The siblings of a group are any nodes. Ticked in any order and number, one call
after the other, they advance one at a time (`Siblings.group_law`): a sibling whose
node expands to a tick runs it if that sibling is remembered running or none is,
and else answers what it is remembered with; and from the call in which a sibling
answers running to the first in which it answers something else, no other sibling
runs.

Gating looks at all siblings while a call changes one, so what carries the proof is
told of the whole past (`Siblings.Remembers`): each sibling is remembered with the status
of its last tick that was completed, and at most one with running.

Nothing is assumed of the nodes, nor of the other threads but that they leave the
group alone. That a sibling does not tick the group again while it runs needs no
assumption, since such a tick waits for a lock that its own thread holds.

Key definitions: `Siblings.Deed`, `Siblings.Takes`, `Siblings.lastStatus`, `Siblings.Turns`,
`Siblings.Calls`.
Key theorems: `Siblings.ticked_iff`, `Siblings.Remembers.takes`, `Siblings.group_law`.
-/
import TickTree.Proofs.Locking
import TickTree.Proofs.Resuming

namespace TickTree

variable {I : Interface} {σ : Type}

namespace Siblings

/-! ### What a call comes to -/

/-- What a call of a sibling came to: its node expanded to no tick; the sibling
might not run, and answered a status; it ran, and its tick ended so; or expanding
its node panicked. -/
inductive Deed where
  | absent
  | replayed (s : Status)
  | ran (ending : Ending TickResult)
  | died (payload : Payload)

namespace Deed

/-- How the call ended. -/
def ending : Deed → Ending TickResult
  | absent => .value (.error .missingTick)
  | replayed s => .value (.ok s)
  | ran ending => ending
  | died payload => .panic payload

/-- Did the sibling run its tick? -/
def isRun : Deed → Bool
  | ran _ => true
  | _ => false

/-- The status of a tick that was completed. -/
def status? : Deed → Option Status
  | ran (.value result) => some (statusOf result)
  | _ => none

end Deed

/-- What each sibling is remembered with after a call of sibling `index`. -/
def after (last : Nat → Option Status) (index : Nat) (deed : Deed) (i : Nat) : Option Status :=
  if i = index then deed.status?.or (last i) else last i

/-- A sibling advances if it is remembered running, or if none is. -/
def Advances (last : Nat → Option Status) (index : Nat) : Prop :=
  last index = some .running ∨ ∀ i, last i ≠ some .running

/-- The statuses that a group remembers. -/
def statuses (ref : Ref .statuses) (w : World I σ) : List (Nat × Status) := w.heap.get ref

section Call

variable (env : Environment I σ) (caller : Caller) (ref : Ref .statuses)

/-- The node is expanded under the lock of the group, which is then given back. -/
def Expands (node : Node I) (w : World I σ) (expansion : Option (Tick I) × List (Node I))
    (held : List Lock) (w' : World I σ) : Prop :=
  ∃ w₀ held₁ w₁, World.Spares ref w w₀ ∧
    node.expand.Among env (.sparing ref) caller [ref.lock] (w₀.hold ref.lock) (.value expansion)
      held₁ w₁ ∧
    held = held₁.filter (· != ref.lock) ∧ w' = w₁.unlock [ref.lock]

/-- The world when sibling `index` is remembered with the status. -/
def remembering (index : Nat) (s : Status) (w : World I σ) : World I σ :=
  { w with heap := w.heap.set ref (remember (statuses ref w) index s) }

/-- The tick runs under the lock of the group. If it is completed, its status is
remembered and the lock is given back; if it panics, neither. -/
def Runs (index : Nat) (tick : Tick I) (children : List (Node I)) (held : List Lock)
    (w : World I σ) (ending : Ending TickResult) (held' : List Lock) (w' : World I σ) : Prop :=
  ∃ w₀ held₁ w₁, World.Spares ref w w₀ ∧
    (tick.run children).Among env (.sparing ref) caller (ref.lock :: held) (w₀.hold ref.lock)
      ending held₁ w₁ ∧
    match ending with
    | .value result => held' = held₁.filter (· != ref.lock) ∧
        World.Spares ref ((remembering ref index (statusOf result) w₁).unlock [ref.lock]) w'
    | .panic _ => held' = held₁ ∧ w' = w₁

/-- **What a call of sibling `index` does**, if the siblings are remembered so. Its
node is expanded once. If that yields no tick, the call ends with the error for
that. If it yields one, the sibling runs it if the sibling advances, and else
answers what it is remembered with, or failure. -/
inductive Takes (index : Nat) (node : Node I) (last : Nat → Option Status) (w : World I σ) :
    Deed → World I σ → Prop
  | absent {children held w₁ w₂} : Expands env caller ref node w (none, children) held w₁ →
      World.Spares ref w₁ w₂ → Takes index node last w .absent (w₂.unlock held)
  | replayed {tick children held w₁ w₂} :
      Expands env caller ref node w (some tick, children) held w₁ → ¬ Advances last index →
      World.Spares ref w₁ w₂ →
      Takes index node last w (.replayed ((last index).getD .failure)) (w₂.unlock held)
  | ran {tick children held w₁ ending held' w₂} :
      Expands env caller ref node w (some tick, children) held w₁ → Advances last index →
      Runs env caller ref index tick children held w₁ ending held' w₂ →
      Takes index node last w (.ran ending) (w₂.unlock held')
  | died {payload w₀ held w₁} : World.Spares ref w w₀ →
      node.expand.Among env (.sparing ref) caller [ref.lock] (w₀.hold ref.lock)
        (.panic payload) held w₁ →
      Takes index node last w (.died payload) (w₁.unlock held)

end Call

/-- The group between two calls: nobody holds its lock, each sibling is remembered
so, and at most one with running. -/
structure Remembers (ref : Ref .statuses) (last : Nat → Option Status) (w : World I σ) : Prop where
  made : w.heap.Made ref
  unlocked : ref.lock ∉ w.locked
  distinct : ((statuses ref w).map Prod.fst).Nodup
  lookup : ∀ i, (statuses ref w).lookup i = last i
  one : ∀ i j, last i = some .running → last j = some .running → i = j

variable {env : Environment I σ} {caller : Caller} {ref : Ref .statuses} {index : Nat}
  {node : Node I} {last : Nat → Option Status} {w w₀ w₁ w₂ w' : World I σ} {held held' : List Lock}
  {deed : Deed} {ending : Ending TickResult}

/-! ### The statuses that are remembered -/

theorem lookup_of_mem {entries : List (Nat × Status)} (hdistinct : (entries.map Prod.fst).Nodup)
    {i : Nat} {s : Status} (hmem : (i, s) ∈ entries) : entries.lookup i = some s := by
  induction entries with
  | nil => cases hmem
  | cons entry entries ih =>
    obtain ⟨j, s'⟩ := entry
    rw [List.map_cons, List.nodup_cons] at hdistinct
    rcases List.mem_cons.mp hmem with he | hmem
    · cases he
      rw [List.lookup_cons, beq_self_eq_true]
    · have hne : i ≠ j := fun he => hdistinct.1 (List.mem_map.mpr ⟨(i, s), hmem, he⟩)
      rw [List.lookup_cons, beq_false_of_ne hne]
      exact ih hdistinct.2 hmem

theorem distinct_remember {entries : List (Nat × Status)}
    (hdistinct : (entries.map Prod.fst).Nodup) (index : Nat) (s : Status) :
    ((remember entries index s).map Prod.fst).Nodup := by
  have hothers : ((entries.filter fun entry => entry.1 != index).map Prod.fst).Nodup :=
    (List.filter_sublist.map Prod.fst).nodup hdistinct
  refine List.nodup_cons.mpr ⟨fun hmem => ?_, hothers⟩
  obtain ⟨entry, hentry, he⟩ := List.mem_map.mp hmem
  have hne := (List.mem_filter.mp hentry).2
  simp [he] at hne

namespace Remembers

theorem of_fresh (hfresh : w.Fresh ref) : Remembers ref (fun _ => none) w := by
  have hnil : statuses ref w = [] := hfresh.fresh
  refine ⟨hfresh.made, hfresh.unlocked, ?_, fun i => ?_, fun _ _ hi => nomatch hi⟩
  · rw [hnil]
    exact List.nodup_nil
  · rw [hnil]
    rfl

theorem spares (h : Remembers ref last w) (hspares : World.Spares ref w w') :
    Remembers ref last w' := by
  have hsame : statuses ref w' = statuses ref w := hspares.cell
  refine ⟨hspares.made h.made, fun hlocked => h.unlocked (hspares.lock.mp hlocked), ?_, ?_, h.one⟩
  · rw [hsame]
    exact h.distinct
  · rw [hsame]
    exact h.lookup

theorem isRunning_iff (h : Remembers ref last w) :
    isRunning (statuses ref w) ↔ ∃ i, last i = some .running := by
  rw [Siblings.isRunning_iff]
  constructor
  · rintro ⟨⟨i, s⟩, hmem, hrunning⟩
    refine ⟨i, ?_⟩
    rw [← h.lookup i, lookup_of_mem h.distinct hmem]
    simpa [Status.isRunning] using hrunning
  · rintro ⟨i, hi⟩
    exact ⟨_, mem_of_lookup ((h.lookup i).trans hi), rfl⟩

theorem mayRun_iff (h : Remembers ref last w) (index : Nat) :
    mayRun (statuses ref w) index ↔ Advances last index := by
  have hnone : isRunning (statuses ref w) = false ↔ ∀ i, last i ≠ some .running := by
    rw [← Bool.not_eq_true, h.isRunning_iff, not_exists]
  unfold mayRun Advances
  rw [h.lookup, Bool.or_eq_true, beq_iff_eq, Bool.not_eq_true', hnone]

theorem remembered_eq (h : Remembers ref last w) (index : Nat) :
    remembered (statuses ref w) index = (last index).getD .failure := by
  unfold remembered
  rw [h.lookup]

/-- The group when a sibling that advances has completed its tick. -/
theorem remember (h : Remembers ref last w) (hadvances : Advances last index) {s : Status}
    (hmade : w'.heap.Made ref) (hunlocked : ref.lock ∉ w'.locked)
    (hcell : statuses ref w' = Siblings.remember (statuses ref w) index s) :
    Remembers ref (fun i => if i = index then some s else last i) w' where
  made := hmade
  unlocked := hunlocked
  distinct := by
    rw [hcell]
    exact distinct_remember h.distinct index s
  lookup := fun i => by
    rw [hcell, lookup_remember, h.lookup]
  one := by
    -- were another sibling remembered running, this one would not have advanced
    have honly : ∀ i, last i = some .running → i = index := by
      intro i hi
      rcases hadvances with hindex | hnone
      · exact h.one i index hi hindex
      · exact absurd hi (hnone i)
    have hrunning : ∀ i, (if i = index then some s else last i) = some .running → i = index := by
      intro i hi
      by_cases he : i = index
      · exact he
      · rw [if_neg he] at hi
        exact honly i hi
    intro i j hi hj
    rw [hrunning i hi, hrunning j hj]

end Remembers

/-! ### One call -/

/-- What a sibling goes on with once its node is expanded and the group is read. -/
def answer (ref : Ref .statuses) (index : Nat) (entries : List (Nat × Status)) :
    Option (Tick I) × List (Node I) → Prog I TickResult
  | (none, _) => .pure (.error .missingTick)
  | (some tick, children) =>
    if mayRun entries index then gate ref index (tick.run children)
    else .pure (.ok (remembered entries index))

theorem call_eq (ref : Ref .statuses) (index : Nat) (node : Node I) :
    (Node.sibling ref index node).call =
      .request (.acquire .statuses ref) fun _ => node.expand.bind fun expansion =>
        .request (.read .statuses ref) fun entries =>
          .request (.release .statuses ref) fun _ => answer ref index entries expansion := by
  change Prog.request _ (fun _ => (node.expand.bind _).bind _) = _
  simp only [Prog.bind_assoc]
  congr 1
  funext _
  congr 1
  funext ⟨tick, children⟩
  cases tick with
  | none => rfl
  | some tick =>
    refine congrArg (Prog.request (.read .statuses ref)) (funext fun entries => ?_)
    refine congrArg (Prog.request (.release .statuses ref)) (funext fun _ => ?_)
    unfold answer
    by_cases hmay : mayRun entries index
    · simp only [hmay, if_true]
      rfl
    · simp only [hmay]
      rfl

/-- Taking the lock of a group that nobody holds. -/
theorem among_acquire_iff {α : Type} {next : Unit → Prog I α} {ending : Ending α}
    (hfree : ref.lock ∉ w.locked) :
    (Prog.request (.acquire .statuses ref) next).Among env (.sparing ref) caller held w ending
        held' w' ↔
      ∃ w₀, World.Spares ref w w₀ ∧ (next ()).Among env (.sparing ref) caller
        (ref.lock :: held) (w₀.hold ref.lock) ending held' w' := by
  rw [Prog.Among.acquire_iff]
  constructor
  · rintro ⟨w₀, ho, -, hnext⟩
    exact ⟨w₀, ho, hnext⟩
  · rintro ⟨w₀, ho, hnext⟩
    exact ⟨w₀, ho, fun hlocked => hfree (World.Spares.lock ho |>.mp hlocked), hnext⟩

/-- Reading the group and giving its lock back. -/
theorem among_leave_iff {α : Type} {next : List (Nat × Status) → Prog I α} {ending : Ending α} :
    (Prog.request (.read .statuses ref) fun entries =>
        Prog.request (.release .statuses ref) fun _ => next entries).Among env (.sparing ref)
        caller held w ending held' w' ↔
      ∃ w₁, World.Spares ref w w₁ ∧ (next (statuses ref w)).Among env (.sparing ref) caller
        (held.filter (· != ref.lock)) (w₁.unlock [ref.lock]) ending held' w' := by
  refine (Prog.Among.serve_iff rfl).trans ⟨?_, ?_⟩
  · rintro ⟨w₀, _, _, _, ho, hread, hnext⟩
    cases hread
    obtain ⟨w₁, _, _, _, ho₁, hrelease, hnext⟩ := (Prog.Among.serve_iff rfl).mp hnext
    cases hrelease
    have hcell : statuses ref w₀ = statuses ref w := ho.cell
    exact ⟨w₁, ho.trans ho₁, hcell ▸ hnext⟩
  · rintro ⟨w₁, ho, hnext⟩
    exact ⟨w, _, _, _, .refl ref w, rfl, .serve ho rfl hnext⟩

/-- Remembering a status and giving the lock of the group back. -/
theorem among_remember_iff {result : TickResult} :
    (Prog.request (.read .statuses ref) fun entries =>
        Prog.request (.swap .statuses ref (remember entries index (statusOf result))) fun _ =>
          Prog.request (.release .statuses ref) fun _ => .pure result).Among env (.sparing ref)
        caller held w ending held' w' ↔
      ending = .value result ∧ held' = held.filter (· != ref.lock) ∧
        ∃ w₁, World.Spares ref w w₁ ∧
          World.Spares ref ((remembering ref index (statusOf result) w₁).unlock [ref.lock]) w' := by
  refine (Prog.Among.serve_iff rfl).trans ⟨?_, ?_⟩
  · rintro ⟨w₀, _, _, _, ho, hread, hnext⟩
    cases hread
    obtain ⟨w₁, _, _, _, ho₁, hswap, hnext⟩ := (Prog.Among.serve_iff rfl).mp hnext
    cases hswap
    obtain ⟨w₂, _, _, _, ho₂, hrelease, hnext⟩ := (Prog.Among.serve_iff rfl).mp hnext
    cases hrelease
    obtain ⟨rfl, rfl, ho₃⟩ := Prog.Among.pure_iff.mp hnext
    have hcell : statuses ref w₀ = statuses ref w₁ := ho₁.cell.symm
    have hgiven := ho₂.unlock_both [ref.lock]
    change World.Spares ref (World.unlock ⟨w₁.heap.set ref
      (remember (statuses ref w₀) index (statusOf result)), w₁.locked, w₁.outside⟩ [ref.lock]) _
      at hgiven
    rw [hcell] at hgiven
    exact ⟨rfl, rfl, w₁, ho.trans ho₁, hgiven.trans ho₃⟩
  · rintro ⟨rfl, rfl, w₁, ho, ho'⟩
    exact ⟨w₁, _, _, _, ho, rfl, .serve (.refl ref w₁) rfl (.serve (.refl ref _) rfl (.pure ho'))⟩

theorem gate_eq (ref : Ref .statuses) (index : Nat) (p : Prog I TickResult) :
    gate ref index p = .request (.acquire .statuses ref) fun _ => p.bind fun result =>
      .request (.read .statuses ref) fun entries =>
        .request (.swap .statuses ref (remember entries index (statusOf result))) fun _ =>
          .request (.release .statuses ref) fun _ => .pure result := rfl

/-- Running a tick as a sibling. -/
theorem gate_iff {tick : Tick I} {children : List (Node I)} (hfree : ref.lock ∉ w.locked) :
    (gate ref index (tick.run children)).Among env (.sparing ref) caller held w ending held' w' ↔
      Runs env caller ref index tick children held w ending held' w' := by
  rw [gate_eq]
  refine (among_acquire_iff hfree).trans ?_
  constructor
  · rintro ⟨w₀, ho, hrun⟩
    rcases (Prog.Among.bind_iff).mp hrun with
      ⟨payload, rfl, hpanic⟩ | ⟨result, held₁, w₁, hresult, hrest⟩
    · exact ⟨w₀, _, _, ho, hpanic, rfl, rfl⟩
    · obtain ⟨rfl, rfl, w₂, ho₁, ho₂⟩ := among_remember_iff.mp hrest
      exact ⟨w₀, held₁, w₂, ho, hresult.trailing ho₁, rfl, ho₂⟩
  · rintro ⟨w₀, held₁, w₁, ho, hrun, hend⟩
    refine ⟨w₀, ho, ?_⟩
    cases ending with
    | panic payload =>
      obtain ⟨rfl, rfl⟩ := hend
      exact hrun.bind_panic
    | value result =>
      obtain ⟨rfl, ho'⟩ := hend
      exact hrun.bind (among_remember_iff.mpr ⟨rfl, rfl, w₁, .refl ref w₁, ho'⟩)

/-- Expanding the node of a sibling leaves the group as it was. -/
theorem Expands.spares {expansion : Option (Tick I) × List (Node I)} (hfree : ref.lock ∉ w.locked)
    (h : Expands env caller ref node w expansion held w') :
    World.Spares ref w w' ∧ ref.lock ∉ held := by
  obtain ⟨w₀, held₁, w₁, ho, hexpand, rfl, rfl⟩ := h
  obtain ⟨hspares, -⟩ := hexpand.spares (.sparing ref) rfl (node.awaits_expand rfl ref) List.mem_cons_self
  refine ⟨⟨fun hmade => hspares.made (ho.made hmade), hspares.cell.trans ho.cell, ?_⟩, by simp⟩
  simp [World.mem_unlock, hfree]

/-- **A call of a sibling and what is said of it are the same.** -/
theorem ticked_iff (h : Remembers ref last w) :
    (Node.sibling ref index node).Ticked env (.sparing ref) caller w ending w' ↔
      ∃ deed, Takes env caller ref index node last w deed w' ∧ deed.ending = ending := by
  have hmay := h.mayRun_iff index
  have hremembered := h.remembered_eq index
  constructor
  · rintro ⟨held, w₁, hcall, rfl⟩
    rw [call_eq] at hcall
    obtain ⟨w₀, ho, hexpand⟩ := (among_acquire_iff h.unlocked).mp hcall
    rcases (Prog.Among.bind_iff).mp hexpand with
      ⟨payload, rfl, hpanic⟩ | ⟨⟨tick, children⟩, held₁, w₂, hvalue, hrest⟩
    · exact ⟨.died payload, .died ho hpanic, rfl⟩
    · obtain ⟨w₃, ho₁, hanswer⟩ := among_leave_iff.mp hrest
      have hexpands : Expands env caller ref node w (tick, children)
          (held₁.filter (· != ref.lock)) (w₃.unlock [ref.lock]) :=
        ⟨w₀, held₁, w₃, ho, hvalue.trailing ho₁, rfl, rfl⟩
      have hspares := (hexpands.spares h.unlocked).1
      have hcell : statuses ref w₂ = statuses ref w := by
        have hsame : statuses ref w₃ = statuses ref w := hspares.cell
        exact ho₁.cell.symm.trans hsame
      rw [hcell] at hanswer
      cases tick with
      | none =>
        obtain ⟨rfl, rfl, ho₂⟩ := Prog.Among.pure_iff.mp hanswer
        exact ⟨.absent, .absent hexpands ho₂, rfl⟩
      | some tick =>
        by_cases hadvances : Advances last index
        · simp only [answer, hmay.mpr hadvances, if_true] at hanswer
          have hfree := (h.spares hspares).unlocked
          exact ⟨.ran ending, .ran hexpands hadvances ((gate_iff hfree).mp hanswer), rfl⟩
        · simp only [answer, mt hmay.mp hadvances, hremembered] at hanswer
          obtain ⟨rfl, rfl, ho₂⟩ := Prog.Among.pure_iff.mp hanswer
          exact ⟨_, .replayed hexpands hadvances ho₂, rfl⟩
  · have hcall : ∀ {expansion : Option (Tick I) × List (Node I)} {held held' w₁ w₂},
        Expands env caller ref node w expansion held w₁ →
        (answer ref index (statuses ref w) expansion).Among env (.sparing ref) caller held w₁
          ending held' w₂ →
        (Node.sibling ref index node).Ticked env (.sparing ref) caller w ending
          (w₂.unlock held') := by
      rintro expansion _ held' _ w₂ ⟨w₀, held₁, w₁, ho, hexpand, rfl, rfl⟩ hanswer
      have hspares := (hexpand.spares (.sparing ref) rfl (node.awaits_expand rfl ref) List.mem_cons_self).1
      have hcell : statuses ref w₁ = statuses ref w := hspares.cell.trans ho.cell
      refine ⟨held', w₂, ?_, rfl⟩
      rw [call_eq]
      refine (among_acquire_iff h.unlocked).mpr ⟨w₀, ho, hexpand.bind ?_⟩
      exact among_leave_iff.mpr ⟨w₁, .refl ref w₁, hcell ▸ hanswer⟩
    rintro ⟨deed, htakes, rfl⟩
    cases htakes with
    | absent hexpands ho => exact hcall hexpands (.pure ho)
    | replayed hexpands hadvances ho =>
      refine hcall hexpands ?_
      simp only [answer, mt hmay.mp hadvances, hremembered]
      exact .pure ho
    | ran hexpands hadvances hruns =>
      refine hcall hexpands ?_
      simp only [answer, hmay.mpr hadvances, if_true]
      exact (gate_iff (h.spares (hexpands.spares h.unlocked).1).unlocked).mpr hruns
    | died ho hpanic =>
      refine ⟨_, _, ?_, rfl⟩
      rw [call_eq]
      exact (among_acquire_iff h.unlocked).mpr ⟨_, ho, hpanic.bind_panic⟩

/-- After a call the group remembers the tick that was completed, if one was. -/
theorem Remembers.takes (h : Remembers ref last w)
    (htakes : Takes env caller ref index node last w deed w') :
    Remembers ref (after last index deed) w' := by
  have hsame : ∀ {deed : Deed}, deed.status? = none → after last index deed = last := by
    intro deed hnone
    funext i
    simp [after, hnone]
  cases htakes with
  | absent hexpands ho =>
    obtain ⟨hspares, hheld⟩ := hexpands.spares h.unlocked
    rw [hsame rfl]
    exact h.spares ((hspares.trans ho).trans (.unlock hheld))
  | replayed hexpands _ ho =>
    obtain ⟨hspares, hheld⟩ := hexpands.spares h.unlocked
    rw [hsame rfl]
    exact h.spares ((hspares.trans ho).trans (.unlock hheld))
  | @died payload w₀ held w₁ ho hpanic =>
    obtain ⟨hspares, hheld⟩ := hpanic.spares (.sparing ref) rfl (node.awaits_expand rfl ref) List.mem_cons_self
    rw [hsame rfl]
    refine h.spares ⟨fun hmade => hspares.made (ho.made hmade), hspares.cell.trans ho.cell, ?_⟩
    simp [World.mem_unlock, h.unlocked, hheld]
  | @ran tick children held w₁ ending held' w₂ hexpands hadvances hruns =>
    obtain ⟨hspares, hheld⟩ := hexpands.spares h.unlocked
    have h₁ := h.spares hspares
    obtain ⟨w₃, held₁, w₄, ho, hrun, hend⟩ := hruns
    obtain ⟨hspares', hheld'⟩ := hrun.spares (.sparing ref) rfl (tick.awaits_run rfl ref children) List.mem_cons_self
    have hmade := hspares'.made (ho.made h₁.made)
    have hcell : statuses ref w₄ = statuses ref w₁ := hspares'.cell.trans ho.cell
    cases ending with
    | panic payload =>
      obtain ⟨rfl, rfl⟩ := hend
      rw [hsame rfl]
      refine h₁.spares ⟨fun _ => hmade, hcell, ?_⟩
      simp [World.mem_unlock, h₁.unlocked, hheld']
    | value result =>
      obtain ⟨rfl, ho'⟩ := hend
      have hafter : after last index (.ran (.value result)) =
          fun i => if i = index then some (statusOf result) else last i := rfl
      rw [hafter]
      have hset : Remembers ref (fun i => if i = index then some (statusOf result) else last i)
          ((remembering ref index (statusOf result) w₄).unlock [ref.lock]) := by
        refine h₁.remember hadvances ((Heap.made_set _).mpr hmade) (by simp [World.mem_unlock]) ?_
        rw [← hcell]
        exact Heap.get_set hmade _
      exact hset.spares (ho'.trans (.unlock (by simp)))

/-! ### One call after the other -/

/-- A call of a sibling. -/
structure Turn where
  sibling : Nat
  deed : Deed

/-- The status of the last tick of sibling `i` that was completed, if one was. -/
def lastStatus (turns : List Turn) (i : Nat) : Option Status :=
  (turns.reverse.filter fun turn => turn.sibling == i).findSome? fun turn => turn.deed.status?

/-- Calls of siblings of a group, each run to completion before the next: which
sibling was called, and how the call ended. -/
inductive Calls (env : Environment I σ) (ref : Ref .statuses) (nodes : List (Node I))
    (w : World I σ) : List (Nat × Ending TickResult) → World I σ → Prop
  | none : Calls env ref nodes w [] w
  | next {calls i sibling caller ending} {w₁ w' : World I σ} : Calls env ref nodes w calls w₁ →
      (group ref nodes)[i]? = some sibling →
      sibling.Ticked env (.sparing ref) caller w₁ ending w' →
      Calls env ref nodes w (calls ++ [(i, ending)]) w'

/-- Calls of siblings of a group, with what each came to, given what the siblings
did before. -/
inductive Turns (env : Environment I σ) (ref : Ref .statuses) (nodes : List (Node I))
    (w : World I σ) : List Turn → World I σ → Prop
  | none : Turns env ref nodes w [] w
  | next {turns i node caller deed} {w₁ w' : World I σ} : Turns env ref nodes w turns w₁ →
      nodes[i]? = some node → Takes env caller ref i node (lastStatus turns) w₁ deed w' →
      Turns env ref nodes w (turns ++ [⟨i, deed⟩]) w'

/-- The call as it is seen from outside. -/
def Turn.call (turn : Turn) : Nat × Ending TickResult := (turn.sibling, turn.deed.ending)

theorem getElem?_group (ref : Ref .statuses) (nodes : List (Node I)) (i : Nat) :
    (group ref nodes)[i]? = nodes[i]?.map (.sibling ref i) := by
  rw [group, List.getElem?_mapIdx]

theorem lastStatus_append (turns : List Turn) (i : Nat) (deed : Deed) :
    lastStatus (turns ++ [⟨i, deed⟩]) = after (lastStatus turns) i deed := by
  funext j
  simp only [lastStatus, after, List.reverse_append, List.reverse_singleton, List.singleton_append]
  by_cases hj : j = i
  · subst hj
    rw [List.filter_cons_of_pos (by simp), if_pos rfl, List.findSome?_cons]
    cases deed.status? with
    | none => rfl
    | some s => rfl
  · rw [List.filter_cons_of_neg (by simpa using fun he : i = j => hj he.symm), if_neg hj]

section Law

variable {nodes : List (Node I)} {turns : List Turn}

theorem Turns.remembers (hfresh : w.Fresh ref) (h : Turns env ref nodes w turns w') :
    Remembers ref (lastStatus turns) w' := by
  induction h with
  | none => exact .of_fresh hfresh
  | next _ _ htakes ih =>
    rw [lastStatus_append]
    exact ih.takes htakes

/-- Calls are turns. -/
theorem calls_iff (hfresh : w.Fresh ref) {calls : List (Nat × Ending TickResult)} :
    Calls env ref nodes w calls w' ↔
      ∃ turns, Turns env ref nodes w turns w' ∧ turns.map Turn.call = calls := by
  constructor
  · intro h
    induction h with
    | none => exact ⟨[], .none, rfl⟩
    | @next calls i sibling caller ending w₁ w' _ hsibling hticked ih =>
      obtain ⟨turns, hturns, rfl⟩ := ih
      rw [getElem?_group, Option.map_eq_some_iff] at hsibling
      obtain ⟨node, hnode, rfl⟩ := hsibling
      obtain ⟨deed, htakes, rfl⟩ := (ticked_iff (hturns.remembers hfresh)).mp hticked
      exact ⟨_, .next hturns hnode htakes, List.map_append⟩
  · rintro ⟨turns, hturns, rfl⟩
    induction hturns with
    | none => exact .none
    | @next turns i node caller deed w₁ w' hturns hnode htakes ih =>
      have hsibling : (group ref nodes)[i]? = some (.sibling ref i node) := by
        rw [getElem?_group, hnode, Option.map_some]
      have hticked := (ticked_iff (hturns.remembers hfresh)).mpr ⟨deed, htakes, rfl⟩
      rw [List.map_append]
      exact .next ih hsibling hticked

/-- A call that answers running has run the tick of its sibling. -/
theorem Takes.status_of_running (htakes : Takes env caller ref index node last w deed w')
    (hrunning : deed.ending = .value (.ok .running)) : deed.status? = some .running := by
  cases htakes with
  | absent | died => cases hrunning
  | ran =>
    cases hrunning
    rfl
  | replayed hexpands hadvances =>
    -- a sibling that is remembered running advances
    refine absurd (Or.inl ?_) hadvances
    cases hlast : last index with
    | none =>
      simp [Deed.ending, hlast] at hrunning
    | some s =>
      simp only [Deed.ending, hlast, Option.getD_some] at hrunning
      cases hrunning
      rfl

/-- From the call in which sibling `i` answers running, while it answers nothing
else it is remembered running, and no other runs. -/
theorem Turns.exclusive (hfresh : w.Fresh ref) (h : Turns env ref nodes w turns w')
    {before between : List Turn} {i : Nat} (hturns : turns = before ++ ⟨i, deed⟩ :: between)
    (hrunning : deed.ending = .value (.ok .running))
    (honly : ∀ turn ∈ between, turn.sibling = i →
      ∀ result, turn.deed.ending = .value result → result = .ok .running) :
    lastStatus turns i = some .running ∧
      ∀ turn ∈ between, turn.sibling ≠ i → turn.deed.isRun = false := by
  induction h generalizing between with
  | none => simp at hturns
  | @next turns j node caller deed' w₁ w' hbefore hnode htakes ih =>
    have hremembers := hbefore.remembers hfresh
    rw [lastStatus_append]
    rcases List.eq_nil_or_concat between with rfl | ⟨earlier, turn, hbetween⟩
    · obtain ⟨rfl, hturn⟩ := List.append_inj' hturns rfl
      cases hturn
      refine ⟨?_, fun _ hmem => absurd hmem List.not_mem_nil⟩
      simp [after, htakes.status_of_running hrunning]
    · rw [List.concat_eq_append] at hbetween
      subst hbetween
      have hsplit : turns ++ [⟨j, deed'⟩] = (before ++ ⟨i, deed⟩ :: earlier) ++ [turn] := by
        simpa using hturns
      obtain ⟨rfl, hturn⟩ := List.append_inj' hsplit rfl
      cases hturn
      obtain ⟨hlast, hquiet⟩ := ih rfl fun turn hmem =>
        honly turn (List.mem_append_left _ hmem)
      have honly' := honly ⟨j, deed'⟩ (List.mem_append_right _ (List.mem_singleton.mpr rfl))
      have hadvances : ∀ k, Advances (lastStatus (before ++ ⟨i, deed⟩ :: earlier)) k → k = i := by
        rintro k (hk | hnone)
        · exact hremembers.one k i hk hlast
        · exact absurd hlast (hnone i)
      constructor
      · by_cases hj : i = j
        · subst hj
          rw [after, if_pos rfl, hlast]
          cases hstatus : deed'.status? with
          | none => rfl
          | some s =>
            -- only a tick that was completed has a status, and it answered running
            cases deed' with
            | absent | replayed | died => cases hstatus
            | ran ending =>
              cases ending with
              | panic => cases hstatus
              | value result =>
                obtain rfl := honly' rfl result rfl
                exact hstatus ▸ rfl
        · rw [after, if_neg hj, hlast]
      · intro turn hmem hne
        rcases List.mem_append.mp hmem with hmem | hmem
        · exact hquiet turn hmem hne
        · obtain rfl := List.mem_singleton.mp hmem
          cases htakes with
          | absent | replayed | died => rfl
          | ran _ hadvance _ => exact absurd (hadvances j hadvance) hne

/-- **Of the siblings of a group one advances at a time.** Whatever the nodes are,
from a fresh group, and among other threads that leave the group alone:

* the calls of the siblings, in any order and number, are turns, and turns are
  calls: so a call expands the node once, runs its tick if the sibling advances, and
  ends as `Siblings.Takes` says;
* after any turns, each sibling is remembered with the status of its last tick that
  was completed, an error counting as a failure, and at most one with running;
* from a turn of a sibling that answers running, and up to the first turn of that
  sibling that answers something else, no other sibling runs. -/
theorem group_law (env : Environment I σ) (nodes : List (Node I)) (hfresh : w.Fresh ref) :
    (∀ calls w', Calls env ref nodes w calls w' ↔
      ∃ turns, Turns env ref nodes w turns w' ∧ turns.map Turn.call = calls) ∧
    ∀ turns w', Turns env ref nodes w turns w' →
      (∀ i, (statuses ref w').lookup i = lastStatus turns i) ∧
      (∀ i j, lastStatus turns i = some .running → lastStatus turns j = some .running → i = j) ∧
      ∀ before i deed between, turns = before ++ ⟨i, deed⟩ :: between →
        deed.ending = .value (.ok .running) →
        (∀ turn ∈ between, turn.sibling = i →
          ∀ result, turn.deed.ending = .value result → result = .ok .running) →
        ∀ turn ∈ between, turn.sibling ≠ i → turn.deed.isRun = false := by
  refine ⟨fun calls w' => calls_iff hfresh, fun turns w' hturns => ?_⟩
  have hremembers := hturns.remembers hfresh
  refine ⟨hremembers.lookup, hremembers.one, ?_⟩
  intro before i deed between hsplit hrunning honly
  exact (hturns.exclusive hfresh hsplit hrunning honly).2

/-- The first of two siblings answers running; called after that, the second does
not run. -/
theorem group_law_secondWaits :
    let env : Environment (⟨Empty, fun _ => Empty⟩ : Interface) Unit :=
      ⟨fun _ _ _ => none, fun _ _ o => o⟩
    let nodes := [Node.leaf (.const (.ok .running)), Node.leaf (.const (.ok .success))]
    let w : World _ Unit := ⟨(Heap.empty.alloc .statuses).2, [], ()⟩
    w.Fresh (⟨0⟩ : Ref .statuses) ∧ ∃ w', Calls env ⟨0⟩ nodes w
      [(0, .value (.ok .running)), (1, .value (.ok .failure))] w' := by
  intro env nodes w
  have hfresh : w.Fresh (⟨0⟩ : Ref .statuses) :=
    ⟨Heap.made_alloc _ _, List.not_mem_nil, Heap.get_alloc _ _ _⟩
  have hexpands : ∀ (tick : Tick _) (w : World _ Unit), Expands env default ⟨0⟩ (.leaf tick) w
      (some tick, []) [] ((w.hold ⟨.statuses, 0⟩).unlock [⟨.statuses, 0⟩]) :=
    fun tick w => ⟨w, _, _, .refl _ w, .pure (.refl _ _), rfl, rfl⟩
  have hfirst : Turns env ⟨0⟩ nodes w ([] ++ [⟨0, .ran (.value (.ok .running))⟩]) _ :=
    .next .none rfl (.ran (hexpands _ w) (.inr fun _ => nofun)
      ⟨_, _, _, .refl _ _, .pure (.refl _ _), rfl, .refl _ _⟩)
  have hwaits : ¬ Advances (lastStatus ([] ++ [⟨0, .ran (.value (.ok .running))⟩])) 1 := by
    rintro (hsecond | hnone)
    · cases hsecond
    · exact hnone 0 rfl
  have hsecond := hfirst.next (i := 1) rfl (.replayed (hexpands _ _) hwaits (.refl _ _))
  exact ⟨hfresh, _, ((group_law env nodes hfresh).1 _ _).mpr ⟨_, hsecond, rfl⟩⟩

end Law

end Siblings

end TickTree
