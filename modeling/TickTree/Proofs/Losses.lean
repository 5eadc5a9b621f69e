/-
# Threads that die

A fork and an asynchronous tick have others run what they start, and neither panics when
one of these does.

A node that is ticked in parallel and panics has no report. The thread that waits for it
waits for one node less, and as long as it waits it never gets such a report
(`Machine.Unheard.runs`). A fork goes on with the children that have reported running.
The one that has died is not among them, and the cycle ends with an error
(`Fork.Calls.ends_in_error`).

The panic of a worker is kept like a result. The first call after it hands back the
error for that, and the next finds no worker (`Asynchronous.Account.Follows.hands_back_lost`).

Key definitions: `Machine.Unheard`, `Fork.Call.Loses`.
Key theorems: `Machine.unheard_of_panic`, `Fork.Calls.ends_in_error`,
`Asynchronous.Account.Follows.hands_back_lost`.
-/
import TickTree.Proofs.ForkCycle
import TickTree.Proofs.WorkerLog
import Mathlib.Data.List.Perm.Subperm

namespace TickTree

variable {I : Interface} {σ : Type}

/-! ### Nodes ticked in parallel -/

/-- With its last step a thread gives its locks back, and does nothing else. -/
theorem Thread.world_of_outcome {env : Environment I σ} {t : Thread I} {w : World I σ}
    {s : Step I σ} {outcome : Outcome} (hs : t.step env w = some s)
    (hout : s.thread.outcome? = some outcome) : s.world = w.unlock t.held := by
  have hleave : ∀ next last, (t.leave w next last).world = w.unlock t.held := by
    intro next last
    unfold leave
    split <;> rfl
  unfold step at hs
  split at hs
  · cases hs
    exact hleave _ _
  · rename_i r next hact
    cases r with
    | panic payload =>
      cases hs
      exact hleave _ _
    | tick | parallel | start =>
      cases hs
      cases hout
    | read | swap | alloc | acquire | release | ask =>
      simp only [serve, Option.map_eq_some_iff] at hs
      obtain ⟨_, -, rfl⟩ := hs
      cases hout
  · cases hs
    cases hout
  · cases hs
  · cases hs

namespace Machine

variable {env : Environment I σ} {parent position : Nat} {m m₁ m' : Machine I σ} {t : Thread I}
  {pre post threads threads' : List (Thread I)} {width : Nat → Nat}

/-- No thread ticks the node at the position for the thread `parent`, and that has no report
of it if it waits. -/
def Unheard (parent position : Nat) (threads : List (Thread I)) : Prop :=
  ∀ u ∈ threads, u.origin ≠ .child parent position ∧
    (u.id = parent → ∀ pending reports next, u.activity = .joining pending reports next →
      position ∉ reports.map (·.position))

theorem Unheard.append (h : Unheard parent position threads)
    (h' : Unheard parent position threads') : Unheard parent position (threads ++ threads') :=
  fun u hu => (List.mem_append.mp hu).elim (h u) (h' u)

theorem Unheard.subset (h : Unheard parent position threads) (hsub : threads' ⊆ threads) :
    Unheard parent position threads' :=
  fun u hu => h u (hsub hu)

/-- Reports of other nodes make no difference. -/
theorem Unheard.receive (h : Unheard parent position threads) {p : Nat} {report : Option Report}
    (hreport : p = parent → ∀ r ∈ report, r.position ≠ position) :
    Unheard parent position
      (threads.map fun u => if u.id == p then u.receive report else u) := by
  intro v hv
  obtain ⟨u, hu, rfl⟩ := List.mem_map.mp hv
  obtain ⟨horigin, hwaits⟩ := h u hu
  by_cases hp : u.id == p
  · rw [if_pos hp]
    have hcaller := receive_toCaller (u := u) report
    refine ⟨congrArg Caller.origin hcaller ▸ horigin, fun hid pending reports next hact => ?_⟩
    rw [congrArg Caller.id hcaller] at hid
    unfold Thread.receive at hact
    split at hact
    · rename_i pending₀ reports₀ next₀ hjoining
      cases hact
      rw [List.map_append, List.mem_append]
      rintro (hmem | hmem)
      · exact hwaits hid _ _ _ hjoining hmem
      · obtain ⟨r, hr, he⟩ := List.mem_map.mp hmem
        have hp : u.id = p := by simpa using hp
        exact hreport (hp.symm.trans hid) r (Option.mem_toList.mp hr) he
    · exact hwaits hid _ _ _ hact
  · rw [if_neg hp]
    exact ⟨horigin, hwaits⟩

/-- Another thread than the one that waits takes a step. -/
theorem Unheard.commits (h : Unheard parent position (pre ++ t :: post)) (hne : t.id ≠ parent)
    {nextId nextId' : Nat} (hcommits : Thread.Commits pre t post nextId threads' nextId') :
    Unheard parent position threads' := by
  have hpre : Unheard parent position pre := h.subset (List.subset_append_left _ _)
  have hpost : Unheard parent position post := fun u hu => h u (by simp [hu])
  have hself : ∀ t' : Thread I, t'.toCaller = t.toCaller → Unheard parent position [t'] := by
    intro t' hcaller u hu
    obtain rfl := List.mem_singleton.mp hu
    refine ⟨congrArg Caller.origin hcaller ▸ (h t (by simp)).1, fun hid => absurd ?_ hne⟩
    exact (congrArg Caller.id hcaller).symm.trans hid
  have hbegun : ∀ (id : Nat) (origin : Origin) (p : Prog I TickResult),
      origin ≠ .child parent position → Unheard parent position [.begin id origin p] := by
    intro id origin p horigin u hu
    obtain rfl := List.mem_singleton.mp hu
    exact ⟨horigin, fun _ _ _ _ hact => by cases hact⟩
  cases hcommits with
  | @parallel nodes next =>
    have hjoins := hself ⟨t.toCaller, .joining nodes.length [] next, t.held, t.frames⟩ rfl
    refine (hpre.append (.append (fun u hu => ?_) hjoins)).append hpost
    obtain ⟨i, hi, rfl⟩ := List.mem_mapIdx.mp hu
    refine hbegun _ _ _ (fun he => hne ?_) _ (List.mem_singleton.mpr rfl)
    cases he
    rfl
  | other _ hcaller _ hstart =>
    refine (hpre.append (.append (fun u hu => ?_) (hself _ hcaller))).append hpost
    obtain ⟨i, hi, rfl⟩ := List.mem_mapIdx.mp hu
    exact hbegun _ _ _ (hstart _ (List.getElem_mem hi) _ _) _ (List.mem_singleton.mpr rfl)
  | @child p q report _ horigin hreport =>
    refine (hpre.append hpost).receive fun hp r hr he => (h t (by simp)).1 ?_
    rw [horigin, hp, ← hreport r hr, he]
  | worker => exact hpre.append hpost

theorem Unheard.moves {mover : Option Nat} (h : Unheard parent position m.threads)
    (hsound : Sound width m.threads m.nextId) (hmoves : Moves env mover m m')
    (hmover : parent ∉ mover) : Unheard parent position m'.threads := by
  cases hmoves with
  | @thread _ _ t ht hstep =>
    obtain ⟨pre, post, hsplit⟩ := List.append_of_mem ht
    have hcommits := commits_of_stepThread hsound.ids hsplit hstep
    rw [hsplit] at h
    exact h.commits (fun he => hmover (he ▸ rfl)) hcommits
  | world w => exact h
  | spawn tag prog =>
    refine h.append fun u hu => ?_
    obtain rfl := List.mem_singleton.mp hu
    exact ⟨nofun, fun _ _ _ _ hact => by cases hact⟩
  | forget => exact h.subset (List.filter_subset_self _)

/-- As long as only others move it stays so. -/
theorem Unheard.runs {still : Nat → Prop} (h : Unheard parent position m.threads)
    (hsound : Sound width m.threads m.nextId) (hruns : Runs env still m m')
    (hstill : still parent) : Unheard parent position m'.threads := by
  induction hruns generalizing width with
  | refl => exact h
  | move hmoves hmover _ ih =>
    obtain ⟨width₁, hsound₁, -⟩ := hsound.moves hmoves
    exact ih (h.moves hsound hmoves fun hmem => hmover _ hmem hstill) hsound₁

/-- A thread waits for a node that is being ticked: it has no report of it, and no other
thread ticks it. -/
theorem Sound.unheard {rest : List (Thread I)} {nextId : Nat} {u : Thread I}
    (h : Sound width (t :: rest) nextId) (horigin : t.origin = .child parent position)
    (hu : u ∈ t :: rest) (hid : u.id = parent) : Unheard parent position rest := by
  have hwaits := h.waits u hu
  rw [hid, awaited_cons_some (ticksFor_eq_some.mpr horigin)] at hwaits
  have hrest : ∀ v ∈ rest, position ∉ awaited rest parent → v.origin ≠ .child parent position :=
    fun v hv hnot he => hnot (List.mem_filterMap.mpr ⟨v, hv, ticksFor_eq_some.mpr he⟩)
  intro v hv
  unfold Waits at hwaits
  split at hwaits
  · rename_i pending reports next hjoining
    obtain ⟨-, hnodup, -⟩ := hwaits
    obtain ⟨-, hawaited, hreports⟩ := List.nodup_append.mp hnodup
    refine ⟨hrest v hv (List.nodup_cons.mp hawaited).1, fun hv' pending' reports' next' hact => ?_⟩
    obtain rfl : v = u :=
      List.inj_on_of_nodup_map h.ids (List.mem_cons_of_mem _ hv) hu (hv'.trans hid.symm)
    cases hact.symm.trans hjoining
    exact fun hmem => hreports position hmem position List.mem_cons_self rfl
  · cases hwaits

/-- **A node that is ticked in parallel panics.** The thread that waits for it is handed no
report, the cells stay as they are, and the locks of the thread that has died are given
back. -/
theorem unheard_of_panic (hsound : Sound width m.threads m.nextId) (ht : t ∈ m.threads)
    (horigin : t.origin = .child parent position) {u : Thread I} (hu : u ∈ m.threads)
    (hid : u.id = parent) (hstep : m.stepThread env t = some m₁) {s : Step I σ} {payload : Payload}
    (hs : t.step env m.world = some s) (hpanic : s.thread.outcome? = some (.panicked payload)) :
    Unheard parent position m₁.threads ∧ u.receive none ∈ m₁.threads ∧
      m₁.world.heap = m.world.heap ∧ m₁.world.locked = (m.world.unlock t.held).locked := by
  obtain ⟨pre, post, hsplit⟩ := List.append_of_mem ht
  obtain ⟨s', hs', hcommitted⟩ := committed_of_stepThread hsound.ids hsplit hstep
  cases hs.symm.trans hs'
  rw [hsplit] at hsound hu
  have hfirst : Sound width (t :: (pre ++ post)) m.nextId := hsound.perm List.perm_middle
  have hu : u ∈ t :: (pre ++ post) := List.perm_middle.mem_iff.mp hu
  have hworld := Thread.world_of_outcome hs hpanic
  cases hcommitted with
  | on hout => cases hpanic.symm.trans hout
  | outside _ hfrom | worker _ hfrom => cases horigin.symm.trans hfrom
  | child hout hfrom =>
    cases horigin.symm.trans hfrom
    cases hpanic.symm.trans hout
    have hne : u ≠ t := by
      rintro rfl
      cases Thread.stepped_of_step hs with
      | parallel => cases hpanic
      | other halone =>
        have hnone := hfirst.awaited_eq_nil halone.joining
        rw [hid, awaited_cons_some (ticksFor_eq_some.mpr horigin)] at hnone
        cases hnone
    have hu' := (List.mem_cons.mp hu).resolve_left hne
    refine ⟨(hfirst.unheard horigin hu hid).receive nofun, List.mem_map.mpr ⟨u, hu', ?_⟩, ?_, ?_⟩
    · rw [if_pos (by simpa using hid)]
      rfl
    · exact hworld ▸ rfl
    · exact hworld ▸ rfl

end Machine

/-! ### Forks -/

/-- If a node has no report there are fewer reports than nodes. -/
theorem Arrivals.length_lt {n position : Nat} {reports : List Report} (h : Arrivals n reports)
    (hlt : position < n) (hnone : position ∉ reports.map (·.position)) : reports.length < n := by
  have hsub : reports.map (·.position) ⊆ (List.range n).erase position := by
    intro p hp
    obtain ⟨report, hmem, rfl⟩ := List.mem_map.mp hp
    have hne : report.position ≠ position := fun he => hnone (he ▸ hp)
    exact (List.mem_erase_of_ne hne).mpr (List.mem_range.mpr (h.known report hmem))
  have hle := (h.once.subperm hsub).length_le
  rw [List.length_map, List.length_erase_of_mem (List.mem_range.mpr hlt), List.length_range] at hle
  omega

namespace Fork

variable {env : Environment I (List (Note I))} {ref : Ref .round} {w w' : World I (List (Note I))}
  {calls past more : List (Call I)} {call : Call I} {child : Nat}

/-- The child with this number is due, and the call has no report of it. -/
def Call.Loses (call : Call I) (due : List Nat) (child : Nat) : Prop :=
  child ∈ due ∧ ∀ result, (child, result) ∉ byChild due call.reports

/-- A child is lost whose position among those that are ticked has no report. -/
theorem Call.loses_of_getElem? {due : List Nat} {position : Nat} (hdistinct : due.Nodup)
    (hchild : due[position]? = some child) (hnone : position ∉ call.reports.map (·.position)) :
    call.Loses due child := by
  refine ⟨List.mem_of_getElem? hchild, fun result hmem => hnone ?_⟩
  obtain ⟨report, hreport, hdue, -⟩ := mem_byChild.mp hmem
  obtain ⟨hlt, -⟩ := List.getElem?_eq_some_iff.mp hchild
  rw [(List.getElem?_inj hlt hdistinct).mp (hchild.trans hdue.symm)]
  exact List.mem_map.mpr ⟨report, hreport, rfl⟩

/-- It is due no more in the cycle. -/
theorem Call.Loses.not_due {n : Nat} {cycle : List (Call I)} (h : call.Loses (due n cycle) child) :
    child ∉ due n (cycle ++ call :: more) :=
  fun hmem => h.2 _ ((mem_due.mp hmem).2 cycle call more rfl)

/-- The call has an error for it. -/
theorem Call.Loses.errors_ne_nil {children : List (Node I)} {cycle : List (Call I)}
    (h : call.Loses (due children.length cycle) child) (hlawful : Lawful children cycle call) :
    call.errors ≠ [] := by
  obtain ⟨hdue, hnone⟩ := h
  obtain ⟨position, hlt, hchild⟩ := List.getElem_of_mem hdue
  have hposition : position ∉ call.reports.map (·.position) := by
    intro hmem
    obtain ⟨report, hreport, rfl⟩ := List.mem_map.mp hmem
    refine hnone report.result (mem_byChild.mpr ⟨report, hreport, ?_, rfl⟩)
    exact List.getElem?_eq_some_iff.mpr ⟨hlt, hchild⟩
  have hless := hlawful.arrive.length_lt hlt hposition
  have hnotes := hlawful.notes
  rw [if_neg (List.ne_nil_of_mem hdue)] at hnotes
  unfold Call.errors
  rw [hnotes, List.flatMap_singleton]
  unfold Note.errors
  rw [length_pick lt_of_mem_due, if_pos hless]
  exact List.append_ne_nil_of_right_ne_nil _ (List.cons_ne_nil _ _)

/-- Calls that answer running all belong to the cycle under way. -/
theorem cycle_append (h : ∀ call ∈ more, call.isRunning) :
    cycle (calls ++ more) = cycle calls ++ more := by
  induction more using List.reverseRecOn with
  | nil => rw [List.append_nil, List.append_nil]
  | append_singleton more last ih =>
    have hlast := h last (by simp)
    have ih := ih fun call hmem => h call (List.mem_append_left _ hmem)
    unfold cycle at ih ⊢
    rw [← List.append_assoc, List.rtakeWhile_concat, if_pos hlast, ih, List.append_assoc]

/-- An error in a cycle is in what the cycle ends with. -/
theorem exists_error_of_verdict {cycle : List (Call I)} (hmem : call ∈ cycle)
    (herrors : call.errors ≠ []) : ∃ e, verdict cycle = .error e := by
  unfold verdict
  cases hjoin : TickError.joinAll (cycle.flatMap (·.errors)) with
  | some e => exact ⟨e, rfl⟩
  | none =>
    rw [TickError.joinAll_eq_none, List.flatMap_eq_nil_iff] at hjoin
    exact absurd (hjoin call hmem) herrors

/-- **A cycle that has lost a child** goes on without it, and when it ends it ends with an
error. -/
theorem Calls.ends_in_error (hcalls : Calls env ref w calls w') (hfollows : Follows ref [] w)
    {rest after : List (Call I)} {last : Call I} (hsplit : calls = past ++ call :: rest)
    (hloses : call.Loses (due (fixed (cycle past) call.children).length (cycle past)) child)
    (hlater : call :: rest = more ++ last :: after) (hmore : ∀ between ∈ more, between.isRunning) :
    (more ≠ [] → child ∉ due (fixed (cycle (past ++ more)) last.children).length
      (cycle (past ++ more))) ∧
    (last.isRunning = false → ∃ e, last.outcome = .returned (.error e)) := by
  obtain ⟨-, hlaw⟩ := hcalls.follows hfollows
  have hcycle : cycle (past ++ more) = cycle past ++ more := cycle_append hmore
  constructor
  · intro hsome
    obtain ⟨first, more, rfl⟩ := List.exists_cons_of_ne_nil hsome
    obtain rfl : call = first := (List.cons.inj hlater).1
    have hfixed : fixed (cycle past ++ call :: more) last.children =
        fixed (cycle past) call.children := by
      cases cycle past <;> rfl
    rw [hcycle, hfixed]
    exact hloses.not_due
  · intro hends
    have herrors := hloses.errors_ne_nil (hlaw past call rest hsplit)
    have hsplit' : calls = (past ++ more) ++ last :: after := by
      rw [hsplit, hlater, List.append_assoc]
    have hlast := (hlaw (past ++ more) last after hsplit').outcome
    have hstops : last.goesOn = false := by
      unfold Call.isRunning at hends
      rw [hlast] at hends
      by_contra hon
      rw [if_pos (by simpa using hon)] at hends
      cases hends
    rw [hstops] at hlast
    have hcall : call ∈ cycle (past ++ more) ++ [last] := by
      rw [hcycle]
      cases more with
      | nil => simp [(List.cons.inj hlater).1]
      | cons first more => simp [(List.cons.inj hlater).1]
    obtain ⟨e, he⟩ := exists_error_of_verdict hcall herrors
    exact ⟨e, hlast.trans (congrArg _ he)⟩

end Fork

/-! ### Workers -/

namespace Asynchronous

variable {a b c : Account I} {entry : Entry I} {log log' between rest : List (Entry I)}
  {worker caller : Nat} {payload : Payload} {tick : Tick I} {children : List (Node I)}
  {next : TickResult → Prog I TickResult} {found : Worker}

/-- The entry is that of a call that looks at the worker. -/
def Entry.isCall : Entry I → Bool
  | called _ _ _ _ _ => true
  | _ => false

theorem Account.Follows.split {l : List (Entry I)} (h : a.Follows (l ++ log') c) :
    ∃ b, a.Follows l b ∧ b.Follows log' c := by
  induction log' using List.reverseRecOn generalizing c with
  | nil => exact ⟨c, (List.append_nil l).symm ▸ h, .nil⟩
  | append_singleton log' entry ih =>
    rw [← List.append_assoc] at h
    generalize hlog : l ++ log' ++ [entry] = whole at h
    cases h with
    | nil => cases List.append_ne_nil_of_right_ne_nil _ (List.cons_ne_nil _ _) hlog
    | snoc hbefore htakes =>
      obtain ⟨rfl, hlast⟩ := List.append_inj' hlog rfl
      cases hlast
      obtain ⟨b, hfirst, hrest⟩ := ih hbefore
      exact ⟨b, hfirst, .snoc hrest htakes⟩

theorem Account.Follows.eq_of_nil (h : a.Follows [] b) : b = a := by
  generalize hlog : ([] : List (Entry I)) = log at h
  cases h with
  | nil => rfl
  | snoc => cases List.append_ne_nil_of_right_ne_nil _ (List.cons_ne_nil _ _) hlog.symm

/-- An account goes on with the first entry, and then with the others. -/
theorem Account.Follows.first (h : a.Follows (entry :: log) c) :
    ∃ b, a.Takes entry b ∧ b.Follows log c := by
  obtain ⟨b, hfirst, hrest⟩ := Account.Follows.split (l := [entry]) h
  have hfirst : a.Follows ([] ++ [entry]) b := hfirst
  generalize hlog : [] ++ [entry] = whole at hfirst
  cases hfirst with
  | nil => cases hlog
  | snoc hnone htakes =>
    obtain ⟨rfl, hlast⟩ := List.append_inj' hlog rfl
    cases hlast
    cases hnone.eq_of_nil
    exact ⟨b, htakes, hrest⟩

/-- While the worker has ended and no call looks, it stays so. -/
theorem Account.Takes.stage_of_ended {outcome : Outcome} (h : a.Takes entry b)
    (hstage : a.stage = .ended worker outcome) (hentry : entry.isCall = false) :
    b.stage = .ended worker outcome := by
  cases h with
  | vacant | wait | collect => cases hentry
  | start | finish => cases hstage
  | answer => exact hstage

theorem Account.Follows.stage_of_ended {outcome : Outcome} (h : a.Follows log b)
    (hstage : a.stage = .ended worker outcome) (hlog : ∀ entry ∈ log, entry.isCall = false) :
    b.stage = .ended worker outcome := by
  induction h with
  | nil => exact hstage
  | snoc _ htakes ih =>
    refine htakes.stage_of_ended (ih fun entry hmem => hlog entry ?_) (hlog _ ?_)
    · exact List.mem_append_left _ hmem
    · exact List.mem_append_right _ (List.mem_singleton.mpr rfl)

/-- **The panic of a worker is handed back once.** The first call after it finds the worker
lost and answers the error for that, before anything else happens; the next call finds
no worker. -/
theorem Account.Follows.hands_back_lost
    (h : a.Follows (log ++ .ended worker (.panicked payload) :: between ++
      .called caller tick children next found :: rest) c)
    (hbetween : ∀ entry ∈ between, entry.isCall = false) :
    found = .lost ∧ ∀ entry later, rest = entry :: later →
      entry = .answered caller (next (.error .workerLost)) ∧ ∀ entry' later',
        later = entry' :: later' → ∃ caller' tick' children' next',
          entry' = .called caller' tick' children' next' .idle := by
  obtain ⟨b, hbefore, hcalled⟩ := h.split
  obtain ⟨b₁, -, hended⟩ := hbefore.split
  obtain ⟨b₂, hends, hwaits⟩ := hended.first
  have hstage : b₂.stage = .ended worker (.panicked payload) := by
    cases hends
    rfl
  have hstage := hwaits.stage_of_ended hstage hbetween
  obtain ⟨b₃, hfinds, hrest⟩ := hcalled.first
  cases hfinds with
  | vacant | wait => cases hstage
  | collect =>
    cases hstage
    refine ⟨rfl, ?_⟩
    rintro entry later rfl
    obtain ⟨b₄, hanswers, hlater⟩ := hrest.first
    cases hanswers
    refine ⟨rfl, ?_⟩
    rintro entry' later' rfl
    obtain ⟨b₅, hnext, -⟩ := hlater.first
    cases hnext
    exact ⟨_, _, _, _, rfl⟩

end Asynchronous

end TickTree
