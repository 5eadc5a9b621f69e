/-
# Waiting for nodes ticked in parallel

A thread that ticks nodes in parallel waits until each of them has ended, and is
handed their reports as they arrive. Whatever the other threads do meanwhile and
in whatever order, it gets at most one report of each node (`reports_arrive`), from
the one thread that is started for the node (`TicksAll`).

What one step does to a machine is said once (`Machine.Committed`), and what that is
for the threads alone (`Thread.Commits`). It keeps the threads sound (`Sound.commits`):
they have numbers of their own, and for each thread that waits the nodes that have
reported and those that are still being ticked are distinct, as many as it waits for,
and among those that it ticked.

Key definitions: `Arrivals`, `Machine.Committed`, `Thread.Commits`, `Machine.awaited`,
`Machine.Sound`, `Machine.Runs`, `Machine.TicksAll`.
Key theorems: `Machine.committed_of_stepThread`, `Machine.Sound.commits`,
`Machine.reports_arrive`, `Machine.ticksAll`.
-/
import TickTree.Machine
import Mathlib.Data.List.Induction
import Mathlib.Data.List.Nodup

namespace TickTree

variable {I : Interface} {σ : Type}

/-- Reports of `n` nodes ticked in parallel, in some order: at most one of each,
and none of a node that died. -/
structure Arrivals (n : Nat) (reports : List Report) : Prop where
  known : ∀ report ∈ reports, report.position < n
  once : (reports.map (·.position)).Nodup

/-! ### What a step does to the threads -/

namespace Thread

variable {env : Environment I σ} {t : Thread I} {w : World I σ} {s : Step I σ}

/-- The position of the node that it ticks for the thread `parent`. -/
def ticksFor (t : Thread I) (parent : Nat) : Option Nat :=
  match t.origin with
  | .child p position => if p = parent then some position else none
  | _ => none

/-- Does it wait for nodes that it ticks in parallel? -/
def isJoining (t : Thread I) : Bool := t.activity matches .joining _ _ _

/-- It neither waits for nodes nor is about to tick any in parallel. -/
structure Alone (t : Thread I) : Prop where
  joining : ∀ pending reports next, t.activity ≠ .joining (pending + 1) reports next
  parallel : ∀ nodes next, t.activity ≠ .running (.request (.parallel nodes) next)

/-- A step ticks nodes in parallel, or it starts no thread for a node, and the
thread waits for nothing before it or after it. -/
inductive Stepped (t : Thread I) : Step I σ → Prop
  | parallel {nodes next w} : t.activity = .running (.request (.parallel nodes) next) →
      Stepped t ⟨{ t with activity := .joining nodes.length [] next }, w,
        nodes.mapIdx fun position node => (.child t.id position, node.call)⟩
  | other {t' : Thread I} {w started} : t.Alone →
      t'.toCaller = t.toCaller → t'.isJoining = false →
      (∀ start ∈ started, ∀ p position, start.1 ≠ .child p position) →
      (t'.outcome?.isSome → started = []) → Stepped t ⟨t', w, started⟩

theorem stepped_leave {next : Frame I → Prog I TickResult} {last : Outcome}
    (halone : t.Alone) : Stepped t (t.leave w next last) := by
  unfold leave
  split
  · exact .other halone rfl rfl (by simp) fun _ => rfl
  · exact .other halone rfl rfl (by simp) fun _ => rfl

theorem stepped_of_step (h : t.step env w = some s) : Stepped t s := by
  unfold step at h
  split at h
  · rename_i result hact
    cases h
    exact stepped_leave ⟨by simp [hact], by simp [hact]⟩
  · rename_i r next hact
    cases r with
    | parallel nodes =>
      cases h
      exact .parallel hact
    | tick node =>
      cases h
      exact .other ⟨by simp [hact], by simp [hact]⟩ rfl rfl (by simp) fun _ => rfl
    | start ref tick children =>
      cases h
      refine .other ⟨by simp [hact], by simp [hact]⟩ rfl rfl (by simp) ?_
      simp [outcome?]
    | panic payload =>
      cases h
      exact stepped_leave ⟨by simp [hact], by simp [hact]⟩
    | read | swap | alloc | acquire | release | ask =>
      simp only [serve, Option.map_eq_some_iff] at h
      obtain ⟨⟨reply, held, w'⟩, -, rfl⟩ := h
      exact .other ⟨by simp [hact], by simp [hact]⟩ rfl rfl (by simp) fun _ => rfl
  · rename_i reports next hact
    cases h
    exact .other ⟨by simp [hact], by simp [hact]⟩ rfl rfl (by simp) fun _ => rfl
  · cases h
  · cases h

theorem Stepped.toCaller (h : Stepped t s) : s.thread.toCaller = t.toCaller := by
  cases h with
  | parallel => rfl
  | other _ hcaller => exact hcaller

/-- A thread that ends starts none. -/
theorem Stepped.started_eq_nil {outcome : Outcome} (h : Stepped t s)
    (hout : s.thread.outcome? = some outcome) : s.started = [] := by
  cases h with
  | parallel => cases hout
  | other _ _ _ _ hended => exact hended (hout ▸ rfl)

/-- What a step of the thread `t` leaves of the threads `pre ++ t :: post`, and of
the next number of a thread. -/
inductive Commits (pre : List (Thread I)) (t : Thread I) (post : List (Thread I)) (nextId : Nat) :
    List (Thread I) → Nat → Prop
  | parallel {nodes next} : t.activity = .running (.request (.parallel nodes) next) →
      Commits pre t post nextId
        (pre ++ (nodes.mapIdx (fun i node => begin (nextId + i) (.child t.id i) node.call) ++
          [{ t with activity := .joining nodes.length [] next }]) ++ post) (nextId + nodes.length)
  | other {t' : Thread I} {started : List (Origin × Prog I TickResult)} :
      t.Alone → t'.toCaller = t.toCaller → t'.isJoining = false →
      (∀ start ∈ started, ∀ p position, start.1 ≠ .child p position) →
      Commits pre t post nextId
        (pre ++ (started.mapIdx (fun i start => begin (nextId + i) start.1 start.2) ++ [t']) ++ post)
        (nextId + started.length)
  | child {parent position} {report : Option Report} : t.Alone →
      t.origin = .child parent position → (∀ r ∈ report, r.position = position) →
      Commits pre t post nextId
        ((pre ++ post).map fun u => if u.id == parent then u.receive report else u) nextId
  | worker {ref} : t.Alone → t.origin = .worker ref → Commits pre t post nextId (pre ++ post) nextId

theorem Commits.of_parallel {pre post threads' : List (Thread I)} {nextId nextId' : Nat}
    {nodes : List (Node I)} {next : List Report → Prog I TickResult}
    (h : Commits pre t post nextId threads' nextId')
    (hact : t.activity = .running (.request (.parallel nodes) next)) :
    threads' = pre ++ (nodes.mapIdx (fun i node => begin (nextId + i) (.child t.id i) node.call) ++
        [{ t with activity := .joining nodes.length [] next }]) ++ post ∧
      nextId' = nextId + nodes.length := by
  cases h with
  | parallel hact' =>
    cases hact.symm.trans hact'
    exact ⟨rfl, rfl⟩
  | other halone | child halone | worker halone => exact absurd hact (halone.parallel nodes next)

end Thread

namespace Machine

variable {env : Environment I σ} {m m' : Machine I σ} {t : Thread I} {pre post : List (Thread I)}

/-- The other threads have other numbers. -/
theorem ne_of_nodup (ids : ((pre ++ t :: post).map (·.id)).Nodup) :
    ∀ u ∈ pre ++ post, u.id ≠ t.id := by
  rw [List.map_append, List.map_cons, List.nodup_append, List.nodup_cons] at ids
  obtain ⟨-, ⟨hpost, -⟩, hpre⟩ := ids
  intro u hu heq
  rcases List.mem_append.mp hu with hu | hu
  · exact hpre u.id (List.mem_map_of_mem hu) t.id List.mem_cons_self heq
  · exact hpost (heq ▸ List.mem_map_of_mem hu)

theorem flatMap_ne {l new : List (Thread I)} {id : Nat} (hne : ∀ u ∈ l, u.id ≠ id) :
    (l.flatMap fun u => if u.id == id then new else [u]) = l := by
  induction l with
  | nil => rfl
  | cons u l ih =>
    have hu : (u.id == id) = false := by simpa using hne u List.mem_cons_self
    rw [List.flatMap_cons, ih fun v hv => hne v (List.mem_cons_of_mem _ hv), hu]
    rfl

theorem filter_ne {l : List (Thread I)} {id : Nat} (hne : ∀ u ∈ l, u.id ≠ id) :
    l.filter (·.id != id) = l :=
  List.filter_eq_self.mpr fun u hu => by simpa using hne u hu

/-- A thread is replaced by others. -/
theorem flatMap_replace (ids : ((pre ++ t :: post).map (·.id)).Nodup) (new : List (Thread I)) :
    ((pre ++ t :: post).flatMap fun u => if u.id == t.id then new else [u]) = pre ++ new ++ post := by
  have hne := ne_of_nodup ids
  have hpre := fun u hu => hne u (List.mem_append_left post hu)
  have hpost := fun u hu => hne u (List.mem_append_right pre hu)
  rw [List.flatMap_append, List.flatMap_cons, flatMap_ne hpre, flatMap_ne hpost]
  simp

/-- A thread is forgotten. -/
theorem filter_forget {t' : Thread I} (ids : ((pre ++ t :: post).map (·.id)).Nodup)
    (hid : t'.id = t.id) : (pre ++ [t'] ++ post).filter (·.id != t.id) = pre ++ post := by
  have hne := ne_of_nodup ids
  have hpre := fun u hu => hne u (List.mem_append_left post hu)
  have hpost := fun u hu => hne u (List.mem_append_right pre hu)
  rw [List.filter_append, List.filter_append, filter_ne hpre, filter_ne hpost]
  simp [hid]

/-- A step `s` of the thread `t`, and what the machine makes of it: the threads that
it starts go in front of the thread, and one that has ended hands over what it leaves. -/
inductive Committed (env : Environment I σ) (pre : List (Thread I)) (t : Thread I)
    (post : List (Thread I)) (nextId : Nat) (s : Step I σ) : Machine I σ → Prop
  | on : s.thread.outcome? = none →
      Committed env pre t post nextId s
        ⟨pre ++ (s.started.mapIdx (fun i start => .begin (nextId + i) start.1 start.2) ++ [s.thread]) ++
          post, nextId + s.started.length, s.world⟩
  | outside {tag outcome} : s.thread.outcome? = some outcome → t.origin = .outside tag →
      Committed env pre t post nextId s ⟨pre ++ [s.thread] ++ post, nextId,
        { s.world with outside := env.ended t.toCaller outcome s.world.outside }⟩
  | child {parent position outcome} : s.thread.outcome? = some outcome →
      t.origin = .child parent position →
      Committed env pre t post nextId s
        ⟨(pre ++ post).map fun u => if u.id == parent then
            u.receive (outcome.result?.map fun result => ⟨position, result⟩) else u, nextId,
          { s.world with outside := env.ended t.toCaller outcome s.world.outside }⟩
  | worker {ref outcome} : s.thread.outcome? = some outcome → t.origin = .worker ref →
      Committed env pre t post nextId s ⟨pre ++ post, nextId,
        { s.world with heap := s.world.heap.set ref (Worker.ended outcome.result?)
                       outside := env.ended t.toCaller outcome s.world.outside }⟩

theorem committed_of_stepThread (ids : (m.threads.map (·.id)).Nodup)
    (hsplit : m.threads = pre ++ t :: post) (h : m.stepThread env t = some m') :
    ∃ s, t.step env m.world = some s ∧ Committed env pre t post m.nextId s m' := by
  simp only [stepThread, Option.map_eq_some_iff] at h
  obtain ⟨s, hs, rfl⟩ := h
  refine ⟨s, hs, ?_⟩
  rw [hsplit] at ids
  have hcaller := (Thread.stepped_of_step hs).toCaller
  have hid : s.thread.id = t.id := congrArg Caller.id hcaller
  have hreplace := flatMap_replace ids
    (s.started.mapIdx (fun i start => Thread.begin (m.nextId + i) start.1 start.2) ++ [s.thread])
  cases hout : s.thread.outcome? with
  | none =>
    simp only [commit, hsplit, hout, hid, hreplace, List.length_mapIdx]
    exact .on hout
  | some outcome =>
    have hstarted := (Thread.stepped_of_step hs).started_eq_nil hout
    simp only [hstarted, List.mapIdx_nil, List.nil_append] at hreplace
    simp only [commit, hsplit, hout, hstarted, List.mapIdx_nil, List.nil_append, hreplace,
      deliver, hcaller, forget, mapOutside, filter_forget ids hid, List.length_nil]
    cases hfrom : t.origin with
    | outside tag => exact .outside hout hfrom
    | child parent position => exact .child hout hfrom
    | worker ref => exact .worker hout hfrom

theorem commits_of_stepThread (ids : (m.threads.map (·.id)).Nodup)
    (hsplit : m.threads = pre ++ t :: post) (h : m.stepThread env t = some m') :
    Thread.Commits pre t post m.nextId m'.threads m'.nextId := by
  obtain ⟨s, hs, hcommitted⟩ := committed_of_stepThread ids hsplit h
  cases Thread.stepped_of_step hs with
  | @parallel nodes next w hact =>
    cases hcommitted with
    | on =>
      simp only [List.mapIdx_mapIdx, List.length_mapIdx]
      exact .parallel hact
    | outside hout | child hout | worker hout => cases hout
  | @other t' w started halone hcaller hjoining hstart hended =>
    cases hcommitted with
    | on => exact .other halone hcaller hjoining hstart
    | outside hout =>
      obtain rfl : started = [] := hended (hout ▸ rfl)
      exact .other halone hcaller hjoining hstart
    | @child parent position outcome hout hfrom =>
      exact .child halone hfrom (by cases outcome.result? <;> simp)
    | worker hout hfrom => exact .worker halone hfrom

/-! ### Who waits for whom -/

/-- The positions of the nodes that are being ticked for a thread. -/
def awaited (threads : List (Thread I)) (id : Nat) : List Nat := threads.filterMap (·.ticksFor id)

/-- A thread that waits has reports of some of its `width` nodes, others are still
being ticked, and none is both; no node is ticked for any other thread. -/
def Waits (width : Nat) (u : Thread I) (awaited : List Nat) : Prop :=
  match u.activity with
  | .joining pending reports _ => awaited.length = pending ∧
      (reports.map (·.position) ++ awaited).Nodup ∧
      ∀ position ∈ reports.map (·.position) ++ awaited, position < width
  | _ => awaited = []

/-- The threads have numbers of their own, and each waits for what is done for it. -/
structure Sound (width : Nat → Nat) (threads : List (Thread I)) (nextId : Nat) : Prop where
  ids : (threads.map (·.id)).Nodup
  bound : ∀ u ∈ threads, u.id < nextId
  parents : ∀ u ∈ threads, ∀ p position, u.origin = .child p position → p < nextId
  waits : ∀ u ∈ threads, Waits (width u.id) u (awaited threads u.id)

variable {width : Nat → Nat} {threads threads' rest new : List (Thread I)} {nextId : Nat}
  {t' u : Thread I}

theorem awaited_append (threads threads' : List (Thread I)) (id : Nat) :
    awaited (threads ++ threads') id = awaited threads id ++ awaited threads' id :=
  List.filterMap_append

theorem ticksFor_eq_some {id position : Nat} :
    u.ticksFor id = some position ↔ u.origin = .child id position := by
  unfold Thread.ticksFor
  split
  · rename_i p position' horigin
    by_cases hp : p = id
    · simp [hp, horigin]
    · simp [hp, horigin]
  · rename_i hnot
    simp only [reduceCtorEq, false_iff]
    exact fun horigin => hnot _ _ horigin

theorem awaited_eq_nil {id : Nat} :
    awaited threads id = [] ↔ ∀ u ∈ threads, ∀ position, u.origin ≠ .child id position := by
  unfold awaited
  rw [List.filterMap_eq_nil_iff]
  refine forall₂_congr fun u _ => ?_
  rw [Option.eq_none_iff_forall_ne_some]
  exact forall_congr' fun position => not_congr ticksFor_eq_some

theorem awaited_congr (id : Nat) (hcaller : t'.toCaller = t.toCaller) :
    awaited (t' :: rest) id = awaited (t :: rest) id := by
  have horigin : t'.origin = t.origin := congrArg Caller.origin hcaller
  have hticks : t'.ticksFor id = t.ticksFor id := by rw [Thread.ticksFor, Thread.ticksFor, horigin]
  unfold awaited
  rw [List.filterMap_cons, List.filterMap_cons, hticks]

theorem awaited_cons_none {id : Nat} (h : t.ticksFor id = none) :
    awaited (t :: rest) id = awaited rest id :=
  List.filterMap_cons_none h

theorem awaited_cons_some {id position : Nat} (h : t.ticksFor id = some position) :
    awaited (t :: rest) id = position :: awaited rest id :=
  List.filterMap_cons_some h

theorem Waits.perm {n : Nat} {positions positions' : List Nat} (h : Waits n u positions)
    (hperm : positions.Perm positions') : Waits n u positions' := by
  unfold Waits at h ⊢
  split at h
  · obtain ⟨hlength, hnodup, hlt⟩ := h
    have hall := hperm.append_left (List.map (·.position) ‹List Report›)
    exact ⟨hperm.length_eq ▸ hlength, hall.nodup_iff.mp hnodup,
      fun p hp => hlt p (hall.mem_iff.mpr hp)⟩
  · subst h
    exact List.nil_perm.mp hperm

theorem Sound.perm (h : Sound width threads nextId) (hperm : threads.Perm threads') :
    Sound width threads' nextId where
  ids := (hperm.map _).nodup_iff.mp h.ids
  bound := fun u hu => h.bound u (hperm.mem_iff.mpr hu)
  parents := fun u hu => h.parents u (hperm.mem_iff.mpr hu)
  waits := fun u hu => (h.waits u (hperm.mem_iff.mpr hu)).perm (hperm.filterMap _)

/-- A thread that does not wait, and that nobody ticks for. -/
theorem waits_nil {n : Nat} (hjoining : u.isJoining = false) : Waits n u [] := by
  unfold Waits
  split
  · rename_i hact
    simp [Thread.isJoining, hact] at hjoining
  · rfl

theorem Sound.ne (h : Sound width (t :: rest) nextId) : ∀ u ∈ rest, u.id ≠ t.id := by
  have ids := h.ids
  rw [List.map_cons, List.nodup_cons] at ids
  exact fun u hu heq => ids.1 (heq ▸ List.mem_map_of_mem hu)

/-- A thread goes on, and starts others that tick nodes for nobody or for it. -/
theorem Sound.insert {width' : Nat → Nat} {n : Nat} (h : Sound width (t :: rest) nextId)
    (hwidth : ∀ id, id ≠ t.id → width' id = width id) (hcaller : t'.toCaller = t.toCaller)
    (hids : new.map (·.id) = List.range' nextId n)
    (hparents : ∀ u ∈ new, ∀ p position, u.origin = .child p position → p = t.id)
    (hnew : ∀ u ∈ new, u.isJoining = false)
    (ht : Waits (width' t.id) t' (awaited (t :: rest) t.id ++ awaited new t.id)) :
    Sound width' (t' :: rest ++ new) (nextId + n) := by
  have hid : t'.id = t.id := congrArg Caller.id hcaller
  have horigin : t'.origin = t.origin := congrArg Caller.origin hcaller
  have hlt : t.id < nextId := h.bound t List.mem_cons_self
  have hmem : ∀ u ∈ new, nextId ≤ u.id ∧ u.id < nextId + n := by
    intro u hu
    have hrange : u.id ∈ List.range' nextId n := hids ▸ List.mem_map_of_mem hu
    exact List.mem_range'_1.mp hrange
  have hawaited : ∀ id,
      awaited (t' :: rest ++ new) id = awaited (t :: rest) id ++ awaited new id := by
    intro id
    rw [awaited_append, awaited_congr id hcaller]
  have hnone : ∀ id, id ≠ t.id → awaited new id = [] := by
    intro id hne
    exact awaited_eq_nil.mpr fun u hu position hchild => hne (hparents u hu id position hchild)
  have hbound : ∀ u ∈ t' :: rest, u.id < nextId := by
    intro u hu
    rcases List.mem_cons.mp hu with rfl | hu
    · exact hid ▸ hlt
    · exact h.bound u (List.mem_cons_of_mem _ hu)
  refine ⟨?_, fun u hu => ?_, fun u hu p position hchild => ?_, fun u hu => ?_⟩
  · have hold : ((t' :: rest).map (·.id)).Nodup := by
      rw [List.map_cons, hid]
      exact h.ids
    rw [List.map_append, List.nodup_append]
    refine ⟨hold, hids ▸ List.nodup_range', fun a ha b hb heq => ?_⟩
    obtain ⟨u, hu, rfl⟩ := List.mem_map.mp ha
    obtain ⟨v, hv, rfl⟩ := List.mem_map.mp hb
    have hu := hbound u hu
    have hv := hmem v hv
    omega
  · rcases List.mem_append.mp hu with hu | hu
    · have hu := hbound u hu
      omega
    · exact (hmem u hu).2
  · rcases List.mem_append.mp hu with hu | hu
    · have hp : p < nextId := by
        rcases List.mem_cons.mp hu with rfl | hu
        · exact h.parents t List.mem_cons_self p position (horigin ▸ hchild)
        · exact h.parents u (List.mem_cons_of_mem _ hu) p position hchild
      omega
    · have hp := hparents u hu p position hchild
      omega
  · rw [hawaited]
    rcases List.mem_append.mp hu with hu | hu
    · rcases List.mem_cons.mp hu with rfl | hu
      · rw [hid]
        exact ht
      · rw [hnone u.id (h.ne u hu), List.append_nil, hwidth u.id (h.ne u hu)]
        exact h.waits u (List.mem_cons_of_mem _ hu)
    · have hu' := hmem u hu
      have hother : awaited (t :: rest) u.id = [] := by
        refine awaited_eq_nil.mpr fun v hv position hchild => ?_
        have hp := h.parents v hv u.id position hchild
        omega
      rw [hother, hnone u.id (by omega)]
      exact waits_nil (hnew u hu)

/-- A thread is gone that ticked no node for another. -/
theorem Sound.remove (h : Sound width (t :: rest) nextId)
    (horigin : ∀ p position, t.origin ≠ .child p position) : Sound width rest nextId where
  ids := (List.nodup_cons.mp h.ids).2
  bound := fun u hu => h.bound u (List.mem_cons_of_mem _ hu)
  parents := fun u hu => h.parents u (List.mem_cons_of_mem _ hu)
  waits := fun u hu => by
    have hnone : t.ticksFor u.id = none :=
      Option.eq_none_iff_forall_ne_some.mpr fun position hticks =>
        horigin u.id position (ticksFor_eq_some.mp hticks)
    rw [← awaited_cons_none hnone]
    exact h.waits u (List.mem_cons_of_mem _ hu)

/-- One of the nodes that a thread waits for has ended. -/
theorem Waits.receive {n position : Nat} {positions : List Nat} {report : Option Report}
    (h : Waits n u (position :: positions)) (hreport : ∀ r ∈ report, r.position = position) :
    Waits n (u.receive report) positions := by
  unfold Waits at h
  split at h
  · rename_i pending reports next hact
    obtain ⟨hlength, hnodup, hlt⟩ := h
    have hsub : ((reports ++ report.toList).map (·.position) ++ positions).Sublist
        (reports.map (·.position) ++ position :: positions) := by
      rw [List.map_append, List.append_assoc]
      refine List.Sublist.append_left ?_ _
      cases report with
      | none => exact List.sublist_cons_self _ _
      | some r =>
        have hr : r.position = position := hreport r rfl
        exact (hr ▸ List.Sublist.refl _)
    have hreceive : (u.receive report).activity =
        .joining (pending - 1) (reports ++ report.toList) next := by
      unfold Thread.receive
      rw [hact]
    unfold Waits
    rw [hreceive]
    refine ⟨?_, hnodup.sublist hsub, fun p hp => hlt p (hsub.subset hp)⟩
    rw [List.length_cons] at hlength
    omega
  · cases h

theorem receive_toCaller (report : Option Report) : (u.receive report).toCaller = u.toCaller := by
  unfold Thread.receive
  split <;> rfl

/-- A thread is gone that ticked a node, and hands over its report if it has one. -/
theorem Sound.hand {parent position : Nat} {report : Option Report}
    (h : Sound width (t :: rest) nextId) (horigin : t.origin = .child parent position)
    (hreport : ∀ r ∈ report, r.position = position) :
    Sound width (rest.map fun u => if u.id == parent then u.receive report else u) nextId := by
  have hcaller : ∀ u : Thread I,
      (if u.id == parent then u.receive report else u).toCaller = u.toCaller := by
    intro u
    split
    · exact receive_toCaller report
    · rfl
  have hawaited : ∀ id,
      awaited (rest.map fun u => if u.id == parent then u.receive report else u) id =
        awaited rest id := by
    intro id
    unfold awaited
    rw [List.filterMap_map]
    congr 1
    funext u
    show Thread.ticksFor _ id = _
    rw [Thread.ticksFor, Thread.ticksFor, congrArg Caller.origin (hcaller u)]
  refine ⟨?_, fun u' hu' => ?_, fun u' hu' => ?_, fun u' hu' => ?_⟩
  · have hids : (rest.map fun u => if u.id == parent then u.receive report else u).map (·.id) =
        rest.map (·.id) := by
      rw [List.map_map]
      exact List.map_congr_left fun u _ => congrArg Caller.id (hcaller u)
    rw [hids]
    exact (List.nodup_cons.mp h.ids).2
  · obtain ⟨u, hu, rfl⟩ := List.mem_map.mp hu'
    rw [congrArg Caller.id (hcaller u)]
    exact h.bound u (List.mem_cons_of_mem _ hu)
  · obtain ⟨u, hu, rfl⟩ := List.mem_map.mp hu'
    rw [congrArg Caller.origin (hcaller u)]
    exact h.parents u (List.mem_cons_of_mem _ hu)
  · obtain ⟨u, hu, rfl⟩ := List.mem_map.mp hu'
    rw [hawaited, congrArg Caller.id (hcaller u)]
    have hwaits := h.waits u (List.mem_cons_of_mem _ hu)
    by_cases hp : u.id = parent
    · rw [awaited_cons_some (ticksFor_eq_some.mpr (hp ▸ horigin))] at hwaits
      rw [if_pos (by simpa using hp)]
      exact hwaits.receive hreport
    · have hnone : t.ticksFor u.id = none := by
        rw [Thread.ticksFor, horigin]
        exact if_neg (Ne.symm hp)
      rw [awaited_cons_none hnone] at hwaits
      rw [if_neg (by simpa using hp)]
      exact hwaits

/-- The thread does not wait for anything when it goes on. -/
theorem Sound.awaited_eq_nil (h : Sound width (t :: rest) nextId)
    (hact : ∀ pending reports next, t.activity ≠ .joining (pending + 1) reports next) :
    awaited (t :: rest) t.id = [] := by
  have hwaits := h.waits t List.mem_cons_self
  unfold Waits at hwaits
  split at hwaits
  · rename_i pending reports next hjoining
    cases pending with
    | zero => exact List.length_eq_zero_iff.mp hwaits.1
    | succ pending => exact absurd hjoining (hact pending reports next)
  · exact hwaits

theorem ids_started {α : Type} (l : List α) (f : Nat → α → Origin × Prog I TickResult)
    (nextId : Nat) :
    (l.mapIdx fun i a => Thread.begin (nextId + i) (f i a).1 (f i a).2).map (·.id) =
      List.range' nextId l.length := by
  refine List.ext_getElem (by simp) fun i _ _ => ?_
  simp [Thread.begin]

/-- Nodes ticked in parallel are all awaited. -/
theorem awaited_started (nodes : List (Node I)) (nextId id : Nat) :
    awaited (nodes.mapIdx fun i node => Thread.begin (nextId + i) (.child id i) node.call) id =
      List.range nodes.length := by
  induction nodes using List.reverseRecOn with
  | nil => rfl
  | append_singleton nodes node ih =>
    rw [List.mapIdx_concat, awaited_append, ih, List.length_append, List.length_singleton,
      List.range_succ]
    simp [awaited, Thread.ticksFor, Thread.begin]

theorem perm_started (pre post new : List (Thread I)) (t' : Thread I) :
    (t' :: (pre ++ post) ++ new).Perm (pre ++ (new ++ [t']) ++ post) :=
  calc t' :: (pre ++ post) ++ new
    _ = t' :: (pre ++ (post ++ new)) := by rw [List.cons_append, List.append_assoc]
    List.Perm _ (pre ++ t' :: (post ++ new)) := List.perm_middle.symm
    List.Perm _ (pre ++ (new ++ t' :: post)) :=
      (@List.perm_append_comm _ (t' :: post) new).append_left pre
    _ = pre ++ (new ++ [t']) ++ post := by simp

/-- A thread ticks nodes in parallel. -/
theorem Sound.parallel (h : Sound width (pre ++ t :: post) nextId) {nodes : List (Node I)}
    {next : List Report → Prog I TickResult}
    (hact : t.activity = .running (.request (.parallel nodes) next)) :
    Sound (fun id => if id = t.id then nodes.length else width id)
      (pre ++ (nodes.mapIdx (fun i node => Thread.begin (nextId + i) (.child t.id i) node.call) ++
        [{ t with activity := .joining nodes.length [] next }]) ++ post)
      (nextId + nodes.length) := by
  have h : Sound width (t :: (pre ++ post)) nextId := h.perm List.perm_middle
  have hnone := h.awaited_eq_nil (by simp [hact])
  have hids := ids_started nodes (fun i node => (.child t.id i, node.call)) nextId
  refine Sound.perm ?_ (perm_started pre post _ _)
  refine h.insert (fun id hne => if_neg hne) rfl hids ?_ ?_ ?_
  · intro u hu p position hchild
    obtain ⟨i, hi, rfl⟩ := List.mem_mapIdx.mp hu
    cases hchild
    rfl
  · intro u hu
    obtain ⟨i, hi, rfl⟩ := List.mem_mapIdx.mp hu
    rfl
  · rw [hnone, awaited_started]
    simp [Waits, List.nodup_range]

/-- **Every step keeps the threads sound.** The thread that steps may wait for
other nodes after it; for no other thread does the number of nodes change. -/
theorem Sound.commits (h : Sound width (pre ++ t :: post) nextId) {nextId' : Nat}
    (hcommits : Thread.Commits pre t post nextId threads' nextId') :
    ∃ width', Sound width' threads' nextId' ∧ ∀ id, id ≠ t.id → width' id = width id := by
  have hfirst : Sound width (t :: (pre ++ post)) nextId := h.perm List.perm_middle
  cases hcommits with
  | @parallel nodes next hact => exact ⟨_, h.parallel hact, fun id hne => if_neg hne⟩
  | @other t' started halone hcaller hjoining hstart =>
    have hnone := hfirst.awaited_eq_nil halone.joining
    have hids := ids_started started (fun _ start => start) nextId
    have horigin : ∀ u ∈ started.mapIdx fun i start => Thread.begin (nextId + i) start.1 start.2,
        ∀ p position, u.origin ≠ .child p position := by
      intro u hu p position
      obtain ⟨i, hi, rfl⟩ := List.mem_mapIdx.mp hu
      exact hstart _ (List.getElem_mem hi) p position
    refine ⟨width, Sound.perm ?_ (perm_started pre post _ _), fun _ _ => rfl⟩
    refine hfirst.insert (fun _ _ => rfl) hcaller hids ?_ ?_ ?_
    · exact fun u hu p position hchild => absurd hchild (horigin u hu p position)
    · intro u hu
      obtain ⟨i, hi, rfl⟩ := List.mem_mapIdx.mp hu
      rfl
    · rw [hnone, Machine.awaited_eq_nil.mpr fun u hu position => horigin u hu t.id position]
      exact waits_nil hjoining
  | child halone horigin hreport => exact ⟨width, hfirst.hand horigin hreport, fun _ _ => rfl⟩
  | worker halone horigin => exact ⟨width, hfirst.remove (by simp [horigin]), fun _ _ => rfl⟩

/-! ### Runs -/

/-- A move: a step of a thread, a change of the world by itself, or a thread that
the world starts or forgets. -/
inductive Moves (env : Environment I σ) : Option Nat → Machine I σ → Machine I σ → Prop
  | thread {m m' : Machine I σ} {t : Thread I} : t ∈ m.threads → m.stepThread env t = some m' →
      Moves env (some t.id) m m'
  | world {m : Machine I σ} (w : World I σ) : Moves env none m { m with world := w }
  | spawn {m : Machine I σ} (tag : Nat) (prog : Prog I TickResult) :
      Moves env none m (m.spawn tag prog).2
  | forget {m : Machine I σ} {t : Thread I} {tag : Nat} : t ∈ m.threads →
      t.origin = .outside tag → Moves env (some t.id) m (m.forget t.id)

/-- Any moves in a row, none of them by the threads that stand `still`. -/
inductive Runs (env : Environment I σ) (still : Nat → Prop) : Machine I σ → Machine I σ → Prop
  | refl {m : Machine I σ} : Runs env still m m
  | move {m m₁ m' : Machine I σ} {mover : Option Nat} : Moves env mover m m₁ →
      (∀ id ∈ mover, ¬ still id) → Runs env still m₁ m' → Runs env still m m'

/-- The world starts a thread. -/
theorem Sound.spawn (h : Sound width threads nextId) (tag : Nat) (prog : Prog I TickResult) :
    Sound width (threads ++ [.begin nextId (.outside tag) prog]) (nextId + 1) := by
  have hawaited : ∀ id, awaited (threads ++ [.begin nextId (.outside tag) prog]) id =
      awaited threads id := fun id => by
    rw [awaited_append]
    exact List.append_nil _
  refine ⟨?_, fun u hu => ?_, fun u hu p position hchild => ?_, fun u hu => ?_⟩
  · rw [List.map_append, List.nodup_append]
    refine ⟨h.ids, List.nodup_singleton _, fun a ha b hb heq => ?_⟩
    obtain ⟨u, hu, rfl⟩ := List.mem_map.mp ha
    have hb : b = nextId := List.mem_singleton.mp hb
    have hlt := h.bound u hu
    omega
  · rcases List.mem_append.mp hu with hu | hu
    · have hlt := h.bound u hu
      omega
    · rw [List.mem_singleton.mp hu]
      exact Nat.lt_succ_self nextId
  · rcases List.mem_append.mp hu with hu | hu
    · have hlt := h.parents u hu p position hchild
      omega
    · rw [List.mem_singleton.mp hu] at hchild
      cases hchild
  · rw [hawaited]
    rcases List.mem_append.mp hu with hu | hu
    · exact h.waits u hu
    · have hnone : awaited threads nextId = [] := by
        refine Machine.awaited_eq_nil.mpr fun v hv position hchild => ?_
        have hlt := h.parents v hv nextId position hchild
        omega
      rw [List.mem_singleton.mp hu]
      show Waits _ _ (awaited threads nextId)
      rw [hnone]
      exact waits_nil rfl

theorem Sound.moves {mover : Option Nat} (h : Sound width m.threads m.nextId)
    (hmoves : Moves env mover m m') :
    ∃ width', Sound width' m'.threads m'.nextId ∧ ∀ id ∉ mover, width' id = width id := by
  cases hmoves with
  | @thread _ _ t ht hstep =>
    obtain ⟨pre, post, hsplit⟩ := List.append_of_mem ht
    have hcommits := commits_of_stepThread h.ids hsplit hstep
    rw [hsplit] at h
    obtain ⟨width', hsound, hwidth⟩ := h.commits hcommits
    refine ⟨width', hsound, fun id hid => hwidth id ?_⟩
    rintro rfl
    exact hid rfl
  | world w => exact ⟨width, h, fun _ _ => rfl⟩
  | spawn tag prog => exact ⟨width, h.spawn tag prog, fun _ _ => rfl⟩
  | @forget _ t tag ht horigin =>
    obtain ⟨pre, post, hsplit⟩ := List.append_of_mem ht
    have ids := h.ids
    rw [hsplit] at h ids
    have hforget : (m.forget t.id).threads = pre ++ post := by
      have hfilter := filter_forget ids rfl
      rw [List.append_assoc, List.singleton_append, ← hsplit] at hfilter
      exact hfilter
    have hrest := (h.perm List.perm_middle).remove (by simp [horigin])
    exact ⟨width, hforget.symm ▸ hrest, fun _ _ => rfl⟩

/-- In every machine that is reached from an empty one the threads are sound. -/
theorem Runs.sound {still : Nat → Prop} (hruns : Runs env still m m')
    (h : Sound width m.threads m.nextId) :
    ∃ width', Sound width' m'.threads m'.nextId ∧ ∀ id, still id → width' id = width id := by
  induction hruns generalizing width with
  | refl => exact ⟨width, h, fun _ _ => rfl⟩
  | move hmoves hstill _ ih =>
    obtain ⟨width₁, h₁, hwidth₁⟩ := h.moves hmoves
    obtain ⟨width', h', hwidth'⟩ := ih h₁
    refine ⟨width', h', fun id hid => (hwidth' id hid).trans (hwidth₁ id fun hmem => ?_)⟩
    exact hstill id hmem hid

/-- What is reached from an empty machine is sound. -/
theorem Runs.sound_empty {outside : σ}
    (hreach : Runs env (fun _ => False) (Machine.empty outside) m) :
    ∃ width, Sound width m.threads m.nextId := by
  have hempty : Sound (fun _ => 0) (Machine.empty outside : Machine I σ).threads 0 :=
    ⟨.nil, nofun, nofun, nofun⟩
  obtain ⟨width, hsound, -⟩ := hreach.sound hempty
  exact ⟨width, hsound⟩

theorem Runs.trans {still : Nat → Prop} {m₁ : Machine I σ} (h : Runs env still m m₁)
    (h' : Runs env still m₁ m') : Runs env still m m' := by
  induction h with
  | refl => exact h'
  | move hmoves hstill _ ih => exact .move hmoves hstill (ih h')

/-- Among these is the thread `t`, waiting to go on with its reports as `next`
says. -/
def StillJoins (t : Thread I) (next : List Report → Prog I TickResult)
    (threads : List (Thread I)) : Prop :=
  ∃ u ∈ threads, u.toCaller = t.toCaller ∧ u.held = t.held ∧ u.frames = t.frames ∧
    ∃ pending reports, u.activity = .joining pending reports next

variable {next : List Report → Prog I TickResult}

theorem StillJoins.receive {parent : Nat} {report : Option Report} (h : StillJoins t next threads) :
    StillJoins t next (threads.map fun u => if u.id == parent then u.receive report else u) := by
  obtain ⟨u, hu, hcaller, hheld, hframes, pending, reports, hact⟩ := h
  refine ⟨_, List.mem_map_of_mem hu, ?_⟩
  by_cases hp : u.id == parent
  · have hreceive : u.receive report =
        { u with activity := .joining (pending - 1) (reports ++ report.toList) next } := by
      unfold Thread.receive
      rw [hact]
    rw [if_pos hp, hreceive]
    exact ⟨hcaller, hheld, hframes, _, _, rfl⟩
  · rw [if_neg hp]
    exact ⟨hcaller, hheld, hframes, pending, reports, hact⟩

/-- Another thread steps. -/
theorem StillJoins.commits {nextId nextId' : Nat} (h : StillJoins u next (pre ++ t :: post))
    (hne : u.id ≠ t.id) (hcommits : Thread.Commits pre t post nextId threads' nextId') :
    StillJoins u next threads' := by
  have hrest : StillJoins u next (pre ++ post) := by
    obtain ⟨v, hv, hcaller, hjoins⟩ := h
    refine ⟨v, ?_, hcaller, hjoins⟩
    have hvt : v ≠ t := by
      rintro rfl
      exact hne (congrArg Caller.id hcaller).symm
    simpa [hvt] using hv
  have hmore : ∀ new : List (Thread I), StillJoins u next (pre ++ new ++ post) := by
    obtain ⟨v, hv, hjoins⟩ := hrest
    refine fun new => ⟨v, ?_, hjoins⟩
    rcases List.mem_append.mp hv with hv | hv
    · exact List.mem_append_left _ (List.mem_append_left _ hv)
    · exact List.mem_append_right _ hv
  cases hcommits with
  | parallel => exact hmore _
  | other => exact hmore _
  | child => exact hrest.receive
  | worker => exact hrest

theorem StillJoins.moves {mover : Option Nat} (h : StillJoins u next m.threads)
    (hsound : Sound width m.threads m.nextId) (hmoves : Moves env mover m m')
    (hmover : u.id ∉ mover) : StillJoins u next m'.threads := by
  cases hmoves with
  | @thread _ _ t ht hstep =>
    obtain ⟨pre, post, hsplit⟩ := List.append_of_mem ht
    have hcommits := commits_of_stepThread hsound.ids hsplit hstep
    have hne : u.id ≠ t.id := fun heq => hmover (heq ▸ rfl)
    rw [hsplit] at h
    exact h.commits hne hcommits
  | world w => exact h
  | spawn tag prog =>
    obtain ⟨v, hv, hjoins⟩ := h
    exact ⟨v, List.mem_append_left _ hv, hjoins⟩
  | @forget _ t tag ht horigin =>
    obtain ⟨v, hv, hcaller, hjoins⟩ := h
    have hne : v.id ≠ t.id := by
      intro heq
      exact hmover ((congrArg Caller.id hcaller).symm.trans heq ▸ rfl)
    exact ⟨v, List.mem_filter.mpr ⟨hv, by simpa using hne⟩, hcaller, hjoins⟩

theorem StillJoins.runs {still : Nat → Prop} (h : StillJoins u next m.threads)
    (hsound : Sound width m.threads m.nextId) (hruns : Runs env still m m') (hstill : still u.id) :
    StillJoins u next m'.threads := by
  induction hruns generalizing width with
  | refl => exact h
  | move hmoves hmover _ ih =>
    obtain ⟨width₁, hsound₁, -⟩ := hsound.moves hmoves
    exact ih (h.moves hsound hmoves fun hmem => hmover _ hmem hstill) hsound₁

/-- **The reports of nodes ticked in parallel arrive.** In a machine reached from
an empty one, a thread that ticks nodes in parallel waits as long as only others
move, and what it has got of them is at most one report of each. -/
theorem reports_arrive {outside : σ} {nodes : List (Node I)}
    {next : List Report → Prog I TickResult} {m₁ : Machine I σ}
    (hreach : Runs env (fun _ => False) (Machine.empty outside) m) (ht : t ∈ m.threads)
    (hact : t.activity = .running (.request (.parallel nodes) next))
    (hstep : m.stepThread env t = some m₁) (hothers : Runs env (· = t.id) m₁ m') :
    ∃ u ∈ m'.threads, u.toCaller = t.toCaller ∧ u.held = t.held ∧ u.frames = t.frames ∧
      ∃ pending reports, u.activity = .joining pending reports next ∧
        pending = (awaited m'.threads t.id).length ∧ Arrivals nodes.length reports := by
  obtain ⟨width, hsound⟩ := hreach.sound_empty
  obtain ⟨pre, post, hsplit⟩ := List.append_of_mem ht
  obtain ⟨hthreads, hnextId⟩ :=
    (commits_of_stepThread hsound.ids hsplit hstep).of_parallel hact
  rw [hsplit] at hsound
  have hsound₁ := hsound.parallel hact
  rw [← hthreads, ← hnextId] at hsound₁
  have hjoins₁ : StillJoins t next m₁.threads := by
    rw [hthreads]
    exact ⟨{ t with activity := .joining nodes.length [] next }, by simp, rfl, rfl, rfl, _, _, rfl⟩
  obtain ⟨width', hsound', hwidth⟩ := hothers.sound hsound₁
  obtain ⟨u, hu, hcaller, hheld, hframes, pending, reports, hjoining⟩ :=
    hjoins₁.runs hsound₁ hothers rfl
  have hid : u.id = t.id := congrArg Caller.id hcaller
  have hwaits := hsound'.waits u hu
  rw [hid, hwidth t.id rfl, if_pos rfl] at hwaits
  unfold Waits at hwaits
  rw [hjoining] at hwaits
  obtain ⟨hlength, hnodup, hlt⟩ := hwaits
  refine ⟨u, hu, hcaller, hheld, hframes, pending, reports, hjoining, hlength.symm, ?_, ?_⟩
  · exact fun r hr => hlt r.position (List.mem_append_left _ (List.mem_map_of_mem hr))
  · exact hnodup.sublist (List.sublist_append_left _ _)

/-- What becomes of `nodes` when the thread `t` ticks them in parallel, in the step from `m`
to `m₁`, to go on with their reports as `next` says. -/
structure TicksAll (env : Environment I σ) (m m₁ : Machine I σ) (t : Thread I)
    (nodes : List (Node I)) (next : List Report → Prog I TickResult) : Prop where
  /-- A thread is started for each node, and for each only one. -/
  starts : ∃ pre post, m.threads = pre ++ t :: post ∧ m₁.threads =
    pre ++ (nodes.mapIdx (fun i node => .begin (m.nextId + i) (.child t.id i) node.call) ++
      [{ t with activity := .joining nodes.length [] next }]) ++ post
  /-- While only others move, `t` waits for those of these threads that have not ended, and
  has at most one report of each node. When none is left it goes on with these. -/
  waits : ∀ m', Runs env (· = t.id) m₁ m' → ∃ u ∈ m'.threads, u.toCaller = t.toCaller ∧
    ∃ pending reports, u.activity = .joining pending reports next ∧
      pending = (awaited m'.threads t.id).length ∧ Arrivals nodes.length reports ∧
      (pending = 0 → ∀ w : World I σ,
        u.step env w = some ⟨{ u with activity := .running (next reports) }, w, []⟩)

theorem ticksAll {outside : σ} {nodes : List (Node I)} {next : List Report → Prog I TickResult}
    {m₁ : Machine I σ} (hreach : Runs env (fun _ => False) (Machine.empty outside) m)
    (ht : t ∈ m.threads) (hact : t.activity = .running (.request (.parallel nodes) next))
    (hstep : m.stepThread env t = some m₁) : TicksAll env m m₁ t nodes next where
  starts := by
    obtain ⟨width, hsound⟩ := hreach.sound_empty
    obtain ⟨pre, post, hsplit⟩ := List.append_of_mem ht
    exact ⟨pre, post, hsplit, ((commits_of_stepThread hsound.ids hsplit hstep).of_parallel hact).1⟩
  waits m' hothers := by
    obtain ⟨u, hu, hcaller, -, -, pending, reports, hjoining, hpending, harrive⟩ :=
      reports_arrive hreach ht hact hstep hothers
    refine ⟨u, hu, hcaller, pending, reports, hjoining, hpending, harrive, fun hnone w => ?_⟩
    rw [hnone] at hjoining
    unfold Thread.step
    rw [hjoining]

end Machine

end TickTree
