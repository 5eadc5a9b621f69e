/-
# Two ways to resume a composite

A composite keeps nothing between calls, so one of its children that answered
running is reached again only if those before it are gone past once more. The
siblings of a group see to that, since they answer their last statuses while one
of them runs; a memorized execution does, since it answers its records. Ticked
again and again over the same children, both come to the same: call by call the
same answer, and the same children expanded and called in the same order
(`synced_as_memorized`).

What they keep differs. A group keeps the last status of every sibling for good,
and takes an error for a failure; an execution keeps the results themselves and
forgets them when it ends. Between two calls only this matters: where the
composite was interrupted, and what it had gone past (`Siblings.Stands`,
`Memorize.Stands`). The statuses of siblings that come later are stale, but none
of them is running, so none of them is ever answered. Both kinds of calls are
those of one function of that (`Composite.resume`).

Nothing is known of the children but what a parent sees of them: a child is
expanded, which yields some tick and may change the world, and a call of that
tick answers something and may change the world again.

Key definitions: `ChildCalls`, `Scene`, `Composite.resume`, `Siblings.Stands`,
`Memorize.Stands`, `Repeats`.
Key theorems: `Siblings.evaluates_scan`, `Memorize.evaluates_scan`,
`Composite.synced_as_memorized`.
-/
import TickTree.Proofs.Execution
import TickTree.Proofs.MemoTree

namespace TickTree

variable {I : Interface} {C T σ : Type}

/-! ### Children of which nothing is known -/

/-- The questions of children: what a child expands to this time, and what the
tick that it has expanded to answers this time. -/
inductive ChildQuery (C T : Type) where
  | expand (child : C)
  | call (child : C) (tick : T)

/-- The questions of children with their answers: a tick, and the result of a
call. -/
abbrev ChildCalls (C T : Type) : Interface where
  Query := ChildQuery C T
  Reply
    | .expand _ => T
    | .call _ _ => TickResult

/-- How children behave, each on a state that all of them share. -/
structure Conduct (C T σ : Type) where
  expand : C → σ → T × σ
  call : C → T → σ → TickResult × σ

/-- What a child has done. -/
inductive ChildEvent (C T : Type) where
  | expanded (child : C) (tick : T)
  | called (child : C) (tick : T) (result : TickResult)

/-- What surrounds the children: the state that they share, and what they have
done so far. -/
structure Scene (C T σ : Type) where
  state : σ
  events : List (ChildEvent C T)

namespace Scene

variable (conduct : Conduct C T σ)

/-- A child is expanded. -/
def expand (c : C) (o : Scene C T σ) : T × Scene C T σ :=
  let (tick, state) := conduct.expand c o.state
  (tick, { state, events := o.events ++ [.expanded c tick] })

/-- The tick of a child is called. -/
def call (c : C) (tick : T) (o : Scene C T σ) : TickResult × Scene C T σ :=
  let (result, state) := conduct.call c tick o.state
  (result, { state, events := o.events ++ [.called c tick result] })

end Scene

namespace ChildCalls

/-- The children play their parts at once. -/
def env (conduct : Conduct C T σ) : Environment (ChildCalls C T) (Scene C T σ) where
  answer := fun _ query o =>
    match query with
    | .expand c => some (o.expand conduct c)
    | .call c tick => some (o.call conduct c tick)
  ended := fun _ _ o => o

/-- A child as a node. -/
def node (c : C) : Node (ChildCalls C T) :=
  .made (.ask (.expand c) fun tick => .yield (.leaf (.ask (.call c tick) .const)))

/-- What a call of the tick of a child does. -/
def callProg (c : C) (tick : T) : Prog (ChildCalls C T) TickResult :=
  .request (.ask (.call c tick)) .pure

variable {conduct : Conduct C T σ} {caller : Caller} {held locked : List Lock}
  {h : Heap (ChildCalls C T)} {o o' : Scene C T σ} {c : C} {tick : T} {r : TickResult}

theorem serve_expand (hexpand : o.expand conduct c = (tick, o')) :
    (⟨h, locked, o⟩ : World (ChildCalls C T) (Scene C T σ)).serve (env conduct) caller held
      (.ask (.expand c)) = some (tick, held, ⟨h, locked, o'⟩) := by
  simp only [World.serve, env, hexpand, Option.map_some]
  rfl

theorem serve_call (hcall : o.call conduct c tick = (r, o')) :
    (⟨h, locked, o⟩ : World (ChildCalls C T) (Scene C T σ)).serve (env conduct) caller held
      (.ask (.call c tick)) = some (r, held, ⟨h, locked, o'⟩) := by
  simp only [World.serve, env, hcall, Option.map_some]
  rfl

end ChildCalls

/-- The siblings of a group. -/
def Siblings.group (ref : Ref .statuses) (nodes : List (Node I)) : List (Node I) :=
  nodes.mapIdx fun index node => .sibling ref index node

theorem Node.synced_eq (nodes : List (Node I)) :
    Node.synced nodes = .alloc .statuses fun ref => .yield (Siblings.group ref nodes) := rfl

/-! ### One call -/

/-- One call of a composite that has gone past `past`: where it goes on as it did
before, past `known`, its children are expanded only, and from there on they are
called. Its answer, and what it had gone past if it was interrupted. -/
def Composite.resume (conduct : Conduct C T σ) (kind : Composite) :
    List C → Option (List Status) → List Status → Scene C T σ →
      TickResult × Option (List Status) × Scene C T σ
  | [], _, past, o => (.ok (kind.soFar past), none, o)
  | c :: cs, some (s :: known), past, o =>
    kind.resume conduct cs (some known) (past ++ [s]) (o.expand conduct c).2
  | c :: cs, _, past, o =>
    let (tick, o) := o.expand conduct c
    let (result, o) := o.call conduct c tick
    match result with
    | .error e => (.error (kind.tag past.length e), none, o)
    | .ok s =>
      if kind.goesPast s then kind.resume conduct cs none (past ++ [s]) o
      else (.ok s, if s.isRunning then some past else none, o)

/-- A child is called once everything that was known is gone past. -/
theorem Composite.getD_known {known : Option (List Status)}
    (hnext : ∀ s l, known = some (s :: l) → False) : known.getD [] = [] := by
  rcases known with _ | _ | ⟨s, l⟩
  · rfl
  · rfl
  · exact (hnext s l rfl).elim

theorem Composite.not_running_of_goesPast {kind : Composite} {s : Status} (h : kind.goesPast s) :
    s ≠ .running := by
  rintro rfl
  rw [kind.goesPast_running] at h
  cases h

/-- A composite that is interrupted answers running; it has gone past what it
says, and there is a child after that. -/
theorem Composite.resume_eq_some {conduct : Conduct C T σ} {kind : Composite} {cs : List C}
    {known : Option (List Status)} {past past' : List Status} {o o' : Scene C T σ} {r : TickResult}
    (hpast : ∀ s ∈ past ++ known.getD [], kind.goesPast s)
    (h : kind.resume conduct cs known past o = (r, some past', o')) :
    r = .ok .running ∧ (∀ s ∈ past', kind.goesPast s) ∧ past'.length < past.length + cs.length := by
  fun_induction kind.resume conduct cs known past o with
  | case1 => cases h
  | case2 c cs s known past o ih =>
    obtain ⟨hr, hpast', hlength⟩ := ih (by simpa using hpast) h
    refine ⟨hr, hpast', ?_⟩
    simp only [List.length_append, List.length_cons, List.length_nil] at hlength ⊢
    omega
  | case3 => cases h
  | case4 c cs known past o _ tick o₁ _ o₂ s hs _ ih =>
    have hgone : ∀ s' ∈ (past ++ [s]) ++ (none : Option (List Status)).getD [], kind.goesPast s' := by
      simp only [Option.getD_none, List.append_nil]
      intro s' hs'
      rcases List.mem_append.mp hs' with hs' | hs'
      · exact hpast s' (List.mem_append_left _ hs')
      · exact List.mem_singleton.mp hs' ▸ hs
    obtain ⟨hr, hpast', hlength⟩ := ih hgone h
    refine ⟨hr, hpast', ?_⟩
    simp only [List.length_append, List.length_cons, List.length_nil] at hlength ⊢
    omega
  | case5 c cs known past o _ tick o₁ _ o₂ s hs _ =>
    by_cases hrunning : s.isRunning
    · simp only [hrunning, if_true, Prod.mk.injEq, Option.some.injEq] at h
      obtain ⟨rfl, rfl, rfl⟩ := h
      have hs : s = .running := by simpa [Status.isRunning] using hrunning
      refine ⟨hs ▸ rfl, fun s' hs' => hpast s' (List.mem_append_left _ hs'), ?_⟩
      rw [List.length_cons]
      omega
    · simp [hrunning] at h

/-- A composite answers running if and only if it is interrupted. -/
theorem Composite.isRunning_of_resume {conduct : Conduct C T σ} {kind : Composite} {cs : List C}
    {known : Option (List Status)} {past : List Status} {pause : Option (List Status)}
    {o o' : Scene C T σ} {r : TickResult}
    (h : kind.resume conduct cs known past o = (r, pause, o')) : r.isRunning = pause.isSome := by
  fun_induction kind.resume conduct cs known past o with
  | case1 known past =>
    cases h
    exact kind.isRunning_soFar past
  | case2 _ _ _ _ _ _ ih => exact ih h
  | case3 =>
    cases h
    rfl
  | case4 _ _ _ _ _ _ _ _ _ _ _ _ _ ih => exact ih h
  | case5 _ _ _ _ _ _ _ _ _ _ s =>
    cases h
    cases hs : s.isRunning <;> simp [TickResult.isRunning, hs]

/-- What a composite over `n` children that is interrupted has gone past. -/
def Composite.Paused (kind : Composite) (n : Nat) (pause : Option (List Status)) : Prop :=
  ∀ past ∈ pause, (∀ s ∈ past, kind.goesPast s) ∧ past.length < n

theorem Composite.Paused.none (kind : Composite) (n : Nat) : kind.Paused n none :=
  fun _ hpause => nomatch hpause

theorem Composite.Paused.resume {conduct : Conduct C T σ} {kind : Composite} {cs : List C}
    {pause pause' : Option (List Status)} {o o' : Scene C T σ} {r : TickResult}
    (hpaused : kind.Paused cs.length pause)
    (h : kind.resume conduct cs pause [] o = (r, pause', o')) : kind.Paused cs.length pause' := by
  intro past' hpast'
  cases hpast'
  have hpast : ∀ s ∈ [] ++ pause.getD [], kind.goesPast s := by
    intro s hs
    cases pause with
    | none => cases hs
    | some past => exact (hpaused past rfl).1 s hs
  simpa using (Composite.resume_eq_some hpast h).2

/-! ### Siblings -/

namespace Siblings

/-- The siblings of a group from number `index` on. -/
def groupFrom (ref : Ref .statuses) (index : Nat) (nodes : List (Node I)) : List (Node I) :=
  nodes.mapIdx fun i node => .sibling ref (index + i) node

theorem groupFrom_cons (ref : Ref .statuses) (index : Nat) (node : Node I) (nodes : List (Node I)) :
    groupFrom ref index (node :: nodes) =
      .sibling ref index node :: groupFrom ref (index + 1) nodes := by
  simp only [groupFrom, List.mapIdx_cons, Nat.add_zero, Nat.add_assoc, Nat.add_comm 1]

theorem group_eq_groupFrom (ref : Ref .statuses) (nodes : List (Node I)) :
    group ref nodes = groupFrom ref 0 nodes := by
  simp only [group, groupFrom, Nat.zero_add]

/-- The group remembers `known` of its first siblings. The next is running if the
group is busy, and no other is. -/
structure Stands (last : List (Nat × Status)) (known : List Status) (busy : Bool) : Prop where
  remembered : ∀ i s, known[i]? = some s → last.lookup i = some s
  next : busy → last.lookup known.length = some .running
  others : ∀ entry ∈ last, entry.2.isRunning → busy ∧ entry.1 = known.length

variable {last : List (Nat × Status)} {known past : List Status} {busy : Bool} {s : Status}

theorem lookup_remember (last : List (Nat × Status)) (index : Nat) (s : Status) (i : Nat) :
    (remember last index s).lookup i = if i = index then some s else last.lookup i := by
  unfold remember
  by_cases h : i = index
  · simp [h]
  · rw [List.lookup_cons, if_neg h, show (i == index) = false by simpa using h]
    induction last with
    | nil => rfl
    | cons entry last ih =>
      obtain ⟨j, s'⟩ := entry
      by_cases hj : j = index
      · have hi : (i == j) = false := by simpa [hj] using h
        rw [List.lookup_cons, hi]
        simpa [hj] using ih
      · simp only [List.filter_cons, bne_iff_ne, ne_eq, hj, not_false_eq_true, if_true,
          List.lookup_cons]
        split
        · rfl
        · exact ih

theorem isRunning_iff : isRunning last ↔ ∃ entry ∈ last, entry.2.isRunning := by
  simp [isRunning]

theorem mem_of_lookup {i : Nat} (h : last.lookup i = some s) : (i, s) ∈ last := by
  induction last with
  | nil => cases h
  | cons entry last ih =>
    obtain ⟨j, s'⟩ := entry
    rw [List.lookup_cons] at h
    split at h
    · rename_i hij
      cases h
      rw [beq_iff_eq.mp hij]
      exact List.mem_cons_self
    · exact List.mem_cons_of_mem _ (ih h)

namespace Stands

/-- The sibling that comes next may run, whether it was interrupted or nobody
was. -/
theorem mayRun (h : Stands last past busy) : Siblings.mayRun last past.length := by
  cases busy with
  | true => simp [Siblings.mayRun, h.next rfl]
  | false =>
    have hnone : ¬ isRunning last := fun hsome => by
      obtain ⟨entry, hmem, hrunning⟩ := isRunning_iff.mp hsome
      exact absurd (h.others entry hmem hrunning).1 (by decide)
    simp [Siblings.mayRun, hnone]

/-- Of a busy group, the siblings before the running one may not run, and answer
what they are remembered with. -/
theorem not_mayRun {i : Nat} (h : Stands last known true) (hi : known[i]? = some s)
    (hs : s ≠ .running) : Siblings.mayRun last i = false ∧ Siblings.remembered last i = s := by
  have hrunning : isRunning last := isRunning_iff.mpr ⟨_, mem_of_lookup (h.next rfl), rfl⟩
  simp [Siblings.mayRun, Siblings.remembered, h.remembered i s hi, hs, hrunning]

theorem nil (h : Stands last known false) : Stands last [] false where
  remembered := by simp
  next := by simp
  others := fun entry hmem hrunning => absurd (h.others entry hmem hrunning).1 (by decide)

/-- The sibling that came next is gone past. -/
theorem gonePast (h : Stands last past busy) (hs : s ≠ .running) :
    Stands (remember last past.length s) (past ++ [s]) false where
  remembered := fun i s' hi => by
    rw [lookup_remember]
    by_cases hlast : i = past.length
    · subst hlast
      simpa using hi
    · have hlt : i < past.length := by
        have hlt := (List.getElem?_eq_some_iff.mp hi).1
        simp only [List.length_append, List.length_cons, List.length_nil] at hlt
        omega
      rw [List.getElem?_append_left hlt] at hi
      rw [if_neg hlast, h.remembered i s' hi]
  next := by simp
  others := fun entry hmem hrunning => by
    rcases List.mem_cons.mp hmem with rfl | hmem
    · exact absurd hrunning (by simpa [Status.isRunning] using hs)
    · obtain ⟨hmem, hne⟩ := List.mem_filter.mp hmem
      exact absurd (h.others entry hmem hrunning).2 (by simpa using hne)

/-- The sibling that came next is interrupted. -/
theorem interrupted (h : Stands last past busy) :
    Stands (remember last past.length .running) past true where
  remembered := fun i s hi => by
    have hlt := (List.getElem?_eq_some_iff.mp hi).1
    rw [lookup_remember, if_neg (by omega), h.remembered i s hi]
  next := by simp [lookup_remember]
  others := fun entry hmem hrunning => by
    rcases List.mem_cons.mp hmem with rfl | hmem
    · exact ⟨rfl, rfl⟩
    · obtain ⟨hmem, hne⟩ := List.mem_filter.mp hmem
      exact absurd (h.others entry hmem hrunning).2 (by simpa using hne)

end Stands

variable {conduct : Conduct C T σ} {caller : Caller} {joins : Joins (ChildCalls C T) (Scene C T σ)}
  {held locked : List Lock} {h h' : Heap (ChildCalls C T)} {o o₁ o₂ : Scene C T σ}
  {ref : Ref .statuses}

/-- A call of a sibling: it expands, and runs if it may. -/
theorem call_sibling (ref : Ref .statuses) (index : Nat) (c : C) :
    (Node.sibling ref index (ChildCalls.node (T := T) c)).call =
      .request (.acquire .statuses ref) fun _ => .request (.ask (.expand c)) fun tick =>
        .request (.read .statuses ref) fun last => .request (.release .statuses ref) fun _ =>
          if Siblings.mayRun last index then gate ref index (ChildCalls.callProg c tick)
          else .pure (.ok (remembered last index)) := by
  show Prog.request _ _ = _
  congr 1
  funext _
  show Prog.request _ _ = _
  congr 1
  funext tick
  show Prog.request _ _ = _
  congr 1
  funext last
  show Prog.request _ _ = _
  congr 1
  funext _
  show Prog.bind (ite _ _ _) _ = _
  split <;> rfl

/-- A sibling that may run. -/
theorem evaluates_run {index : Nat} {c : C} {tick : T} {r : TickResult} (hfree : ref.lock ∉ locked)
    (hrun : Siblings.mayRun (h.get ref) index) (hexpand : o.expand conduct c = (tick, o₁))
    (hcall : o₁.call conduct c tick = (r, o₂)) :
    (Node.sibling ref index (ChildCalls.node c)).call.Evaluates (ChildCalls.env conduct) caller joins
      [] ⟨h, locked, o⟩ (.value r) []
      ⟨h.set ref (remember (h.get ref) index (statusOf r)), locked, o₂⟩ := by
  rw [call_sibling]
  refine .serve (World.serve_acquire hfree) (.serve (ChildCalls.serve_expand hexpand) ?_)
  refine .serve rfl (.serve (World.serve_release hfree) ?_)
  rw [if_pos hrun]
  refine .serve (World.serve_acquire hfree) (.serve (ChildCalls.serve_call hcall) ?_)
  exact .serve rfl (.serve rfl (.serve (World.serve_release hfree) .pure))

/-- A sibling that may not. -/
theorem evaluates_remembered {index : Nat} {c : C} (hfree : ref.lock ∉ locked)
    (hrun : Siblings.mayRun (h.get ref) index = false) :
    (Node.sibling ref index (ChildCalls.node c)).call.Evaluates (ChildCalls.env conduct) caller joins
      [] ⟨h, locked, o⟩ (.value (.ok (remembered (h.get ref) index))) []
      ⟨h, locked, (o.expand conduct c).2⟩ := by
  rw [call_sibling]
  refine .serve (World.serve_acquire hfree) (.serve rfl (.serve rfl ?_))
  refine .serve (World.serve_release hfree) ?_
  simp only [hrun, Bool.false_eq_true, if_false]
  exact .pure

/-- A composite over the siblings of a group goes on as `resume` says. -/
theorem evaluates_scan (kind : Composite) {cs : List C} {known : Option (List Status)}
    {past : List Status} {o o' : Scene C T σ} {r : TickResult} {pause : Option (List Status)}
    (hfree : ref.lock ∉ locked) (hpast : ∀ s ∈ past ++ known.getD [], kind.goesPast s)
    (hroom : ∀ l ∈ known, l.length < cs.length)
    (hresume : kind.resume conduct cs known past o = (r, pause, o')) :
    ∀ {h : Heap (ChildCalls C T)}, h.Made ref →
      Stands (h.get ref) (past ++ known.getD []) known.isSome →
      ∃ h', (kind.runFrom past.length (kind.soFar past)
          (groupFrom ref past.length (cs.map ChildCalls.node))).Evaluates (ChildCalls.env conduct)
          caller joins held ⟨h, locked, o⟩ (.value r) held ⟨h', locked, o'⟩ ∧
        h'.Made ref ∧ Stands (h'.get ref) (pause.getD []) pause.isSome := by
  -- a child that is called leaves the group standing as its result says
  have hcalled : ∀ {c : C} {past : List Status} {known : Option (List Status)}
      {o o₁ o₂ : Scene C T σ} {tick : T} {r : TickResult} {h : Heap (ChildCalls C T)},
      (∀ s l, known = some (s :: l) → False) → o.expand conduct c = (tick, o₁) →
      o₁.call conduct c tick = (r, o₂) → h.Made ref →
      Stands (h.get ref) (past ++ known.getD []) known.isSome →
      ∃ h', (Node.sibling ref past.length (ChildCalls.node c)).call.Evaluates (ChildCalls.env conduct)
          caller joins [] ⟨h, locked, o⟩ (.value r) [] ⟨h', locked, o₂⟩ ∧ h'.Made ref ∧
        (statusOf r ≠ .running → Stands (h'.get ref) (past ++ [statusOf r]) false) ∧
        (statusOf r = .running → Stands (h'.get ref) past true) := by
    intro c past known o o₁ o₂ tick r h hnext hexpand hcall hmade hstands
    rw [Composite.getD_known hnext, List.append_nil] at hstands
    have heval := @evaluates_run C T σ conduct caller joins locked h o o₁ o₂ ref past.length c tick r
      hfree hstands.mayRun hexpand hcall
    have hget : (h.set ref (remember (h.get ref) past.length (statusOf r))).get ref =
        remember (h.get ref) past.length (statusOf r) := Heap.get_set hmade _
    refine ⟨_, heval, (Heap.made_set _).mpr hmade, fun hs => ?_, fun hs => ?_⟩
    · rw [hget]
      exact hstands.gonePast hs
    · rw [hget, hs]
      exact hstands.interrupted
  fun_induction kind.resume conduct cs known past o with
  | case1 known past o =>
    cases hresume
    intro h hmade hstands
    cases known with
    | some l => exact absurd (hroom l rfl) (Nat.not_lt_zero _)
    | none => exact ⟨h, .pure, hmade, hstands.nil⟩
  | case2 c cs s known past o ih =>
    intro h hmade hstands
    have hs : kind.goesPast s := hpast s (by simp)
    have hmem : (past ++ s :: known)[past.length]? = some s := by simp
    obtain ⟨hrun, hanswer⟩ := hstands.not_mayRun hmem (Composite.not_running_of_goesPast hs)
    have hcall := @evaluates_remembered C T σ conduct caller joins locked h o ref past.length c hfree
      hrun
    rw [hanswer] at hcall
    have hroom' : ∀ l ∈ some known, l.length < cs.length := by
      intro l hl
      cases hl
      exact Nat.lt_of_succ_lt_succ (hroom _ rfl)
    obtain ⟨h', heval, hmade', hstands'⟩ := ih (by simpa using hpast) hroom' hresume hmade
      (by simpa using hstands)
    refine ⟨h', ?_, hmade', hstands'⟩
    rw [List.map_cons, groupFrom_cons]
    refine .tick_nil hcall ?_
    simp only [hs, if_true]
    rw [kind.soFar_snoc, List.length_append, List.length_singleton] at heval
    exact heval
  | case3 c cs known past o hnext tick o₁ hexpand o₂ e hcall =>
    cases hresume
    intro h hmade hstands
    obtain ⟨h', heval, hmade', hover, -⟩ := hcalled hnext hexpand hcall hmade hstands
    refine ⟨h', ?_, hmade', (hover (by simp [statusOf])).nil⟩
    rw [List.map_cons, groupFrom_cons]
    exact .tick_nil heval .pure
  | case4 c cs known past o hnext tick o₁ hexpand o₂ s hs hcall ih =>
    intro h hmade hstands
    obtain ⟨h₁, heval, hmade₁, hgone, -⟩ := hcalled hnext hexpand hcall hmade hstands
    have hpast' : ∀ s' ∈ (past ++ [s]) ++ (none : Option (List Status)).getD [], kind.goesPast s' := by
      simp only [Option.getD_none, List.append_nil]
      intro s' hs'
      rcases List.mem_append.mp hs' with hs' | hs'
      · exact hpast s' (List.mem_append_left _ hs')
      · exact List.mem_singleton.mp hs' ▸ hs
    have hstands₁ : Stands (h₁.get ref) (past ++ [s]) false :=
      hgone (Composite.not_running_of_goesPast hs)
    obtain ⟨h', hrest, hmade', hstands'⟩ := ih hpast' (by simp) hresume hmade₁
      (by simpa using hstands₁)
    refine ⟨h', ?_, hmade', hstands'⟩
    rw [List.map_cons, groupFrom_cons]
    refine .tick_nil heval ?_
    simp only [hs, if_true]
    rw [kind.soFar_snoc, List.length_append, List.length_singleton] at hrest
    exact hrest
  | case5 c cs known past o hnext tick o₁ hexpand o₂ s hs hcall =>
    cases hresume
    intro h hmade hstands
    obtain ⟨h', heval, hmade', hover, hpaused⟩ := hcalled hnext hexpand hcall hmade hstands
    refine ⟨h', ?_, hmade', ?_⟩
    · rw [List.map_cons, groupFrom_cons]
      refine .tick_nil heval ?_
      simp only [hs, Bool.false_eq_true, if_false]
      exact .pure
    · by_cases hrunning : s = .running
      · subst hrunning
        exact hpaused rfl
      · have hnot : s.isRunning = false := by simpa [Status.isRunning] using hrunning
        simp only [hnot, Bool.false_eq_true, if_false]
        exact (hover hrunning).nil

end Siblings

/-! ### Memorized executions -/

namespace Memorize

/-- The first records hold `known`, and the others nothing. -/
def Stands (h : Heap I) (own : List (Ref .record)) (known : List Status) : Prop :=
  ∀ (i : Nat) (r : Ref .record), own[i]? = some r →
    h.get r = (known[i]?.map .ok : Option TickResult)

variable {own : List (Ref .record)} {record : Ref .record} {known : List Status} {s : Status}

theorem stands_cons {h : Heap I} :
    Stands h (record :: own) known ↔
      h.get record = (known.head?.map .ok : Option TickResult) ∧ Stands h own known.tail := by
  constructor
  · intro hstands
    refine ⟨by simpa [List.head?_eq_getElem?] using hstands 0 record rfl, fun i r hi => ?_⟩
    simpa using hstands (i + 1) r (by simpa using hi)
  · rintro ⟨hfirst, hrest⟩ i r hi
    cases i with
    | zero =>
      cases hi
      simpa [List.head?_eq_getElem?] using hfirst
    | succ i => simpa using hrest i r (by simpa using hi)

theorem Stands.touches {h h' : Heap I} {executions : List (Ref .execution)}
    {records : List (Ref .record)} (hstands : Stands h own known)
    (htouch : h.Touches executions records h') (hmade : ∀ r ∈ own, h.Made r)
    (hother : ∀ r ∈ own, r ∉ records) : Stands h' own known := by
  intro i r hi
  have hmem : r ∈ own := List.mem_of_getElem? hi
  exact (htouch.record (hmade r hmem) (hother r hmem)).trans (hstands i r hi)

variable {conduct : Conduct C T σ} {caller : Caller} {joins : Joins (ChildCalls C T) (Scene C T σ)}
  {held locked : List Lock} {h h' : Heap (ChildCalls C T)} {o o₁ o₂ : Scene C T σ}

/-- A call of a child of an execution: it expands, and its record answers if
there is one. -/
theorem call_child (record : Ref .record) (c : C) :
    (Node.memorized record (ChildCalls.node (T := T) c)).call =
      .request (.ask (.expand c)) fun tick => .request (.read .record record) fun
        | some result => .pure result
        | none => Memorize.record record (ChildCalls.callProg c tick) := by
  show Prog.request _ _ = _
  congr 1
  funext tick
  show Prog.request _ _ = _
  congr 1
  funext recorded
  cases recorded <;> rfl

theorem evaluates_child_recorded {c : C} {r : TickResult} (hget : h.get record = some r) :
    (Node.memorized record (ChildCalls.node c)).call.Evaluates (ChildCalls.env conduct) caller joins
      [] ⟨h, locked, o⟩ (.value r) [] ⟨h, locked, (o.expand conduct c).2⟩ := by
  rw [call_child]
  refine .serve rfl (.serve rfl ?_)
  rw [hget]
  exact .pure

theorem evaluates_child {c : C} {tick : T} {r : TickResult} (hget : h.get record = none)
    (hexpand : o.expand conduct c = (tick, o₁)) (hcall : o₁.call conduct c tick = (r, o₂)) :
    (Node.memorized record (ChildCalls.node c)).call.Evaluates (ChildCalls.env conduct) caller joins
      [] ⟨h, locked, o⟩ (.value r) []
      ⟨if r.isRunning then h else h.set record (some r), locked, o₂⟩ := by
  have hinner : (ChildCalls.callProg c tick).Evaluates (ChildCalls.env conduct) caller joins []
      ⟨h, locked, o₁⟩ (.value r) [] ⟨h, locked, o₂⟩ :=
    .serve (ChildCalls.serve_call hcall) .pure
  rw [call_child]
  refine .serve (ChildCalls.serve_expand hexpand) (.serve rfl ?_)
  rw [hget]
  by_cases hr : r.isRunning
  · rw [if_pos hr]
    exact Memorize.evaluates_record_running hr hinner
  · rw [if_neg hr]
    exact Memorize.evaluates_record (by simpa using hr) hinner

/-- A composite over the children of an execution goes on as `resume` says. -/
theorem evaluates_scan (kind : Composite) {cs : List C} {known : Option (List Status)}
    {past : List Status} {o o' : Scene C T σ} {r : TickResult} {pause : Option (List Status)}
    (hpast : ∀ s ∈ known.getD [], kind.goesPast s) (hroom : ∀ l ∈ known, l.length < cs.length)
    (hresume : kind.resume conduct cs known past o = (r, pause, o')) :
    ∀ {h : Heap (ChildCalls C T)} {own : List (Ref .record)}, own.length = cs.length →
      own.Nodup → (∀ r ∈ own, h.Made r) → Stands h own (known.getD []) →
      ∃ h', (kind.runFrom past.length (kind.soFar past)
          (records own (cs.map ChildCalls.node))).Evaluates (ChildCalls.env conduct)
          caller joins held ⟨h, locked, o⟩ (.value r) held ⟨h', locked, o'⟩ ∧
        h.Touches [] own h' ∧
        ∀ past' ∈ pause, ∃ more, past' = past ++ more ∧ Stands h' own more := by
  fun_induction kind.resume conduct cs known past o with
  | case1 known past o =>
    cases hresume
    intro h own hlength _ _ _
    obtain rfl := List.length_eq_zero_iff.mp hlength
    exact ⟨h, .pure, .refl _ _ h, by simp⟩
  | case2 c cs s known past o ih =>
    intro h own hlength hdistinct hmade hstands
    cases own with
    | nil => cases hlength
    | cons record own =>
      have hs : kind.goesPast s := hpast s (by simp)
      obtain ⟨hget, hstands₁⟩ := stands_cons.mp hstands
      obtain ⟨hrecord, hdistinct₁⟩ := List.nodup_cons.mp hdistinct
      obtain ⟨hmade₀, hmade₁⟩ := List.forall_mem_cons.mp hmade
      have hroom' : ∀ l ∈ some known, l.length < cs.length := by
        intro l hl
        cases hl
        exact Nat.lt_of_succ_lt_succ (hroom _ rfl)
      obtain ⟨h', heval, htouch, hpause⟩ := ih
        (fun s' hs' => hpast s' (List.mem_cons_of_mem _ hs')) hroom' hresume
        (Nat.succ.inj hlength) hdistinct₁ hmade₁ hstands₁
      refine ⟨h', .tick_nil (evaluates_child_recorded hget) ?_,
        htouch.mono (List.Subset.refl _) (List.subset_cons_self _ _), fun past' hpast' => ?_⟩
      · simp only [hs, if_true]
        rw [kind.soFar_snoc, List.length_append, List.length_singleton] at heval
        exact heval
      · obtain ⟨more, rfl, hmore⟩ := hpause past' hpast'
        refine ⟨s :: more, by simp, stands_cons.mpr ⟨?_, hmore⟩⟩
        exact (htouch.record hmade₀ hrecord).trans hget
  | case3 c cs known past o hnext tick o₁ hexpand o₂ e hcall =>
    cases hresume
    intro h own hlength hdistinct hmade hstands
    cases own with
    | nil => cases hlength
    | cons record own =>
      rw [Composite.getD_known hnext] at hstands
      have hget : h.get record = none := (stands_cons.mp hstands).1
      exact ⟨_, .tick_nil (evaluates_child hget hexpand hcall) .pure,
        .set_record List.mem_cons_self _, by simp⟩
  | case4 c cs known past o hnext tick o₁ hexpand o₂ s hs hcall ih =>
    intro h own hlength hdistinct hmade hstands
    cases own with
    | nil => cases hlength
    | cons record own =>
      rw [Composite.getD_known hnext] at hstands
      obtain ⟨hget, hstands₁⟩ := stands_cons.mp hstands
      obtain ⟨hrecord, hdistinct₁⟩ := List.nodup_cons.mp hdistinct
      obtain ⟨hmade₀, hmade₁⟩ := List.forall_mem_cons.mp hmade
      have hset : h.Touches [] [record] (h.set record (some (.ok s))) :=
        .set_record (List.mem_singleton.mpr rfl) _
      have hother : ∀ r ∈ own, r ∉ [record] := fun r hr hmem =>
        hrecord (List.mem_singleton.mp hmem ▸ hr)
      obtain ⟨h', hrest, htouch, hpause⟩ := ih (by simp) (by simp) hresume (Nat.succ.inj hlength)
        hdistinct₁ (fun r hr => hset.made (hmade₁ r hr)) (hstands₁.touches hset hmade₁ hother)
      have hrunning : TickResult.isRunning (.ok s) = false := by
        simpa [TickResult.isRunning, Status.isRunning] using Composite.not_running_of_goesPast hs
      have hcalled := @evaluates_child _ _ _ record conduct caller joins locked h _ _ _ c tick _ hget
        hexpand hcall
      rw [hrunning] at hcalled
      refine ⟨h', .tick_nil hcalled ?_, ?_, fun past' hpast' => ?_⟩
      · simp only [hs, if_true]
        rw [kind.soFar_snoc, List.length_append, List.length_singleton] at hrest
        exact hrest
      · refine (hset.mono (List.Subset.refl _) ?_).trans htouch fun r hr =>
          .inl (List.mem_cons_of_mem _ hr)
        exact List.cons_subset_cons _ (List.nil_subset _)
      · obtain ⟨more, rfl, hmore⟩ := hpause past' hpast'
        refine ⟨s :: more, by simp, stands_cons.mpr ⟨?_, hmore⟩⟩
        exact (htouch.record (hset.made hmade₀) hrecord).trans (Heap.get_set hmade₀ _)
  | case5 c cs known past o hnext tick o₁ hexpand o₂ s hs hcall =>
    cases hresume
    intro h own hlength hdistinct hmade hstands
    cases own with
    | nil => cases hlength
    | cons record own =>
      rw [Composite.getD_known hnext] at hstands
      have hget : h.get record = none := (stands_cons.mp hstands).1
      have hcalled := @evaluates_child _ _ _ record conduct caller joins locked h _ _ _ c tick _ hget
        hexpand hcall
      refine ⟨if TickResult.isRunning (.ok s) then h else h.set record (some (.ok s)),
        .tick_nil hcalled ?_, ?_, fun past' hpast' => ⟨[], ?_⟩⟩
      · simp only [hs, Bool.false_eq_true, if_false]
        exact .pure
      · split
        · exact .refl _ _ h
        · exact .set_record List.mem_cons_self _
      · by_cases hrunning : s.isRunning
        · rw [if_pos (show TickResult.isRunning (.ok s) from hrunning)]
          simp only [hrunning, if_true, Option.mem_some_iff] at hpast'
          exact ⟨by simp [hpast'], hstands⟩
        · simp [hrunning] at hpast'

end Memorize

/-! ### Call by call -/

/-- Calls of a program, one after another and each by any thread: the answer of
each, and what it leaves outside. -/
inductive Repeats (env : Environment I σ) (p : Prog I TickResult) (w : World I σ) :
    List (TickResult × σ) → World I σ → Prop
  | none : Repeats env p w [] w
  | next {turns id origin r} {w₁ w' : World I σ} : Repeats env p w turns w₁ →
      Thread.Ends env (fun _ _ _ _ => False) id origin p w₁ (.returned r) w' →
      Repeats env p w (turns ++ [(r, w'.outside)]) w'

/-- A call of the program by any thread ends so, and in no other way. -/
def Thread.EndsOnly (env : Environment I σ) (p : Prog I TickResult) (w : World I σ) (r : TickResult)
    (w' : World I σ) : Prop :=
  ∀ id origin outcome w₁, Ends env (fun _ _ _ _ => False) id origin p w outcome w₁ ↔
    outcome = .returned r ∧ w₁ = w'

/-- Programs whose calls end alike, if they are called in related worlds, and
leave related worlds. -/
def Alike (env : Environment I σ) (p q : Prog I TickResult) (R : World I σ → World I σ → Prop) :
    Prop :=
  ∀ w v, R w v → ∃ r w' v', Thread.EndsOnly env p w r w' ∧ Thread.EndsOnly env q v r v' ∧
    w'.outside = v'.outside ∧ R w' v'

theorem Alike.symm {env : Environment I σ} {p q : Prog I TickResult}
    {R : World I σ → World I σ → Prop} (halike : Alike env p q R) :
    Alike env q p fun v w => R w v := by
  intro v w hrel
  obtain ⟨r, w', v', hp, hq, houtside, hrel'⟩ := halike w v hrel
  exact ⟨r, v', w', hq, hp, houtside.symm, hrel'⟩

/-- Call by call they answer the same, and leave the same outside. -/
theorem Alike.repeats {env : Environment I σ} {p q : Prog I TickResult}
    {R : World I σ → World I σ → Prop} (halike : Alike env p q R) {w v w' : World I σ}
    {turns : List (TickResult × σ)} (hrel : R w v) (hrepeats : Repeats env p w turns w') :
    ∃ v', Repeats env q v turns v' ∧ R w' v' := by
  induction hrepeats with
  | none => exact ⟨v, .none, hrel⟩
  | next _ hends ih =>
    obtain ⟨v₁, hrepeats, hrel₁⟩ := ih
    obtain ⟨r, w', v', hp, hq, houtside, hrel'⟩ := halike _ _ hrel₁
    obtain ⟨hr, rfl⟩ := (hp ..).mp hends
    cases hr
    rw [houtside]
    exact ⟨v', .next hrepeats ((hq 0 default ..).mpr ⟨rfl, rfl⟩), hrel'⟩

section

variable {conduct : Conduct C T σ} {kind : Composite} {cs : List C}
  {pause pause' : Option (List Status)} {r : TickResult} {o' : Scene C T σ}
  {w : World (ChildCalls C T) (Scene C T σ)}

theorem Thread.endsOnly_of_evaluates {p : Prog (ChildCalls C T) TickResult}
    {w' : World (ChildCalls C T) (Scene C T σ)}
    (h : p.Evaluates (ChildCalls.env conduct) default (fun _ _ _ _ => False) [] w (.value r) [] w') :
    EndsOnly (ChildCalls.env conduct) p w r w' :=
  ends_iff_of_evaluates (fun _ _ _ _ _ _ hjoin => hjoin.elim) (fun _ w held q => by cases q <;> rfl) h

/-- Between two calls: the group remembers where the composite over it is
interrupted. -/
structure Siblings.Kept (ref : Ref .statuses) (pause : Option (List Status))
    (w : World (ChildCalls C T) (Scene C T σ)) : Prop where
  made : w.heap.Made ref
  unlocked : ref.lock ∉ w.locked
  stands : Stands (w.heap.get ref) (pause.getD []) pause.isSome

theorem Siblings.Kept.of_fresh {ref : Ref .statuses} (hfresh : w.Fresh ref) : Kept ref none w where
  made := hfresh.made
  unlocked := hfresh.unlocked
  stands := by
    rw [hfresh.fresh]
    exact ⟨by simp, by simp, fun _ hmem => absurd hmem List.not_mem_nil⟩

theorem Siblings.Kept.call {ref : Ref .statuses} (hkept : Kept ref pause w)
    (hpaused : kind.Paused cs.length pause)
    (hresume : kind.resume conduct cs pause [] w.outside = (r, pause', o')) :
    ∃ w', Thread.EndsOnly (ChildCalls.env conduct)
        ((Tick.composite kind).run (group ref (cs.map ChildCalls.node))) w r w' ∧
      w'.outside = o' ∧ Kept ref pause' w' := by
  obtain ⟨h, locked, o⟩ := w
  have hpast : ∀ s ∈ [] ++ pause.getD [], kind.goesPast s := by
    intro s hs
    cases pause with
    | none => cases hs
    | some past => exact (hpaused past rfl).1 s hs
  obtain ⟨h', heval, hmade, hstands⟩ := @evaluates_scan _ _ _ conduct default
    (fun _ _ _ _ => False) [] _ ref kind _ _ _ _ _ _ _ hkept.unlocked hpast
    (fun past hpast => (hpaused past hpast).2) hresume _ hkept.made hkept.stands
  refine ⟨⟨h', locked, o'⟩, Thread.endsOnly_of_evaluates ?_, rfl, hmade, hkept.unlocked, hstands⟩
  rw [group_eq_groupFrom]
  exact heval

/-- Between two calls: the execution under way, if there is one, has records of
what the composite has gone past. -/
structure Memorize.Kept (nodes : List (Node (ChildCalls C T))) (ref : Ref .execution)
    (pause : Option (List Status)) (w : World (ChildCalls C T) (Scene C T σ)) : Prop where
  made : w.heap.Made ref
  unlocked : ref.lock ∉ w.locked
  idle : pause = none → w.heap.get ref = none
  underWay : ∀ past, pause = some past → ∃ own, w.heap.get ref = some (records own nodes) ∧
    own.length = nodes.length ∧ own.Nodup ∧ (∀ r ∈ own, w.heap.Made r) ∧ Stands w.heap own past

theorem Memorize.Kept.of_fresh {nodes : List (Node (ChildCalls C T))} {ref : Ref .execution}
    (hfresh : w.Fresh ref) : Kept nodes ref none w where
  made := hfresh.made
  unlocked := hfresh.unlocked
  idle := fun _ => hfresh.fresh
  underWay := fun _ hpause => nomatch hpause

/-- The execution that a call is part of, with what it has on record. -/
theorem Memorize.Kept.entered {nodes : List (Node (ChildCalls C T))} {ref : Ref .execution}
    {h : Heap (ChildCalls C T)} {locked : List Lock} {o : Scene C T σ}
    (hkept : Kept nodes ref pause ⟨h, locked, o⟩) {caller : Caller}
    {joins : Joins (ChildCalls C T) (Scene C T σ)} {held locked' : List Lock} :
    ∃ own h', (execution ref nodes).Evaluates (ChildCalls.env conduct) caller joins held
        ⟨h, locked', o⟩ (.value (records own nodes)) held ⟨h', locked', o⟩ ∧
      h'.Made ref ∧ h'.get ref = some (records own nodes) ∧ own.length = nodes.length ∧
      own.Nodup ∧ (∀ r ∈ own, h'.Made r) ∧ Stands h' own (pause.getD []) := by
  cases pause with
  | none =>
    obtain ⟨own, h', heval, hlength, hdistinct, hnew, htouch, hget⟩ :=
      @evaluates_execution_none _ _ (ChildCalls.env conduct) caller joins held h locked' o ref nodes
        (hkept.idle rfl) hkept.made
    refine ⟨own, h', heval, htouch.made hkept.made, hget, hlength, hdistinct,
      fun r hr => (hnew r hr).2.1, fun i r hi => ?_⟩
    exact (hnew r (List.mem_of_getElem? hi)).2.2
  | some past =>
    obtain ⟨own, hget, hlength, hdistinct, hmade, hstands⟩ := hkept.underWay past rfl
    exact ⟨own, h, evaluates_execution hget, hkept.made, hget, hlength, hdistinct, hmade, hstands⟩

theorem Memorize.Kept.call {ref : Ref .execution}
    (hkept : Kept (cs.map ChildCalls.node) ref pause w) (hpaused : kind.Paused cs.length pause)
    (hresume : kind.resume conduct cs pause [] w.outside = (r, pause', o')) :
    ∃ w', Thread.EndsOnly (ChildCalls.env conduct)
        ((Tick.memorize ref (.composite kind)).run (cs.map ChildCalls.node)) w r w' ∧
      w'.outside = o' ∧ Kept (cs.map ChildCalls.node) ref pause' w' := by
  obtain ⟨h, locked, o⟩ := w
  have hunlocked : ref.lock ∉ locked := hkept.unlocked
  have hpast : ∀ s ∈ pause.getD [], kind.goesPast s := by
    intro s hs
    cases pause with
    | none => cases hs
    | some past => exact (hpaused past rfl).1 s hs
  obtain ⟨own, h₁, hexec, hmade₁, hget₁, hlength, hdistinct, hown, hstands⟩ :=
    @Memorize.Kept.entered _ _ _ conduct _ _ _ _ _ _ hkept default (fun _ _ _ _ => False)
      [ref.lock] (ref.lock :: locked)
  obtain ⟨h₂, hscan, htouch, hpause⟩ := @evaluates_scan _ _ _ conduct default
    (fun _ _ _ _ => False) [ref.lock] (ref.lock :: locked) kind _ _ _ _ _ _ _ hpast
    (fun past hpast => (hpaused past hpast).2) hresume _ _ (by simpa using hlength) hdistinct hown
    hstands
  have hget₂ : h₂.get ref = some (records own (cs.map ChildCalls.node)) :=
    (htouch.execution List.not_mem_nil).trans hget₁
  have hrunning := Composite.isRunning_of_resume hresume
  refine ⟨⟨settle ref r h₂, locked, o'⟩,
    Thread.endsOnly_of_evaluates (evaluates_run hunlocked hexec hscan), rfl, ?_⟩
  unfold settle
  cases pause' with
  | none =>
    rw [Option.isSome_none] at hrunning
    simp only [hrunning, Bool.false_eq_true, if_false]
    exact ⟨(Heap.made_set _).mpr (htouch.made hmade₁), hunlocked,
      fun _ => Heap.get_set (htouch.made hmade₁) _, fun _ hpause => nomatch hpause⟩
  | some past' =>
    rw [Option.isSome_some] at hrunning
    simp only [hrunning, if_true]
    obtain ⟨more, rfl, hmore⟩ := hpause past' rfl
    refine ⟨htouch.made hmade₁, hunlocked, (nomatch ·), fun past hpast => ?_⟩
    cases hpast
    exact ⟨own, hget₂, hlength, hdistinct, fun r hr => htouch.made (hown r hr), hmore⟩

/-- Interrupted at the same place, with the same outside, a composite over
siblings and a memorized one are called alike. -/
theorem Composite.alike (conduct : Conduct C T σ) (kind : Composite) (cs : List C)
    (group : Ref .statuses) (execution : Ref .execution) :
    Alike (ChildCalls.env conduct)
      ((Tick.composite kind).run (Siblings.group group (cs.map ChildCalls.node)))
      ((Tick.memorize execution (.composite kind)).run (cs.map ChildCalls.node))
      fun w w' => ∃ pause, kind.Paused cs.length pause ∧ Siblings.Kept group pause w ∧
        Memorize.Kept (cs.map ChildCalls.node) execution pause w' ∧ w.outside = w'.outside := by
  rintro w w' ⟨pause, hpaused, hgroup, hexec, houtside⟩
  rcases hresume : kind.resume conduct cs pause [] w.outside with ⟨r, pause', o'⟩
  obtain ⟨w₁, hends, ho, hgroup'⟩ := hgroup.call hpaused hresume
  rw [houtside] at hresume
  obtain ⟨w₁', hends', ho', hexec'⟩ := hexec.call hpaused hresume
  have houtside' : w₁.outside = w₁'.outside := ho.trans ho'.symm
  exact ⟨r, w₁, w₁', hends, hends', houtside', pause', hpaused.resume hresume, hgroup', hexec',
    houtside'⟩

/-- **A composite over siblings and a memorized one resume alike.** Over the same
children, whatever these do, and from a fresh group and a fresh execution:

* after any calls of either, the next call by any thread ends, and in one way
  only;
* call by call both answer the same, and have expanded and called the same
  children, with the same results and in the same order. -/
theorem Composite.synced_as_memorized (conduct : Conduct C T σ) (kind : Composite) (cs : List C)
    {group : Ref .statuses} {execution : Ref .execution}
    {w w' : World (ChildCalls C T) (Scene C T σ)} (hgroup : w.Fresh group)
    (hexec : w'.Fresh execution) (houtside : w.outside = w'.outside) :
    let env := ChildCalls.env conduct
    let synced := (Tick.composite kind).run (Siblings.group group (cs.map ChildCalls.node))
    let memorized := (Tick.memorize execution (.composite kind)).run (cs.map ChildCalls.node)
    (∀ turns w₁, Repeats env synced w turns w₁ → ∃ r w₂, Thread.EndsOnly env synced w₁ r w₂) ∧
    (∀ turns w₁, Repeats env memorized w' turns w₁ →
      ∃ r w₂, Thread.EndsOnly env memorized w₁ r w₂) ∧
    ∀ turns, (∃ w₁, Repeats env synced w turns w₁) ↔ ∃ w₁, Repeats env memorized w' turns w₁ := by
  intro env synced memorized
  have halike := Composite.alike conduct kind cs group execution
  have hrel : ∃ pause, kind.Paused cs.length pause ∧ Siblings.Kept group pause w ∧
      Memorize.Kept (cs.map ChildCalls.node) execution pause w' ∧ w.outside = w'.outside :=
    ⟨none, .none _ _, .of_fresh hgroup, .of_fresh hexec, houtside⟩
  refine ⟨fun turns w₁ hrepeats => ?_, fun turns w₁ hrepeats => ?_, fun turns => ⟨?_, ?_⟩⟩
  · obtain ⟨_, _, hrel₁⟩ := halike.repeats hrel hrepeats
    obtain ⟨r, w₂, _, hends, -⟩ := halike _ _ hrel₁
    exact ⟨r, w₂, hends⟩
  · obtain ⟨_, _, hrel₁⟩ := halike.symm.repeats hrel hrepeats
    obtain ⟨r, _, w₂, -, hends, -⟩ := halike _ _ hrel₁
    exact ⟨r, w₂, hends⟩
  · rintro ⟨w₁, hrepeats⟩
    obtain ⟨w₁', hrepeats', -⟩ := halike.repeats hrel hrepeats
    exact ⟨w₁', hrepeats'⟩
  · rintro ⟨w₁', hrepeats'⟩
    obtain ⟨w₁, hrepeats, -⟩ := halike.symm.repeats hrel hrepeats'
    exact ⟨w₁, hrepeats⟩

/-- Two children in a sequence that answer running once each; the second call
goes past the first child, the third only expands it. -/
theorem Composite.synced_as_memorized_twoWaits :
    let conduct : Conduct Nat Nat Nat :=
      { expand := fun _ n => (n, n)
        call := fun c _ n => if c = n then (.ok .running, n + 1) else (.ok .success, n) }
    let w : World (ChildCalls Nat Nat) (Scene Nat Nat Nat) :=
      ⟨(Heap.empty.alloc .statuses).2, [], ⟨0, []⟩⟩
    let w' : World (ChildCalls Nat Nat) (Scene Nat Nat Nat) :=
      ⟨(Heap.empty.alloc .execution).2, [], ⟨0, []⟩⟩
    let first : List (ChildEvent Nat Nat) := [.expanded 0 0, .called 0 0 (.ok .running)]
    let second := first ++ [.expanded 0 1, .called 0 1 (.ok .success), .expanded 1 1,
      .called 1 1 (.ok .running)]
    let third := second ++ [.expanded 0 2, .expanded 1 2, .called 1 2 (.ok .success)]
    (w.Fresh (⟨0⟩ : Ref .statuses) ∧ w'.Fresh (⟨0⟩ : Ref .execution) ∧ w.outside = w'.outside) ∧
    ∃ w₁, Repeats (ChildCalls.env conduct)
      ((Tick.memorize ⟨0⟩ (.composite .sequence)).run ([0, 1].map ChildCalls.node)) w'
      [(.ok .running, ⟨1, first⟩), (.ok .running, ⟨2, second⟩), (.ok .success, ⟨2, third⟩)] w₁ := by
  intro conduct w w' first second third
  have hgroup : w.Fresh (⟨0⟩ : Ref .statuses) :=
    ⟨Heap.made_alloc _ _, List.not_mem_nil, Heap.get_alloc _ _ _⟩
  have hexec : w'.Fresh (⟨0⟩ : Ref .execution) :=
    ⟨Heap.made_alloc _ _, List.not_mem_nil, Heap.get_alloc _ _ _⟩
  refine ⟨⟨hgroup, hexec, rfl⟩, ?_⟩
  refine ((synced_as_memorized conduct .sequence [0, 1] hgroup hexec rfl).2.2 _).mp ?_
  have hpaused₀ := Composite.Paused.none .sequence [0, 1].length
  have hresume₁ : Composite.resume conduct .sequence [0, 1] none [] w.outside =
    (.ok .running, some [], ⟨1, first⟩) := rfl
  obtain ⟨w₁, hends₁, ho₁, hkept₁⟩ := (Siblings.Kept.of_fresh hgroup).call hpaused₀ hresume₁
  have hresume₂ : Composite.resume conduct .sequence [0, 1] (some []) [] w₁.outside =
    (.ok .running, some [.success], ⟨2, second⟩) := by rw [ho₁]; rfl
  have hpaused₁ := hpaused₀.resume hresume₁
  obtain ⟨w₂, hends₂, ho₂, hkept₂⟩ := hkept₁.call hpaused₁ hresume₂
  have hresume₃ : Composite.resume conduct .sequence [0, 1] (some [.success]) [] w₂.outside =
    (.ok .success, none, ⟨2, third⟩) := by rw [ho₂]; rfl
  obtain ⟨w₃, hends₃, ho₃, -⟩ := hkept₂.call (hpaused₁.resume hresume₂) hresume₃
  rw [← ho₁, ← ho₂, ← ho₃]
  have hturn := Repeats.none.next ((hends₁ 0 default ..).mpr ⟨rfl, rfl⟩)
  exact ⟨w₃, (hturn.next ((hends₂ 0 default ..).mpr ⟨rfl, rfl⟩)).next
    ((hends₃ 0 default ..).mpr ⟨rfl, rfl⟩)⟩

end

end TickTree
