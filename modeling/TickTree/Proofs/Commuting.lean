/-
# Success of any child, with executions inside and around

It is the same whether a tick is memorized and then made to succeed if any of its
children does, or the other way round. In the one order the children of an execution
have marks inside their records, in the other around them; what the tick inside does with
them is the same (`TickTree.Proofs.Twins`). Beside that the flag is lowered and the
execution closed in the same calls, if in another order.

When an execution is over the tick inside must not keep children of it. A tick that
does, and ticks them in later calls, sees the difference, since there the records of an
execution are replayed that is over (`AnySuccess.not_commute_background`).

Key definitions: `AnySuccess.closed`, `AnySuccess.Rests`.
Key theorems: `AnySuccess.call_inside_iff`, `AnySuccess.call_around_iff`,
`AnySuccess.Abreast.begins`, `AnySuccess.Abreast.closes`, `AnySuccess.Abreast.call`,
`AnySuccess.commute_law`.
-/
import TickTree.Proofs.Twins

namespace TickTree

variable {J : Interface} {C T σ : Type}

namespace AnySuccess

/-! ### A call -/

section

variable {flag : Ref .flag} {exec : Ref .execution} {t : Tick (Family J C T)}
  {env : Environment (Family J C T) σ} {caller : Caller} {joins : Joins (Family J C T) σ}
  {held : List Lock} {w w₁ w' v : World (Family J C T) σ} {events : List (Event (Family J C T))}
  {ending : Ending TickResult}

/-- The cells when an execution is over: none is open, and the flag is down. -/
def shut (flag : Ref .flag) (exec : Ref .execution) (h : Heap (Family J C T)) :
    Heap (Family J C T) :=
  (h.set exec none).set flag false

/-- The locks of a call in which the tick inside has ended so are given back. -/
def unlocked (exec : Ref .execution) (first : Ending TickResult) (held : List Lock)
    (w : World (Family J C T) σ) : World (Family J C T) σ :=
  match first with
  | .value _ => (w.unlock [exec.lock]).unlock (held.filter (· != exec.lock))
  | .panic _ => w.unlock held

/-- The world when a call has ended in which the tick inside has ended so. -/
def closed (flag : Ref .flag) (exec : Ref .execution) (first : Ending TickResult)
    (held : List Lock) (w : World (Family J C T) σ) : World (Family J C T) σ :=
  unlocked exec first held (if first.goesOn then w else { w with heap := shut flag exec w.heap })

theorem goesOn_value (result : TickResult) :
    (Ending.value result).goesOn = result.isRunning := by
  match result with
  | .ok .running | .ok .success | .ok .failure | .error e => rfl

theorem overridden_value (raised : Bool) (result : TickResult) :
    ∃ result', (Ending.value result).overridden raised = .value result' ∧
      result'.isRunning = result.isRunning := by
  match result with
  | .ok .running | .error e => exact ⟨_, rfl, rfl⟩
  | .ok .success | .ok .failure =>
    refine ⟨_, rfl, ?_⟩
    cases raised <;> rfl

/-- **A call with the execution inside.** -/
theorem call_inside_iff {children : List C} {nodes : List (Node (Family J C T))}
    (hfree : exec.lock ∉ w.locked)
    (hopens : (Memorize.execution exec ((children.map Family.node).map (.flagged flag))).Evaluates
      env caller joins [exec.lock] (w.hold exec.lock) (.value nodes) [exec.lock] v) :
    Family.Call env caller (.any flag (.memorize exec t)) children w events ending w₁ ↔
      ∃ first held w₂, (t.run nodes).Performs env caller [exec.lock] v events first held w₂ ∧
        ending = first.overridden (w₂.heap.get flag) ∧ w₁ = closed flag exec first held w₂ := by
  have hends : ∀ (result : TickResult) (held : List Lock) (w₂ : World (Family J C T) σ),
      (Memorize.ends exec (.value result) w₂).heap.get flag = w₂.heap.get flag ∧
        (lowered flag (.value result) (Memorize.ends exec (.value result) w₂)).unlock
          (held.filter (· != exec.lock)) = closed flag exec (.value result) held w₂ := by
    intro result held w₂
    unfold closed unlocked shut lowered Memorize.ends Memorize.settle
    rw [goesOn_value]
    dsimp only
    cases result.isRunning with
    | true => exact ⟨rfl, rfl⟩
    | false => exact ⟨Heap.get_set_kind (by decide) exec flag none, rfl⟩
  constructor
  · rintro ⟨_, _, h, rfl⟩
    obtain ⟨first, w₃, hmemorized, rfl, rfl⟩ := performs_run_iff.mp h
    obtain ⟨held, w₂, hinner, hend⟩ := (Memorize.performs_run_iff hfree hopens).mp hmemorized
    refine ⟨first, held, w₂, hinner, ?_⟩
    cases first with
    | value result =>
      obtain ⟨rfl, rfl⟩ := hend
      obtain ⟨hget, hworld⟩ := hends result held w₂
      exact ⟨by rw [hget], hworld⟩
    | panic payload =>
      obtain ⟨rfl, rfl⟩ := hend
      exact ⟨rfl, rfl⟩
  · rintro ⟨first, held, w₂, hinner, rfl, rfl⟩
    cases first with
    | value result =>
      obtain ⟨hget, hworld⟩ := hends result held w₂
      have hmemorized := (Memorize.performs_run_iff hfree hopens).mpr
        ⟨held, w₂, hinner, rfl, rfl⟩
      exact ⟨_, _, performs_run_iff.mpr ⟨_, _, hmemorized, by rw [hget], rfl⟩, hworld.symm⟩
    | panic payload =>
      have hmemorized := (Memorize.performs_run_iff hfree hopens).mpr
        ⟨held, w₂, hinner, rfl, rfl⟩
      exact ⟨_, _, performs_run_iff.mpr ⟨_, _, hmemorized, rfl, rfl⟩, rfl⟩

/-- **A call with the execution around.** -/
theorem call_around_iff {children : List C} {nodes : List (Node (Family J C T))}
    (hfree : exec.lock ∉ w.locked)
    (hopens : (Memorize.execution exec (children.map Family.node)).Evaluates
      env caller joins [exec.lock] (w.hold exec.lock) (.value nodes) [exec.lock] v) :
    Family.Call env caller (.memorize exec (.any flag t)) children w events ending w₁ ↔
      ∃ first held w₂,
        (t.run (nodes.map (.flagged flag))).Performs env caller [exec.lock] v events first held w₂ ∧
        ending = first.overridden (w₂.heap.get flag) ∧ w₁ = closed flag exec first held w₂ := by
  have hends : ∀ (result result' : TickResult) (held : List Lock) (w₂ : World (Family J C T) σ),
      result'.isRunning = result.isRunning →
      (Memorize.ends exec (.value result') (lowered flag (.value result) w₂)).unlock
        (held.filter (· != exec.lock)) = closed flag exec (.value result) held w₂ := by
    intro result result' held w₂ hrunning
    unfold closed unlocked shut lowered Memorize.ends Memorize.settle
    rw [goesOn_value]
    dsimp only
    rw [hrunning]
    cases result.isRunning with
    | true | false => rfl
  constructor
  · rintro ⟨_, _, h, rfl⟩
    obtain ⟨held, w₃, hany, hend⟩ := (Memorize.performs_run_iff hfree hopens).mp h
    obtain ⟨first, w₂, hinner, rfl, rfl⟩ := performs_run_iff.mp hany
    refine ⟨first, held, w₂, hinner, rfl, ?_⟩
    cases first with
    | value result =>
      obtain ⟨result', he, hrunning⟩ := overridden_value (w₂.heap.get flag) result
      rw [he] at hend
      obtain ⟨rfl, rfl⟩ := hend
      exact hends result result' held w₂ hrunning
    | panic payload =>
      obtain ⟨rfl, rfl⟩ := hend
      rfl
  · rintro ⟨first, held, w₂, hinner, rfl, rfl⟩
    have hany := performs_run_iff.mpr ⟨first, w₂, hinner, rfl, rfl⟩
    cases first with
    | value result =>
      obtain ⟨result', he, hrunning⟩ := overridden_value (w₂.heap.get flag) result
      rw [he] at hany ⊢
      exact ⟨_, _, (Memorize.performs_run_iff hfree hopens).mpr ⟨held, _, hany, rfl, rfl⟩,
        (hends result result' held w₂ hrunning).symm⟩
    | panic payload =>
      exact ⟨_, _, (Memorize.performs_run_iff hfree hopens).mpr ⟨held, _, hany, rfl, rfl⟩, rfl⟩

end

/-! ### Call after call -/

/-- The heap has more cells, which are fresh. -/
structure Grows (h h' : Heap (Family J C T)) : Prop where
  made : ∀ {kind : CellKind} {s : Ref kind}, h.Made s → h'.Made s
  cell : ∀ {kind : CellKind} (s : Ref kind), h'.get s = h.get s

theorem not_twins_nil {flag : Ref .flag} {n n' : Node (Family J C T)} : ¬ Twins flag [] n n' := by
  intro h
  generalize hrecs : ([] : List (Ref .record)) = recs at h
  induction h with
  | child hmem =>
    subst hrecs
    cases hmem
  | memorized _ _ ih | flagged _ _ ih => exact ih

section

variable {flag : Ref .flag} {exec : Ref .execution} {t : Tick (Family J C T)}
  {open? : Option (List (Ref .record × C))} {env : Environment (Family J C T) σ}
  {caller : Caller} {joins : Joins (Family J C T) σ} {held : List Lock}
  {w w₀ w' w₀' : World (Family J C T) σ}

/-- Snapshots of the same children take the same records on both sides. -/
theorem snapshots (f g : C → Node (Family J C T)) (locked locked' : List Lock)
    (outside outside' : σ) (children : List C) : ∀ {heap heap' : Heap (Family J C T)},
    (∀ kind, (heap'.table kind).size = (heap.table kind).size) → ∃ recs h h',
      (Memorize.snapshot (children.map f)).Evaluates env caller joins held ⟨heap, locked, outside⟩
        (.value (List.zipWith .memorized recs (children.map f))) held ⟨h, locked, outside⟩ ∧
      (Memorize.snapshot (children.map g)).Evaluates env caller joins held
        ⟨heap', locked', outside'⟩ (.value (List.zipWith .memorized recs (children.map g))) held
        ⟨h', locked', outside'⟩ ∧
      (∀ rec ∈ recs, h.Made rec ∧ h.get rec = none) ∧
      (∀ kind, (h'.table kind).size = (h.table kind).size) ∧ Grows heap h ∧ Grows heap' h' := by
  induction children with
  | nil =>
    intro heap heap' hsize
    exact ⟨[], heap, heap', .pure, .pure, nofun, hsize, ⟨id, fun _ => rfl⟩, ⟨id, fun _ => rfl⟩⟩
  | cons c children ih =>
    intro heap heap' hsize
    have hsize' : ∀ kind, ((heap'.alloc .record).2.table kind).size =
        ((heap.alloc .record).2.table kind).size := by
      intro kind
      by_cases hkind : CellKind.record = kind
      · subst hkind
        simp [Heap.alloc, hsize]
      · simp [Heap.alloc, hkind, hsize]
    obtain ⟨recs, h, h', hleft, hright, hrecs, hgrown, hgrows, hgrows'⟩ := ih hsize'
    have hrec : (heap'.alloc .record).1 = (heap.alloc .record).1 := congrArg Ref.mk (hsize .record)
    have hright' : (Memorize.snapshot ((c :: children).map g)).Evaluates env caller joins held
        ⟨heap', locked', outside'⟩ (.value (.memorized (heap'.alloc .record).1 (g c) ::
          List.zipWith .memorized recs (children.map g))) held ⟨h', locked', outside'⟩ :=
      .serve rfl (hright.bind .pure)
    rw [hrec] at hright'
    refine ⟨(heap.alloc .record).1 :: recs, h, h', .serve rfl (hleft.bind .pure), hright',
      List.forall_mem_cons.mpr ⟨⟨hgrows.made (heap.made_alloc .record), ?_⟩, hrecs⟩, hgrown,
      ⟨fun hs => hgrows.made (Heap.made_alloc_of_made hs _),
        fun s => (hgrows.cell s).trans (Heap.get_alloc _ _ s)⟩,
      ⟨fun hs => hgrows'.made (Heap.made_alloc_of_made hs _),
        fun s => (hgrows'.cell s).trans (Heap.get_alloc _ _ s)⟩⟩
    rw [hgrows.cell, Heap.get_alloc]
    exact Heap.get_of_not_made (Nat.lt_irrefl _)

theorem zipWith_memorized {α : Type} (f : α → Node (Family J C T)) (recs : List (Ref .record))
    (as : List α) : List.zipWith Node.memorized recs (as.map f) =
      (recs.zip as).map fun u => .memorized u.1 (f u.2) := by
  rw [List.zipWith_map_right, List.zip, List.map_zipWith]

theorem not_keeps {kind : CellKind} {s : Ref kind} (hs : ⟨kind, s⟩ ∉ t.cells) :
    ¬ t.Keeps s.lock := by
  rintro ⟨⟨kind', r⟩, hmem, hlock⟩
  obtain rfl : kind' = kind := congrArg Lock.kind hlock
  obtain rfl := Ref.eq_of_lock_eq hlock
  exact hs hmem

/-- The execution that is open gives way to another, of which nothing is recorded, or to
none. -/
theorem Abreast.renews (h : Abreast flag exec t.Keeps open? [] w w')
    {next? : Option (List (Ref .record × C))} {heap heap' : Heap (Family J C T)}
    (hsize : ∀ kind, (heap'.table kind).size = (heap.table kind).size)
    (hmade : ∀ {kind : CellKind} {s : Ref kind}, w.heap.Made s → heap.Made s)
    (hcell : ∀ {kind : CellKind} {s : Ref kind}, s.lock ≠ flag.lock → s.lock ≠ exec.lock →
      heap.get s = w.heap.get s ∧ heap'.get s = w'.heap.get s)
    (hpairs : ∀ {kind : CellKind} {s : Ref kind}, t.Keeps s.lock →
      kind.Pairs (Twins flag (recordsOf open?)) (w.heap.get s) (w'.heap.get s) →
      kind.Pairs (Twins flag (recordsOf next?)) (w.heap.get s) (w'.heap.get s))
    (hrecs : ∀ rec ∈ recordsOf next?, heap.Made rec ∧ heap.get rec = none)
    (hinside : heap.get exec = next?.map (marksInside flag))
    (haround : heap'.get exec = next?.map (List.map Memorize.wrapper))
    (hup : heap'.get flag = heap.get flag) :
    Abreast flag exec t.Keeps next? [] { w with heap } { w' with heap := heap' } := by
  refine ⟨h.outside, h.locked, hsize, hmade h.madeFlag, hmade h.madeExec,
    fun rec hmem => (hrecs rec hmem).1, hinside, haround, fun {kind s} hsflag hsexec => ?_,
    congrArg (fun up : Bool => up || _) hup, ?_⟩
  · obtain ⟨hget, hget'⟩ := hcell hsflag hsexec
    have hkept := h.cell hsflag hsexec
    change Kept t.Keeps _ s (heap.get s) (heap'.get s)
    rw [hget, hget']
    exact ⟨fun hmine => hpairs hmine (hkept.pairs hmine), hkept.same⟩
  · rintro (⟨rec, hmem, hsuccess⟩ | ⟨_, hmem, -⟩)
    · cases (hrecs rec hmem).2.symm.trans hsuccess
    · cases hmem

/-- Both sides open an execution, of the same children with the same records. -/
theorem Abreast.opens (h : Abreast flag exec t.Keeps none [] w w')
    {us : List (Ref .record × C)} {heap heap' : Heap (Family J C T)}
    (hgrows : Grows w.heap heap) (hgrows' : Grows w'.heap heap')
    (hsize : ∀ kind, (heap'.table kind).size = (heap.table kind).size)
    (hrecs : ∀ rec ∈ us.map Prod.fst, heap.Made rec ∧ heap.get rec = none) :
    Abreast flag exec t.Keeps (some us) []
      { w with heap := heap.set exec (some (marksInside flag us)) }
      { w' with heap := heap'.set exec (some (us.map Memorize.wrapper)) } := by
  have hget : ∀ {kind : CellKind} {s : Ref kind} {h : Heap (Family J C T)} {state},
      s.lock ≠ exec.lock → (h.set exec state).get s = h.get s :=
    fun hne => Heap.get_set_of_lock_ne (fun he => hne he.symm) _ _
  have hmade' : heap'.Made exec := hgrows'.made ((h.made_iff exec).mpr h.madeExec)
  have hflag := Ref.lock_ne (by decide) flag exec
  refine h.renews (fun kind => ?_) (fun hs => (Heap.made_set _).mpr (hgrows.made hs))
    (fun {_ s} _ hsexec => ⟨(hget hsexec).trans (hgrows.cell s),
      (hget hsexec).trans (hgrows'.cell s)⟩)
    (fun _ hpairs => hpairs.imp fun _ _ hn => absurd hn not_twins_nil)
    (fun rec hmem => ⟨(Heap.made_set _).mpr (hrecs rec hmem).1,
      (hget (Ref.lock_ne (by decide) rec exec)).trans (hrecs rec hmem).2⟩)
    (Heap.get_set (hgrows.made h.madeExec) _) (Heap.get_set hmade' _) ?_
  · exact (Heap.size_set _ _ _).trans ((hsize kind).trans (Heap.size_set _ _ _).symm)
  · refine ((hget hflag).trans (hgrows'.cell flag)).trans (Eq.trans ?_
      ((hget hflag).trans (hgrows.cell flag)).symm)
    exact h.flags

/-- An execution is begun with a snapshot. -/
theorem evaluates_begin {children nodes : List (Node (Family J C T))}
    {w w₁ : World (Family J C T) σ} (hnone : w.heap.get exec = none)
    (h : (Memorize.snapshot children).Evaluates env caller joins held w (.value nodes) held w₁) :
    (Memorize.execution exec children).Evaluates env caller joins held w (.value nodes) held
      { w₁ with heap := w₁.heap.set exec (some nodes) } := by
  unfold Memorize.execution
  refine .serve rfl ?_
  rw [hnone]
  exact h.bind (.serve rfl .pure)

/-- **The start of a call** on both sides: an execution is open, or is begun with the same
records. -/
theorem Abreast.begins (h : Abreast flag exec t.Keeps open? [] w w') (children : List C) :
    ∃ us v v', (Memorize.execution exec ((children.map Family.node).map (.flagged flag))).Evaluates
        env caller joins [exec.lock] (w.hold exec.lock) (.value (marksInside flag us)) [exec.lock]
        v ∧
      (Memorize.execution exec (children.map Family.node)).Evaluates env caller joins [exec.lock]
        (w'.hold exec.lock) (.value (us.map Memorize.wrapper)) [exec.lock] v' ∧
      Abreast flag exec t.Keeps (some us) [] v v' := by
  have hhold : Abreast flag exec t.Keeps open? [] (w.hold exec.lock) (w'.hold exec.lock) :=
    h.change (congrArg _ h.locked) h.outside
  cases open? with
  | some us =>
    exact ⟨us, _, _, Memorize.evaluates_execution h.inside, Memorize.evaluates_execution h.around,
      hhold⟩
  | none =>
    obtain ⟨recs, heap, heap', hleft, hright, hrecs, hsize, hgrows, hgrows'⟩ :=
      @snapshots _ _ _ _ env caller joins [exec.lock]
        (fun c => .flagged flag (Family.node c)) Family.node (exec.lock :: w.locked)
        (exec.lock :: w'.locked) w.outside w'.outside children w.heap w'.heap h.size
    rw [zipWith_memorized] at hleft hright
    rw [List.map_map]
    refine ⟨recs.zip children, _, _, evaluates_begin h.inside hleft,
      evaluates_begin h.around hright, hhold.opens hgrows hgrows' hsize fun rec hmem => ?_⟩
    obtain ⟨u, hu, rfl⟩ := List.mem_map.mp hmem
    exact hrecs u.1 (List.of_mem_zip hu).1

theorem size_shut {h : Heap (Family J C T)} (kind : CellKind) :
    ((shut flag exec h).table kind).size = (h.table kind).size :=
  (Heap.size_set _ _ _).trans (Heap.size_set _ _ _)

theorem get_shut {h : Heap (Family J C T)} {kind : CellKind} {s : Ref kind}
    (hflag : s.lock ≠ flag.lock) (hexec : s.lock ≠ exec.lock) :
    (shut flag exec h).get s = h.get s :=
  (Heap.get_set_of_lock_ne (fun he => hflag he.symm) _ _).trans
    (Heap.get_set_of_lock_ne (fun he => hexec he.symm) _ _)

theorem get_shut_exec {h : Heap (Family J C T)} (hmade : h.Made exec) :
    (shut flag exec h).get exec = none :=
  (Heap.get_set_kind (by decide) flag exec _).trans (Heap.get_set hmade _)

theorem get_shut_flag {h : Heap (Family J C T)} (hmade : h.Made flag) :
    (shut flag exec h).get flag = false :=
  Heap.get_set ((Heap.made_set _).mpr hmade) _

/-- **The end of a call** on both sides. If the execution is over, none of its children is
kept. -/
theorem Abreast.closes {us : List (Ref .record × C)}
    (h : Abreast flag exec t.Keeps (some us) [] w w') {first : Ending TickResult}
    (hvacant : first.goesOn = false → ∀ cell ∈ t.cells, cell.1.Vacant (w.heap.get cell.2))
    (held : List Lock) :
    ∃ next?, Abreast flag exec t.Keeps next? [] (closed flag exec first held w)
      (closed flag exec first held w') := by
  have hunlocked : ∀ {next?} {w w' : World (Family J C T) σ},
      Abreast flag exec t.Keeps next? [] w w' →
      Abreast flag exec t.Keeps next? [] (unlocked exec first held w)
        (unlocked exec first held w') := by
    intro next? w w' h
    cases first with
    | value result => exact (h.unlock _).unlock _
    | panic payload => exact h.unlock _
  unfold closed
  by_cases hgoes : first.goesOn
  · rw [if_pos hgoes, if_pos hgoes]
    exact ⟨some us, hunlocked h⟩
  · rw [if_neg hgoes, if_neg hgoes]
    refine ⟨none, hunlocked (h.renews (fun kind => ?_)
      (fun hs => (Heap.made_set _).mpr ((Heap.made_set _).mpr hs))
      (fun hflag hexec => ⟨get_shut hflag hexec, get_shut hflag hexec⟩) (fun hmine hpairs => ?_)
      nofun (get_shut_exec h.madeExec) (get_shut_exec ((h.made_iff exec).mpr h.madeExec)) ?_)⟩
    · rw [size_shut, size_shut, h.size]
    · obtain ⟨⟨kind', r⟩, hmem, hlock⟩ := hmine
      obtain rfl := congrArg Lock.kind hlock
      obtain rfl := Ref.eq_of_lock_eq hlock
      exact hpairs.of_vacant (hvacant (Bool.of_not_eq_true hgoes) _ hmem)
    · rw [get_shut_flag h.madeFlag, get_shut_flag ((h.made_iff flag).mpr h.madeFlag)]

/-- **What the tick inside does** with the children of an execution. -/
theorem alike_tick (ht : t.actsInCalls) (hflag : ⟨_, flag⟩ ∉ t.cells) (hexec : ⟨_, exec⟩ ∉ t.cells)
    (us : List (Ref .record × C)) :
    (t.run (marksInside flag us)).Alike (abreast flag exec t.Keeps (some us)) env
      (Twins flag (us.map Prod.fst)) Debt.Ends .none
      (t.run ((us.map Memorize.wrapper).map (.flagged flag))) := by
  refine t.alike_run (admits (not_keeps hflag) (not_keeps hexec)
    fun rec => not_keeps t.record_not_mem_cells) ht (fun _ => id) ?_
  unfold marksInside
  rw [List.map_map, List.forall₂_map_left_iff, List.forall₂_map_right_iff, List.forall₂_same]
  exact fun u hu => .child (List.mem_map.mpr ⟨u, hu, rfl⟩)

/-- **A call** in the one order and in the other. -/
theorem Abreast.call (ht : t.actsInCalls) (hflag : ⟨_, flag⟩ ∉ t.cells)
    (hexec : ⟨_, exec⟩ ∉ t.cells) (h : Abreast flag exec t.Keeps open? [] w w')
    (children : List C) :
    (∀ {events ending v},
      Family.Call env caller (.any flag (.memorize exec t)) children w events ending v →
      ∃ events' v',
        Family.Call env caller (.memorize exec (.any flag t)) children w' events' ending v' ∧
        events'.map Event.bare = events.map Event.bare ∧
        ∃ next?, Abreast flag exec t.Keeps next? [] v v') ∧
    ∀ {events' ending v'},
      Family.Call env caller (.memorize exec (.any flag t)) children w' events' ending v' →
      ∃ events v,
        Family.Call env caller (.any flag (.memorize exec t)) children w events ending v ∧
        events.map Event.bare = events'.map Event.bare ∧
        ∃ next?, Abreast flag exec t.Keeps next? [] v v' := by
  obtain ⟨us, v₀, v₀', hopens, hopens', hv₀⟩ :=
    @Abreast.begins _ _ _ _ _ _ _ _ env caller (fun _ _ _ _ => False) _ _ h children
  have hlikens : ∀ n n', Twins flag (us.map Prod.fst) n n' → n'.bare = n.bare ∧
      (abreast flag exec t.Keeps (some us)).Likens env n n' :=
    fun _ _ htwins => ⟨htwins.bare, htwins.likens⟩
  have hlikens' : ∀ n' n, Twins flag (us.map Prod.fst) n n' → n.bare = n'.bare ∧
      (abreast flag exec t.Keeps (some us)).flip.Likens env n' n :=
    fun _ _ htwins => ⟨htwins.bare.symm, htwins.likens.flip_lane⟩
  have hvacant : ∀ {events held w₂} {first : Ending TickResult},
      (t.run (marksInside flag us)).Performs env caller [exec.lock] v₀ events first held w₂ →
      first.goesOn = false → ∀ cell ∈ t.cells, cell.1.Vacant (w₂.heap.get cell.2) := by
    intro events held w₂ first hinner hover
    cases first with
    | value result => exact t.vacates ht hinner (goesOn_value result ▸ hover)
    | panic payload => cases hover
  have hrun := @alike_tick _ _ _ _ _ _ _ env ht hflag hexec us
  have hv₀ := (abreast flag exec t.Keeps (some us)).rests.mpr hv₀
  constructor
  · rintro events ending v hcall
    have hfree : exec.lock ∉ w.locked := by
      obtain ⟨_, _, hperforms, -⟩ := hcall
      obtain ⟨_, _, hmemorized, -⟩ := performs_run_iff.mp hperforms
      exact (Prog.Performs.acquire_iff.mp hmemorized).1
    obtain ⟨first, held, w₂, hinner, rfl, rfl⟩ := (call_inside_iff hfree hopens).mp hcall
    obtain ⟨events', w₂', hinner', hbare, hw₂⟩ := hrun.performs hlikens hv₀ hinner
    refine ⟨events', _, (call_around_iff (h.locked.symm ▸ hfree) hopens').mpr
      ⟨first, held, w₂', hinner', ?_, rfl⟩, hbare, Abreast.closes hw₂ (hvacant hinner) held⟩
    rw [hw₂.flags]
  · rintro events' ending v' hcall'
    have hfree' : exec.lock ∉ w'.locked := by
      obtain ⟨_, _, hperforms, -⟩ := hcall'
      exact (Prog.Performs.acquire_iff.mp hperforms).1
    obtain ⟨first, held, w₂', hinner', rfl, rfl⟩ := (call_around_iff hfree' hopens').mp hcall'
    obtain ⟨events, w₂, hinner, hbare, hw₂⟩ :=
      (hrun.flip (fun _ _ => id) fun _ _ _ he => ⟨he.1, he.2.symm⟩).performs hlikens' hv₀ hinner'
    refine ⟨events, _, (call_inside_iff (h.locked ▸ hfree') hopens).mpr
      ⟨first, held, w₂, hinner, ?_, rfl⟩, hbare, Abreast.closes hw₂ (hvacant hinner) held⟩
    rw [hw₂.flags]

end

/-! ### Between calls -/

/-- It is the record of a child of the execution that is open. -/
def Recorded (exec : Ref .execution) (w : World (Family J C T) σ) (rec : Ref .record) : Prop :=
  ∃ nodes : List (Node (Family J C T)), w.heap.get exec = some nodes ∧
    rec ∈ nodes.filterMap Node.record?

/-- Between two calls nobody touches the cells of the ticks, or the records of the
execution that is open. -/
structure Rests (flag : Ref .flag) (exec : Ref .execution) (t : Tick (Family J C T))
    (w w' : World (Family J C T) σ) : Prop where
  cells : (Tick.any flag (.memorize exec t)).Rests w w'
  recs : ∀ rec, Recorded exec w rec → World.Spares rec w w'

section

variable {flag : Ref .flag} {exec : Ref .execution} {t : Tick (Family J C T)}
  {open? : Option (List (Ref .record × C))} {w w₀ w' w₀' : World (Family J C T) σ}
  {rec : Ref .record}

theorem recorded_iff {nodes : List (Ref .record × C) → List (Node (Family J C T))}
    (hrecs : ∀ us, (nodes us).filterMap Node.record? = us.map Prod.fst)
    (hopen : w.heap.get exec = open?.map nodes) :
    Recorded exec w rec ↔ rec ∈ recordsOf open? := by
  unfold Recorded
  rw [hopen]
  cases open? with
  | none =>
    constructor
    · rintro ⟨_, he, -⟩
      cases he
    · exact fun hmem => absurd hmem List.not_mem_nil
  | some us =>
    change _ ↔ rec ∈ us.map Prod.fst
    rw [← hrecs us]
    constructor
    · rintro ⟨_, he, hmem⟩
      cases he
      exact hmem
    · exact fun hmem => ⟨_, rfl, hmem⟩

theorem Abreast.recorded_inside (h : Abreast flag exec t.Keeps open? [] w w') :
    Recorded exec w rec ↔ rec ∈ recordsOf open? := by
  refine recorded_iff (fun us => ?_) h.inside
  unfold marksInside
  rw [List.filterMap_map, ← List.filterMap_eq_map]
  rfl

theorem Abreast.recorded_around (h : Abreast flag exec t.Keeps open? [] w w') :
    Recorded exec w' rec ↔ rec ∈ recordsOf open? := by
  refine recorded_iff (fun us => ?_) h.around
  rw [List.filterMap_map, ← List.filterMap_eq_map]
  rfl

/-- Worlds that stand level and rest in the same way stay level. -/
theorem Abreast.rest (h : Abreast flag exec t.Keeps open? [] w w')
    (hrests : Rests flag exec t w w₀) (hrests' : Rests flag exec t w' w₀')
    (houtside : w₀'.outside = w₀.outside) (hlocked : w₀'.locked = w₀.locked)
    (hsize : ∀ kind, (w₀'.heap.table kind).size = (w₀.heap.table kind).size)
    (hcell : ∀ {kind : CellKind} {s : Ref kind},
      (∀ cell ∈ (Tick.any flag (.memorize exec t)).cells, cell.2.lock ≠ s.lock) →
        w₀'.heap.get s = w₀.heap.get s) :
    Abreast flag exec t.Keeps open? [] w₀ w₀' := by
  obtain ⟨hflag, hexec, ht⟩ : World.Spares flag w w₀ ∧ World.Spares exec w w₀ ∧
      ∀ cell ∈ t.cells, World.Spares cell.2 w w₀ :=
    ⟨hrests.cells _ List.mem_cons_self, hrests.cells _ (.tail _ List.mem_cons_self),
      fun cell hmem => hrests.cells _ (.tail _ (.tail _ hmem))⟩
  obtain ⟨hflag', hexec', ht'⟩ : World.Spares flag w' w₀' ∧ World.Spares exec w' w₀' ∧
      ∀ cell ∈ t.cells, World.Spares cell.2 w' w₀' :=
    ⟨hrests'.cells _ List.mem_cons_self, hrests'.cells _ (.tail _ List.mem_cons_self),
      fun cell hmem => hrests'.cells _ (.tail _ (.tail _ hmem))⟩
  have hrecs : ∀ rec ∈ recordsOf open?, World.Spares rec w w₀ :=
    fun rec hmem => hrests.recs rec (h.recorded_inside.mpr hmem)
  refine ⟨houtside, hlocked, hsize, hflag.made h.madeFlag, hexec.made h.madeExec,
    fun rec hmem => (hrecs rec hmem).made (h.madeRecs rec hmem), hexec.cell.trans h.inside,
    hexec'.cell.trans h.around, fun {kind s} hsflag hsexec => ?_, ?_, ?_⟩
  · by_cases hkeeps : t.Keeps s.lock
    · obtain ⟨⟨kind', r⟩, hmem, hlock⟩ := hkeeps
      obtain rfl : kind' = kind := congrArg Lock.kind hlock
      obtain rfl := Ref.eq_of_lock_eq hlock
      rw [(ht _ hmem).cell, (ht' _ hmem).cell]
      exact h.cell hsflag hsexec
    · refine ⟨fun hmine => absurd hmine hkeeps, fun _ => hcell ?_⟩
      exact List.forall_mem_cons.mpr ⟨fun he => hsflag he.symm, List.forall_mem_cons.mpr
        ⟨fun he => hsexec he.symm, fun cell hmem he => hkeeps ⟨cell, hmem, he⟩⟩⟩
  · rw [hflag.cell, hflag'.cell]
    exact h.up
  · rintro (⟨rec, hmem, hsuccess⟩ | ⟨_, hmem, -⟩)
    · rw [hflag.cell]
      exact h.known (.inl ⟨rec, hmem, (hrecs rec hmem).cell.symm.trans hsuccess⟩)
    · cases hmem

/-- Another world can rest as this one does, if it has the same records. -/
theorem Rests.keeping {old : World (Family J C T) σ} (hrests : Rests flag exec t w w₀)
    (hmade : ∀ {kind : CellKind} (s : Ref kind), old.heap.Made s ↔ w.heap.Made s)
    (hlocked : old.locked = w.locked)
    (hrecs : ∀ rec, Recorded exec old rec →
      Recorded exec w rec ∧ old.heap.get rec = w.heap.get rec) :
    Rests flag exec t old
      { w₀ with heap := w₀.heap.keeping old.heap (Tick.any flag (.memorize exec t)).cells } := by
  refine ⟨rests_keeping hrests.cells hmade hlocked, fun rec hrec => ?_⟩
  obtain ⟨hrec, hget⟩ := hrecs rec hrec
  have hspares := hrests.recs rec hrec
  have hnot : ∀ cell ∈ (Tick.any flag (.memorize exec t)).cells, cell.2.lock ≠ rec.lock := by
    rintro ⟨kind, r⟩ hcell hlock
    obtain rfl : kind = .record := congrArg Lock.kind hlock
    exact (Tick.any flag (.memorize exec t)).record_not_mem_cells hcell
  refine ⟨fun hold => Heap.made_keeping.mpr (hspares.made ((hmade rec).mp hold)), ?_, ?_⟩
  · exact (Heap.get_keeping_of_not_mem hnot).trans (hspares.cell.trans hget.symm)
  · rw [hlocked]
    exact hspares.lock

/-- **Between two calls** the worlds can rest in the same way. -/
theorem Abreast.rests (h : Abreast flag exec t.Keeps open? [] w w') :
    (∀ {w₀}, Rests flag exec t w w₀ →
      ∃ w₀', Rests flag exec t w' w₀' ∧ Abreast flag exec t.Keeps open? [] w₀ w₀') ∧
    ∀ {w₀'}, Rests flag exec t w' w₀' →
      ∃ w₀, Rests flag exec t w w₀ ∧ Abreast flag exec t.Keeps open? [] w₀ w₀' := by
  have hrecord : ∀ rec : Ref .record, w'.heap.get rec = w.heap.get rec := fun rec =>
    (h.cell (Ref.lock_ne (by decide) rec flag) (Ref.lock_ne (by decide) rec exec)).record
  constructor
  · intro w₀ hrests
    have hrests' := hrests.keeping h.made_iff h.locked fun rec hrec =>
      ⟨h.recorded_inside.mpr (h.recorded_around.mp hrec), hrecord rec⟩
    exact ⟨_, hrests', h.rest hrests hrests' rfl rfl (fun _ => Heap.size_keeping _)
      fun hs => Heap.get_keeping_of_not_mem hs⟩
  · intro w₀' hrests'
    have hrests := hrests'.keeping (fun s => (h.made_iff s).symm) h.locked.symm fun rec hrec =>
      ⟨h.recorded_around.mpr (h.recorded_inside.mp hrec), (hrecord rec).symm⟩
    exact ⟨_, hrests, h.rest hrests hrests' rfl rfl (fun _ => (Heap.size_keeping _).symm)
      fun hs => (Heap.get_keeping_of_not_mem hs).symm⟩

theorem Abreast.fresh (hfresh : ∀ cell ∈ (Tick.any flag (.memorize exec t)).cells, w.Fresh cell.2) :
    Abreast flag exec t.Keeps none [] w w := by
  have hflag := hfresh _ List.mem_cons_self
  have hexec := hfresh _ (.tail _ List.mem_cons_self)
  refine ⟨rfl, rfl, fun _ => rfl, hflag.made, hexec.made, nofun, hexec.fresh, hexec.fresh,
    fun {kind s} _ _ => ⟨?_, fun _ => rfl⟩, rfl, ?_⟩
  · rintro ⟨⟨kind', r⟩, hmem, hlock⟩
    obtain rfl : kind' = kind := congrArg Lock.kind hlock
    obtain rfl := Ref.eq_of_lock_eq hlock
    rw [(hfresh _ (.tail _ (.tail _ hmem))).fresh]
    cases kind' with
    | execution => exact .none
    | round => exact ⟨.nil, rfl, rfl⟩
    | jobs => exact .nil
    | record | flag | statuses | worker => rfl
  · rintro (⟨_, hmem, -⟩ | ⟨_, hmem, -⟩)
    · cases hmem
    · cases hmem

end

/-- **It does not matter in which order a tick is memorized and made to succeed if any of
its children does**, if it ticks its children in its own calls, and keeps none of them
when it has returned anything but running. Whatever calls there are of the one, with
whatever children, which answer and die as they like, there are the same calls of the
other. They have the same results, and see the same of the same children. -/
theorem commute_law (env : Environment (Family J C T) σ) (flag : Ref .flag) (exec : Ref .execution)
    (t : Tick (Family J C T)) (ht : t.actsInCalls) (hflag : ⟨_, flag⟩ ∉ t.cells)
    (hexec : ⟨_, exec⟩ ∉ t.cells) (w : World (Family J C T) σ)
    (hfresh : ∀ cell ∈ (Tick.any flag (.memorize exec t)).cells, w.Fresh cell.2) :
    (∀ calls w₁, Family.Calls env (Rests flag exec t) (.any flag (.memorize exec t)) w calls w₁ →
      ∃ calls' w₁',
        Family.Calls env (Rests flag exec t) (.memorize exec (.any flag t)) w calls' w₁' ∧
        calls'.map FamilyCall.bare = calls.map FamilyCall.bare ∧ w₁'.outside = w₁.outside) ∧
    ∀ calls' w₁', Family.Calls env (Rests flag exec t) (.memorize exec (.any flag t)) w calls' w₁' →
      ∃ calls w₁,
        Family.Calls env (Rests flag exec t) (.any flag (.memorize exec t)) w calls w₁ ∧
        calls'.map FamilyCall.bare = calls.map FamilyCall.bare ∧ w₁'.outside = w₁.outside := by
  refine Family.same_calls (fun w w' => ∃ open?, Abreast flag exec t.Keeps open? [] w w')
    ⟨fun ⟨_, hw⟩ hrests => ?_, fun ⟨_, hw⟩ hcall => ?_⟩
    ⟨fun ⟨_, hw⟩ hrests' => ?_, fun ⟨_, hw⟩ hcall' => ?_⟩
    (fun ⟨_, hw⟩ => hw.outside) ⟨none, .fresh hfresh⟩
  · obtain ⟨w₀', hrests', hw₀⟩ := hw.rests.1 hrests
    exact ⟨w₀', hrests', _, hw₀⟩
  · exact (hw.call ht hflag hexec _).1 hcall
  · obtain ⟨w₀, hrests, hw₀⟩ := hw.rests.2 hrests'
    exact ⟨w₀, hrests, _, hw₀⟩
  · exact (hw.call ht hflag hexec _).2 hcall'

/-- The first child of a sequence succeeds while the other reports running, and in the
next call the other fails. The success is replayed then, and has been noted before. -/
theorem commute_law_sequence :
    let J : Interface := ⟨Empty, nofun⟩
    let status : Nat → Status
      | 0 => .success
      | 1 => .running
      | _ => .failure
    let env : Environment (Family J Unit Unit) Nat :=
      ⟨fun _ query calls => match query with
        | .other e => nomatch e
        | .expand _ => some ((some (), 0), calls)
        | .call _ _ => some (.returned (.ok (status calls)), calls + 1), fun _ _ calls => calls⟩
    let runs (s : Status) : Event (Family J Unit Unit) :=
      .turn ⟨Family.node (), [⟨.expand (), (some (), 0)⟩, ⟨.call () (), .returned (.ok s)⟩],
        .value (.ok s)⟩
    let replays (s : Status) : Event (Family J Unit Unit) :=
      .turn ⟨Family.node (), [⟨.expand (), (some (), 0)⟩], .value (.ok s)⟩
    let w : World (Family J Unit Unit) Nat :=
      ⟨((Heap.empty.alloc .flag).2.alloc .execution).2, [], 0⟩
    ∃ calls w₁, Family.Calls env (Rests ⟨0⟩ ⟨0⟩ .sequence) (.memorize ⟨0⟩ (.any ⟨0⟩ .sequence)) w
        calls w₁ ∧
      calls.map FamilyCall.bare =
        [⟨[(), ()], [runs .success, runs .running], .value (.ok .running)⟩,
          ⟨[], [replays .success, runs .failure], .value (.ok .success)⟩] ∧
      w₁.outside = 3 := by
  intro J status env runs replays w
  let t : Tick (Family J Unit Unit) := .any ⟨0⟩ (.memorize ⟨0⟩ .sequence)
  let exec : Ref .execution := ⟨0⟩
  let nodes : List (Node (Family J Unit Unit)) := marksInside ⟨0⟩ [(⟨0⟩, ()), (⟨1⟩, ())]
  let world (open? : Option (List (Node (Family J Unit Unit))))
      (records : Array (Option TickResult)) (raised : Bool) (locked : List Lock) (calls : Nat) :
      World (Family J Unit Unit) Nat :=
    ⟨⟨#[open?], records, #[raised], #[], #[], #[], #[]⟩, locked, calls⟩
  let succeeded : Option TickResult := some (.ok .success)
  let kept := world (some nodes) #[succeeded, none] true
  let turn (rec : Ref .record) (talk : List (Said (Family J Unit Unit))) (s : Status) :
      Turn (Family J Unit Unit) :=
    ⟨.memorized rec (.flagged ⟨0⟩ (Family.node ())), talk, .value (.ok s)⟩
  let ran (rec : Ref .record) (s : Status) : Turn (Family J Unit Unit) :=
    turn rec [⟨.expand (), (some (), 0)⟩, ⟨.call () (), .returned (.ok s)⟩] s
  let replayed : Turn (Family J Unit Unit) := turn ⟨0⟩ [⟨.expand (), (some (), 0)⟩] .success
  have hsucceeds : (ran ⟨0⟩ .success).Takes env default
      (world (some nodes) #[none, none] false [exec.lock] 0) (kept [exec.lock] 1) :=
    ⟨[], _, .serve rfl rfl (.serve rfl rfl (.serve rfl rfl (.serve rfl rfl (.serve rfl rfl
      (.pure rfl))))), rfl⟩
  have hwaits : (ran ⟨1⟩ .running).Takes env default (kept [exec.lock] 1) (kept [exec.lock] 2) :=
    ⟨[], _, .serve rfl rfl (.serve rfl rfl (.serve rfl rfl (.pure rfl))), rfl⟩
  have hreplays : replayed.Takes env default (kept [exec.lock] 2) (kept [exec.lock] 2) :=
    ⟨[], _, .serve rfl rfl (.serve rfl rfl (.pure rfl)), rfl⟩
  have hfails : (ran ⟨1⟩ .failure).Takes env default (kept [exec.lock] 2)
      (world (some nodes) #[succeeded, some (.ok .failure)] true [exec.lock] 3) :=
    ⟨[], _, .serve rfl rfl (.serve rfl rfl (.serve rfl rfl (.serve rfl rfl (.pure rfl)))), rfl⟩
  have hfirst : (t.run [Family.node (), Family.node ()]).Performs env default [] w
      [.turn (ran ⟨0⟩ .success), .turn (ran ⟨1⟩ .running)] (.value (.ok .running)) []
      (kept [] 2) :=
    .serve rfl (.serve rfl (.serve rfl (.serve rfl (.serve rfl (.tick hsucceeds (.tick hwaits
      (.serve rfl .pure)))))))
  have hsecond : (t.run []).Performs env default [] (kept [] 2)
      [.turn replayed, .turn (ran ⟨1⟩ .failure)] (.value (.ok .success)) []
      (world none #[succeeded, some (.ok .failure)] false [] 3) :=
    .serve rfl (.serve rfl (.tick hreplays (.tick hfails (.serve rfl (.serve rfl (.serve rfl
      .pure))))))
  have hrests : ∀ w : World (Family J Unit Unit) Nat, Rests ⟨0⟩ exec .sequence w w :=
    fun w => ⟨fun cell _ => .refl cell.2 w, fun rec _ => .refl rec w⟩
  have hcalls : Family.Calls env (Rests ⟨0⟩ exec .sequence) t w
      [⟨[(), ()], [.turn (ran ⟨0⟩ .success), .turn (ran ⟨1⟩ .running)], .value (.ok .running)⟩,
        ⟨[], [.turn replayed, .turn (ran ⟨1⟩ .failure)], .value (.ok .success)⟩]
      (world none #[succeeded, some (.ok .failure)] false [] 3) :=
    .call (hrests w) hfirst (.call (hrests _) hsecond .none)
  have hfresh : ∀ cell ∈ t.cells, w.Fresh cell.2 :=
    List.forall_mem_cons.mpr ⟨⟨Nat.zero_lt_one, List.not_mem_nil, rfl⟩,
      List.forall_mem_singleton.mpr ⟨Nat.zero_lt_one, List.not_mem_nil, rfl⟩⟩
  obtain ⟨calls', w₁', hcalls', hbare, houtside⟩ := (commute_law env ⟨0⟩ exec .sequence rfl
    List.not_mem_nil List.not_mem_nil w hfresh).1 _ _ hcalls
  exact ⟨calls', w₁', hcalls', hbare, houtside⟩

/-! ### A tick that keeps children -/

/-- The tick, called again and again with these children, answers so. -/
def Answers {I : Interface} (env : Environment I σ) (t : Tick I) (children : List (Node I)) :
    World I σ → List TickResult → Prop
  | _, [] => True
  | w, result :: results => ∃ w', (t.run children).Evaluates env default (fun _ _ _ _ => False) [] w
      (.value result) [] w' ∧ Answers env t children w' results

theorem Answers.unique {I : Interface} {env : Environment I σ} {t : Tick I}
    {children : List (Node I)} {w : World I σ} {results results' : List TickResult}
    (h : Answers env t children w results) (h' : Answers env t children w results')
    (hlength : results.length = results'.length) : results = results' := by
  induction results generalizing w results' with
  | nil => exact (List.length_eq_zero_iff.mp hlength.symm).symm
  | cons result results ih =>
    obtain ⟨result', results', rfl⟩ := List.exists_cons_of_length_eq_add_one hlength.symm
    obtain ⟨w₁, hcall, hrest⟩ := h
    obtain ⟨w₁', hcall', hrest'⟩ := h'
    obtain ⟨he, -, rfl⟩ := hcall.unique (fun _ _ _ _ _ _ => nofun) hcall'
    cases he
    rw [ih hrest hrest' (Nat.succ.inj hlength)]

/-- A sequence in the background keeps the children of an execution when that is over,
and ticks them in its own later calls. One child succeeds, the other reports running twice
and then fails. In the third call the sequence that was kept replays both: with the marks
around the records that is a success of a child, with the marks inside it is none. -/
theorem not_commute_background :
    let J : Interface := ⟨Empty, nofun⟩
    let env : Environment (Family J Bool Unit) Nat :=
      ⟨fun _ query calls => match query with
        | .other e => nomatch e
        | .expand _ => some ((some (), 0), calls)
        | .call false _ => some (.returned (.ok .success), calls)
        | .call true _ =>
          some (.returned (.ok (if calls < 2 then .running else .failure)), calls + 1),
        fun _ _ calls => calls⟩
    let t : Tick (Family J Bool Unit) := .background ⟨0⟩ (.yield .sequence)
    let children : List (Node (Family J Bool Unit)) := [Family.node false, Family.node true]
    let w : World (Family J Bool Unit) Nat :=
      ⟨(((Heap.empty.alloc .flag).2.alloc .execution).2.alloc .jobs).2, [], 0⟩
    let results : List TickResult := [.ok .running, .ok .success, .ok .failure]
    Answers env (.any ⟨0⟩ (.memorize ⟨0⟩ t)) children w results ∧
      ¬ Answers env (.memorize ⟨0⟩ (.any ⟨0⟩ t)) children w results := by
  intro J env t children w results
  let world (open? : Option (List (Node (Family J Bool Unit))))
      (records : Array (Option TickResult)) (raised : Bool)
      (jobs : List (Node (Family J Bool Unit))) (calls : Nat) : World (Family J Bool Unit) Nat :=
    ⟨⟨#[open?], records, #[raised], #[], #[], #[jobs], #[]⟩, [], calls⟩
  let success : Option TickResult := some (.ok .success)
  let failure : Option TickResult := some (.ok .failure)
  let us : List (Ref .record × Bool) := [(⟨0⟩, false), (⟨1⟩, true)]
  let around : List (Node (Family J Bool Unit)) := us.map Memorize.wrapper
  let job : Node (Family J Bool Unit) := .of .sequence (marksInside ⟨0⟩ us)
  let job' : Node (Family J Bool Unit) := .of .sequence (around.map (.flagged ⟨0⟩))
  have hinside : Answers env (.any ⟨0⟩ (.memorize ⟨0⟩ t)) children w results := by
    refine ⟨world (some (marksInside ⟨0⟩ us)) #[success, none] true [job] 1, ?_,
      world none #[success, failure] false [job] 3, ?_,
      world none #[success, failure, none, none] false [] 3, ?_, trivial⟩
    · exact .serve rfl (.serve rfl (.serve rfl (.serve rfl (.serve rfl (.serve rfl (.serve rfl
        (.tick_nil (.tick_nil (.serve rfl (.serve rfl (.serve rfl (.serve rfl (.serve rfl .pure)))))
          (.tick_nil (.serve rfl (.serve rfl (.serve rfl .pure))) .pure))
          (.serve rfl (.serve rfl (.serve rfl .pure))))))))))
    · exact .serve rfl (.serve rfl (.serve rfl (.serve rfl
        (.tick_nil (.tick_nil (.serve rfl (.serve rfl .pure))
          (.tick_nil (.serve rfl (.serve rfl (.serve rfl .pure))) .pure))
        (.tick_nil (.tick_nil (.serve rfl (.serve rfl .pure))
          (.tick_nil (.serve rfl (.serve rfl (.serve rfl (.serve rfl .pure)))) .pure))
          (.serve rfl (.serve rfl (.serve rfl (.serve rfl .pure)))))))))
    · exact .serve rfl (.serve rfl (.serve rfl (.serve rfl (.serve rfl (.serve rfl (.serve rfl
        (.tick_nil (.tick_nil (.serve rfl (.serve rfl .pure))
          (.tick_nil (.serve rfl (.serve rfl .pure)) .pure))
          (.serve rfl (.serve rfl (.serve rfl (.serve rfl (.serve rfl .pure))))))))))))
  have haround : Answers env (.memorize ⟨0⟩ (.any ⟨0⟩ t)) children w
      [.ok .running, .ok .success, .ok .success] := by
    refine ⟨world (some around) #[success, none] true [job'] 1, ?_,
      world none #[success, failure] false [job'] 3, ?_,
      world none #[success, failure, none, none] false [] 3, ?_, trivial⟩
    · exact .serve rfl (.serve rfl (.serve rfl (.serve rfl (.serve rfl (.serve rfl (.serve rfl
        (.tick_nil (.tick_nil (.serve rfl (.serve rfl (.serve rfl (.serve rfl (.serve rfl .pure)))))
          (.tick_nil (.serve rfl (.serve rfl (.serve rfl .pure))) .pure))
          (.serve rfl (.serve rfl (.serve rfl .pure))))))))))
    · exact .serve rfl (.serve rfl (.serve rfl (.serve rfl
        (.tick_nil (.tick_nil (.serve rfl (.serve rfl (.serve rfl .pure)))
          (.tick_nil (.serve rfl (.serve rfl (.serve rfl .pure))) .pure))
        (.tick_nil (.tick_nil (.serve rfl (.serve rfl (.serve rfl .pure)))
          (.tick_nil (.serve rfl (.serve rfl (.serve rfl (.serve rfl .pure)))) .pure))
          (.serve rfl (.serve rfl (.serve rfl (.serve rfl .pure)))))))))
    · exact .serve rfl (.serve rfl (.serve rfl (.serve rfl (.serve rfl (.serve rfl (.serve rfl
        (.tick_nil (.tick_nil (.serve rfl (.serve rfl (.serve rfl .pure)))
          (.tick_nil (.serve rfl (.serve rfl .pure)) .pure))
          (.serve rfl (.serve rfl (.serve rfl (.serve rfl (.serve rfl .pure))))))))))))
  refine ⟨hinside, fun hsame => ?_⟩
  have he : ([.ok .running, .ok .success, .ok .success] : List TickResult) =
      [.ok .running, .ok .success, .ok .failure] := haround.unique hsame rfl
  cases he

end AnySuccess

end TickTree
