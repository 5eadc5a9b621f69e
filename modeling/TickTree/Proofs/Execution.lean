/-
# Executions on one thread

What the parts of a memorized tick do when they are evaluated: the execution is
found open or is begun with fresh records, the tick inside runs against it, and
the execution is closed unless that answers running. A child that has a record
answers it; else it runs, and its answer is recorded unless it is running.

Evaluation touches few cells, and `Heap.Touches` says which: the executions and
records that it names may change, and records may be made, but every other cell
that there was reads as before.

Key definitions: `Heap.Touches`, `Memorize.records`.
Key theorems: `Memorize.evaluates_snapshot`, `Memorize.evaluates_run`,
`Memorize.evaluates_record`.
-/
import TickTree.Proofs.Evaluate

namespace TickTree

variable {I : Interface} {σ : Type}

/-! ### Cells -/

namespace Heap

variable {kind : CellKind} {h h' h'' : Heap I}

theorem get_of_not_made {r : Ref kind} (hr : ¬ h.Made r) : h.get r = kind.fresh := by
  have hnone : (h.table kind)[r.index]? = none := by
    rw [Array.getElem?_eq_none_iff]
    exact Nat.le_of_not_lt hr
  unfold get
  rw [hnone, Option.getD_none]

/-- Of the executions and records that there were in `h`, only these may read
differently in `h'`. -/
structure Touches (executions : List (Ref .execution)) (records : List (Ref .record))
    (h h' : Heap I) : Prop where
  made : ∀ {kind : CellKind} {r : Ref kind}, h.Made r → h'.Made r
  execution : ∀ {r : Ref .execution}, r ∉ executions → h'.get r = h.get r
  record : ∀ {r : Ref .record}, h.Made r → r ∉ records → h'.get r = h.get r

namespace Touches

variable {executions executions' : List (Ref .execution)} {records records' : List (Ref .record)}

theorem refl (executions : List (Ref .execution)) (records : List (Ref .record)) (h : Heap I) :
    Touches executions records h h :=
  ⟨id, fun _ => rfl, fun _ _ => rfl⟩

theorem mono (ht : Touches executions records h h') (hexec : executions ⊆ executions')
    (hrec : records ⊆ records') : Touches executions' records' h h' :=
  ⟨ht.made, fun hr => ht.execution fun hmem => hr (hexec hmem),
    fun hmade hr => ht.record hmade fun hmem => hr (hrec hmem)⟩

/-- One change after another; records made on the way do not count. -/
theorem trans (ht : Touches executions records h h') (ht' : Touches executions records' h' h'')
    (hnew : ∀ r ∈ records', r ∈ records ∨ ¬ h.Made r) : Touches executions records h h'' where
  made := fun hr => ht'.made (ht.made hr)
  execution := fun hr => (ht'.execution hr).trans (ht.execution hr)
  record := fun {r} hmade hr => by
    have hr' : r ∉ records' := by
      intro hmem
      rcases hnew r hmem with hmem | hnot
      · exact hr hmem
      · exact hnot hmade
    exact (ht'.record (ht.made hmade) hr').trans (ht.record hmade hr)

theorem set_execution {r : Ref .execution} (hr : r ∈ executions)
    (state : CellKind.execution.State I) : Touches executions records h (h.set r state) where
  made := (made_set state).mpr
  execution := fun {r'} hr' => get_set_ne (fun he : r = r' => hr' (he ▸ hr)) state
  record := fun _ _ => get_set_kind (by decide) r _ state

theorem set_record {r : Ref .record} (hr : r ∈ records) (state : CellKind.record.State I) :
    Touches executions records h (h.set r state) where
  made := (made_set state).mpr
  execution := fun _ => get_set_kind (by decide) r _ state
  record := fun {r'} _ hr' => get_set_ne (fun he : r = r' => hr' (he ▸ hr)) state

theorem alloc (executions : List (Ref .execution)) (records : List (Ref .record)) (h : Heap I)
    (kind : CellKind) : Touches executions records h (h.alloc kind).2 :=
  ⟨fun hr => made_alloc_of_made hr kind, fun _ => get_alloc h kind _, fun _ _ => get_alloc h kind _⟩

end Touches

end Heap

/-! ### Locks -/

/-- A cell as it is made, whose lock nobody holds. -/
structure World.Fresh {kind : CellKind} (w : World I σ) (ref : Ref kind) : Prop where
  made : w.heap.Made ref
  unlocked : ref.lock ∉ w.locked
  fresh : w.heap.get ref = kind.fresh

/-- Taking a free lock and giving it back. -/
theorem World.unlock_cons {lock : Lock} {locked : List Lock} (hfree : lock ∉ locked)
    (heap : Heap I) (outside : σ) :
    (⟨heap, lock :: locked, outside⟩ : World I σ).unlock [lock] = ⟨heap, locked, outside⟩ := by
  have hfilter : (lock :: locked).filter (fun l => !([lock] : List Lock).contains l) = locked := by
    rw [List.filter_cons_of_neg (by simp), List.filter_eq_self]
    intro l hl
    have hne : l ≠ lock := fun he => hfree (he ▸ hl)
    simpa using hne
  simp only [unlock, hfilter]

theorem World.serve_acquire {env : Environment I σ} {caller : Caller} {held : List Lock}
    {kind : CellKind} {ref : Ref kind} {heap : Heap I} {locked : List Lock} {outside : σ}
    (hfree : ref.lock ∉ locked) :
    (⟨heap, locked, outside⟩ : World I σ).serve env caller held (.acquire kind ref) =
      some ((), ref.lock :: held, ⟨heap, ref.lock :: locked, outside⟩) := by
  have hcontains : locked.contains ref.lock = false := by simpa using hfree
  simp only [serve, hcontains]
  rfl

theorem World.serve_release {env : Environment I σ} {caller : Caller} {kind : CellKind}
    {ref : Ref kind} {heap : Heap I} {locked : List Lock} {outside : σ} (hfree : ref.lock ∉ locked) :
    (⟨heap, ref.lock :: locked, outside⟩ : World I σ).serve env caller [ref.lock]
      (.release kind ref) = some ((), [], ⟨heap, locked, outside⟩) := by
  have hheld : [ref.lock].filter (· != ref.lock) = [] := by simp
  simp only [serve, hheld, unlock_cons hfree]
  rfl

namespace Memorize

variable {env : Environment I σ} {caller : Caller} {joins : Joins I σ} {held : List Lock}
  {w w₁ w₂ : World I σ} {heap : Heap I} {locked : List Lock} {outside : σ}

/-- The nodes with these records. -/
def records (recs : List (Ref .record)) (nodes : List (Node I)) : List (Node I) :=
  List.zipWith .memorized recs nodes

/-- A snapshot makes a fresh record for each node, and changes nothing else. -/
theorem evaluates_snapshot (nodes : List (Node I)) : ∀ heap : Heap I, ∃ recs heap',
    (snapshot nodes).Evaluates env caller joins held ⟨heap, locked, outside⟩
      (.value (records recs nodes)) held ⟨heap', locked, outside⟩ ∧
    recs.length = nodes.length ∧ recs.Nodup ∧
    (∀ r ∈ recs, ¬ heap.Made r ∧ heap'.Made r ∧ heap'.get r = none) ∧
    heap.Touches [] [] heap' := by
  induction nodes with
  | nil =>
    intro heap
    exact ⟨[], heap, .pure, rfl, .nil, fun _ hr => absurd hr List.not_mem_nil, .refl _ _ heap⟩
  | cons node nodes ih =>
    intro heap
    obtain ⟨recs, heap', heval, hlength, hnodup, hnew, htouch⟩ := ih (heap.alloc .record).2
    have hmade := heap.made_alloc .record
    have halloc := Heap.Touches.alloc [] [] heap .record
    have hnot : ¬ heap.Made (heap.alloc .record).1 := Nat.lt_irrefl _
    have hmem : (heap.alloc .record).1 ∉ recs := fun hr => (hnew _ hr).1 hmade
    refine ⟨(heap.alloc .record).1 :: recs, heap', ?_, congrArg (· + 1) hlength,
      List.nodup_cons.mpr ⟨hmem, hnodup⟩, fun r hr => ?_, ?_⟩
    · exact .serve rfl (heval.bind .pure)
    · rcases List.mem_cons.mp hr with rfl | hr
      · refine ⟨hnot, htouch.made hmade, ?_⟩
        rw [htouch.record hmade List.not_mem_nil, heap.get_alloc]
        exact Heap.get_of_not_made hnot
      · obtain ⟨hbefore, hafter⟩ := hnew r hr
        exact ⟨fun hr => hbefore (halloc.made hr), hafter⟩
    · exact halloc.trans htouch fun _ hr => .inl hr

/-- An execution under way goes on with its own children. -/
theorem evaluates_execution {ref : Ref .execution} {nodes children : List (Node I)}
    (hopen : w.heap.get ref = some nodes) :
    (execution ref children).Evaluates env caller joins held w (.value nodes) held w := by
  unfold execution
  refine .serve rfl ?_
  rw [hopen]
  exact .pure

/-- Where there is none, one is begun, with a fresh record for each child. -/
theorem evaluates_execution_none {ref : Ref .execution} (children : List (Node I))
    (hnone : heap.get ref = none) (hmade : heap.Made ref) : ∃ recs heap',
    (execution ref children).Evaluates env caller joins held ⟨heap, locked, outside⟩
      (.value (records recs children)) held ⟨heap', locked, outside⟩ ∧
    recs.length = children.length ∧ recs.Nodup ∧
    (∀ r ∈ recs, ¬ heap.Made r ∧ heap'.Made r ∧ heap'.get r = none) ∧
    heap.Touches [ref] [] heap' ∧ heap'.get ref = some (records recs children) := by
  obtain ⟨recs, heap', heval, hlength, hnodup, hnew, htouch⟩ :=
    @evaluates_snapshot I σ env caller joins held locked outside children heap
  have hmade' := htouch.made hmade
  refine ⟨recs, heap'.set ref (some (records recs children)), ?_, hlength, hnodup, fun r hr => ?_,
    ?_, Heap.get_set hmade' _⟩
  · unfold execution
    refine .serve rfl ?_
    rw [hnone]
    exact heval.bind (.serve rfl .pure)
  · obtain ⟨hbefore, hafter, hget⟩ := hnew r hr
    refine ⟨hbefore, (Heap.made_set _).mpr hafter, ?_⟩
    exact (Heap.get_set_kind (by decide) ref r _).trans hget
  · have hset : heap'.Touches [ref] [] (heap'.set ref (some (records recs children))) :=
      .set_execution (List.mem_singleton.mpr rfl) _
    exact (htouch.mono (List.nil_subset _) (List.Subset.refl _)).trans hset fun _ hr => .inl hr

/-- What a call leaves of its execution. -/
def settle (ref : Ref .execution) (result : TickResult) (heap : Heap I) : Heap I :=
  if result.isRunning then heap else heap.set ref none

/-- One call: the execution, the tick inside, and the end of the execution if
there is one, under the lock of the cell. -/
theorem evaluates_run {ref : Ref .execution} {inner : List (Node I) → Prog I TickResult}
    {children nodes : List (Node I)} {result : TickResult} {heap₁ heap₂ : Heap I} {outside₁ : σ}
    (hfree : ref.lock ∉ locked)
    (hexec : (execution ref children).Evaluates env caller joins [ref.lock]
      ⟨heap, ref.lock :: locked, outside⟩ (.value nodes) [ref.lock]
      ⟨heap₁, ref.lock :: locked, outside⟩)
    (hinner : (inner nodes).Evaluates env caller joins [ref.lock]
      ⟨heap₁, ref.lock :: locked, outside⟩ (.value result) [ref.lock]
      ⟨heap₂, ref.lock :: locked, outside₁⟩) :
    (run ref inner children).Evaluates env caller joins [] ⟨heap, locked, outside⟩ (.value result)
      [] ⟨settle ref result heap₂, locked, outside₁⟩ := by
  unfold run
  refine .serve (World.serve_acquire hfree) (hexec.bind (hinner.bind ?_))
  unfold settle
  by_cases hr : result.isRunning
  · simp only [hr, Bool.not_true, Bool.false_eq_true, if_false, if_true]
    exact .serve (World.serve_release hfree) .pure
  · have hr : result.isRunning = false := by simpa using hr
    simp only [hr, Bool.not_false, Bool.false_eq_true, if_false, if_true]
    exact .serve rfl (.serve (World.serve_release hfree) .pure)

/-- A child that has answered running, and is not recorded. -/
theorem evaluates_record_running {ref : Ref .record} {inner : Prog I TickResult}
    {result : TickResult} {held₁ : List Lock} (hr : result.isRunning)
    (hinner : inner.Evaluates env caller joins held w (.value result) held₁ w₁) :
    (record ref inner).Evaluates env caller joins held w (.value result) held₁ w₁ := by
  unfold record
  refine hinner.bind ?_
  simp only [hr, Bool.not_true, Bool.false_eq_true, if_false]
  exact .pure

/-- A child that has answered, and is recorded. -/
theorem evaluates_record {ref : Ref .record} {inner : Prog I TickResult} {result : TickResult}
    {held₁ : List Lock} (hr : result.isRunning = false)
    (hinner : inner.Evaluates env caller joins held w (.value result) held₁
      ⟨heap, locked, outside⟩) :
    (record ref inner).Evaluates env caller joins held w (.value result) held₁
      ⟨heap.set ref (some result), locked, outside⟩ := by
  unfold record
  refine hinner.bind ?_
  simp only [hr, Bool.not_false, if_true]
  exact .serve rfl .pure

end Memorize

end TickTree
