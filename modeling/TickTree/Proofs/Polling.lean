/-
# Polling a memorized tree

A static tree whose composites are memorized, each in a cell of its own, can be
ticked until it answers something other than running, or it can be run through
with each leaf called until it has answered. Both do the same (`polls_as_run`):
the same leaves are called in the same order, and the answer is the same. The
run through is cut into ticks at the calls that answer running, and the last
tick leaves no execution under way, so that the next one begins a run of its own.

Between two ticks the heap holds where the tree is interrupted (`Holds`). An open
execution has a record for each of its children: the children that were gone past
have a status there, the next child is interrupted itself, and nothing was done
about the others. A tick of the program on such a heap answers as `MemoTree.tick`
does, and leaves the heap so again (`evaluates_tick`); the induction is on the
tree, with a scan of the children inside (`evaluates_scan`).

Key definitions: `LeafCalls`, `MemoTree.node`, `MemoTree.Holds`, `MemoTree.Fresh`,
`MemoTree.Polls`.
Key theorems: `MemoTree.evaluates_tick`, `MemoTree.polls_as_run`.
-/
import TickTree.Proofs.Execution
import TickTree.Proofs.MemoTree

namespace TickTree

variable {L σ : Type}

/-- The questions of a tree of leaves: a call of a leaf, answered by its
result. -/
abbrev LeafCalls (L : Type) : Interface := { Query := L, Reply := fun _ => TickResult }

/-- The leaves play their parts at once. -/
def LeafCalls.env (play : L → σ → TickResult × σ) : Environment (LeafCalls L) (Outside L σ) where
  answer := fun _ l o => some (o.call play l)
  ended := fun _ _ o => o

namespace MemoTree

/-! ### The tree as a node -/

mutual

/-- The node of a tree. -/
def node : MemoTree L → Node (LeafCalls L)
  | leaf l => .leaf (.ask l .const)
  | inner kind execution children => .of (.memorize execution (.composite kind)) (nodes children)
termination_by structural tree => tree

/-- The nodes of some trees. -/
def nodes : List (MemoTree L) → List (Node (LeafCalls L))
  | [] => []
  | tree :: trees => tree.node :: nodes trees
termination_by structural trees => trees

end

mutual

/-- The executions of a tree. -/
def executions : MemoTree L → List (Ref .execution)
  | leaf _ => []
  | inner _ execution children => execution :: executionsOf children
termination_by structural tree => tree

/-- The executions of some trees. -/
def executionsOf : List (MemoTree L) → List (Ref .execution)
  | [] => []
  | tree :: trees => tree.executions ++ executionsOf trees
termination_by structural trees => trees

end

/-- What a call of the node of a tree does. -/
def prog : MemoTree L → Prog (LeafCalls L) TickResult
  | leaf l => .request (.ask l) .pure
  | inner kind execution children => Memorize.run execution kind.run (nodes children)

theorem nodes_length {trees : List (MemoTree L)} : (nodes trees).length = trees.length := by
  induction trees with
  | nil => rfl
  | cons tree trees ih => exact congrArg (· + 1) ih

theorem call_node (tree : MemoTree L) : tree.node.call = tree.prog := by
  cases tree <;> rfl

/-- A recorded child answers its record, and any other runs. -/
theorem call_memorized (record : Ref .record) (tree : MemoTree L) :
    (Node.memorized record tree.node).call = .request (.read .record record) fun
      | some result => .pure result
      | none => Memorize.record record tree.prog := by
  cases tree with
  | leaf l | inner kind execution children =>
    show Prog.request (Request.read .record record) _ = _
    congr 1
    funext recorded
    cases recorded <;> rfl

/-! ### The tree in the heap -/

mutual

/-- The heap holds the tree, interrupted at `pause`, in these records. -/
inductive Holds (h : Heap (LeafCalls L)) : MemoTree L → Option Pause → List (Ref .record) → Prop
  | fresh {tree : MemoTree L} : (∀ r ∈ tree.executions, h.get r = none) → Holds h tree none []
  | leaf {l} : Holds h (.leaf l) (some .here) []
  | inner {kind children own past pause records} {execution : Ref .execution} :
      h.get execution = some (Memorize.records own (nodes children)) →
      HoldsFrom h kind children own past (some pause) records →
      Holds h (.inner kind execution children) (some (.inside past pause)) records

/-- The heap holds these children of a composite, whose own records are `own`:
they were gone past with the statuses `past`, the next is interrupted at `pause`,
and nothing was done about the others. -/
inductive HoldsFrom (h : Heap (LeafCalls L)) : Composite → List (MemoTree L) → List (Ref .record) →
    List Status → Option Pause → List (Ref .record) → Prop
  | nil {kind pause} : HoldsFrom h kind [] [] [] pause []
  | past {kind tree trees own s past pause records} {record : Ref .record} :
      kind.goesPast s → h.get record = some (.ok s) → Holds h tree none [] →
      HoldsFrom h kind trees own past pause records →
      HoldsFrom h kind (tree :: trees) (record :: own) (s :: past) pause (record :: records)
  | next {kind tree trees own pause records records'} {record : Ref .record} :
      h.get record = none → Holds h tree pause records →
      HoldsFrom h kind trees own [] none records' →
      HoldsFrom h kind (tree :: trees) (record :: own) [] pause (record :: (records ++ records'))

end

variable {h h' : Heap (LeafCalls L)}

mutual

/-- What the heap holds of a tree depends on the cells of the tree only. -/
theorem Holds.congr {tree : MemoTree L} {pause : Option Pause} {records : List (Ref .record)}
    (hold : Holds h tree pause records) (hexec : ∀ r ∈ tree.executions, h'.get r = h.get r)
    (hrec : ∀ r ∈ records, h'.get r = h.get r) : Holds h' tree pause records :=
  match hold with
  | .fresh hnone => .fresh fun r hr => (hexec r hr).trans (hnone r hr)
  | .leaf => .leaf
  | .inner hopen hfrom => by
    refine .inner ((hexec _ List.mem_cons_self).trans hopen) ?_
    exact hfrom.congr (fun r hr => hexec r (List.mem_cons_of_mem _ hr)) hrec

theorem HoldsFrom.congr {kind : Composite} {trees : List (MemoTree L)} {own : List (Ref .record)}
    {past : List Status} {pause : Option Pause} {records : List (Ref .record)}
    (hold : HoldsFrom h kind trees own past pause records)
    (hexec : ∀ r ∈ executionsOf trees, h'.get r = h.get r)
    (hrec : ∀ r ∈ records, h'.get r = h.get r) : HoldsFrom h' kind trees own past pause records :=
  match hold with
  | .nil => .nil
  | .past hpast hget htree hfrom => by
    refine .past hpast ((hrec _ List.mem_cons_self).trans hget) ?_ ?_
    · exact htree.congr (fun r hr => hexec r (List.mem_append_left _ hr))
        fun r hr => absurd hr List.not_mem_nil
    · exact hfrom.congr (fun r hr => hexec r (List.mem_append_right _ hr))
        fun r hr => hrec r (List.mem_cons_of_mem _ hr)
  | .next hget htree hfrom => by
    refine .next ((hrec _ List.mem_cons_self).trans hget) ?_ ?_
    · exact htree.congr (fun r hr => hexec r (List.mem_append_left _ hr))
        fun r hr => hrec r (List.mem_cons_of_mem _ (List.mem_append_left _ hr))
    · exact hfrom.congr (fun r hr => hexec r (List.mem_append_right _ hr))
        fun r hr => hrec r (List.mem_cons_of_mem _ (List.mem_append_right _ hr))

end

/-! ### One tick -/

/-- The cells of a tree are there, each for itself, and nobody holds the lock of
one. -/
structure Ready (executions : List (Ref .execution)) (records : List (Ref .record))
    (h : Heap (LeafCalls L)) (locked : List Lock) : Prop where
  unlocked : ∀ r ∈ executions, r.lock ∉ locked
  made : ∀ r ∈ executions, h.Made r
  distinct : executions.Nodup
  recordsMade : ∀ r ∈ records, h.Made r
  recordsDistinct : records.Nodup

/-- A tick may change the executions of the tree and the records in use, and go
over to records that it makes. -/
structure Grown (executions : List (Ref .execution)) (records records' : List (Ref .record))
    (h h' : Heap (LeafCalls L)) : Prop where
  touches : h.Touches executions records h'
  known : ∀ r ∈ records', r ∈ records ∨ ¬ h.Made r
  made : ∀ r ∈ records', h'.Made r
  distinct : records'.Nodup

variable {play : L → σ → TickResult × σ} {caller : Caller}
  {joins : Joins (LeafCalls L) (Outside L σ)} {locked : List Lock} {o o' : Outside L σ}
  {record : Ref .record} {tree : MemoTree L}

theorem evaluates_recorded {r : TickResult} (hget : h.get record = some r) :
    (Node.memorized record tree.node).call.Evaluates (LeafCalls.env play) caller joins []
      ⟨h, locked, o⟩ (.value r) [] ⟨h, locked, o⟩ := by
  rw [call_memorized]
  refine .serve rfl ?_
  rw [hget]
  exact .pure

theorem evaluates_unrecorded {r : TickResult} (hget : h.get record = none)
    (htree : tree.prog.Evaluates (LeafCalls.env play) caller joins [] ⟨h, locked, o⟩ (.value r) []
      ⟨h', locked, o'⟩) :
    (Node.memorized record tree.node).call.Evaluates (LeafCalls.env play) caller joins []
      ⟨h, locked, o⟩ (.value r) []
      ⟨if r.isRunning then h' else h'.set record (some r), locked, o'⟩ := by
  rw [call_memorized]
  refine .serve rfl ?_
  rw [hget]
  by_cases hr : r.isRunning
  · rw [if_pos hr]
    exact Memorize.evaluates_record_running hr htree
  · rw [if_neg hr]
    exact Memorize.evaluates_record (by simpa using hr) htree

theorem HoldsFrom.fresh {kind : Composite} {trees : List (MemoTree L)} {own : List (Ref .record)}
    (hlength : own.length = trees.length) (hown : ∀ r ∈ own, h.get r = none)
    (hnone : ∀ r ∈ executionsOf trees, h.get r = none) : HoldsFrom h kind trees own [] none own := by
  induction trees generalizing own with
  | nil =>
    obtain rfl := List.length_eq_zero_iff.mp hlength
    exact .nil
  | cons tree trees ih =>
    cases own with
    | nil => cases hlength
    | cons record own =>
      have hfrom : HoldsFrom h kind trees own [] none own :=
        ih (Nat.succ.inj hlength) (fun r hr => hown r (List.mem_cons_of_mem _ hr))
          fun r hr => hnone r (List.mem_append_right _ hr)
      have htree : Holds h tree none [] :=
        .fresh fun r hr => hnone r (List.mem_append_left _ hr)
      exact .next (hown _ List.mem_cons_self) htree hfrom

theorem HoldsFrom.none_of_fresh {kind : Composite} {trees : List (MemoTree L)}
    {own records : List (Ref .record)} (hold : HoldsFrom h kind trees own [] none records) :
    ∀ r ∈ executionsOf trees, h.get r = none := by
  induction trees generalizing own records with
  | nil => exact fun r hr => absurd hr List.not_mem_nil
  | cons tree trees ih =>
    cases hold with
    | next _ htree hfrom =>
      cases htree with
      | fresh hnone =>
        exact fun r hr => (List.mem_append.mp hr).elim (hnone r) (ih hfrom r)

namespace Ready

variable {executions executions' : List (Ref .execution)} {records records' : List (Ref .record)}

theorem sublist (hready : Ready executions records h locked) (hexec : executions'.Sublist executions)
    (hrec : records'.Sublist records) : Ready executions' records' h locked where
  unlocked := fun r hr => hready.unlocked r (hexec.subset hr)
  made := fun r hr => hready.made r (hexec.subset hr)
  distinct := hready.distinct.sublist hexec
  recordsMade := fun r hr => hready.recordsMade r (hrec.subset hr)
  recordsDistinct := hready.recordsDistinct.sublist hrec

theorem later (hready : Ready executions records h locked)
    (hmade : ∀ {kind : CellKind} {r : Ref kind}, h.Made r → h'.Made r) :
    Ready executions records h' locked :=
  { hready with
    made := fun r hr => hmade (hready.made r hr)
    recordsMade := fun r hr => hmade (hready.recordsMade r hr) }

end Ready

/-- The tick of the first child changes no execution and no record of the
others, and goes over to none of their records. -/
theorem Grown.keeps {trees : List (MemoTree L)} {records records' records₂ : List (Ref .record)}
    (hready : Ready (executionsOf (tree :: trees)) (record :: (records ++ records₂)) h locked)
    (hgrown : Grown tree.executions records records' h h') :
    (∀ r ∈ record :: records₂, r ∉ records' ∧ h'.get r = h.get r) ∧
      ∀ r ∈ executionsOf trees, h'.get r = h.get r := by
  obtain ⟨-, -, hdisjoint⟩ := List.nodup_append.mp hready.distinct
  obtain ⟨hrecord, hrecords⟩ := List.nodup_cons.mp hready.recordsDistinct
  obtain ⟨-, -, hdisjoint₂⟩ := List.nodup_append.mp hrecords
  refine ⟨fun r hr => ?_, fun r hr => hgrown.touches.execution fun hmem => hdisjoint r hmem r hr rfl⟩
  have hmade : h.Made r :=
    hready.recordsMade r (((List.sublist_append_right _ _).cons_cons _).subset hr)
  have hnot : r ∉ records := by
    intro hmem
    rcases List.mem_cons.mp hr with rfl | hr
    · exact hrecord (List.mem_append_left _ hmem)
    · exact hdisjoint₂ r hmem r hr rfl
  refine ⟨fun hmem => ?_, hgrown.touches.record hmade hnot⟩
  rcases hgrown.known r hmem with hmem | hnew
  · exact hnot hmem
  · exact hnew hmade

/-- What a scan of some children leaves of them when it stops: they are
interrupted like the composite, or nothing is under way in them. -/
def StopsAt (kind : Composite) (trees : List (MemoTree L)) (own : List (Ref .record))
    (before : List Status) (records : List (Ref .record)) (h h' : Heap (LeafCalls L))
    (pause : Option Pause) : Prop :=
  match pause with
  | some p => ∃ more p' records', p = .inside (before ++ more) p' ∧
      HoldsFrom h' kind trees own more (some p') records' ∧
      Grown (executionsOf trees) records records' h h'
  | none => (∀ r ∈ executionsOf trees, h'.get r = none) ∧
      h.Touches (executionsOf trees) records h'

namespace StopsAt

variable {kind : Composite} {trees : List (MemoTree L)} {own records records₂ : List (Ref .record)}
  {before : List Status} {pause : Option Pause} {h₂ : Heap (LeafCalls L)}

/-- The children were changed before, by what may change them. -/
theorem after (htouch : h.Touches (executionsOf trees) records h₂)
    (hknown : ∀ r ∈ records₂, r ∈ records ∨ ¬ h.Made r)
    (hstop : StopsAt kind trees own before records₂ h₂ h' pause) :
    StopsAt kind trees own before records h h' pause := by
  cases pause with
  | none => exact ⟨hstop.1, htouch.trans hstop.2 hknown⟩
  | some p =>
    obtain ⟨more, p', records', hp, hfrom, hgrown⟩ := hstop
    refine ⟨more, p', records', hp, hfrom, htouch.trans hgrown.touches hknown, fun r hr => ?_,
      hgrown.made, hgrown.distinct⟩
    rcases hgrown.known r hr with hr | hnot
    · exact hknown r hr
    · exact .inr fun hmade => hnot (htouch.made hmade)

/-- A child that was gone past stands before them. -/
theorem cons {s : Status} (hpast : kind.goesPast s) (hget : h.get record = some (.ok s))
    (hnone : ∀ r ∈ tree.executions, h.get r = none)
    (hready : Ready (executionsOf (tree :: trees)) (record :: records) h locked)
    (hstop : StopsAt kind trees own (before ++ [s]) records h h' pause) :
    StopsAt kind (tree :: trees) (record :: own) before (record :: records) h h' pause := by
  obtain ⟨-, -, hdisjoint⟩ := List.nodup_append.mp hready.distinct
  obtain ⟨hrecord, -⟩ := List.nodup_cons.mp hready.recordsDistinct
  have hmade := hready.recordsMade record List.mem_cons_self
  -- nothing in the first child or its record changes
  have hfirst : h.Touches (executionsOf trees) records h' →
      h'.get record = some (.ok s) ∧ ∀ r ∈ tree.executions, h'.get r = none := by
    intro htouch
    refine ⟨(htouch.record hmade hrecord).trans hget, fun r hr => ?_⟩
    have hr' : r ∉ executionsOf trees := fun hmem => hdisjoint r hr r hmem rfl
    exact (htouch.execution hr').trans (hnone r hr)
  have hmono : h.Touches (executionsOf trees) records h' →
      h.Touches (executionsOf (tree :: trees)) (record :: records) h' := fun htouch =>
    htouch.mono (List.subset_append_right _ _) (List.subset_cons_self _ _)
  cases pause with
  | none =>
    obtain ⟨hrest, htouch⟩ := hstop
    refine ⟨fun r hr => ?_, hmono htouch⟩
    rcases List.mem_append.mp hr with hr | hr
    · exact (hfirst htouch).2 r hr
    · exact hrest r hr
  | some p =>
    obtain ⟨more, p', records', rfl, hfrom, hgrown⟩ := hstop
    obtain ⟨hget', hnone'⟩ := hfirst hgrown.touches
    have hnot : record ∉ records' := by
      intro hmem
      rcases hgrown.known record hmem with hmem | hnot
      · exact hrecord hmem
      · exact hnot hmade
    refine ⟨s :: more, p', record :: records', by simp, .past hpast hget' (.fresh hnone') hfrom,
      hmono hgrown.touches, fun r hr => ?_, fun r hr => ?_, ?_⟩
    · rcases List.mem_cons.mp hr with rfl | hr
      · exact .inl List.mem_cons_self
      · exact (hgrown.known r hr).imp_left (List.mem_cons_of_mem _)
    · rcases List.mem_cons.mp hr with rfl | hr
      · exact hgrown.touches.made hmade
      · exact hgrown.made r hr
    · exact List.nodup_cons.mpr ⟨hnot, hgrown.distinct⟩

/-- The first child is interrupted. -/
theorem interrupted {records' : List (Ref .record)} {p : Pause} (hget : h.get record = none)
    (hfrom : HoldsFrom h kind trees own [] none records₂)
    (hready : Ready (executionsOf (tree :: trees)) (record :: (records ++ records₂)) h locked)
    (htree : Holds h' tree (some p) records')
    (hgrown : Grown tree.executions records records' h h') :
    StopsAt kind (tree :: trees) (record :: own) before (record :: (records ++ records₂)) h h'
      (some (.inside before p)) := by
  obtain ⟨hkeeps, hexec⟩ := hgrown.keeps hready
  obtain ⟨hrecord, hrecords⟩ := List.nodup_cons.mp hready.recordsDistinct
  have hmade : ∀ r ∈ record :: records₂, h.Made r := fun r hr =>
    hready.recordsMade r (((List.sublist_append_right _ _).cons_cons _).subset hr)
  have hfrom' : HoldsFrom h' kind trees own [] none records₂ :=
    hfrom.congr hexec fun r hr => (hkeeps r (List.mem_cons_of_mem _ hr)).2
  have hget' : h'.get record = none := (hkeeps record List.mem_cons_self).2.trans hget
  refine ⟨[], p, record :: (records' ++ records₂), by simp, .next hget' htree hfrom', ?_, ?_, ?_, ?_⟩
  · refine hgrown.touches.mono (List.subset_append_left _ _) ?_
    exact fun r hr => List.mem_cons_of_mem _ (List.mem_append_left _ hr)
  · intro r hr
    rcases List.mem_cons.mp hr with rfl | hr
    · exact .inl List.mem_cons_self
    · rcases List.mem_append.mp hr with hr | hr
      · exact (hgrown.known r hr).imp_left fun hr =>
          List.mem_cons_of_mem _ (List.mem_append_left _ hr)
      · exact .inl (List.mem_cons_of_mem _ (List.mem_append_right _ hr))
  · intro r hr
    rcases List.mem_cons.mp hr with rfl | hr
    · exact hgrown.touches.made (hmade _ List.mem_cons_self)
    · rcases List.mem_append.mp hr with hr | hr
      · exact hgrown.made r hr
      · exact hgrown.touches.made (hmade r (List.mem_cons_of_mem _ hr))
  · refine List.nodup_cons.mpr ⟨fun hmem => ?_, List.nodup_append.mpr
      ⟨hgrown.distinct, hrecords.sublist (List.sublist_append_right _ _), fun r hr r' hr' he => ?_⟩⟩
    · rcases List.mem_append.mp hmem with hmem | hmem
      · exact (hkeeps record List.mem_cons_self).1 hmem
      · exact hrecord (List.mem_append_right _ hmem)
    · exact (hkeeps r' (List.mem_cons_of_mem _ hr')).1 (he ▸ hr)

end StopsAt

/-- The heap after the first child has answered and is recorded. -/
theorem HoldsFrom.recorded {kind : Composite} {trees : List (MemoTree L)}
    {own records records' records₂ : List (Ref .record)}
    (hfrom : HoldsFrom h kind trees own [] none records₂)
    (hready : Ready (executionsOf (tree :: trees)) (record :: (records ++ records₂)) h locked)
    (htree : Holds h' tree none records') (hgrown : Grown tree.executions records records' h h')
    (r : TickResult) :
    HoldsFrom (h'.set record (some r)) kind trees own [] none records₂ ∧
      (h'.set record (some r)).get record = some r ∧
      (∀ e ∈ tree.executions, (h'.set record (some r)).get e = none) ∧
      h.Touches (executionsOf (tree :: trees)) (record :: (records ++ records₂))
        (h'.set record (some r)) := by
  obtain ⟨hkeeps, hexec⟩ := hgrown.keeps hready
  obtain ⟨hrecord, -⟩ := List.nodup_cons.mp hready.recordsDistinct
  have hmade := hgrown.touches.made (hready.recordsMade record List.mem_cons_self)
  have hset : h'.Touches [] [record] (h'.set record (some r)) :=
    .set_record (List.mem_singleton.mpr rfl) _
  have hnone : ∀ e ∈ tree.executions, h'.get e = none := by
    cases htree with
    | fresh hnone => exact hnone
  refine ⟨?_, Heap.get_set hmade _, fun e he => ?_, ?_⟩
  · refine hfrom.congr (fun e he => ?_) fun e he => ?_
    · exact (hset.execution List.not_mem_nil).trans (hexec e he)
    · have hne : e ≠ record := fun heq => hrecord (List.mem_append_right _ (heq ▸ he))
      have hmem := List.mem_cons_of_mem record he
      have hmade' : h'.Made e :=
        hgrown.touches.made
          (hready.recordsMade e (((List.sublist_append_right _ _).cons_cons _).subset hmem))
      exact (hset.record hmade' (by simpa using hne)).trans (hkeeps e hmem).2
  · exact (hset.execution List.not_mem_nil).trans (hnone e he)
  · have hfirst := hgrown.touches.mono (List.subset_append_left _ (executionsOf trees))
      ((List.sublist_append_left records records₂).trans (List.sublist_cons_self record _)).subset
    have hlast := hset.mono (List.nil_subset (executionsOf (tree :: trees))) (List.Subset.refl _)
    exact hfirst.trans hlast fun e he => .inl (by simp [List.mem_singleton.mp he])

/-- A tick of the tree on the heap returns what `tick` says, and leaves the tree
in the heap, interrupted where that says. -/
def TicksAlike (play : L → σ → TickResult × σ) (caller : Caller)
    (joins : Joins (LeafCalls L) (Outside L σ)) (tree : MemoTree L) : Prop :=
  ∀ {pause pause' : Option Pause} {records : List (Ref .record)} {h : Heap (LeafCalls L)}
    {locked : List Lock} {o o' : Outside L σ} {r : TickResult},
    Ready tree.executions records h locked → Holds h tree pause records →
    tree.tick play pause o = (r, pause', o') →
    ∃ h' records', tree.prog.Evaluates (LeafCalls.env play) caller joins [] ⟨h, locked, o⟩
        (.value r) [] ⟨h', locked, o'⟩ ∧
      Holds h' tree pause' records' ∧ Grown tree.executions records records' h h'

/-- A composite over children that tick alike scans alike. -/
theorem evaluates_scan (kind : Composite) {trees : List (MemoTree L)}
    (halike : ∀ tree ∈ trees, tree.TicksAlike play caller joins) :
    ∀ {own : List (Ref .record)} {before past : List Status} {pause pause' : Option Pause}
      {records : List (Ref .record)} {h : Heap (LeafCalls L)} {held locked : List Lock}
      {o o' : Outside L σ} {r : TickResult},
      Ready (executionsOf trees) records h locked →
      HoldsFrom h kind trees own past pause records →
      scan play kind trees past.length (before ++ past) pause o = (r, pause', o') →
      ∃ h', (kind.runFrom before.length (kind.soFar before)
          (Memorize.records own (nodes trees))).Evaluates (LeafCalls.env play) caller joins held
          ⟨h, locked, o⟩ (.value r) held ⟨h', locked, o'⟩ ∧
        StopsAt kind trees own before records h h' pause' := by
  induction trees with
  | nil =>
    intro own before past pause pause' records h held locked o o' r hready hholds hscan
    cases hholds
    simp only [scan, List.append_nil, Prod.mk.injEq] at hscan
    obtain ⟨rfl, rfl, rfl⟩ := hscan
    exact ⟨h, .pure, fun r hr => absurd hr List.not_mem_nil, .refl _ _ h⟩
  | cons tree trees ih =>
    intro own before past pause pause' records h held locked o o' r hready hholds hscan
    have ih := @ih fun tree htree => halike tree (List.mem_cons_of_mem _ htree)
    have hexecTrees : (executionsOf trees).Sublist (executionsOf (tree :: trees)) :=
      List.sublist_append_right _ _
    cases hholds with
    | @past _ _ _ own s past _ records record hpast hget htree hfrom =>
      -- the child answers its record, and the scan goes past it
      rw [List.append_cons] at hscan
      obtain ⟨h', heval, hstop⟩ := ih (hready.sublist hexecTrees (List.sublist_cons_self _ _))
        hfrom hscan
      have hnone : ∀ r ∈ tree.executions, h.get r = none := by
        cases htree with
        | fresh hnone => exact hnone
      refine ⟨h', .tick_nil (evaluates_recorded hget) ?_, hstop.cons hpast hget hnone hready⟩
      rw [Composite.soFar_snoc, List.length_append, List.length_singleton] at heval
      simp only [hpast, if_true]
      exact heval
    | @next _ _ _ own _ records records₂ record hget htree hfrom =>
      rcases htick : tree.tick play pause o with ⟨r₁, pause₁, o₁⟩
      obtain ⟨h₁, records₁, hevalTree, hholdsTree, hgrown⟩ := halike tree List.mem_cons_self
        (hready.sublist (List.sublist_append_left _ _)
          ((List.sublist_append_left _ _).trans (List.sublist_cons_self _ _))) htree htick
      have hadvances := rest_tick tree pause o htick
      have hcall := evaluates_unrecorded hget hevalTree
      simp only [List.length_nil, List.append_nil, scan, htick] at hscan
      cases pause₁ with
      | some p =>
        obtain ⟨rfl, -⟩ := hadvances
        simp only [kind.goesPast_running, Bool.false_eq_true, if_false, Option.map_some,
          Prod.mk.injEq] at hscan
        obtain ⟨rfl, rfl, rfl⟩ := hscan
        refine ⟨h₁, .tick_nil hcall ?_, .interrupted hget hfrom hready hholdsTree hgrown⟩
        simp only [kind.goesPast_running, Bool.false_eq_true, if_false]
        exact .pure
      | none =>
        obtain ⟨hover, -⟩ := hadvances
        simp only [hover, Bool.false_eq_true, if_false] at hcall
        obtain ⟨hfrom₂, hget₂, hnone₂, htouch⟩ := hfrom.recorded hready hholdsTree hgrown r₁
        -- the composite stops after this child
        have hstops : StopsAt kind (tree :: trees) (record :: own) before
            (record :: (records ++ records₂)) h (h₁.set record (some r₁)) none := by
          refine ⟨fun e he => ?_, htouch⟩
          exact (List.mem_append.mp he).elim (hnone₂ e) (hfrom₂.none_of_fresh e)
        cases r₁ with
        | error e =>
          simp only [Prod.mk.injEq] at hscan
          obtain ⟨rfl, rfl, rfl⟩ := hscan
          exact ⟨_, .tick_nil hcall .pure, hstops⟩
        | ok s =>
          simp only at hscan
          split at hscan
          · rename_i hpast
            have hready₂ := (hready.later htouch.made).sublist (List.Sublist.refl _)
              ((List.sublist_append_right records records₂).cons_cons record)
            obtain ⟨h', heval, hstop⟩ := @ih own (before ++ [s]) [] _ _ _ _ held _ _ _ _
              (hready₂.sublist hexecTrees (List.sublist_cons_self _ _)) hfrom₂
              (by simpa using hscan)
            rw [Composite.soFar_snoc, List.length_append, List.length_singleton] at heval
            refine ⟨h', .tick_nil hcall ?_,
              (hstop.cons hpast hget₂ hnone₂ hready₂).after htouch fun e he => ?_⟩
            · simp only [hpast, if_true]
              exact heval
            · exact .inl (((List.sublist_append_right _ _).cons_cons _).subset he)
          · rename_i hpast
            simp only [Option.map_none, Prod.mk.injEq] at hscan
            obtain ⟨rfl, rfl, rfl⟩ := hscan
            refine ⟨_, .tick_nil hcall ?_, hstops⟩
            simp only [hpast, Bool.false_eq_true, if_false]
            exact .pure

/-- A call of a memorized composite finds its execution or begins one, with its
children as they are held. -/
theorem Holds.entered {kind : Composite} {children : List (MemoTree L)}
    {execution : Ref .execution} {pause : Option Pause} {records : List (Ref .record)}
    (hready : Ready (MemoTree.inner kind execution children).executions records h locked)
    (hholds : Holds h (MemoTree.inner kind execution children) pause records) :
    ∃ own records₁ h₁,
      (Memorize.execution execution (nodes children)).Evaluates (LeafCalls.env play) caller joins
        [execution.lock] ⟨h, execution.lock :: locked, o⟩
        (.value (Memorize.records own (nodes children))) [execution.lock]
        ⟨h₁, execution.lock :: locked, o⟩ ∧
      h₁.get execution = some (Memorize.records own (nodes children)) ∧
      HoldsFrom h₁ kind children own (Pause.split pause).1 (Pause.split pause).2 records₁ ∧
      Ready (executionsOf children) records₁ h₁ (execution.lock :: locked) ∧
      h.Touches [execution] [] h₁ ∧ ∀ r ∈ records₁, r ∈ records ∨ ¬ h.Made r := by
  obtain ⟨hother, hdistinct⟩ := List.nodup_cons.mp hready.distinct
  have hunlocked : ∀ r ∈ executionsOf children, r.lock ∉ execution.lock :: locked := by
    intro r hr hmem
    rcases List.mem_cons.mp hmem with heq | hmem
    · rcases r with ⟨index⟩
      rcases execution with ⟨index'⟩
      cases heq
      exact hother hr
    · exact hready.unlocked r (List.mem_cons_of_mem _ hr) hmem
  cases hholds with
  | fresh hnone =>
    obtain ⟨own, h₁, heval, hlength, hnodup, hnew, htouch, hget⟩ :=
      @Memorize.evaluates_execution_none _ _ (LeafCalls.env play) caller joins [execution.lock] h
        (execution.lock :: locked) o execution (nodes children) (hnone _ List.mem_cons_self)
        (hready.made _ List.mem_cons_self)
    refine ⟨own, own, h₁, heval, hget, ?_,
      ⟨hunlocked, fun r hr => ?_, hdistinct, fun r hr => (hnew r hr).2.1, hnodup⟩, htouch,
      fun r hr => .inr (hnew r hr).1⟩
    · refine .fresh (hlength.trans nodes_length) (fun r hr => (hnew r hr).2.2) fun r hr => ?_
      have hne : r ∉ [execution] := by
        intro hmem
        exact hother (List.mem_singleton.mp hmem ▸ hr)
      exact (htouch.execution hne).trans (hnone r (List.mem_cons_of_mem _ hr))
    · exact htouch.made (hready.made r (List.mem_cons_of_mem _ hr))
  | @inner _ _ own _ _ _ _ hopen hfrom =>
    refine ⟨own, records, h, Memorize.evaluates_execution hopen, hopen, hfrom,
      ⟨hunlocked, fun r hr => hready.made r (List.mem_cons_of_mem _ hr), hdistinct,
        hready.recordsMade, hready.recordsDistinct⟩, .refl _ _ h, fun r hr => .inl hr⟩

/-- A call of a memorized composite is over, and leaves it held as the scan of
its children stopped. -/
theorem StopsAt.left {kind : Composite} {children : List (MemoTree L)} {execution : Ref .execution}
    {own records records₁ : List (Ref .record)} {pause : Option Pause} {h₁ : Heap (LeafCalls L)}
    {r : TickResult} (hready : Ready (inner kind execution children).executions records h locked)
    (hopen : h₁.get execution = some (Memorize.records own (nodes children)))
    (htouch : h.Touches [execution] [] h₁) (hknown : ∀ r ∈ records₁, r ∈ records ∨ ¬ h.Made r)
    (hrunning : r.isRunning = pause.isSome)
    (hstop : StopsAt kind children own [] records₁ h₁ h' pause) :
    ∃ records',
      Holds (Memorize.settle execution r h') (inner kind execution children) pause records' ∧
      Grown (inner kind execution children).executions records records' h
        (Memorize.settle execution r h') := by
  obtain ⟨hother, -⟩ := List.nodup_cons.mp hready.distinct
  have hfirst : h.Touches (inner kind execution children).executions records h₁ :=
    htouch.mono (List.cons_subset_cons _ (List.nil_subset _)) (List.nil_subset _)
  cases pause with
  | some p =>
    obtain ⟨more, p', records', rfl, hfrom, hgrown⟩ := hstop
    have hsettle : Memorize.settle execution r h' = h' := if_pos hrunning
    rw [hsettle]
    refine ⟨records', .inner ((hgrown.touches.execution hother).trans hopen) hfrom, ?_,
      fun r hr => ?_, hgrown.made, hgrown.distinct⟩
    · have hlast := hgrown.touches.mono (List.subset_cons_self execution _) (List.Subset.refl _)
      exact hfirst.trans hlast hknown
    · rcases hgrown.known r hr with hr | hnot
      · exact hknown r hr
      · exact .inr fun hmade => hnot (htouch.made hmade)
  | none =>
    obtain ⟨hnone, hrest⟩ := hstop
    have hsettle : Memorize.settle execution r h' = h'.set execution none :=
      if_neg (by simp [hrunning])
    have hmade := hrest.made (htouch.made (hready.made _ List.mem_cons_self))
    have hset : h'.Touches [execution] [] (h'.set execution none) :=
      .set_execution (List.mem_singleton.mpr rfl) _
    rw [hsettle]
    refine ⟨[], .fresh fun e he => ?_, ?_, by simp, by simp, .nil⟩
    · rcases List.mem_cons.mp he with rfl | he
      · exact Heap.get_set hmade none
      · have hne : e ∉ [execution] := by
          intro hmem
          exact hother (List.mem_singleton.mp hmem ▸ he)
        exact (hset.execution hne).trans (hnone e he)
    · have hmiddle := hrest.mono (List.subset_cons_self execution _) (List.Subset.refl _)
      have hlast := hset.mono (List.cons_subset_cons _ (List.nil_subset (executionsOf children)))
        (List.Subset.refl _)
      exact (hfirst.trans hmiddle hknown).trans hlast fun r hr => absurd hr List.not_mem_nil

/-- **On the heap, a memorized tree ticks as `tick` says.** -/
theorem evaluates_tick (tree : MemoTree L) : tree.TicksAlike play caller joins := by
  intro pause pause' records h locked o o' r hready hholds htick
  match tree with
  | leaf l =>
    simp only [tick, Prod.mk.injEq] at htick
    obtain ⟨rfl, rfl, rfl⟩ := htick
    refine ⟨h, [], .serve rfl .pure, ?_, .refl _ _ h, by simp, by simp, .nil⟩
    split
    · exact .leaf
    · exact .fresh fun r hr => absurd hr List.not_mem_nil
  | inner kind execution children =>
    have hfree : execution.lock ∉ locked := hready.unlocked _ List.mem_cons_self
    have halike : ∀ tree ∈ children, tree.TicksAlike play caller joins :=
      fun tree _ => evaluates_tick tree
    obtain ⟨own, records₁, h₁, hexec, hopen, hfrom, hready₁, htouch, hknown⟩ :=
      hholds.entered hready
    have hbegin : scan play kind children (Pause.split pause).1.length
        ([] ++ (Pause.split pause).1) (Pause.split pause).2 o = (r, pause', o') := htick
    obtain ⟨h', hscan, hstop⟩ := evaluates_scan kind halike hready₁ hfrom hbegin
    have hrunning : r.isRunning = pause'.isSome := by
      have hadvances := rest_tick _ pause o htick
      cases pause' with
      | some p => exact hadvances.1 ▸ rfl
      | none => exact hadvances.1
    obtain ⟨records', hholds', hgrown⟩ := hstop.left hready hopen htouch hknown hrunning
    exact ⟨_, records', Memorize.evaluates_run hfree hexec hscan, hholds', hgrown⟩
termination_by tree

/-! ### Ticks by threads -/

/-- A thread that ticks the tree in the world `w` ends so, and leaves `w'`. -/
def Ends (play : L → σ → TickResult × σ) (tree : MemoTree L) (id : Nat) (origin : Origin)
    (w : World (LeafCalls L) (Outside L σ)) (outcome : Outcome)
    (w' : World (LeafCalls L) (Outside L σ)) : Prop :=
  Thread.Ends (LeafCalls.env play) (fun _ _ _ _ => False) id origin tree.node.call w outcome w'

/-- The world holds the tree, interrupted at `pause`. -/
def Kept (tree : MemoTree L) (pause : Option Pause) (w : World (LeafCalls L) (Outside L σ)) : Prop :=
  ∃ records, Ready tree.executions records w.heap w.locked ∧ Holds w.heap tree pause records

/-- Each composite of the tree has a cell of its own, and none has an execution
under way. -/
structure Fresh (tree : MemoTree L) (w : World (LeafCalls L) (Outside L σ)) : Prop where
  distinct : tree.executions.Nodup
  made : ∀ r ∈ tree.executions, w.heap.Made r
  unlocked : ∀ r ∈ tree.executions, r.lock ∉ w.locked
  idle : ∀ r ∈ tree.executions, w.heap.get r = none

variable {w w₁ w' : World (LeafCalls L) (Outside L σ)} {pause : Option Pause}

theorem kept_none : Kept tree none w ↔ tree.Fresh w := by
  constructor
  · rintro ⟨records, hready, hholds⟩
    cases hholds with
    | fresh hnone => exact ⟨hready.distinct, hready.made, hready.unlocked, hnone⟩
  · intro hfresh
    exact ⟨[], ⟨hfresh.unlocked, hfresh.made, hfresh.distinct, by simp, .nil⟩, .fresh hfresh.idle⟩

/-- A tick by any thread ends, as `tick` says and in no other way. -/
theorem Kept.tick (hkept : Kept tree pause w) {r : TickResult} {pause' : Option Pause}
    (htick : tree.tick play pause w.outside = (r, pause', o')) :
    ∃ w', w'.outside = o' ∧ Kept tree pause' w' ∧ ∀ id origin outcome w₁,
      tree.Ends play id origin w outcome w₁ ↔ outcome = .returned r ∧ w₁ = w' := by
  obtain ⟨records, hready, hholds⟩ := hkept
  obtain ⟨h', records', heval, hholds', hgrown⟩ :=
    @evaluates_tick L σ play default (fun _ _ _ _ => False) tree _ _ _ _ _ _ _ _ hready hholds htick
  have hready' : Ready tree.executions records' h' w.locked :=
    ⟨hready.unlocked, fun r hr => hgrown.touches.made (hready.made r hr), hready.distinct,
      hgrown.made, hgrown.distinct⟩
  refine ⟨⟨h', w.locked, o'⟩, rfl, ⟨records', hready', hholds'⟩, ?_⟩
  unfold Ends
  rw [call_node]
  exact Thread.ends_iff_of_evaluates (fun _ _ _ _ _ _ hjoin => hjoin.elim)
    (fun _ w held r => by cases r <;> rfl) heval

/-- Ticks of the tree, by whatever threads, that all answer running; the calls of
each. -/
inductive Polls (play : L → σ → TickResult × σ) (tree : MemoTree L) :
    World (LeafCalls L) (Outside L σ) → List (List (L × TickResult)) →
      World (LeafCalls L) (Outside L σ) → Prop
  | none {w : World (LeafCalls L) (Outside L σ)} : Polls play tree w [] w
  | running {id : Nat} {origin : Origin} {w w₁ w' : World (LeafCalls L) (Outside L σ)}
      {calls : List (L × TickResult)} {chunks} :
      tree.Ends play id origin w (.returned (.ok .running)) w₁ →
      w₁.outside.calls = w.outside.calls ++ calls → Polls play tree w₁ chunks w' →
      Polls play tree w (calls :: chunks) w'

/-- What is left of the run after some ticks. -/
theorem Polls.kept {chunks : List (List (L × TickResult))} (hpolls : Polls play tree w chunks w')
    (hkept : Kept tree pause w) :
    ∃ pause', Kept tree pause' w' ∧
      (∀ r o, tree.Rest play pause w.outside r o ↔ tree.Rest play pause' w'.outside r o) ∧
      (∀ calls ∈ chunks, Chunk (.ok .running) calls) ∧
      w'.outside.calls = w.outside.calls ++ chunks.flatten := by
  induction hpolls generalizing pause with
  | none => exact ⟨pause, hkept, fun _ _ => Iff.rfl, by simp, by simp⟩
  | @running id origin w w₁ w' calls chunks hends hcalls _ ih =>
    rcases htick : tree.tick play pause w.outside with ⟨r, pause₁, o₁⟩
    obtain ⟨w₂, rfl, hkept₁, hiff⟩ := hkept.tick htick
    obtain ⟨hr, rfl⟩ := (hiff ..).mp hends
    cases hr
    have hadvances := rest_tick tree pause w.outside htick
    obtain ⟨calls', hcalls', hchunk⟩ := chunk_tick tree pause w.outside htick
    obtain rfl : calls' = calls := List.append_cancel_left (hcalls'.symm.trans hcalls)
    obtain ⟨pause', hkept', hrest, hchunks, hflat⟩ := ih hkept₁
    refine ⟨pause', hkept', fun r o => ?_, ?_, ?_⟩
    · cases pause₁ with
      | none => cases hadvances.1
      | some p => exact (hadvances.2 r o).trans (hrest r o)
    · exact List.forall_mem_cons.mpr ⟨hchunk, hchunks⟩
    · rw [hflat, hcalls, List.flatten_cons, List.append_assoc]

/-- If what is left of the run comes to an end, so do the ticks, with its answer. -/
theorem Kept.polls_of_rest {r : TickResult} {n : Nat} (hkept : Kept tree pause w)
    (hrest : tree.Rest play pause w.outside r o')
    (hcalls : o'.calls.length < w.outside.calls.length + n) :
    ∃ chunks w₁ w', Polls play tree w chunks w₁ ∧
      (∀ id origin, tree.Ends play id origin w₁ (.returned r) w') ∧ r.isRunning = false ∧
      w'.outside = o' := by
  induction n generalizing pause w with
  | zero =>
    have hle := rest_calls tree pause hrest
    omega
  | succ n ih =>
    rcases htick : tree.tick play pause w.outside with ⟨r₁, pause₁, o₁⟩
    obtain ⟨w₁, rfl, hkept₁, hiff⟩ := hkept.tick htick
    have hadvances := rest_tick tree pause w.outside htick
    cases pause₁ with
    | none =>
      obtain ⟨hover, hall⟩ := hadvances
      obtain ⟨rfl, rfl⟩ := (hall r o').mp hrest
      exact ⟨[], w, w₁, .none, fun id origin => (hiff ..).mpr ⟨rfl, rfl⟩, hover, rfl⟩
    | some p =>
      obtain ⟨rfl, hleft⟩ := hadvances
      obtain ⟨calls, hchunk, hrunning⟩ := chunk_tick tree pause w.outside htick
      have hlength : w₁.outside.calls.length = w.outside.calls.length + calls.length := by
        rw [hchunk, List.length_append]
      have hpos : 0 < calls.length := List.length_pos_iff.mpr hrunning.ne_nil
      obtain ⟨chunks, w₂, w', hpolls, hends, hover, rfl⟩ :=
        ih hkept₁ ((hleft r o').mp hrest) (by omega)
      have hfirst : tree.Ends play 0 default w (.returned (.ok .running)) w₁ :=
        (hiff ..).mpr ⟨rfl, rfl⟩
      exact ⟨calls :: chunks, w₂, w', .running hfirst hchunk hpolls, hends, hover, rfl⟩

/-- A tick that answers anything but running does all that is left of the run. -/
theorem Kept.ended (hkept : Kept tree pause w) {r : TickResult} {id : Nat} {origin : Origin}
    (hends : tree.Ends play id origin w (.returned r) w') (hover : r.isRunning = false) :
    (∀ r' o, tree.Rest play pause w.outside r' o ↔ r' = r ∧ o = w'.outside) ∧
      (∃ calls, w'.outside.calls = w.outside.calls ++ calls ∧
        ∀ call ∈ calls, call.2.isRunning = false) ∧
      tree.Fresh w' := by
  rcases htick : tree.tick play pause w.outside with ⟨r₁, pause₁, o₁⟩
  obtain ⟨w₁, rfl, hkept₁, hiff⟩ := hkept.tick htick
  obtain ⟨hr, rfl⟩ := (hiff ..).mp hends
  cases hr
  have hadvances := rest_tick tree pause w.outside htick
  obtain ⟨calls, hcalls, hchunk⟩ := chunk_tick tree pause w.outside htick
  cases pause₁ with
  | some p =>
    rw [hadvances.1] at hover
    cases hover
  | none => exact ⟨hadvances.2, ⟨calls, hcalls, (chunk_of_not_running hover).mp hchunk⟩,
      kept_none.mp hkept₁⟩

/-- **Polling a memorized tree is running it through.** From a fresh tree, and
whatever its leaves do:

* after any ticks that answered running, the next tick by any thread ends, and
  in one way only;
* there are ticks that answered running and then one that answers otherwise
  exactly where the run through comes to an end, with its answer and its calls;
* each tick that answered running ends with its one running call, the last tick
  has none, and together they make the calls there are;
* the last tick leaves the tree fresh. -/
theorem polls_as_run (play : L → σ → TickResult × σ) (tree : MemoTree L)
    (w : World (LeafCalls L) (Outside L σ)) (hfresh : tree.Fresh w) :
    (∀ chunks w₁, Polls play tree w chunks w₁ → ∃ r w₂, ∀ id origin outcome w',
      tree.Ends play id origin w₁ outcome w' ↔ outcome = .returned r ∧ w' = w₂) ∧
    (∀ r o', tree.Blocks play w.outside r o' ↔ ∃ chunks w₁ w' id origin,
      Polls play tree w chunks w₁ ∧ tree.Ends play id origin w₁ (.returned r) w' ∧
      r.isRunning = false ∧ w'.outside = o') ∧
    (∀ chunks w₁ w' id origin r, Polls play tree w chunks w₁ →
      tree.Ends play id origin w₁ (.returned r) w' → r.isRunning = false →
      (∀ calls ∈ chunks, Chunk (.ok .running) calls) ∧
      (∃ last, w'.outside.calls = w.outside.calls ++ chunks.flatten ++ last ∧
        ∀ call ∈ last, call.2.isRunning = false) ∧
      tree.Fresh w') := by
  have hkept : Kept tree none w := kept_none.mpr hfresh
  have hrun : tree.Rest play none = tree.Blocks play := rest_none tree
  refine ⟨fun chunks w₁ hpolls => ?_, fun r o' => ⟨fun hblocks => ?_, ?_⟩, ?_⟩
  · obtain ⟨pause, hkept₁, -⟩ := hpolls.kept hkept
    rcases htick : tree.tick play pause w₁.outside with ⟨r, pause', o'⟩
    obtain ⟨w₂, -, -, hiff⟩ := hkept₁.tick htick
    exact ⟨r, w₂, hiff⟩
  · rw [← hrun] at hblocks
    have hcalls : o'.calls.length < w.outside.calls.length + (o'.calls.length + 1) := by omega
    obtain ⟨chunks, w₁, w', hpolls, hends, hover, ho⟩ := hkept.polls_of_rest hblocks hcalls
    exact ⟨chunks, w₁, w', 0, default, hpolls, hends 0 default, hover, ho⟩
  · rintro ⟨chunks, w₁, w', id, origin, hpolls, hends, hover, rfl⟩
    obtain ⟨pause, hkept₁, hrest, -⟩ := hpolls.kept hkept
    rw [← hrun, hrest]
    exact ((hkept₁.ended hends hover).1 ..).mpr ⟨rfl, rfl⟩
  · intro chunks w₁ w' id origin r hpolls hends hover
    obtain ⟨pause, hkept₁, -, hchunks, hflat⟩ := hpolls.kept hkept
    obtain ⟨-, ⟨last, hlast, hnone⟩, hfresh'⟩ := hkept₁.ended hends hover
    refine ⟨hchunks, ⟨last, ?_, hnone⟩, hfresh'⟩
    rw [hlast, hflat]

/-- Two leaves that wait once each, in a selector in a sequence. -/
def twoWaits : MemoTree Nat :=
  inner .sequence ⟨0⟩ [leaf 0, inner .selector ⟨1⟩ [leaf 1]]

theorem polls_as_run_twoWaits :
    let play : Nat → Nat → TickResult × Nat := fun l n =>
      if l = n then (.ok .running, n + 1) else (.ok .success, n)
    let w : World (LeafCalls Nat) (Outside Nat Nat) :=
      ⟨((Heap.empty.alloc .execution).2.alloc .execution).2, [], ⟨0, []⟩⟩
    ∃ chunks w₁ w' id origin, Polls play twoWaits w chunks w₁ ∧
      twoWaits.Ends play id origin w₁ (.returned (.ok .success)) w' ∧
      TickResult.isRunning (.ok .success) = false ∧
      w'.outside =
        ⟨2, [(0, .ok .running), (0, .ok .success), (1, .ok .running), (1, .ok .success)]⟩ := by
  intro play w
  have hfresh : twoWaits.Fresh w :=
    { distinct := by decide
      made := by simp [twoWaits, executions, executionsOf, Heap.Made, w, Heap.alloc, Heap.table,
        Heap.setTable, Heap.empty]
      unlocked := fun _ _ => List.not_mem_nil
      idle := by
        intro r _
        simp only [w, Heap.get_alloc]
        rfl }
  refine ((polls_as_run play twoWaits w hfresh).2.1 ..).mp ?_
  refine ⟨.ok .success, _, .again rfl (.settled rfl rfl), ?_⟩
  refine ⟨.ok .success, _, ⟨.ok .success, _, .again rfl (.settled rfl rfl), rfl, rfl⟩, rfl, rfl⟩

end MemoTree

end TickTree
