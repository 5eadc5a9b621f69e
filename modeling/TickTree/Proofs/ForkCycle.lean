/-
# The cycles of a fork

The calls of a fork make cycles. A cycle begins with the call that follows one
which did not answer running, and goes over the children of that call. In each
round of it exactly the children are ticked that reported running in every round
before, each once (`mem_due`). The call answers running if one of them does. Else
the cycle is over, and its result is the join of all its errors, round by round
and in each round as they arrived, with one more for a round in which a child
died; if there is no error, it is failure if a child failed, and else success
(`cycle_law`).

Children are known by their numbers in the first call, since one node may be
passed twice. What the fork keeps between calls is then a function of the calls
of the cycle under way (`progress`), and one call takes it from there to the same
function of one call more (`Follows.step`).

The nodes that a call ticks in parallel are carried out by other threads. All
that is said of these is that each reports at most once, in any order, and that
they leave the cell of the fork and its lock alone (`joins`); the world takes a
note of the nodes and of the reports. On the machine reports arrive like that
(`Machine.TicksAll`), and a call that has taken the lock comes to its round there
(`Fork.runs_lone`).

Key definitions: `Fork.Call`, `Fork.due`, `Fork.verdict`, `Fork.cycle`,
`Fork.Calls`, `Fork.Lawful`, `Fork.Gives`.
Key theorems: `Fork.mem_due`, `Fork.run_iff`, `Fork.cycle_law`.
-/
import TickTree.Proofs.Constituents
import TickTree.Proofs.Execution
import TickTree.Proofs.Joining
import Mathlib.Data.List.DropRight

namespace TickTree

variable {I : Interface}

/-- The error of a result that is one. -/
def TickResult.error? : TickResult → Option TickError
  | .error e => some e
  | .ok _ => none

namespace Fork

/-! ### What there is to see of a call -/

/-- Nodes ticked in parallel, and their reports as they arrived. -/
structure Note (I : Interface) where
  ticked : List (Node I)
  reports : List Report

/-- The errors of a round: those reported, as they arrived, and one more if a
node died. -/
def Note.errors (note : Note I) : List TickError :=
  note.reports.filterMap (·.result.error?) ++
    if note.reports.length < note.ticked.length then [.forkChildLost] else []

/-- A call of a fork: the children passed, the nodes ticked, and its end. -/
structure Call (I : Interface) where
  children : List (Node I)
  notes : List (Note I)
  outcome : Outcome

namespace Call

/-- Did the call answer running? -/
def isRunning (call : Call I) : Bool :=
  match call.outcome with
  | .returned result => result.isRunning
  | .panicked _ => false

def reports (call : Call I) : List Report := call.notes.flatMap (·.reports)

def errors (call : Call I) : List TickError := call.notes.flatMap (·.errors)

/-- Did a child report failure? -/
def failed (call : Call I) : Bool :=
  call.reports.any fun report => report.result matches .ok .failure

/-- Did a child report running? -/
def goesOn (call : Call I) : Bool := call.reports.any (·.result.isRunning)

end Call

/-- The children with these numbers. -/
def pick (children : List (Node I)) (due : List Nat) : List (Node I) :=
  due.filterMap (children[·]?)

/-- Reports of the children with the numbers `due`, by child. -/
def byChild (due : List Nat) (reports : List Report) : List (Nat × TickResult) :=
  reports.filterMap fun report => due[report.position]?.map (·, report.result)

/-- The children that reported running. -/
def waiting (round : List (Nat × TickResult)) : List Nat :=
  (round.filter (·.2.isRunning)).map (·.1)

/-- Of `n` children, those due after these calls of a cycle: those that reported
running in the last of them, in the order of their reports. -/
def due (n : Nat) (cycle : List (Call I)) : List Nat :=
  cycle.foldl (fun due call => waiting (byChild due call.reports)) (List.range n)

/-- The result of a cycle that has come to its end with the last of these calls. -/
def verdict (cycle : List (Call I)) : TickResult :=
  match TickError.joinAll (cycle.flatMap (·.errors)) with
  | some e => .error e
  | none => .ok (if cycle.any (·.failed) then .failure else .success)

/-- The calls of the cycle under way: those since the last that did not answer
running. -/
def cycle (calls : List (Call I)) : List (Call I) := calls.rtakeWhile (·.isRunning)

/-- The children of a cycle: those of its first call, which is the next one if
there was none. -/
def fixed (cycle : List (Call I)) (children : List (Node I)) : List (Node I) :=
  match cycle with
  | [] => children
  | first :: _ => first.children

/-! ### The numbers of the children -/

theorem due_snoc (n : Nat) (cycle : List (Call I)) (call : Call I) :
    due n (cycle ++ [call]) = waiting (byChild (due n cycle) call.reports) := by
  simp [due]

theorem fixed_snoc (cycle : List (Call I)) (call : Call I) (children : List (Node I)) :
    fixed (cycle ++ [call]) children = fixed cycle call.children := by
  cases cycle <;> rfl

theorem mem_byChild {due : List Nat} {reports : List Report} {child : Nat} {result : TickResult} :
    (child, result) ∈ byChild due reports ↔
      ∃ report ∈ reports, due[report.position]? = some child ∧ report.result = result := by
  simp only [byChild, List.mem_filterMap, Option.map_eq_some_iff, Prod.mk.injEq]
  constructor
  · rintro ⟨report, hmem, _, hchild, rfl, hresult⟩
    exact ⟨report, hmem, hchild, hresult⟩
  · rintro ⟨report, hmem, hchild, hresult⟩
    exact ⟨report, hmem, child, hchild, rfl, hresult⟩

theorem mem_waiting {round : List (Nat × TickResult)} {child : Nat} :
    child ∈ waiting round ↔ (child, .ok .running) ∈ round := by
  simp only [waiting, List.mem_map, List.mem_filter, Prod.exists, exists_and_right, exists_eq_right]
  constructor
  · rintro ⟨result, hmem, hrunning⟩
    rw [TickResult.isRunning_iff.mp hrunning] at hmem
    exact hmem
  · exact fun hmem => ⟨_, hmem, rfl⟩

/-- **The children due** are those that have reported running in every round of
the cycle. -/
theorem mem_due {n : Nat} {cycle : List (Call I)} {child : Nat} :
    child ∈ due n cycle ↔ child < n ∧ ∀ before call after, cycle = before ++ call :: after →
      (child, .ok .running) ∈ byChild (due n before) call.reports := by
  induction cycle using List.reverseRecOn with
  | nil => simp [due]
  | append_singleton cycle last ih =>
    rw [due_snoc, mem_waiting]
    constructor
    · intro hmem
      obtain ⟨report, -, hchild, -⟩ := mem_byChild.mp hmem
      obtain ⟨hlt, hall⟩ := ih.mp (List.mem_of_getElem? hchild)
      refine ⟨hlt, fun before call after heq => ?_⟩
      rcases List.eq_nil_or_concat after with rfl | ⟨after, last', rfl⟩
      · obtain ⟨rfl, hlast⟩ := List.append_inj' heq rfl
        obtain rfl : last = call := List.singleton_inj.mp hlast
        exact hmem
      · rw [List.concat_eq_append, ← List.cons_append, ← List.append_assoc] at heq
        exact hall before call after (List.append_inj' heq rfl).1
    · exact fun ⟨_, hall⟩ => hall cycle last [] rfl

theorem lt_of_mem_due {n : Nat} {cycle : List (Call I)} : ∀ child ∈ due n cycle, child < n :=
  fun _ hmem => (mem_due.mp hmem).1

/-- A child reports at most once. -/
theorem nodup_waiting {due : List Nat} {reports : List Report} (hdue : due.Nodup)
    (harrive : Arrivals due.length reports) : (waiting (byChild due reports)).Nodup := by
  have hnumbers : (byChild due reports).map (·.1) =
      (reports.map (·.position)).filterMap (due[·]?) := by
    unfold byChild
    rw [List.map_filterMap, List.filterMap_map]
    congr 1
    funext report
    rw [Option.map_map]
    exact Option.map_id'
  have hinj : ∀ p p' child : Nat, child ∈ due[p]? → child ∈ due[p']? → p = p' := by
    intro p p' child hp hp'
    have hlt : p < due.length := (List.getElem?_eq_some_iff.mp hp).1
    exact (List.getElem?_inj hlt hdue).mp (hp.trans hp'.symm)
  have hsub : (waiting (byChild due reports)).Sublist ((byChild due reports).map (·.1)) :=
    List.filter_sublist.map _
  rw [hnumbers] at hsub
  exact (List.Nodup.filterMap hinj harrive.once).sublist hsub

variable {children : List (Node I)} {numbers : List Nat}

theorem map_some_pick (hlt : ∀ child ∈ numbers, child < children.length) :
    (pick children numbers).map some = numbers.map (children[·]?) := by
  induction numbers with
  | nil => rfl
  | cons child numbers ih =>
    obtain ⟨node, hchild⟩ : ∃ node, children[child]? = some node :=
      ⟨_, List.getElem?_eq_getElem (hlt child List.mem_cons_self)⟩
    have ih := ih fun child hmem => hlt child (List.mem_cons_of_mem _ hmem)
    unfold pick at ih ⊢
    rw [List.filterMap_cons_some hchild, List.map_cons, List.map_cons, ih, hchild]

theorem length_pick (hlt : ∀ child ∈ numbers, child < children.length) :
    (pick children numbers).length = numbers.length := by
  have hlength := congrArg List.length (map_some_pick hlt)
  rwa [List.length_map, List.length_map] at hlength

theorem getElem?_pick (hlt : ∀ child ∈ numbers, child < children.length) (p : Nat) :
    (pick children numbers)[p]? = numbers[p]?.bind (children[·]?) := by
  have hget := congrArg (·[p]?) (map_some_pick hlt)
  simp only [List.getElem?_map] at hget
  cases hpick : (pick children numbers)[p]? <;> cases hnumber : numbers[p]? <;>
    simp_all

theorem pick_range (children : List (Node I)) :
    pick children (List.range children.length) = children := by
  have hlt : ∀ child ∈ List.range children.length, child < children.length :=
    fun _ => List.mem_range.mp
  refine List.ext_getElem? fun p => ?_
  rw [getElem?_pick hlt]
  by_cases hp : p < children.length
  · rw [List.getElem?_range hp]
    rfl
  · rw [List.getElem?_eq_none (by simpa using hp), List.getElem?_eq_none (by simpa using hp)]
    rfl

/-! ### A cycle under way -/

/-- What a fork keeps of a cycle over these children: the children due, and what
their errors and failures have come to. -/
def underWay (children : List (Node I)) (numbers : List Nat) (errors : List TickError)
    (failed : Bool) : Round I where
  remaining := pick children numbers
  status := some (if failed || !errors.isEmpty then .failure else .success)
  error := TickError.joinAll errors

variable {errors : List TickError} {failed : Bool}

theorem begin_between (children : List (Node I)) :
    Round.between.begin children = underWay children (List.range children.length) [] false := by
  unfold underWay
  rw [pick_range]
  rfl

theorem begin_underWay (children' : List (Node I)) :
    (underWay children numbers errors failed).begin children' =
      underWay children numbers errors failed := rfl

theorem fail_underWay (e : TickError) :
    (underWay children numbers errors failed).fail e =
      underWay children numbers (errors ++ [e]) failed := by
  unfold underWay Round.fail
  rw [TickError.joinAll_snoc]
  simp

theorem receive_underWay {node : Node I} {child : Nat} (hchild : children[child]? = some node)
    (result : TickResult) :
    (underWay children numbers errors failed).receive node result =
      underWay children (numbers ++ if result.isRunning then [child] else [])
        (errors ++ result.error?.toList) (failed || result matches .ok .failure) := by
  cases result with
  | error e =>
    show Round.fail _ e = _
    rw [fail_underWay]
    simp [TickResult.isRunning, TickResult.error?]
  | ok s =>
    cases s with
    | running =>
      unfold underWay Round.receive
      simp [pick, TickResult.isRunning, TickResult.error?, Status.isRunning, hchild]
    | success =>
      show underWay children numbers errors failed = _
      simp [TickResult.isRunning, TickResult.error?, Status.isRunning]
    | failure =>
      unfold underWay Round.receive
      simp [TickResult.isRunning, TickResult.error?, Status.isRunning]

theorem waiting_cons {due : List Nat} {child : Nat} {report : Report} {reports : List Report}
    (hchild : due[report.position]? = some child) :
    waiting (byChild due (report :: reports)) =
      (if report.result.isRunning then [child] else []) ++ waiting (byChild due reports) := by
  unfold byChild waiting
  simp only [List.filterMap_cons, hchild, Option.map_some, List.filter_cons]
  split <;> rfl

/-- No child of a round goes on if none of its reports is running. -/
theorem waiting_eq_nil {due : List Nat} {reports : List Report}
    (hknown : ∀ report ∈ reports, report.position < due.length) :
    waiting (byChild due reports) = [] ↔ reports.any (·.result.isRunning) = false := by
  induction reports with
  | nil => simp [waiting, byChild]
  | cons report reports ih =>
    have hchild := List.getElem?_eq_getElem (hknown report List.mem_cons_self)
    have ih := ih fun report hmem => hknown report (List.mem_cons_of_mem _ hmem)
    rw [waiting_cons hchild, List.append_eq_nil_iff, ih, List.any_cons, Bool.or_eq_false_iff]
    cases report.result.isRunning <;> simp

/-- The reports of a round, one after another. -/
theorem foldl_receive {due : List Nat} (hlt : ∀ child ∈ due, child < children.length)
    {reports : List Report} (hknown : ∀ report ∈ reports, report.position < due.length) :
    reports.foldl (Round.take (pick children due)) (underWay children numbers errors failed) =
      underWay children (numbers ++ waiting (byChild due reports))
        (errors ++ reports.filterMap (·.result.error?))
        (failed || reports.any fun report => report.result matches .ok .failure) := by
  induction reports generalizing numbers errors failed with
  | nil => simp [waiting, byChild]
  | cons report reports ih =>
    obtain ⟨child, hposition⟩ : ∃ child, due[report.position]? = some child :=
      ⟨_, List.getElem?_eq_getElem (hknown report List.mem_cons_self)⟩
    obtain ⟨node, hchild⟩ : ∃ node, children[child]? = some node :=
      ⟨_, List.getElem?_eq_getElem (hlt child (List.mem_of_getElem? hposition))⟩
    have htake (r : Round I) :
        Round.take (pick children due) r report = r.receive node report.result := by
      unfold Round.take
      rw [getElem?_pick hlt, hposition, Option.bind_some, hchild]
    have hrest : ∀ report ∈ reports, report.position < due.length :=
      fun report hmem => hknown report (List.mem_cons_of_mem _ hmem)
    rw [List.foldl_cons, htake, receive_underWay hchild, ih hrest, waiting_cons hposition,
      List.append_assoc, List.append_assoc, List.any_cons, Bool.or_assoc]
    congr 2
    cases he : report.result.error? <;> simp [he]

/-- A round of the children due, with its reports. -/
theorem absorb_underWay {due : List Nat} (hlt : ∀ child ∈ due, child < children.length)
    {reports : List Report} (hknown : ∀ report ∈ reports, report.position < due.length) :
    (underWay children [] errors failed).absorb (pick children due) reports =
      underWay children (waiting (byChild due reports))
        (errors ++ (Note.errors ⟨pick children due, reports⟩))
        (failed || reports.any fun report => report.result matches .ok .failure) := by
  unfold Round.absorb Note.errors
  simp only [foldl_receive hlt hknown, List.nil_append]
  split
  · rw [fail_underWay, List.append_assoc]
  · rw [List.append_nil]

theorem verdict_underWay (hlt : ∀ child ∈ numbers, child < children.length) :
    (underWay children numbers errors failed).verdict =
      if numbers = [] then
        match TickError.joinAll errors with
        | some e => .error e
        | none => .ok (if failed then .failure else .success)
      else .ok .running := by
  have hempty : (pick children numbers).isEmpty = decide (numbers = []) := by
    rw [Bool.eq_iff_iff, List.isEmpty_iff_length_eq_zero, length_pick hlt, List.length_eq_zero_iff,
      decide_eq_true_iff]
  unfold underWay Round.verdict
  simp only [hempty, decide_eq_true_eq]
  split
  · cases hjoin : TickError.joinAll errors with
    | some e => rfl
    | none =>
      obtain rfl := TickError.joinAll_eq_none.mp hjoin
      simp
  · rfl

/-! ### One call -/

section
variable {σ : Type} {env : Environment I σ} {caller : Caller} {joins : Joins I σ} {ref : Ref .round}
  {heap : Heap I} {locked : List Lock} {outside : σ} {ending : Ending TickResult}
  {held' : List Lock} {w₁ w' : World I σ}

/-- The end of a call whose round has come to `ended`. -/
def closing (ref : Ref .round) (ended : Round I) : Prog I TickResult :=
  .request (.swap .round ref ended.next) fun _ => .request (.release .round ref) fun _ =>
    .pure ended.verdict

/-- The end of a call: what the fork keeps, and the lock given back. -/
theorem settles_iff {ended : Round I} :
    (closing ref ended).Evaluates env caller joins [ref.lock] w₁ ending held' w' ↔
      ending = .value ended.verdict ∧ held' = [] ∧
        w' = { w₁ with heap := w₁.heap.set ref ended.next }.unlock [ref.lock] := by
  have hheld : [ref.lock].filter (· != ref.lock) = [] := by simp
  unfold closing
  rw [Prog.Evaluates.serve_iff rfl, Prog.Evaluates.serve_iff rfl, Prog.Evaluates.pure_iff, hheld]

/-- The cycle while its nodes are being ticked. -/
def ticking (cycle : Round I) : Round I := { cycle with remaining := [] }

/-- A call takes the lock, plays a round if there is anybody to tick, and settles
what came of it. -/
theorem run_iff {children : List (Node I)} {cycle : Round I} (hfree : ref.lock ∉ locked)
    (hbegin : (heap.get ref : Round I).begin children = cycle) :
    (run ref children).Evaluates env caller joins [] ⟨heap, locked, outside⟩ ending held' w' ↔
      ∃ ended w₁,
        (if cycle.remaining = [] then
            ended = ticking cycle ∧ w₁ = ⟨heap.set ref (ticking cycle), ref.lock :: locked, outside⟩
          else ∃ reports,
            joins ⟨heap.set ref (ticking cycle), ref.lock :: locked, outside⟩ cycle.remaining reports
              w₁ ∧ ended = (ticking cycle).absorb cycle.remaining reports) ∧
        ending = .value ended.verdict ∧ held' = [] ∧
        w' = { w₁ with heap := w₁.heap.set ref ended.next }.unlock [ref.lock] := by
  subst hbegin
  unfold run
  refine (Prog.Evaluates.serve_iff (World.serve_acquire hfree)).trans ?_
  refine (Prog.Evaluates.serve_iff rfl).trans ((Prog.Evaluates.serve_iff rfl).trans ?_)
  by_cases hp : ((heap.get ref : Round I).begin children).remaining = []
  · rw [if_pos (List.isEmpty_iff.mpr hp)]
    simp only [hp, if_true]
    refine settles_iff.trans ?_
    constructor
    · exact fun hend => ⟨_, _, ⟨rfl, rfl⟩, hend⟩
    · rintro ⟨_, _, ⟨rfl, rfl⟩, hend⟩
      exact hend
  · rw [if_neg (by simpa using hp)]
    simp only [hp, if_false]
    refine Prog.Evaluates.parallel_iff.trans ?_
    constructor
    · rintro ⟨reports, w₁, hjoin, hend⟩
      exact ⟨_, w₁, ⟨reports, hjoin, rfl⟩, settles_iff.mp hend⟩
    · rintro ⟨_, w₁, ⟨reports, hjoin, rfl⟩, hend⟩
      exact ⟨reports, w₁, hjoin, settles_iff.mpr hend⟩

end

/-! ### Calls in a row -/

/-- What others do leaves the fork alone: its cell and its lock are its own. -/
structure Spares {σ : Type} (ref : Ref .round) (w w' : World I σ) : Prop where
  made : w.heap.Made ref → w'.heap.Made ref
  cell : w'.heap.get ref = w.heap.get ref
  lock : ref.lock ∈ w'.locked ↔ ref.lock ∈ w.locked

/-- What ticking nodes in parallel may do: reports arrive in some order, the
threads of the nodes spare the fork, and the world takes a note. -/
def joins (ref : Ref .round) : Joins I (List (Note I)) := fun w nodes reports w' =>
  Arrivals nodes.length reports ∧ Spares ref w w' ∧ w'.outside = w.outside ++ [⟨nodes, reports⟩]

/-- Calls of the fork in a row, by whatever threads, with any children; what
happens between two calls spares the fork. -/
inductive Calls (env : Environment I (List (Note I))) (ref : Ref .round)
    (w : World I (List (Note I))) : List (Call I) → World I (List (Note I)) → Prop
  | none : Calls env ref w [] w
  | next {calls call w₁ w₂ w₃} {id : Nat} {origin : Origin} :
      Calls env ref w calls w₁ → Spares ref w₁ w₂ → w₂.outside = w₁.outside →
      Thread.Ends env (joins ref) id origin ((Tick.fork ref).run call.children) w₂ call.outcome w₃ →
      w₃.outside = w₂.outside ++ call.notes → Calls env ref w (calls ++ [call]) w₃

/-- The cycle over these children after these calls of it. -/
def progress (children : List (Node I)) (cycle : List (Call I)) : Round I :=
  underWay children (due children.length cycle) (cycle.flatMap (·.errors)) (cycle.any (·.failed))

/-- What the world keeps of a fork after these calls. -/
structure Follows (ref : Ref .round) (calls : List (Call I)) (w : World I (List (Note I))) :
    Prop where
  made : w.heap.Made ref
  free : ref.lock ∉ w.locked
  begins : ∀ children, (w.heap.get ref : Round I).begin children =
    progress (fixed (cycle calls) children) (cycle calls)
  distinct : ∀ children : List (Node I),
    (due (fixed (cycle calls) children).length (cycle calls)).Nodup

/-- A call of a cycle over these children, after the calls `cycle` of it. The
children due are those that reported running in every round so far; they are
ticked, each once, and nobody else is. The call answers running if one of them
reports running, and else gives the verdict on the cycle. -/
structure Lawful (children : List (Node I)) (cycle : List (Call I)) (call : Call I) : Prop where
  mem_due : ∀ child, child ∈ due children.length cycle ↔ child < children.length ∧
    ∀ before earlier after, cycle = before ++ earlier :: after →
      (child, .ok .running) ∈ byChild (due children.length before) earlier.reports
  distinct : (due children.length cycle).Nodup
  notes : call.notes = if due children.length cycle = [] then []
    else [⟨pick children (due children.length cycle), call.reports⟩]
  arrive : Arrivals (due children.length cycle).length call.reports
  outcome : call.outcome =
    .returned (if call.goesOn then .ok .running else verdict (cycle ++ [call]))

variable {env : Environment I (List (Note I))} {ref : Ref .round}
  {w w' w₁ : World I (List (Note I))} {calls : List (Call I)} {call : Call I}

/-- Where a call of the cycle begins. -/
theorem Follows.spares (hfollows : Follows ref calls w) (hspares : Spares ref w w') :
    Follows ref calls w' where
  made := hspares.made hfollows.made
  free := fun hmem => hfollows.free (hspares.lock.mp hmem)
  begins := fun children => by
    rw [hspares.cell]
    exact hfollows.begins children
  distinct := hfollows.distinct

theorem progress_nil (children : List (Node I)) :
    progress children [] = Round.between.begin children := by
  rw [begin_between]
  rfl

theorem progress_snoc (children : List (Node I)) (cycle : List (Call I)) (call : Call I) :
    progress children (cycle ++ [call]) =
      underWay children (waiting (byChild (due children.length cycle) call.reports))
        (cycle.flatMap (·.errors) ++ call.errors) (cycle.any (·.failed) || call.failed) := by
  unfold progress
  rw [due_snoc, List.flatMap_append, List.flatMap_singleton, List.any_append]
  simp

theorem ticking_progress (children : List (Node I)) (cycle : List (Call I)) :
    ticking (progress children cycle) =
      underWay children [] (cycle.flatMap (·.errors)) (cycle.any (·.failed)) := rfl

theorem remaining_progress {children : List (Node I)} {cycle : List (Call I)} :
    (progress children cycle).remaining = [] ↔ due children.length cycle = [] := by
  show pick children (due children.length cycle) = [] ↔ _
  rw [← List.length_eq_zero_iff, length_pick lt_of_mem_due, List.length_eq_zero_iff]

theorem verdict_progress (children : List (Node I)) (cycle : List (Call I)) :
    (progress children cycle).verdict =
      if due children.length cycle = [] then verdict cycle else .ok .running :=
  verdict_underWay lt_of_mem_due

theorem isRunning_verdict (cycle : List (Call I)) : (verdict cycle).isRunning = false := by
  unfold verdict
  split
  · rfl
  · split <;> rfl

/-- A round has been played, or there was nobody to tick: what the world took
note of, and what has come of the cycle. -/
theorem played {children : List (Node I)} {cycle : List (Call I)} {call : Call I} {ended : Round I}
    {w₀ : World I (List (Note I))}
    (hround : if (progress children cycle).remaining = [] then
        ended = ticking (progress children cycle) ∧ w₁ = w₀
      else ∃ reports, joins ref w₀ (progress children cycle).remaining reports w₁ ∧ ended =
        (ticking (progress children cycle)).absorb (progress children cycle).remaining reports)
    (hnotes : w₁.outside = w₀.outside ++ call.notes) :
    Spares ref w₀ w₁ ∧ Arrivals (due children.length cycle).length call.reports ∧
      (call.notes = if due children.length cycle = [] then []
        else [⟨pick children (due children.length cycle), call.reports⟩]) ∧
      ended = progress children (cycle ++ [call]) := by
  have hpick : (progress children cycle).remaining = pick children (due children.length cycle) :=
    rfl
  have hlt := @lt_of_mem_due I children.length cycle
  rw [ticking_progress] at hround
  by_cases hdue : due children.length cycle = []
  · rw [if_pos (remaining_progress.mpr hdue)] at hround
    obtain ⟨rfl, rfl⟩ := hround
    have hnone : call.notes = [] :=
      List.append_cancel_left (hnotes.symm.trans (List.append_nil _).symm)
    have hreports : call.reports = [] := by rw [Call.reports, hnone, List.flatMap_nil]
    refine ⟨⟨id, rfl, Iff.rfl⟩, ?_, hnone.trans (if_pos hdue).symm, ?_⟩
    · rw [hreports]
      exact ⟨by simp, .nil⟩
    · rw [progress_snoc, hdue]
      simp [Call.errors, Call.failed, hnone, hreports, waiting, byChild]
  · rw [if_neg (mt remaining_progress.mp hdue), hpick] at hround
    obtain ⟨reports, ⟨harrive, hspares, hlog⟩, rfl⟩ := hround
    have hone : call.notes = [⟨pick children (due children.length cycle), reports⟩] :=
      List.append_cancel_left (hnotes.symm.trans hlog)
    have hreports : call.reports = reports := by
      rw [Call.reports, hone, List.flatMap_singleton]
    rw [length_pick hlt] at harrive
    refine ⟨hspares, hreports.symm ▸ harrive, by rw [hreports, hone, if_neg hdue], ?_⟩
    rw [absorb_underWay hlt harrive.known, progress_snoc, hreports]
    simp [Call.errors, Call.failed, hone, hreports]

/-- Some child is due after a call if one has reported running. -/
theorem due_snoc_eq_nil {n : Nat} {cycle : List (Call I)}
    (harrive : Arrivals (due n cycle).length call.reports) :
    due n (cycle ++ [call]) = [] ↔ call.goesOn = false := by
  rw [due_snoc]
  exact waiting_eq_nil harrive.known

/-- What a call answers. -/
theorem verdict_snoc {children : List (Node I)} {cycle : List (Call I)}
    (harrive : Arrivals (due children.length cycle).length call.reports) :
    (progress children (cycle ++ [call])).verdict =
      if call.goesOn then .ok .running else verdict (cycle ++ [call]) := by
  have hdue := due_snoc_eq_nil harrive
  rw [verdict_progress]
  by_cases hon : call.goesOn
  · rw [if_neg (by simp [hdue, hon]), if_pos hon]
  · rw [if_pos (hdue.mpr (by simpa using hon)), if_neg hon]

/-- Where the next call begins. -/
theorem begin_snoc {children children' : List (Node I)} {cycle : List (Call I)}
    (harrive : Arrivals (due children.length cycle).length call.reports) :
    (progress children (cycle ++ [call])).next.begin children' =
      if call.goesOn then progress children (cycle ++ [call]) else progress children' [] := by
  have hdue : (progress children (cycle ++ [call])).remaining = [] ↔ call.goesOn = false :=
    remaining_progress.trans (due_snoc_eq_nil harrive)
  unfold Round.next
  by_cases hon : call.goesOn
  · have hsome : (progress children (cycle ++ [call])).remaining ≠ [] := by simp [hdue, hon]
    rw [if_neg (by simpa using hsome), if_pos hon]
    exact begin_underWay children'
  · have hnone := hdue.mpr (by simpa using hon)
    rw [if_pos (List.isEmpty_iff.mpr hnone), if_neg hon, progress_nil]

/-- A call goes on with its cycle, or ends it. -/
theorem cycle_snoc {before : List (Call I)} (houtcome : call.outcome =
      .returned (if call.goesOn then .ok .running else verdict before)) :
    cycle (calls ++ [call]) = if call.goesOn then cycle calls ++ [call] else [] := by
  have hrunning : call.isRunning = call.goesOn := by
    unfold Call.isRunning
    rw [houtcome]
    by_cases hon : call.goesOn
    · simp [hon, TickResult.isRunning, Status.isRunning]
    · simp [hon, isRunning_verdict]
  unfold cycle
  rw [List.rtakeWhile_concat, hrunning]

/-- What comes of a call, after calls that have left the fork so. -/
theorem Follows.step (hfollows : Follows ref calls w) {id : Nat} {origin : Origin}
    (hends : Thread.Ends env (joins ref) id origin ((Tick.fork ref).run call.children) w
      call.outcome w')
    (hlog : w'.outside = w.outside ++ call.notes) :
    Lawful (fixed (cycle calls) call.children) (cycle calls) call ∧
      Follows ref (calls ++ [call]) w' := by
  obtain ⟨children, hchildren⟩ : ∃ children, children = fixed (cycle calls) call.children :=
    ⟨_, rfl⟩
  have hbegin := hfollows.begins call.children
  have hdistinct := hfollows.distinct call.children
  rw [← hchildren] at hbegin hdistinct ⊢
  obtain ⟨heap, locked, outside⟩ := w
  obtain ⟨ending, held, w₂, heval, houtcome, rfl⟩ := Thread.ends_iff.mp hends
  obtain ⟨ended, w₁, hround, rfl, rfl, rfl⟩ := (run_iff hfollows.free hbegin).mp heval
  obtain ⟨hspares, harrive, hnotes, rfl⟩ := played hround hlog
  have hanswer : call.outcome =
      .returned (if call.goesOn then .ok .running else verdict (cycle calls ++ [call])) :=
    houtcome.trans (congrArg Outcome.returned (verdict_snoc harrive))
  have hmade : w₁.heap.Made ref := hspares.made ((Heap.made_set _).mpr hfollows.made)
  have hcell : ((w₁.heap.set ref (progress children (cycle calls ++ [call])).next).get ref :
      Round I) = (progress children (cycle calls ++ [call])).next := Heap.get_set hmade _
  refine ⟨⟨fun _ => mem_due, hdistinct, hnotes, harrive, hanswer⟩, (Heap.made_set _).mpr hmade, ?_,
    fun children' => ?_, fun children' => ?_⟩
  · rw [World.unlock_nil]
    simp [World.unlock]
  · refine (congrArg (Round.begin · children') hcell).trans ?_
    rw [begin_snoc harrive, cycle_snoc hanswer]
    by_cases hon : call.goesOn
    · rw [if_pos hon, if_pos hon, fixed_snoc, hchildren]
    · rw [if_neg hon, if_neg hon]
      rfl
  · rw [cycle_snoc hanswer]
    by_cases hon : call.goesOn
    · rw [if_pos hon, fixed_snoc, ← hchildren, due_snoc]
      exact nodup_waiting hdistinct harrive
    · rw [if_neg hon]
      exact List.nodup_range

/-- A fork between two cycles. -/
theorem follows_nil (hmade : w.heap.Made ref) (hbetween : w.heap.get ref = Round.between)
    (hfree : ref.lock ∉ w.locked) : Follows ref [] w where
  made := hmade
  free := hfree
  begins := fun children => by
    rw [hbetween]
    exact (progress_nil children).symm
  distinct := fun _ => List.nodup_range

/-- What holds after calls in a row, and what held of each of them. -/
theorem Calls.follows (hcalls : Calls env ref w calls w') (hfollows : Follows ref [] w) :
    Follows ref calls w' ∧ ∀ before call after, calls = before ++ call :: after →
      Lawful (fixed (cycle before) call.children) (cycle before) call := by
  induction hcalls with
  | none => exact ⟨hfollows, fun before call after heq => by simp at heq⟩
  | @next calls call w₁ w₂ w₃ id origin _ hspares _ hends hlog ih =>
    obtain ⟨hfollows₁, hlaw⟩ := ih
    obtain ⟨hlawful, hfollows₃⟩ := (hfollows₁.spares hspares).step hends hlog
    refine ⟨hfollows₃, fun before earlier after heq => ?_⟩
    rcases List.eq_nil_or_concat after with rfl | ⟨after, last, rfl⟩
    · obtain ⟨rfl, hlast⟩ := List.append_inj' heq rfl
      obtain rfl : call = earlier := List.singleton_inj.mp hlast
      exact hlawful
    · rw [List.concat_eq_append, ← List.cons_append, ← List.append_assoc] at heq
      exact hlaw before earlier after (List.append_inj' heq rfl).1

/-- With nobody to tick, a call ends at once. -/
theorem ends_of_none {heap : Heap I} {locked : List Lock} {outside : List (Note I)}
    {children : List (Node I)} {cycle : Round I} (id : Nat) (origin : Origin)
    (hfree : ref.lock ∉ locked) (hbegin : (heap.get ref : Round I).begin children = cycle)
    (hnone : cycle.remaining = []) :
    Thread.Ends env (joins ref) id origin ((Tick.fork ref).run children) ⟨heap, locked, outside⟩
      (.returned (ticking cycle).verdict)
      ⟨(heap.set ref (ticking cycle)).set ref (ticking cycle).next, locked, outside⟩ := by
  refine Thread.ends_iff.mpr ⟨_, _, _, (run_iff hfree hbegin).mpr
    ⟨_, ⟨heap.set ref (ticking cycle), ref.lock :: locked, outside⟩, ?_, rfl, rfl, rfl⟩, rfl, ?_⟩
  · rw [if_pos hnone]
    exact ⟨rfl, rfl⟩
  · rw [World.unlock_nil]
    exact (World.unlock_cons hfree _ _).symm

/-- Else it ends with the last report, whatever the reports are. -/
theorem ends_of_arrivals {heap : Heap I} {locked : List Lock} {outside : List (Note I)}
    {children : List (Node I)} {cycle : Round I} {reports : List Report} (id : Nat) (origin : Origin)
    (hfree : ref.lock ∉ locked) (hbegin : (heap.get ref : Round I).begin children = cycle)
    (hsome : cycle.remaining ≠ []) (harrive : Arrivals cycle.remaining.length reports) :
    Thread.Ends env (joins ref) id origin ((Tick.fork ref).run children) ⟨heap, locked, outside⟩
      (.returned ((ticking cycle).absorb cycle.remaining reports).verdict)
      ⟨(heap.set ref (ticking cycle)).set ref ((ticking cycle).absorb cycle.remaining reports).next,
        locked, outside ++ [⟨cycle.remaining, reports⟩]⟩ := by
  refine Thread.ends_iff.mpr ⟨_, _, _, (run_iff hfree hbegin).mpr
    ⟨_, ⟨heap.set ref (ticking cycle), ref.lock :: locked, outside ++ [⟨cycle.remaining, reports⟩]⟩,
      ?_, rfl, rfl, rfl⟩, rfl, ?_⟩
  · rw [if_neg hsome]
    exact ⟨reports, ⟨harrive, ⟨fun hmade => hmade, rfl, Iff.rfl⟩, rfl⟩, rfl⟩
  · rw [World.unlock_nil]
    exact (World.unlock_cons hfree _ _).symm

/-- The next call ends, whatever its reports. -/
theorem Follows.ends (hfollows : Follows ref calls w) (id : Nat) (origin : Origin)
    (children : List (Node I)) {arrive : List (Node I) → List Report}
    (harrive : ∀ nodes, Arrivals nodes.length (arrive nodes)) :
    ∃ (call : Call I) (w' : World I (List (Note I))), call.children = children ∧
      Thread.Ends env (joins ref) id origin ((Tick.fork ref).run children) w call.outcome w' ∧
      w'.outside = w.outside ++ call.notes ∧
      ∀ note ∈ call.notes, note.reports = arrive note.ticked := by
  obtain ⟨heap, locked, outside⟩ := w
  obtain ⟨cycle, hbegin⟩ : ∃ cycle, (heap.get ref : Round I).begin children = cycle := ⟨_, rfl⟩
  by_cases hnone : cycle.remaining = []
  · exact ⟨⟨children, [], _⟩, _, rfl, ends_of_none id origin hfollows.free hbegin hnone,
      (List.append_nil _).symm, by simp⟩
  · exact ⟨⟨children, [⟨cycle.remaining, arrive cycle.remaining⟩], _⟩, _, rfl,
      ends_of_arrivals id origin hfollows.free hbegin hnone (harrive cycle.remaining), rfl, by simp⟩

/-! ### On the machine -/

section
variable {σ : Type}

/-- What a call does in a round of the cycle, and then. -/
def playing (ref : Ref .round) (cycle : Round I) : Prog I TickResult :=
  if cycle.remaining.isEmpty then closing ref (ticking cycle)
  else .request (.parallel cycle.remaining) fun reports =>
    closing ref ((ticking cycle).absorb cycle.remaining reports)

theorem run_eq (ref : Ref .round) (children : List (Node I)) : run ref children =
    .request (.acquire .round ref) fun _ => .request (.read .round ref) fun (r : Round I) =>
      .request (.swap .round ref (ticking (r.begin children))) fun _ =>
        playing ref (r.begin children) := rfl

/-- A machine with one thread, which is in a call of a fork and has its lock: what the fork
keeps, and how the call goes on. -/
def lone (kept : Round I) (p : Prog I TickResult) (outside : σ) : Machine I σ :=
  ⟨[⟨⟨0, .outside 0⟩, .running p, [(⟨0⟩ : Ref .round).lock], []⟩], 1,
    ⟨{ Heap.empty with rounds := #[kept] }, [(⟨0⟩ : Ref .round).lock], outside⟩⟩

/-- Whatever a fork keeps, a machine is reached on which it is called and comes to its
round. -/
theorem runs_lone {env : Environment I σ} (kept : Round I) (children : List (Node I))
    (outside : σ) : Machine.Runs env (fun _ => False) (.empty outside)
      (lone (ticking (kept.begin children)) (playing ⟨0⟩ (kept.begin children)) outside) := by
  let ref : Ref .round := ⟨0⟩
  let w : World I σ := ⟨{ Heap.empty with rounds := #[kept] }, [], outside⟩
  have hcall : (Node.of (.fork ref) children : Node I).call = run ref children := rfl
  have hswap : Machine.Runs env (fun _ => False)
      (lone kept (.request (.swap .round ref (ticking (kept.begin children))) fun _ =>
        playing ref (kept.begin children)) outside)
      (lone (ticking (kept.begin children)) (playing ref (kept.begin children)) outside) :=
    .move (.thread (.head _) rfl) (fun _ _ => id) .refl
  have hread : Machine.Runs env (fun _ => False)
      (lone kept (.request (.read .round ref) fun (r : Round I) =>
        .request (.swap .round ref (ticking (r.begin children))) fun _ =>
          playing ref (r.begin children)) outside) _ :=
    .move (.thread (.head _) rfl) (fun _ _ => id) hswap
  refine .move (.world w) nofun (.move (.spawn 0 (Node.of (.fork ref) children).call) nofun ?_)
  rw [hcall, run_eq]
  exact .move (.thread (.head _) rfl) (fun _ _ => id) hread

/-- Nodes that a thread ticks in parallel on a machine, on which the world is `outside` at
first, give these reports in the end, in this order. -/
def Gives (env : Environment I σ) (outside : σ) (nodes : List (Node I)) (reports : List Report) :
    Prop :=
  ∃ m m₁ m₂ t next, Machine.Runs env (fun _ => False) (.empty outside) m ∧ t ∈ m.threads ∧
    t.activity = .running (.request (.parallel nodes) next) ∧ m.stepThread env t = some m₁ ∧
    Machine.Runs env (· = t.id) m₁ m₂ ∧
    ∃ u ∈ m₂.threads, u.toCaller = t.toCaller ∧ u.activity = .joining 0 reports next

end

/-! ### A fork that loses a child -/

namespace Losing

/-- The world tells whether it has taken no note yet. -/
abbrev Asks : Interface := ⟨Unit, fun _ => Bool⟩

def notebook : Environment Asks (List (Note Asks)) :=
  ⟨fun _ _ notes => some (notes.isEmpty, notes), fun _ _ notes => notes⟩

def fails : Node Asks := .leaf (.const (.ok .failure))

/-- It goes on in the first round and panics in the next. -/
def dies : Node Asks :=
  .leaf (.custom fun _ => .ask () fun fresh =>
    if fresh then .finish (.ok .running) else .panic .other)

/-- Of two children the second reports first, and goes on; the first fails. -/
def first : Call Asks :=
  ⟨[fails, dies], [⟨[fails, dies], [⟨1, .ok .running⟩, ⟨0, .ok .failure⟩]⟩],
    .returned (.ok .running)⟩

/-- The child that is left dies. -/
def second : Call Asks := ⟨[fails], [⟨[dies], []⟩], .returned (.error .forkChildLost)⟩

/-- What the fork keeps between the two calls. -/
def kept : Round Asks := ⟨[dies], some .failure, none⟩

/-- A fork that has just been made. -/
def world : World Asks (List (Note Asks)) := ⟨(Heap.empty.alloc .round).2, [], []⟩

theorem fresh : world.Fresh (⟨0⟩ : Ref .round) := ⟨Nat.zero_lt_one, List.not_mem_nil, rfl⟩

theorem called_twice : ∃ w', Calls notebook ⟨0⟩ world [first, second] w' := by
  let ref : Ref .round := ⟨0⟩
  let opened : Round Asks := ⟨[fails, dies], some .success, none⟩
  let heap : Heap Asks := (world.heap.set ref (ticking opened)).set ref kept
  have hends₁ : Thread.Ends notebook (joins ref) 0 default ((Tick.fork ref).run [fails, dies]) world
      first.outcome ⟨heap, [], first.notes⟩ :=
    @ends_of_arrivals _ notebook ref world.heap [] [] [fails, dies] opened
      [⟨1, .ok .running⟩, ⟨0, .ok .failure⟩] 0 default List.not_mem_nil rfl (List.cons_ne_nil _ _)
      ⟨by decide, by decide⟩
  have hends₂ := @ends_of_arrivals _ notebook ref heap [] first.notes [fails] kept [] 1 default
    List.not_mem_nil rfl (List.cons_ne_nil _ _) ⟨by decide, by decide⟩
  have hspares : ∀ w : World Asks (List (Note Asks)), Spares ref w w :=
    fun w => ⟨fun hmade => hmade, rfl, Iff.rfl⟩
  exact ⟨_, .next (.next .none (hspares _) rfl hends₁ rfl) (hspares _) rfl hends₂ rfl⟩

/-- The thread of a call that waits for nodes and has got these reports. -/
def caller (cycle : Round Asks) (pending : Nat) (reports : List Report) : Thread Asks :=
  ⟨⟨0, .outside 0⟩, .joining pending reports fun reports =>
    closing ⟨0⟩ ((ticking cycle).absorb cycle.remaining reports), [(⟨0⟩ : Ref .round).lock], []⟩

/-- The thread of a node that the call ticks. -/
def child (position : Nat) (p : Prog Asks TickResult) : Thread Asks :=
  .begin (position + 1) (.child 0 position) p

/-- The machine during a round. -/
def during (cycle : Round Asks) (nextId : Nat) (outside : List (Note Asks))
    (threads : List (Thread Asks)) : Machine Asks (List (Note Asks)) :=
  ⟨threads, nextId,
    ⟨{ Heap.empty with rounds := #[ticking cycle] }, [(⟨0⟩ : Ref .round).lock], outside⟩⟩

theorem ne_caller (position : Nat) : ∀ id ∈ some (position + 1), ¬ id = 0 := by
  rintro _ ⟨⟩
  exact Nat.succ_ne_zero position

theorem gives_first : Gives notebook [] [fails, dies] first.reports := by
  let cycle : Round Asks := Round.between.begin [fails, dies]
  let goes := during cycle 3 []
  have hfails : Machine.Runs notebook (· = 0)
      (goes [child 0 fails.call, caller cycle 1 [⟨1, .ok .running⟩]])
      (goes [caller cycle 0 first.reports]) :=
    .move (.thread (.head _) rfl) (ne_caller 0) .refl
  have hgoesOn : Machine.Runs notebook (· = 0)
      (goes [child 0 fails.call, child 1 (.pure (.ok .running)), caller cycle 2 []])
      (goes [caller cycle 0 first.reports]) :=
    .move (.thread (.tail _ (.head _)) rfl) (ne_caller 1) hfails
  have hasks : Machine.Runs notebook (· = 0)
      (goes [child 0 fails.call, child 1 dies.call, caller cycle 2 []])
      (goes [caller cycle 0 first.reports]) :=
    .move (.thread (.tail _ (.head _)) rfl) (ne_caller 1) hgoesOn
  exact ⟨_, _, _, _, _, runs_lone .between [fails, dies] [], .head _, rfl, rfl, hasks, _, .head _,
    rfl, rfl⟩

/-- In the second round the node asks, and is then about to panic. -/
theorem runs_dying : Machine.Runs notebook (fun _ => False) (.empty first.notes)
    (during kept 2 first.notes [child 0 (.panic .other), caller kept 1 []]) := by
  have hasks : Machine.Runs notebook (fun _ => False)
      (during kept 2 first.notes [child 0 dies.call, caller kept 1 []])
      (during kept 2 first.notes [child 0 (.panic .other), caller kept 1 []]) :=
    .move (.thread (.head _) rfl) (fun _ _ => id) .refl
  exact (runs_lone kept [fails] first.notes).trans
    (.move (.thread (.head _) rfl) (fun _ _ => id) hasks)

theorem gives_second : Gives notebook first.notes [dies] second.reports := by
  let goes := during kept 2 first.notes
  have hpanics : Machine.Runs notebook (· = 0) (goes [child 0 (.panic .other), caller kept 1 []])
      (goes [caller kept 0 second.reports]) :=
    .move (.thread (.head _) rfl) (ne_caller 0) .refl
  have hasks : Machine.Runs notebook (· = 0) (goes [child 0 dies.call, caller kept 1 []])
      (goes [caller kept 0 second.reports]) :=
    .move (.thread (.head _) rfl) (ne_caller 0) hpanics
  exact ⟨_, _, _, _, _, runs_lone kept [fails] first.notes, .head _, rfl, rfl, hasks, _, .head _,
    rfl, rfl⟩

end Losing

/-! ### The law -/

/-- **A fork's calls make cycles.** From a fork between two cycles, whatever
children are passed and whatever they report:

* each call is lawful in its cycle, which began with the first call after the
  last that did not answer running, and goes over the children of that call;
* the next call ends, whoever makes it;
* on a machine, where its nodes are ticked by threads, there is one for each of
  them, and their reports arrive as it is said here. -/
theorem cycle_law (env : Environment I (List (Note I))) (ref : Ref .round)
    {calls : List (Call I)} {w w' : World I (List (Note I))} (hmade : w.heap.Made ref)
    (hbetween : w.heap.get ref = Round.between) (hfree : ref.lock ∉ w.locked)
    (hcalls : Calls env ref w calls w') :
    (∀ before call after, calls = before ++ call :: after →
      Lawful (fixed (cycle before) call.children) (cycle before) call) ∧
    (∀ w₁ id origin children (arrive : List (Node I) → List Report), Spares ref w' w₁ →
      (∀ nodes, Arrivals nodes.length (arrive nodes)) →
      ∃ (call : Call I) (w₂ : World I (List (Note I))), call.children = children ∧
        Thread.Ends env (joins ref) id origin ((Tick.fork ref).run children) w₁ call.outcome w₂ ∧
        w₂.outside = w₁.outside ++ call.notes ∧
        ∀ note ∈ call.notes, note.reports = arrive note.ticked) ∧
    ∀ {σ : Type} (env' : Environment I σ) (outside : σ) (m m₁ : Machine I σ) (t : Thread I)
      (nodes : List (Node I)) (next : List Report → Prog I TickResult),
      Machine.Runs env' (fun _ => False) (.empty outside) m → t ∈ m.threads →
      t.activity = .running (.request (.parallel nodes) next) → m.stepThread env' t = some m₁ →
      Machine.TicksAll env' m m₁ t nodes next := by
  have hfollows := follows_nil hmade hbetween hfree
  obtain ⟨hfollows', hlaw⟩ := hcalls.follows hfollows
  refine ⟨hlaw, fun w₁ id origin children arrive hspares harrive => ?_,
    fun _ _ _ _ _ _ _ hreach ht hact hstep => Machine.ticksAll hreach ht hact hstep⟩
  exact (hfollows'.spares hspares).ends id origin children harrive

/-- Of two children, the second goes on after the first has failed, and dies in
the next call, whose own children do not count. These are the reports that the
two give on a machine. -/
theorem cycle_law_death :
    (∃ w', Calls Losing.notebook ⟨0⟩ Losing.world [Losing.first, Losing.second] w') ∧
      Lawful [Losing.fails, Losing.dies] [Losing.first] Losing.second ∧
      Gives Losing.notebook [] [Losing.fails, Losing.dies] Losing.first.reports ∧
      Gives Losing.notebook Losing.first.notes [Losing.dies] Losing.second.reports ∧
      ∃ m m₁ t next, Machine.Runs Losing.notebook (fun _ => False) (.empty Losing.first.notes) m ∧
        Machine.TicksAll Losing.notebook m m₁ t [Losing.dies] next := by
  obtain ⟨w', hcalls⟩ := Losing.called_twice
  obtain ⟨hlaw, -, hticks⟩ := cycle_law Losing.notebook ⟨0⟩ Losing.fresh.made Losing.fresh.fresh
    Losing.fresh.unlocked hcalls
  obtain ⟨m, m₁, m₂, t, next, hreach, ht, hact, hstep, -⟩ := Losing.gives_second
  exact ⟨⟨w', hcalls⟩, hlaw [Losing.first] Losing.second [] rfl, Losing.gives_first,
    Losing.gives_second, m, m₁, t, next, hreach,
    hticks Losing.notebook Losing.first.notes m m₁ t [Losing.dies] next hreach ht hact hstep⟩

end Fork
end TickTree
