/-
# What a cycle has yet to tick

A cycle of forks, one inside another, can be told without the forks: some leaves
are still due, and those that are done have answered failure or errors, or not.
That is a load. The load of a fork is what its children have left in it and the
sum of the loads of the children due, so it does not matter how the leaves are
grouped; and since a sum does not depend on the order of its terms, the order in
which they report does not matter either.

A round takes a load to the next (`Load.step`), and a result answers a load with
nothing due if it is as bad as the worst of the answers and has the same items
(`Load.Answers`).

Key definitions: `Load`, `Load.step`, `Load.ofResult`, `Load.collected`,
`Load.Answers`.
Key theorems: `Load.step_sum`, `Load.collected_reports`, `Load.ofResult_verdict`.
-/
import TickTree.Proofs.ForkCycle
import Mathlib.Data.Multiset.Bind
import Mathlib.Data.Multiset.Lattice
import Mathlib.Order.Lattice.Nat
import Mathlib.Order.Nat
import Mathlib.Tactic.Abel

namespace TickTree

variable {L : Type}

/-- How bad a result is: success and running, failure, an error. -/
def TickResult.severity : TickResult → Nat
  | .ok .failure => 1
  | .ok _ => 0
  | .error _ => 2

/-- The items of the error of a result, if it is one. -/
def TickResult.items : TickResult → Multiset TickError
  | .ok _ => 0
  | .error e => e.items

/-- What a cycle has yet to tick, and what has come of it: the leaves due, the worst
of the answers, and the items of the errors. -/
@[ext]
structure Load (L : Type) where
  due : Multiset L
  worst : Nat
  items : Multiset TickError

namespace Load

instance : Zero (Load L) := ⟨⟨0, 0, 0⟩⟩

instance : Add (Load L) := ⟨fun f g => ⟨f.due + g.due, max f.worst g.worst, f.items + g.items⟩⟩

@[simp] theorem due_zero : (0 : Load L).due = 0 := rfl
@[simp] theorem worst_zero : (0 : Load L).worst = 0 := rfl
@[simp] theorem items_zero : (0 : Load L).items = 0 := rfl
@[simp] theorem due_add (f g : Load L) : (f + g).due = f.due + g.due := rfl
@[simp] theorem worst_add (f g : Load L) : (f + g).worst = max f.worst g.worst := rfl
@[simp] theorem items_add (f g : Load L) : (f + g).items = f.items + g.items := rfl

instance : AddCommMonoid (Load L) where
  add_assoc f g h := by
    ext1
    · exact add_assoc _ _ _
    · exact Nat.max_assoc _ _ _
    · exact add_assoc _ _ _
  zero_add f := by
    ext1
    · exact zero_add _
    · exact Nat.zero_max _
    · exact zero_add _
  add_zero f := by
    ext1
    · exact add_zero _
    · exact Nat.max_zero _
    · exact add_zero _
  add_comm f g := by
    ext1
    · exact add_comm _ _
    · exact Nat.max_comm _ _
    · exact add_comm _ _
  nsmul := nsmulRec

/-- The load of a cycle that begins over these leaves. -/
def whole (leaves : Multiset L) : Load L := ⟨leaves, 0, 0⟩

/-- What a result that ends its part of a cycle leaves. -/
def ofResult (r : TickResult) : Load L := ⟨0, r.severity, r.items⟩

/-- The load after a round in which the leaves due answer so. -/
def step (answer : L → TickResult) (f : Load L) : Load L where
  due := f.due.filter fun l => (answer l).isRunning
  worst := max f.worst (f.due.map fun l => (answer l).severity).sup
  items := f.items + f.due.bind fun l => (answer l).items

/-- No leaf is due. -/
def IsDone (f : Load L) : Prop := f.due = 0

instance (f : Load L) : Decidable f.IsDone := decidable_of_iff _ Multiset.card_eq_zero

/-- The result of a call that leaves the load: running while a leaf is due, and else
one that is as bad and has the same items. -/
def Answers (f : Load L) (r : TickResult) : Prop :=
  if f.IsDone then r.isRunning = false ∧ ofResult r = f else r = .ok .running

/-- The load of the next call: a new cycle over the leaves if this one is done. -/
def next (leaves : Multiset L) (f : Load L) : Load L := if f.IsDone then whole leaves else f

/-- What is left in a fork whose children have answered these errors, or failure. -/
def collected (errors : List TickError) (failed : Bool) : Load L where
  due := 0
  worst := if errors.isEmpty then if failed then 1 else 0 else 2
  items := errors.flatMap TickError.items

variable {answer answer' : L → TickResult} {f g : Load L}

/-! ### Rounds -/

theorem step_zero (answer : L → TickResult) : step answer 0 = 0 := by
  ext1
  · rfl
  · simp [step]
  · simp [step]

theorem step_add (answer : L → TickResult) (f g : Load L) :
    step answer (f + g) = step answer f + step answer g := by
  ext1
  · simp [step, Multiset.filter_add]
  · simp only [step, due_add, worst_add, Multiset.map_add, Multiset.sup_add]
    omega
  · simp only [step, due_add, items_add, Multiset.add_bind]
    exact add_add_add_comm _ _ _ _

theorem step_sum (answer : L → TickResult) (loads : List (Load L)) :
    step answer loads.sum = (loads.map (step answer)).sum := by
  induction loads with
  | nil => exact step_zero answer
  | cons f loads ih => rw [List.sum_cons, step_add, ih, List.map_cons, List.sum_cons]

/-- Only the answers of the leaves due matter. -/
theorem step_congr (h : ∀ l ∈ f.due, answer l = answer' l) : step answer f = step answer' f := by
  ext1
  · exact Multiset.filter_congr fun l hl => by rw [h l hl]
  · simp only [step]
    rw [Multiset.map_congr rfl fun l hl => by rw [h l hl]]
  · simp only [step]
    rw [Multiset.bind_congr fun l hl => by rw [h l hl]]

theorem step_collected (answer : L → TickResult) (errors : List TickError) (failed : Bool) :
    (collected errors failed).step answer = collected errors failed := by
  ext1 <;> simp [step, collected]

theorem step_whole_singleton (answer : L → TickResult) (l : L) :
    step answer (whole {l}) =
      (if (answer l).isRunning then whole {l} else 0) + ofResult (answer l) := by
  unfold step whole ofResult
  by_cases hrunning : (answer l).isRunning
  · ext1 <;> simp [hrunning, Multiset.filter_singleton]
  · ext1 <;> simp [hrunning, Multiset.filter_singleton]

theorem isDone_add : (f + g).IsDone ↔ f.IsDone ∧ g.IsDone := by
  unfold IsDone
  rw [due_add, ← Multiset.card_eq_zero, Multiset.card_add, Nat.add_eq_zero_iff,
    Multiset.card_eq_zero, Multiset.card_eq_zero]

theorem isDone_sum {loads : List (Load L)} : loads.sum.IsDone ↔ ∀ f ∈ loads, f.IsDone := by
  induction loads with
  | nil => exact iff_of_true rfl (fun _ hf => absurd hf List.not_mem_nil)
  | cons f loads ih => rw [List.sum_cons, isDone_add, ih, List.forall_mem_cons]

theorem mem_due_sum {loads : List (Load L)} {l : L} :
    l ∈ loads.sum.due ↔ ∃ f ∈ loads, l ∈ f.due := by
  induction loads with
  | nil => simp
  | cons f loads ih => simp [ih]

/-! ### Reports -/

theorem ofResult_running : (ofResult (.ok .running) : Load L) = 0 := rfl

theorem collected_append (errors errors' : List TickError) (failed failed' : Bool) :
    (collected (errors ++ errors') (failed || failed') : Load L) =
      collected errors failed + collected errors' failed' := by
  ext1
  · rfl
  · cases errors <;> cases errors' <;> cases failed <;> cases failed' <;> rfl
  · simp [collected, List.flatMap_append]

theorem collected_result (r : TickResult) :
    (collected r.error?.toList (r matches .ok .failure) : Load L) = ofResult r := by
  match r with
  | .error e =>
    ext1
    · rfl
    · rfl
    · simp [collected, ofResult, TickResult.error?, TickResult.items]
  | .ok .running | .ok .success | .ok .failure => rfl

/-- The errors and failures that are reported. -/
theorem collected_reports (reports : List Report) :
    (collected (reports.filterMap (·.result.error?))
        (reports.any fun report => report.result matches .ok .failure) : Load L) =
      (reports.map fun report => ofResult report.result).sum := by
  induction reports with
  | nil => rfl
  | cons report reports ih =>
    have hcons : (report :: reports).filterMap (·.result.error?) =
        report.result.error?.toList ++ reports.filterMap (·.result.error?) := by
      cases he : report.result.error? <;> simp [he]
    rw [hcons, List.any_cons, collected_append, collected_result, ih, List.map_cons, List.sum_cons]

/-- The verdict on a cycle is as bad as its answers, and has the same items. -/
theorem ofResult_verdict (errors : List TickError) (failed : Bool) :
    (ofResult (match TickError.joinAll errors with
      | some e => .error e
      | none => .ok (if failed then .failure else .success)) : Load L) =
      collected errors failed := by
  have hitems := TickError.items_joinAll errors
  cases hjoin : TickError.joinAll errors with
  | none =>
    obtain rfl := TickError.joinAll_eq_none.mp hjoin
    cases failed <;> rfl
  | some e =>
    rw [hjoin, Option.elim_some] at hitems
    have hne : errors ≠ [] := fun he => by simp [TickError.joinAll_eq_none.mpr he] at hjoin
    ext1
    · rfl
    · simp [ofResult, collected, TickResult.severity, hne]
    · simp [ofResult, collected, TickResult.items, hitems]

/-! ### Results that answer a load -/

theorem Answers.isRunning {r : TickResult} (h : f.Answers r) : r.isRunning ↔ ¬ f.IsDone := by
  unfold Answers at h
  by_cases hdone : f.IsDone
  · rw [if_pos hdone] at h
    simp [h.1, hdone]
  · rw [if_neg hdone] at h
    subst h
    exact iff_of_true rfl hdone

/-- A load that is answered is in its result, unless it goes on. -/
theorem Answers.split {r : TickResult} (h : f.Answers r) :
    f = (if r.isRunning then f else 0) + ofResult r := by
  have hrunning := h.isRunning
  unfold Answers at h
  by_cases hdone : f.IsDone
  · rw [if_pos hdone] at h
    rw [h.1, h.2]
    exact (zero_add f).symm
  · rw [if_neg hdone] at h
    subst h
    rw [if_pos (hrunning.mpr hdone), ofResult_running, add_zero]

/-- The verdict on a cycle answers what is collected. -/
theorem answers_verdict (errors : List TickError) (failed : Bool) :
    (collected errors failed : Load L).Answers (match TickError.joinAll errors with
      | some e => .error e
      | none => .ok (if failed then .failure else .success)) := by
  rw [Answers, if_pos (show (collected errors failed : Load L).IsDone from rfl)]
  refine ⟨?_, ofResult_verdict errors failed⟩
  cases TickError.joinAll errors with
  | some e => rfl
  | none => cases failed <;> rfl

theorem not_isDone_singleton (l : L) : ¬ (whole {l}).IsDone := Multiset.singleton_ne_zero l

/-- A leaf answers for itself. -/
theorem answers_singleton (answer : L → TickResult) (l : L) :
    (step answer (whole {l})).Answers (answer l) := by
  rw [step_whole_singleton]
  by_cases hrunning : (answer l).isRunning
  · rw [if_pos hrunning, TickResult.isRunning_iff.mp hrunning, ofResult_running, add_zero, Answers,
      if_neg (not_isDone_singleton l)]
  · rw [if_neg hrunning, zero_add, Answers, if_pos (show (ofResult (answer l)).IsDone from rfl)]
    exact ⟨by simpa using hrunning, rfl⟩

/-- A leaf is always due. -/
theorem next_singleton (answer : L → TickResult) (l : L) :
    (step answer (whole {l})).next {l} = whole {l} := by
  rw [step_whole_singleton]
  by_cases hrunning : (answer l).isRunning
  · rw [if_pos hrunning, TickResult.isRunning_iff.mp hrunning, ofResult_running, add_zero, next,
      if_neg (not_isDone_singleton l)]
  · rw [if_neg hrunning, zero_add, next, if_pos (show (ofResult (answer l)).IsDone from rfl)]

/-- Of loads that are answered, some go on, and the results of all are left. -/
theorem sum_split {numbers : List Nat} {loads : Nat → Load L} {result : Nat → TickResult}
    (h : ∀ i ∈ numbers, (loads i).Answers (result i)) :
    (numbers.map loads).sum = (numbers.map fun i => ofResult (result i)).sum +
      ((numbers.filter fun i => (result i).isRunning).map loads).sum := by
  induction numbers with
  | nil => exact (add_zero 0).symm
  | cons i numbers ih =>
    have hi := (h i List.mem_cons_self).split
    have ih := ih fun j hj => h j (List.mem_cons_of_mem i hj)
    rw [List.map_cons, List.sum_cons, List.map_cons, List.sum_cons, ih, List.filter_cons]
    by_cases hrunning : (result i).isRunning
    · rw [if_pos hrunning] at hi ⊢
      rw [List.map_cons, List.sum_cons]
      nth_rewrite 1 [hi]
      abel
    · rw [if_neg hrunning, zero_add] at hi
      rw [if_neg hrunning]
      nth_rewrite 1 [hi]
      abel

/-- Both running, both the same status, or both an error with the same items, in
some order. -/
def Alike : TickResult → TickResult → Prop
  | .ok s, .ok s' => s = s'
  | .error e, .error e' => e.items.Perm e'.items
  | _, _ => False

theorem Answers.alike {r r' : TickResult} (h : f.Answers r) (h' : f.Answers r') : Alike r r' := by
  unfold Answers at h h'
  by_cases hdone : f.IsDone
  · rw [if_pos hdone] at h h'
    obtain ⟨hr, hf⟩ := h
    obtain ⟨hr', hf'⟩ := h'
    have hsame : (ofResult r : Load L) = ofResult r' := hf.trans hf'.symm
    have hworst : r.severity = r'.severity := congrArg worst hsame
    have hitems : r.items = r'.items := congrArg items hsame
    match r, r' with
    | .error e, .error e' => exact Multiset.coe_eq_coe.mp hitems
    | .ok .success, .ok .success | .ok .failure, .ok .failure => exact rfl
    | .ok .running, _ => cases hr
    | _, .ok .running => cases hr'
    | .ok .success, .ok .failure | .ok .failure, .ok .success => cases hworst
    | .error _, .ok .success | .error _, .ok .failure => cases hworst
    | .ok .success, .error _ | .ok .failure, .error _ => cases hworst
  · rw [if_neg hdone] at h h'
    subst h h'
    exact rfl

end Load

end TickTree
