/-
# Trees of forks

The leaves of a tree of forks answer as they like, each from its own count of
ticks. One call of the root is a round of the load of its cycle (`ForkTree.Plays`):
the leaves due are ticked, each once, and the call answers what is left of the load.
How the leaves are grouped into forks, and in which order reports arrive at each of
them, shows in nothing else.

The forks inside keep their own cycles. What is told of all of them at once is that
the next tick of the tree plays a round of one load (`ForkTree.Poised`): a fork
inside that has come to its end has left its result with the fork around it, and is
poised to begin again, but it is not among the children due there, so it waits.

The children of a fork are ticked by threads of their own, in any order and
interleaved in any way, and their reports arrive in any order (`ForkTree.joins`).
Of the threads it is only said that each carries out its node, and leaves alone the
forks and leaves of the others.

Key definitions: `ForkTree`, `ForkTree.node`, `ForkTree.others`, `ForkTree.Poised`.
Key theorems: `Fork.of_among_run`, `ForkTree.callsPlay`.
-/
import TickTree.Proofs.Locking
import TickTree.Proofs.Polling
import TickTree.Proofs.ForkLoads
import Mathlib.Data.List.Nodup

namespace TickTree

/-! ### One call of a fork -/

/-- Only the cell and its lock are changed. -/
structure World.Inside {I : Interface} {σ : Type} {kind : CellKind} (r : Ref kind)
    (w w' : World I σ) : Prop where
  made : ∀ {kind' : CellKind} {s : Ref kind'}, w.heap.Made s → w'.heap.Made s
  cell : ∀ {kind' : CellKind} {s : Ref kind'}, s.lock ≠ r.lock → w'.heap.get s = w.heap.get s
  lock : ∀ {l : Lock}, l ≠ r.lock → (l ∈ w'.locked ↔ l ∈ w.locked)
  outside : w'.outside = w.outside

namespace World.Inside

variable {I : Interface} {σ : Type} {kind : CellKind} {r : Ref kind}

theorem spares {w w' : World I σ} (h : Inside r w w') {kind' : CellKind} {s : Ref kind'}
    (hne : s.lock ≠ r.lock) : Spares s w w' :=
  ⟨h.made, h.cell hne, h.lock hne⟩

theorem acquire (w : World I σ) : Inside r w (w.hold r.lock) where
  made := id
  cell := fun _ => rfl
  lock := fun hne => List.mem_cons.trans (or_iff_right hne)
  outside := rfl

theorem release (w : World I σ) : Inside r w (w.unlock [r.lock]) where
  made := id
  cell := fun _ => rfl
  lock := fun hne => mem_unlock.trans (and_iff_left fun hmem => hne (List.mem_singleton.mp hmem))
  outside := rfl

theorem trans {w w₁ w' : World I σ} (h : Inside r w w₁) (h' : Inside r w₁ w') :
    Inside r w w' where
  made := fun hmade => h'.made (h.made hmade)
  cell := fun hne => (h'.cell hne).trans (h.cell hne)
  lock := fun hne => (h'.lock hne).trans (h.lock hne)
  outside := h'.outside.trans h.outside

theorem swap (w : World I σ) (state : kind.State I) :
    Inside r w { w with heap := w.heap.set r state } where
  made := (Heap.made_set state).mpr
  cell := fun hne => Heap.get_set_of_lock_ne (fun he => hne he.symm) _ state
  lock := fun _ => Iff.rfl
  outside := rfl

end World.Inside

namespace Fork

variable {I : Interface} {σ : Type} {env : Environment I σ} {others : Others I σ} {caller : Caller}
  {r : Ref .round} {nodes : List (Node I)} {ending : Ending TickResult} {held : List Lock}
  {w w₁ w' : World I σ}

/-- What the others change and what the fork does with its own cell, by turns. -/
def Beside (others : Others I σ) (r : Ref .round) : World I σ → World I σ → Prop :=
  Relation.ReflTransGen fun w w' => others.change w w' ∨ World.Inside r w w'

theorem Beside.change (h : Beside others r w w₁) (ho : others.change w₁ w') :
    Beside others r w w' := h.tail (.inl ho)

theorem Beside.inside (h : Beside others r w w₁) (hinside : World.Inside r w₁ w') :
    Beside others r w w' := h.tail (.inr hinside)

section

variable (hspares : ∀ {w w'}, others.change w w' → World.Spares r w w')
include hspares

/-- A call takes the lock, ticks the children due if there are any, and settles what
came of it. -/
theorem of_among_run (hmade : w.heap.Made r) (hfree : r.lock ∉ w.locked) {cycle : Round I}
    (hbegin : (w.heap.get r : Round I).begin nodes = cycle)
    (h : (run r nodes).Among env others caller [] w ending held w') :
    ∃ ended w₁ w₂, Beside others r w w₁ ∧ w₁.heap.Made r ∧
      (if cycle.remaining = [] then ended = ticking cycle ∧ w₂ = w₁
        else ∃ reports, others.joins w₁ cycle.remaining reports w₂ ∧
          ended = (ticking cycle).absorb cycle.remaining reports) ∧
      ending = .value ended.verdict ∧ held = [] ∧ Beside others r w₂ w' ∧
      (w₂.heap.Made r → w'.heap.Made r ∧ w'.heap.get r = ended.next) ∧ r.lock ∉ w'.locked := by
  have hsettle : ∀ {ended : Round I} {w₂ : World I σ},
      (Prog.request (.swap .round r ended.next) fun _ => .request (.release .round r) fun _ =>
        .pure ended.verdict).Among env others caller [r.lock] w₂ ending held w' →
      ending = .value ended.verdict ∧ held = [] ∧ Beside others r w₂ w' ∧
        (w₂.heap.Made r → w'.heap.Made r ∧ w'.heap.get r = ended.next) ∧ r.lock ∉ w'.locked := by
    intro ended w₂ h
    obtain ⟨w₃, _, _, _, ho₃, hswap, h⟩ := (Prog.Among.serve_iff rfl).mp h
    cases hswap
    obtain ⟨w₄, _, _, _, ho₄, hrelease, h⟩ := (Prog.Among.serve_iff rfl).mp h
    cases hrelease
    obtain ⟨rfl, rfl, ho₅⟩ := Prog.Among.pure_iff.mp h
    have hbeside : Beside others r w₂ w' :=
      .change (.inside (.change (.inside (.change .refl ho₃) (.swap w₃ _)) ho₄)
        (.release w₄)) ho₅
    refine ⟨rfl, by simp, hbeside, fun hmade₂ => ?_, fun hmem => ?_⟩
    · have hmade₃ := (hspares ho₃).made hmade₂
      have hmade₄ := (hspares ho₄).made ((Heap.made_set _).mpr hmade₃)
      have hset := (hspares ho₄).cell.trans (Heap.get_set hmade₃ ended.next)
      exact ⟨(hspares ho₅).made hmade₄, (hspares ho₅).cell.trans hset⟩
    · exact (World.mem_unlock.mp ((hspares ho₅).lock.mp hmem)).2 (List.mem_singleton.mpr rfl)
  obtain ⟨w₁, _, _, _, ho₁, hacquire, h⟩ := (Prog.Among.serve_iff rfl).mp h
  rw [World.serve_acquire_hold fun hlocked => hfree ((hspares ho₁).lock.mp hlocked)] at hacquire
  cases hacquire
  obtain ⟨w₂, _, _, _, ho₂, hread, h⟩ := (Prog.Among.serve_iff rfl).mp h
  cases hread
  have hcell : (w₂.heap.get r : Round I).begin nodes = cycle := by
    rw [← hbegin]
    exact congrArg (Round.begin · nodes) ((hspares ho₂).cell.trans (hspares ho₁).cell)
  obtain ⟨w₃, _, _, _, ho₃, hswap, h⟩ := (Prog.Among.serve_iff rfl).mp h
  cases hswap
  rw [hcell] at h
  have hbeside : Beside others r w { w₃ with heap := w₃.heap.set r (ticking cycle) } :=
    .inside (.change (.change (.inside (.change .refl ho₁) (.acquire w₁)) ho₂) ho₃)
      (.swap w₃ _)
  have hmade₃ : (w₃.heap.set r (ticking cycle)).Made r := (Heap.made_set _).mpr
    ((hspares ho₃).made ((hspares ho₂).made ((hspares ho₁).made hmade)))
  by_cases hnone : cycle.remaining = []
  · rw [if_pos (List.isEmpty_iff.mpr hnone)] at h
    refine ⟨ticking cycle, _, _, hbeside, hmade₃, ?_, hsettle h⟩
    rw [if_pos hnone]
    exact ⟨rfl, rfl⟩
  · rw [if_neg (by simpa using hnone)] at h
    cases h with
    | serve _ hserve => cases hserve
    | @parallel _ _ _ reports _ _ _ _ w₄ w₅ _ ho₄ hjoin h =>
      refine ⟨(ticking cycle).absorb cycle.remaining reports, w₄, w₅, hbeside.change ho₄,
        (hspares ho₄).made hmade₃, ?_, hsettle h⟩
      rw [if_neg hnone]
      exact ⟨reports, hjoin, rfl⟩

end

end Fork

/-! ### Trees -/

/-- A tree whose inner nodes are forks, each with a cell of its own. -/
inductive ForkTree (L : Type) where
  | leaf (name : L)
  | fork (round : Ref .round) (children : List (ForkTree L))

variable {L : Type}

namespace ForkTree

mutual

/-- The leaves of a tree, from left to right. -/
def leaves : ForkTree L → List L
  | leaf l => [l]
  | fork _ ts => leavesOf ts
termination_by structural t => t

/-- The leaves of several trees. -/
def leavesOf : List (ForkTree L) → List L
  | [] => []
  | t :: ts => t.leaves ++ leavesOf ts
termination_by structural ts => ts

end

mutual

/-- The cells of the forks in a tree. -/
def rounds : ForkTree L → List (Ref .round)
  | leaf _ => []
  | fork r ts => r :: roundsOf ts
termination_by structural t => t

/-- The cells of the forks in several trees. -/
def roundsOf : List (ForkTree L) → List (Ref .round)
  | [] => []
  | t :: ts => t.rounds ++ roundsOf ts
termination_by structural ts => ts

end

mutual

/-- A tree as a node. -/
def node : ForkTree L → Node (LeafCalls L)
  | leaf l => .leaf (.ask l .const)
  | fork r ts => .of (.fork r) (nodes ts)
termination_by structural t => t

/-- Trees as nodes. -/
def nodes : List (ForkTree L) → List (Node (LeafCalls L))
  | [] => []
  | t :: ts => t.node :: nodes ts
termination_by structural ts => ts

end

mutual

/-- The number of forks on the longest way to a leaf. -/
def height : ForkTree L → Nat
  | leaf _ => 0
  | fork _ ts => heightOf ts + 1
termination_by structural t => t

/-- The height of the highest of several trees. -/
def heightOf : List (ForkTree L) → Nat
  | [] => 0
  | t :: ts => max t.height (heightOf ts)
termination_by structural ts => ts

end

theorem leavesOf_eq (ts : List (ForkTree L)) : leavesOf ts = ts.flatMap leaves := by
  induction ts with
  | nil => rfl
  | cons t ts ih => rw [leavesOf, ih, List.flatMap_cons]

theorem roundsOf_eq (ts : List (ForkTree L)) : roundsOf ts = ts.flatMap rounds := by
  induction ts with
  | nil => rfl
  | cons t ts ih => rw [roundsOf, ih, List.flatMap_cons]

theorem nodes_eq (ts : List (ForkTree L)) : nodes ts = ts.map node := by
  induction ts with
  | nil => rfl
  | cons t ts ih => rw [nodes, ih, List.map_cons]

theorem leaves_fork (r : Ref .round) (ts : List (ForkTree L)) :
    (fork r ts).leaves = ts.flatMap leaves := leavesOf_eq ts

theorem rounds_fork (r : Ref .round) (ts : List (ForkTree L)) :
    (fork r ts).rounds = r :: ts.flatMap rounds := congrArg (r :: ·) (roundsOf_eq ts)

theorem height_le_heightOf {t : ForkTree L} {ts : List (ForkTree L)} (ht : t ∈ ts) :
    t.height ≤ heightOf ts := by
  induction ts with
  | nil => exact absurd ht List.not_mem_nil
  | cons s ts ih =>
    rw [heightOf]
    rcases List.mem_cons.mp ht with rfl | ht
    · exact Nat.le_max_left _ _
    · exact (ih ht).trans (Nat.le_max_right _ _)

/-- Induction over a tree, with the children as members of their list. -/
@[induction_eliminator]
theorem induct {P : ForkTree L → Prop} (leaf : ∀ l, P (.leaf l))
    (fork : ∀ r ts, (∀ t ∈ ts, P t) → P (.fork r ts)) (t : ForkTree L) : P t :=
  @ForkTree.rec L P (fun ts => ∀ t ∈ ts, P t) leaf fork (fun _ ht => absurd ht List.not_mem_nil)
    (fun _ _ ht hts _ hs => (List.mem_cons.mp hs).elim (fun he => he ▸ ht) (hts _)) t

/-- Different trees are different nodes. -/
theorem node_injective : Function.Injective (node : ForkTree L → Node (LeafCalls L)) := by
  intro t
  induction t with
  | leaf l =>
    intro s hs
    cases s with
    | leaf l' =>
      injection hs with htick
      injection htick with htick
      injection htick with hl
      rw [hl]
    | fork r ts =>
      injection hs with htick
      injection htick with htick
      cases htick
  | fork r ts ih =>
    intro s hs
    cases s with
    | leaf l =>
      injection hs with htick
      injection htick with htick
      cases htick
    | fork r' ts' =>
      injection hs with htick hnodes
      injection htick with htick
      injection htick with hr
      rw [nodes_eq, nodes_eq] at hnodes
      rw [hr]
      have hts : ∀ us us' : List (ForkTree L), (∀ u ∈ us, u ∈ ts) →
          us.map node = us'.map node → us = us' := by
        intro us
        induction us with
        | nil =>
          intro us' _ he
          exact (List.map_eq_nil_iff.mp he.symm).symm
        | cons u us ihus =>
          intro us' hmem he
          cases us' with
          | nil => cases he
          | cons u' us' =>
            rw [List.map_cons, List.map_cons, List.cons.injEq] at he
            have hu := ih u (hmem u List.mem_cons_self) he.1
            have hus := ihus us' (fun v hv => hmem v (List.mem_cons_of_mem u hv)) he.2
            rw [hu, hus]
      rw [hts ts ts' (fun _ hu => hu) hnodes]

/-! ### What surrounds a tree -/

/-- The leaves answer at once, each as its own count of ticks says. -/
def env [DecidableEq L] (play : L → Nat → TickResult) :
    Environment (LeafCalls L) (L → Nat) where
  answer := fun _ l counts => some (play l (counts l), Function.update counts l (counts l + 1))
  ended := fun _ _ counts => counts

/-- The forks and the leaves that are meant are left alone. -/
structure Untouched (rounds : Ref .round → Prop) (leaves : L → Prop)
    (w w' : World (LeafCalls L) (L → Nat)) : Prop where
  round : ∀ r, rounds r → World.Spares r w w'
  leaf : ∀ l, leaves l → w'.outside l = w.outside l

/-- A tree is left alone. -/
def Spares (t : ForkTree L) (w w' : World (LeafCalls L) (L → Nat)) : Prop :=
  Untouched (· ∈ t.rounds) (· ∈ t.leaves) w w'

variable {w w' w'' : World (LeafCalls L) (L → Nat)}

namespace Untouched

variable {rounds rounds' : Ref .round → Prop} {leaves leaves' : L → Prop}

theorem refl (rounds : Ref .round → Prop) (leaves : L → Prop) (w : World (LeafCalls L) (L → Nat)) :
    Untouched rounds leaves w w :=
  ⟨fun r _ => .refl r w, fun _ _ => rfl⟩

theorem trans (h : Untouched rounds leaves w w') (h' : Untouched rounds leaves w' w'') :
    Untouched rounds leaves w w'' :=
  ⟨fun r hr => (h.round r hr).trans (h'.round r hr),
    fun l hl => (h'.leaf l hl).trans (h.leaf l hl)⟩

theorem mono (h : Untouched rounds' leaves' w w') (hrounds : ∀ r, rounds r → rounds' r)
    (hleaves : ∀ l, leaves l → leaves' l) : Untouched rounds leaves w w' :=
  ⟨fun r hr => h.round r (hrounds r hr), fun l hl => h.leaf l (hleaves l hl)⟩

end Untouched

/-- The reports of nodes that end so, in their own order. -/
def reports (endings : Nat → Ending TickResult) (n : Nat) : List Report :=
  (List.range n).filterMap fun p => (endings p).outcome.result?.map (⟨p, ·⟩)

section Others

variable [DecidableEq L] (play : L → Nat → TickResult)
  (order : List (Node (LeafCalls L)) → List Report → List Report)

/-- What ticking trees in parallel may do in a fork of `t`, where forks stand in
each other `d` deep. Each tree is ticked by a thread of its own among the others;
its report arrives in the order that `order` says. Of `t` the threads change only
the trees that they tick. -/
def joins : Nat → ForkTree L → Joins (LeafCalls L) (L → Nat)
  | 0, _ => fun _ _ _ _ => False
  | d + 1, t => fun w nodes arrived w' =>
    ∃ (ts : List (ForkTree L)) (endings : Nat → Ending TickResult),
      nodes = ts.map node ∧ arrived = order nodes (reports endings ts.length) ∧
      Untouched (fun r => r ∈ t.rounds ∧ ∀ s ∈ ts, r ∉ s.rounds)
        (fun l => l ∈ t.leaves ∧ ∀ s ∈ ts, l ∉ s.leaves) w w' ∧
      ∀ (p : Nat) (s : ForkTree L), ts[p]? = some s → ∃ caller w₁,
        s.node.Ticked (env play) ⟨s.Spares, joins d s, Untouched.refl _ _, Untouched.trans⟩ caller w
          (endings p) w₁ ∧
        s.Spares w₁ w'

/-- What is done around a tree: others leave it alone. -/
def others (d : Nat) (t : ForkTree L) : Others (LeafCalls L) (L → Nat) where
  change := t.Spares
  joins := joins play order d t
  refl := Untouched.refl _ _
  trans := Untouched.trans

end Others

/-! ### The load of a tree -/

/-- The load of a cycle of the tree that begins. -/
def whole (t : ForkTree L) : Load L := .whole t.leaves

/-- **The next tick of the tree plays a round of this load.** A leaf is always due.
A fork is between two cycles or in one, with these children due and these errors
and failures of the others; every child is poised, and those not due to begin
again. -/
inductive Poised : ForkTree L → Load L → World (LeafCalls L) (L → Nat) → Prop
  | leaf {l w} : Poised (leaf l) (.whole {l}) w
  | fork {r : Ref .round} {ts : List (ForkTree L)} {w numbers errors failed}
      (loads : Nat → Load L) :
      w.heap.Made r → r.lock ∉ w.locked →
      (w.heap.get r : Round (LeafCalls L)).begin (ts.map node) =
        Fork.underWay (ts.map node) numbers errors failed →
      numbers.Nodup → (∀ i ∈ numbers, i < ts.length) →
      (∀ i t, ts[i]? = some t → Poised t (loads i) w) →
      (∀ i t, ts[i]? = some t → i ∉ numbers → loads i = t.whole) →
      Poised (fork r ts) (.collected errors failed + (numbers.map loads).sum) w

/-- Who leaves a fork alone leaves its children alone. -/
theorem Spares.child {r : Ref .round} {ts : List (ForkTree L)} {t : ForkTree L} (ht : t ∈ ts)
    (h : (fork r ts).Spares w w') : t.Spares w w' := by
  refine Untouched.mono h (fun r' hr' => ?_) fun l hl => ?_
  · rw [rounds_fork]
    exact List.mem_cons_of_mem r (List.mem_flatMap.mpr ⟨t, ht, hr'⟩)
  · rw [leaves_fork]
    exact List.mem_flatMap.mpr ⟨t, ht, hl⟩

theorem Poised.spares {t : ForkTree L} {f : Load L} (h : Poised t f w) (hspares : t.Spares w w') :
    Poised t f w' := by
  induction h with
  | leaf => exact .leaf
  | @fork r ts w numbers errors failed loads hmade hfree hcell hdistinct hlt hpoised hwhole ih =>
    have hr := hspares.round r (by rw [rounds_fork]; exact List.mem_cons_self)
    have hcell' : (w'.heap.get r : Round (LeafCalls L)) = w.heap.get r := hr.cell
    refine .fork loads (hr.made hmade) (fun hlocked => hfree (hr.lock.mp hlocked)) ?_ hdistinct hlt
      (fun i t ht => ih i t ht (Spares.child (List.mem_of_getElem? ht) hspares)) hwhole
    rw [hcell']
    exact hcell

/-- Only leaves of the tree are due. -/
theorem Poised.mem_leaves {t : ForkTree L} {f : Load L} (h : Poised t f w) {l : L}
    (hl : l ∈ f.due) : l ∈ t.leaves := by
  induction h with
  | leaf => exact List.mem_singleton.mpr (Multiset.mem_singleton.mp hl)
  | @fork r ts w numbers errors failed loads hmade hfree hcell hdistinct hlt hpoised hwhole ih =>
    have hsum : l ∈ (numbers.map loads).sum.due := by
      simpa [Load.collected] using hl
    obtain ⟨f, hf, hl⟩ := Load.mem_due_sum.mp hsum
    obtain ⟨i, hi, rfl⟩ := List.mem_map.mp hf
    have ht := List.getElem?_eq_getElem (hlt i hi)
    rw [leaves_fork]
    exact List.mem_flatMap.mpr ⟨_, List.mem_of_getElem? ht, ih i _ ht hl⟩

theorem whole_fork (r : Ref .round) (ts : List (ForkTree L)) :
    (fork r ts).whole = (ts.map whole).sum := by
  have hall : ∀ ts : List (ForkTree L), Load.whole (ts.flatMap leaves : Multiset L) =
      (ts.map whole).sum := by
    intro ts
    induction ts with
    | nil => rfl
    | cons t ts ih =>
      rw [List.map_cons, List.sum_cons, ← ih, List.flatMap_cons, ← Multiset.coe_add]
      rfl
  rw [← hall ts, whole, leaves_fork]

/-- A fork between two cycles, whose children are poised to begin. -/
theorem poised_between {r : Ref .round} {ts : List (ForkTree L)} (hmade : w.heap.Made r)
    (hfree : r.lock ∉ w.locked) (hcell : w.heap.get r = Round.between)
    (hpoised : ∀ t ∈ ts, Poised t t.whole w) : Poised (fork r ts) (fork r ts).whole w := by
  have hloads : (List.range ts.length).map (fun i => (ts[i]?.map whole).getD 0) = ts.map whole := by
    refine List.ext_getElem (by simp) fun i hi hi' => ?_
    have hlt : i < ts.length := by simpa using hi
    simp [hlt]
  have hbegin : (w.heap.get r : Round (LeafCalls L)).begin (ts.map node) =
      Fork.underWay (ts.map node) (List.range ts.length) [] false := by
    rw [hcell, Fork.begin_between, List.length_map]
  have hfork : Poised (fork r ts) (.collected [] false +
      ((List.range ts.length).map fun i => (ts[i]?.map whole).getD 0).sum) w := by
    refine .fork _ hmade hfree hbegin List.nodup_range (fun i hi => List.mem_range.mp hi)
      (fun i t ht => ?_) fun i t ht hi => ?_
    · rw [ht]
      exact hpoised t (List.mem_of_getElem? ht)
    · exact absurd (List.mem_range.mpr (List.getElem?_eq_some_iff.mp ht).1) hi
  have hnone : (.collected [] false : Load L) = 0 := rfl
  rwa [hloads, ← whole_fork r ts, hnone, zero_add] at hfork

/-- A fork after a round, whose children due go on and whose other children are
poised to begin. -/
theorem poised_round {r : Ref .round} {ts : List (ForkTree L)} {numbers : List Nat}
    {errors : List TickError} {failed : Bool} (loads : Nat → Load L) (hmade : w.heap.Made r)
    (hfree : r.lock ∉ w.locked)
    (hcell : w.heap.get r = (Fork.underWay (ts.map node) numbers errors failed).next)
    (hdistinct : numbers.Nodup) (hlt : ∀ i ∈ numbers, i < ts.length)
    (hpoised : ∀ i t, ts[i]? = some t → Poised t (loads i) w)
    (hwhole : ∀ i t, ts[i]? = some t → i ∉ numbers → loads i = t.whole)
    (hdue : ∀ i ∈ numbers, ¬ (loads i).IsDone) :
    Poised (fork r ts)
      ((Load.collected errors failed + (numbers.map loads).sum).next (fork r ts).leaves) w := by
  have hremaining : (Fork.underWay (ts.map node) numbers errors failed).remaining = [] ↔
      numbers = [] := by
    have hlength := @Fork.length_pick _ (ts.map node) numbers (by simpa using hlt)
    rw [← List.length_eq_zero_iff, ← List.length_eq_zero_iff, ← hlength]
    rfl
  rw [Round.next] at hcell
  by_cases hnone : numbers = []
  · rw [if_pos (List.isEmpty_iff.mpr (hremaining.mpr hnone))] at hcell
    subst hnone
    have hdone : (Load.collected errors failed + (([] : List Nat).map loads).sum).IsDone := rfl
    rw [Load.next, if_pos hdone]
    refine poised_between hmade hfree hcell fun t ht => ?_
    obtain ⟨i, hi⟩ := List.getElem?_of_mem ht
    rw [← hwhole i t hi List.not_mem_nil]
    exact hpoised i t hi
  · rw [if_neg (by simpa using mt hremaining.mp hnone)] at hcell
    have hgoes : ¬ (Load.collected errors failed + (numbers.map loads).sum).IsDone := by
      rw [Load.isDone_add, Load.isDone_sum]
      rintro ⟨-, hall⟩
      obtain ⟨i, hi⟩ := List.exists_mem_of_ne_nil numbers hnone
      exact hdue i hi (hall _ (List.mem_map_of_mem hi))
    rw [Load.next, if_neg hgoes]
    refine .fork loads hmade hfree ?_ hdistinct hlt hpoised hwhole
    rw [hcell]
    exact Fork.begin_underWay _

/-! ### The reports of a round -/

section Reports

variable {numbers : List Nat} {answer : Nat → TickResult} {arrived : List Report}

/-- The reports of the children with these numbers, in their order. -/
def sent (numbers : List Nat) (answer : Nat → TickResult) : List Report :=
  numbers.mapIdx fun p i => ⟨p, answer i⟩

theorem reports_eq_sent {endings : Nat → Ending TickResult}
    (h : ∀ p i, numbers[p]? = some i → endings p = .value (answer i)) :
    reports endings numbers.length = sent numbers answer := by
  have hsome : ∀ p ∈ List.range numbers.length,
      (endings p).outcome.result?.map (⟨p, ·⟩) =
        some (⟨p, answer (numbers.getD p 0)⟩ : Report) := by
    intro p hp
    have hget := List.getElem?_eq_getElem (List.mem_range.mp hp)
    rw [h p _ hget, List.getD_eq_getElem?_getD, hget]
    rfl
  unfold reports sent
  rw [List.filterMap_congr hsome]
  refine List.ext_getElem (by simp) fun p hp hp' => ?_
  have hlt : p < numbers.length := by simpa using hp'
  simp [hlt]

theorem byChild_sent (numbers : List Nat) (answer : Nat → TickResult) :
    Fork.byChild numbers (sent numbers answer) = numbers.map fun i => (i, answer i) := by
  have hsome : ∀ report ∈ sent numbers answer,
      numbers[report.position]?.map (·, report.result) =
        some (numbers.getD report.position 0, report.result) := by
    intro report hmem
    obtain ⟨p, hp, rfl⟩ := List.mem_mapIdx.mp hmem
    simp [hp]
  unfold Fork.byChild
  rw [List.filterMap_congr hsome]
  refine List.ext_getElem (by simp [sent]) fun p hp hp' => ?_
  have hlt : p < numbers.length := by simpa using hp'
  simp [sent, hlt]

/-- The children that go on are those that have answered running. -/
theorem waiting_perm (h : arrived.Perm (sent numbers answer)) :
    (Fork.waiting (Fork.byChild numbers arrived)).Perm
      (numbers.filter fun i => (answer i).isRunning) := by
  have hperm : (Fork.byChild numbers arrived).Perm (numbers.map fun i => (i, answer i)) := by
    rw [← byChild_sent]
    exact h.filterMap _
  have hfilter := (hperm.filter fun entry => entry.2.isRunning).map Prod.fst
  rw [List.filter_map, List.map_map] at hfilter
  have hid : (Prod.fst ∘ fun i : Nat => (i, answer i)) = id := rfl
  rw [hid, List.map_id] at hfilter
  exact hfilter

/-- What the reports leave does not depend on their order. -/
theorem sum_arrived (h : arrived.Perm (sent numbers answer)) :
    (arrived.map fun report => (Load.ofResult report.result : Load L)).sum =
      (numbers.map fun i => Load.ofResult (answer i)).sum := by
  rw [(h.map fun report => (Load.ofResult report.result : Load L)).sum_eq]
  congr 1
  refine List.ext_getElem (by simp [sent]) fun p hp hp' => ?_
  simp [sent]

end Reports

/-! ### One call of a tree -/

/-- Two children of a fork have nothing in common. -/
theorem disjoint_of_nodup {β : Type} {g : ForkTree L → List β} {ts : List (ForkTree L)}
    (h : (ts.flatMap g).Nodup) {i j : Nat} {t s : ForkTree L} (hi : ts[i]? = some t)
    (hj : ts[j]? = some s) (hne : i ≠ j) {x : β} (hx : x ∈ g t) : x ∉ g s := by
  have hpair := (List.nodup_flatMap.mp h).2
  rw [List.pairwise_iff_getElem] at hpair
  obtain ⟨hlti, rfl⟩ := List.getElem?_eq_some_iff.mp hi
  obtain ⟨hltj, rfl⟩ := List.getElem?_eq_some_iff.mp hj
  intro hx'
  rcases Nat.lt_or_gt_of_ne hne with hlt | hlt
  · exact hpair i j hlti hltj hlt hx hx'
  · exact hpair j i hltj hlti hlt hx' hx

theorem getElem?_pick {ts : List (ForkTree L)} {numbers : List Nat}
    (hlt : ∀ i ∈ numbers, i < ts.length) {us : List (ForkTree L)}
    (hus : Fork.pick (ts.map node) numbers = us.map node) (p : Nat) :
    us[p]? = numbers[p]?.bind (ts[·]?) := by
  have hget := @Fork.getElem?_pick _ (ts.map node) numbers (by simpa using hlt) p
  rw [hus, List.getElem?_map] at hget
  refine (Option.map_injective node_injective) (hget.trans ?_)
  cases numbers[p]? with
  | none => rfl
  | some i => exact List.getElem?_map

/-- A leaf of a child is due if the child is, and the leaf in it. -/
theorem mem_due_child {r : Ref .round} {ts : List (ForkTree L)} {numbers : List Nat}
    {loads : Nat → Load L} {errors : List TickError} {failed : Bool} {i : Nat} {s : ForkTree L}
    {l : L}
    (hleaves : (fork r ts).leaves.Nodup) (hlt : ∀ i ∈ numbers, i < ts.length)
    (hpoised : ∀ i s, ts[i]? = some s → Poised s (loads i) w) (hs : ts[i]? = some s)
    (hl : l ∈ s.leaves) :
    l ∈ (Load.collected errors failed + (numbers.map loads).sum).due ↔
      i ∈ numbers ∧ l ∈ (loads i).due := by
  have hsum : l ∈ (Load.collected errors failed + (numbers.map loads).sum).due ↔
      l ∈ (numbers.map loads).sum.due := by
    simp [Load.collected]
  rw [leaves_fork] at hleaves
  rw [hsum, Load.mem_due_sum]
  constructor
  · rintro ⟨f, hf, hdue⟩
    obtain ⟨j, hj, rfl⟩ := List.mem_map.mp hf
    have hu := List.getElem?_eq_getElem (hlt j hj)
    have hlu := (hpoised j _ hu).mem_leaves hdue
    by_cases he : i = j
    · subst he
      exact ⟨hj, hdue⟩
    · exact absurd hlu (disjoint_of_nodup hleaves hs hu he hl)
  · rintro ⟨hi, hdue⟩
    exact ⟨_, List.mem_map_of_mem hi, hdue⟩

section Own

variable {r : Ref .round} {ts : List (ForkTree L)} {s : ForkTree L}

/-- What happens to the cell of a fork leaves its children alone. -/
theorem Spares.of_inside (hown : r ∉ ts.flatMap rounds) (hs : s ∈ ts) (h : World.Inside r w w') :
    s.Spares w w' := by
  refine ⟨fun r' hr' => h.spares fun he => ?_, fun l _ => congrFun h.outside l⟩
  obtain ⟨index⟩ := r
  obtain ⟨index'⟩ := r'
  cases he
  exact hown (List.mem_flatMap.mpr ⟨s, hs, hr'⟩)

/-- What happens beside the children of a fork leaves them alone. -/
theorem Spares.of_beside {others : Others (LeafCalls L) (L → Nat)}
    (hspares : ∀ {w w'}, others.change w w' → (fork r ts).Spares w w')
    (hown : r ∉ ts.flatMap rounds) (hs : s ∈ ts) (h : Fork.Beside others r w w') :
    s.Spares w w' := by
  induction h with
  | refl => exact .refl _ _ w
  | tail _ hstep ih =>
    refine Untouched.trans ih ?_
    rcases hstep with ho | hinside
    · exact Spares.child hs (hspares ho)
    · exact Spares.of_inside hown hs hinside

end Own

section Call

variable [DecidableEq L] {play : L → Nat → TickResult}
  {order : List (Node (LeafCalls L)) → List Report → List Report} {caller : Caller}
  {ending : Ending TickResult} {t : ForkTree L} {f : Load L}

/-- What the next tick of each leaf answers. -/
def answer (play : L → Nat → TickResult) (w : World (LeafCalls L) (L → Nat)) (l : L) : TickResult :=
  play l (w.outside l)

/-- A call plays a round of the load: the leaves due are ticked, each once, and the
result answers what is left. -/
structure Plays (play : L → Nat → TickResult) (t : ForkTree L) (f : Load L)
    (w : World (LeafCalls L) (L → Nat)) (r : TickResult) (w' : World (LeafCalls L) (L → Nat)) :
    Prop where
  result : (f.step (answer play w)).Answers r
  poised : Poised t ((f.step (answer play w)).next t.leaves) w'
  counts : ∀ l ∈ t.leaves, w'.outside l = w.outside l + if l ∈ f.due then 1 else 0

theorem plays_leaf {l : L} {others : Others (LeafCalls L) (L → Nat)}
    (hspares : ∀ {w w'}, others.change w w' → (leaf l).Spares w w')
    (h : (leaf l).node.Ticked (env play) others caller w ending w') :
    ∃ r, ending = .value r ∧ Plays play (leaf l) (.whole {l}) w r w' := by
  obtain ⟨held, w₁, hcall, rfl⟩ := h
  obtain ⟨w₀, _, _, _, ho, hserve, hrest⟩ := (Prog.Among.serve_iff rfl).mp hcall
  cases hserve
  obtain ⟨rfl, rfl, ho'⟩ := Prog.Among.pure_iff.mp hrest
  have hl : l ∈ (leaf l : ForkTree L).leaves := List.mem_singleton.mpr rfl
  have hcount : w₀.outside l = w.outside l := (hspares ho).leaf l hl
  refine ⟨_, rfl, ?_, ?_, fun l' hl' => ?_⟩
  · rw [hcount]
    exact Load.answers_singleton (answer play w) l
  · have hnext : ((Load.whole {l}).step (answer play w)).next (leaf l).leaves = .whole {l} :=
      Load.next_singleton (answer play w) l
    rw [hnext]
    exact .leaf
  · obtain rfl := List.mem_singleton.mp hl'
    rw [World.unlock_nil, (hspares ho').leaf l' hl]
    have hdue : l' ∈ (Load.whole {l'} : Load L).due := Multiset.mem_singleton_self l'
    change Function.update w₀.outside l' (w₀.outside l' + 1) l' = _
    rw [Function.update_self, hcount, if_pos hdue]

/-- A call of a child, whatever others do to the other children before and after. -/
theorem Plays.mono {r : TickResult} {w₀ w₁ : World (LeafCalls L) (L → Nat)}
    (h : Plays play t f w₀ r w₁) (hdue : ∀ l ∈ f.due, l ∈ t.leaves) (hbefore : t.Spares w w₀)
    (hafter : t.Spares w₁ w') : Plays play t f w r w' := by
  have hstep : f.step (answer play w₀) = f.step (answer play w) := by
    refine Load.step_congr fun l hl => ?_
    rw [answer, answer, hbefore.leaf l (hdue l hl)]
  obtain ⟨hresult, hpoised, hcounts⟩ := h
  rw [hstep] at hresult hpoised
  refine ⟨hresult, hpoised.spares hafter, fun l hl => ?_⟩
  rw [hafter.leaf l hl, hcounts l hl, hbefore.leaf l hl]

section Rounds

variable {r : Ref .round} {ts : List (ForkTree L)} {numbers : List Nat} {loads : Nat → Load L}
  {arrived : List Report} {w₁ w₂ : World (LeafCalls L) (L → Nat)}

/-- What a round leaves of the children of a fork: those due have played, and the
others are as they were. -/
structure RoundPlays (play : L → Nat → TickResult) (ts : List (ForkTree L)) (numbers : List Nat)
    (loads : Nat → Load L) (w : World (LeafCalls L) (L → Nat)) (result : Nat → TickResult)
    (w' : World (LeafCalls L) (L → Nat)) : Prop where
  plays : ∀ i ∈ numbers, ∀ s, ts[i]? = some s → Plays play s (loads i) w (result i) w'
  spares : ∀ i s, ts[i]? = some s → i ∉ numbers → s.Spares w w'

/-- Calls of trees play rounds, where forks stand in each other `d` deep. -/
def CallsPlay (play : L → Nat → TickResult)
    (order : List (Node (LeafCalls L)) → List Report → List Report) (d : Nat) : Prop :=
  ∀ {t f caller w ending w'}, Poised t f w → t.rounds.Nodup → t.leaves.Nodup →
    t.node.Ticked (env play) (others play order d t) caller w ending w' →
    ∃ r, ending = .value r ∧ Plays play t f w r w'

/-- The threads of the children due play a round. -/
theorem round_of_joins {d : Nat} (horder : ∀ nodes reports, (order nodes reports).Perm reports)
    (ih : ∀ d', d = d' + 1 → CallsPlay play order d')
    (hrounds : (fork r ts).rounds.Nodup) (hleaves : (fork r ts).leaves.Nodup)
    (hdistinct : numbers.Nodup) (hlt : ∀ i ∈ numbers, i < ts.length)
    (hpoised : ∀ i s, ts[i]? = some s → Poised s (loads i) w)
    (hjoin : joins play order d (fork r ts) w (Fork.pick (ts.map node) numbers) arrived w') :
    World.Spares r w w' ∧ ∃ result, arrived.Perm (sent numbers result) ∧
      RoundPlays play ts numbers loads w result w' := by
  obtain _ | d := d
  · exact hjoin.elim
  obtain ⟨us, endings, hus, rfl, huntouched, hruns⟩ := hjoin
  have hget := getElem?_pick hlt hus
  rw [rounds_fork, List.nodup_cons] at hrounds
  rw [leaves_fork] at hleaves
  have hmem : ∀ {u}, u ∈ us → ∃ i ∈ numbers, ts[i]? = some u := by
    intro u hu
    obtain ⟨p, hp⟩ := List.getElem?_of_mem hu
    rw [hget p, Option.bind_eq_some_iff] at hp
    obtain ⟨i, hi, hu⟩ := hp
    exact ⟨i, List.mem_of_getElem? hi, hu⟩
  -- each child due has one thread, which ends with one result
  have hplays : ∀ i, ∃ result, ∀ p, numbers[p]? = some i → endings p = .value result ∧
      ∀ s, ts[i]? = some s → Plays play s (loads i) w result w' := by
    intro i
    by_cases hi : i ∈ numbers
    · obtain ⟨p, hp⟩ := List.getElem?_of_mem hi
      obtain ⟨s, hs⟩ : ∃ s, ts[i]? = some s := ⟨_, List.getElem?_eq_getElem (hlt i hi)⟩
      have hu : us[p]? = some s := by rw [hget p, hp, Option.bind_some, hs]
      obtain ⟨caller, w₁, hticked, hspares⟩ := hruns p s hu
      have hmems := List.mem_of_getElem? hs
      obtain ⟨result, hending, hplayed⟩ := ih d rfl (hpoised i s hs)
        ((List.nodup_flatMap.mp hrounds.2).1 s hmems) ((List.nodup_flatMap.mp hleaves).1 s hmems)
        hticked
      refine ⟨result, fun p' hp' => ?_⟩
      have hlt : p < numbers.length := (List.getElem?_eq_some_iff.mp hp).1
      obtain rfl := (List.getElem?_inj hlt hdistinct).mp (hp.trans hp'.symm)
      refine ⟨hending, fun s' hs' => ?_⟩
      cases hs.symm.trans hs'
      exact hplayed.mono (fun l => (hpoised i s hs).mem_leaves) (.refl _ _ w) hspares
    · exact ⟨.ok .running, fun p hp => absurd (List.mem_of_getElem? hp) hi⟩
  choose result hresult using hplays
  refine ⟨huntouched.round r ⟨?_, fun u hu hr => ?_⟩, result, ?_, fun i hi s hs => ?_,
    fun i s hs hi => ?_⟩
  · rw [rounds_fork]
    exact List.mem_cons_self
  · obtain ⟨j, -, hu⟩ := hmem hu
    exact hrounds.1 (List.mem_flatMap.mpr ⟨u, List.mem_of_getElem? hu, hr⟩)
  · rw [show us.length = numbers.length from ?_]
    · rw [← reports_eq_sent fun p i hp => (hresult i p hp).1]
      exact horder _ _
    · rw [← List.length_map node, ← hus, Fork.length_pick (by simpa using hlt)]
  · obtain ⟨p, hp⟩ := List.getElem?_of_mem hi
    exact (hresult i p hp).2 s hs
  · refine huntouched.mono (fun r' hr' => ⟨?_, fun u hu => ?_⟩) fun l hl => ⟨?_, fun u hu => ?_⟩
    · rw [rounds_fork]
      exact List.mem_cons_of_mem r (List.mem_flatMap.mpr ⟨s, List.mem_of_getElem? hs, hr'⟩)
    · obtain ⟨j, hj, hu⟩ := hmem hu
      exact disjoint_of_nodup hrounds.2 hs hu (fun he => hi (he ▸ hj)) hr'
    · rw [leaves_fork]
      exact List.mem_flatMap.mpr ⟨s, List.mem_of_getElem? hs, hl⟩
    · obtain ⟨j, hj, hu⟩ := hmem hu
      exact disjoint_of_nodup hleaves hs hu (fun he => hi (he ▸ hj)) hl

/-- A round at the fork plays a round of its load. -/
theorem plays_of_round {errors : List TickError} {failed : Bool} {result : Nat → TickResult}
    (hround : RoundPlays play ts numbers loads w result w')
    (harrived : arrived.Perm (sent numbers result)) (hleaves : (fork r ts).leaves.Nodup)
    (hdistinct : numbers.Nodup) (hlt : ∀ i ∈ numbers, i < ts.length)
    (hpoised : ∀ i s, ts[i]? = some s → Poised s (loads i) w)
    (hwhole : ∀ i s, ts[i]? = some s → i ∉ numbers → loads i = s.whole)
    {ended : Round (LeafCalls L)} (hended : ended = Fork.underWay (ts.map node)
      (Fork.waiting (Fork.byChild numbers arrived)) (errors ++ arrived.filterMap (·.result.error?))
      (failed || arrived.any fun report => report.result matches .ok .failure))
    (hmade : w'.heap.Made r) (hfree : r.lock ∉ w'.locked) (hcell : w'.heap.get r = ended.next) :
    Plays play (fork r ts) (.collected errors failed + (numbers.map loads).sum) w ended.verdict
      w' := by
  subst hended
  have hperm := waiting_perm harrived
  have hreports := (Load.collected_reports (L := L) arrived).trans (sum_arrived harrived)
  have hcollected := (Load.collected_append errors (arrived.filterMap (·.result.error?)) failed
    (arrived.any fun report => report.result matches .ok .failure)).trans
    (congrArg (Load.collected errors failed + ·) hreports)
  generalize Fork.waiting (Fork.byChild numbers arrived) = numbers' at hperm hcell ⊢
  generalize hfailed : (failed || arrived.any fun report => report.result matches .ok .failure) =
    failed' at hcollected hcell ⊢
  generalize herrors : errors ++ arrived.filterMap (·.result.error?) = errors' at hcollected hcell ⊢
  have hmem : ∀ i, i ∈ numbers' ↔ i ∈ numbers ∧ (result i).isRunning := by
    intro i
    rw [hperm.mem_iff, List.mem_filter]
  have hlt' : ∀ i ∈ numbers', i < ts.length := fun i hi => hlt i ((hmem i).mp hi).1
  have hanswers : ∀ i ∈ numbers, ((loads i).step (answer play w)).Answers (result i) :=
    fun i hi => (hround.plays i hi _ (List.getElem?_eq_getElem (hlt i hi))).result
  have hgoes : ∀ i ∈ numbers', ¬ ((loads i).step (answer play w)).IsDone := by
    intro i hi
    obtain ⟨hi, hrunning⟩ := (hmem i).mp hi
    exact (hanswers i hi).isRunning.mp hrunning
  have hleft : (Load.collected errors failed + (numbers.map loads).sum).step (answer play w) =
      Load.collected errors' failed' +
        (numbers'.map fun i => (loads i).step (answer play w)).sum := by
    rw [Load.step_add, Load.step_collected, Load.step_sum, List.map_map, hcollected, add_assoc]
    refine congrArg (Load.collected errors failed + ·) ((Load.sum_split hanswers).trans ?_)
    refine congrArg ((numbers.map fun i => Load.ofResult (result i)).sum + ·) ?_
    exact ((hperm.map fun i => (loads i).step (answer play w)).sum_eq).symm
  have hdone : ((Load.collected errors failed + (numbers.map loads).sum).step
      (answer play w)).IsDone ↔ numbers' = [] := by
    rw [hleft, Load.isDone_add, Load.isDone_sum]
    constructor
    · rintro ⟨-, hall⟩
      refine List.eq_nil_iff_forall_not_mem.mpr fun i hi => ?_
      exact hgoes i hi (hall _ (List.mem_map_of_mem hi))
    · rintro rfl
      exact ⟨rfl, fun _ hf => absurd hf List.not_mem_nil⟩
  -- a child due that is done is poised to begin again, and no longer due
  let loads' := fun i => if i ∈ numbers then
    ((loads i).step (answer play w)).next ((ts[i]?.map leaves).getD []) else loads i
  have hstepped : ∀ i ∈ numbers', loads' i = (loads i).step (answer play w) := by
    intro i hi
    simp only [loads', if_pos ((hmem i).mp hi).1, Load.next, if_neg (hgoes i hi)]
  have hchildren : ∀ i s, ts[i]? = some s → Poised s (loads' i) w' := by
    intro i s hs
    by_cases hi : i ∈ numbers
    · simp only [loads', if_pos hi, hs, Option.map_some, Option.getD_some]
      exact (hround.plays i hi s hs).poised
    · simp only [loads', if_neg hi]
      exact (hpoised i s hs).spares (hround.spares i s hs hi)
  have hbegin : ∀ i s, ts[i]? = some s → i ∉ numbers' → loads' i = s.whole := by
    intro i s hs hi
    by_cases hnumber : i ∈ numbers
    · have hdone : ((loads i).step (answer play w)).IsDone := by
        by_contra hgo
        exact hi ((hmem i).mpr ⟨hnumber, (hanswers i hnumber).isRunning.mpr hgo⟩)
      simp only [loads', if_pos hnumber, hs, Option.map_some, Option.getD_some, Load.next,
        if_pos hdone]
      rfl
    · simp only [loads', if_neg hnumber]
      exact hwhole i s hs hnumber
  refine ⟨?_, ?_, fun l hl => ?_⟩
  · rw [@Fork.verdict_underWay _ (ts.map node) numbers' errors' failed' (by simpa using hlt')]
    by_cases hnone : numbers' = []
    · have hall : (Load.collected errors failed + (numbers.map loads).sum).step (answer play w) =
          Load.collected errors' failed' := by
        rw [hleft, hnone]
        exact add_zero _
      rw [hall, if_pos hnone]
      exact Load.answers_verdict errors' failed'
    · rw [Load.Answers, if_neg (mt hdone.mp hnone), if_neg hnone]
  · have hnext := poised_round loads' hmade hfree hcell (hperm.nodup_iff.mpr (hdistinct.filter _))
      hlt' hchildren hbegin fun i hi => by
        rw [hstepped i hi]
        exact hgoes i hi
    rw [List.map_congr_left hstepped, ← hleft] at hnext
    exact hnext
  · have hl' := hl
    rw [leaves_fork] at hl'
    obtain ⟨s, hmems, hls⟩ := List.mem_flatMap.mp hl'
    obtain ⟨i, hs⟩ := List.getElem?_of_mem hmems
    have hdue := @mem_due_child _ w r ts numbers loads errors failed i s l hleaves hlt hpoised hs
      hls
    by_cases hi : i ∈ numbers
    · rw [(hround.plays i hi s hs).counts l hls]
      simp only [hdue, hi, true_and]
    · rw [(hround.spares i s hs hi).leaf l hls, if_neg fun hl => hi (hdue.mp hl).1, Nat.add_zero]

theorem RoundPlays.mono {result : Nat → TickResult}
    (h : RoundPlays play ts numbers loads w₁ result w₂)
    (hpoised : ∀ i s, ts[i]? = some s → Poised s (loads i) w₁)
    (hbefore : ∀ s ∈ ts, s.Spares w w₁) (hafter : ∀ s ∈ ts, s.Spares w₂ w') :
    RoundPlays play ts numbers loads w result w' where
  plays := fun i hi s hs =>
    have hmem := List.mem_of_getElem? hs
    (h.plays i hi s hs).mono (fun _ => (hpoised i s hs).mem_leaves) (hbefore s hmem)
      (hafter s hmem)
  spares := fun i s hs hi =>
    have hmem := List.mem_of_getElem? hs
    ((hbefore s hmem).trans (h.spares i s hs hi)).trans (hafter s hmem)

theorem callsPlay_of_ih {d : Nat} (horder : ∀ nodes reports, (order nodes reports).Perm reports)
    (ih : ∀ d', d = d' + 1 → CallsPlay play order d') : CallsPlay play order d := by
  intro t f caller w ending w' hpoised hrounds hleaves hticked
  cases hpoised with
  | leaf => exact plays_leaf id hticked
  | @fork r ts _ numbers errors failed loads hmade hfree hcell hdistinct hlt hchildren hwhole =>
    obtain ⟨held, w₃, hcall, rfl⟩ := hticked
    have hr : r ∈ (fork r ts).rounds := by
      rw [rounds_fork]
      exact List.mem_cons_self
    have hown : r ∉ ts.flatMap rounds := by
      rw [rounds_fork, List.nodup_cons] at hrounds
      exact hrounds.1
    change (Fork.run r (nodes ts)).Among _ _ _ _ _ _ _ _ at hcall
    rw [nodes_eq] at hcall
    obtain ⟨ended, w₁, w₂, hbefore, hmade₁, hplayed, rfl, rfl, hafter, hkept, hfree'⟩ :=
      Fork.of_among_run (fun ho => Untouched.round ho r hr) hmade hfree hcell hcall
    have hbefore' : ∀ s ∈ ts, s.Spares w w₁ := fun s hs => .of_beside id hown hs hbefore
    have hafter' : ∀ s ∈ ts, s.Spares w₂ w₃ := fun s hs => .of_beside id hown hs hafter
    have hchildren₁ : ∀ i s, ts[i]? = some s → Poised s (loads i) w₁ := fun i s hs =>
      (hchildren i s hs).spares (hbefore' s (List.mem_of_getElem? hs))
    have hltnodes : ∀ i ∈ numbers, i < (ts.map node).length := by simpa using hlt
    have hlength := Fork.length_pick hltnodes
    obtain ⟨hcell₂, arrived, result, harrived, hround, hended⟩ : World.Spares r w₁ w₂ ∧
        ∃ arrived result, arrived.Perm (sent numbers result) ∧
          RoundPlays play ts numbers loads w₁ result w₂ ∧
          ended = Fork.underWay (ts.map node) (Fork.waiting (Fork.byChild numbers arrived))
            (errors ++ arrived.filterMap (·.result.error?))
            (failed || arrived.any fun report => report.result matches .ok .failure) := by
      by_cases hnone : (Fork.underWay (ts.map node) numbers errors failed).remaining = []
      · rw [if_pos hnone] at hplayed
        obtain ⟨rfl, rfl⟩ := hplayed
        obtain rfl : numbers = [] := by
          rw [← List.length_eq_zero_iff, ← hlength]
          exact List.length_eq_zero_iff.mpr hnone
        refine ⟨.refl r _, [], fun _ => .ok .running, .nil, ⟨fun _ hi => absurd hi List.not_mem_nil,
          fun _ _ _ _ => .refl _ _ _⟩, ?_⟩
        simp [Fork.waiting, Fork.byChild, Fork.ticking, Fork.underWay, Fork.pick]
      · rw [if_neg hnone] at hplayed
        obtain ⟨arrived, hjoin, rfl⟩ := hplayed
        obtain ⟨hcell₂, result, harrived, hround⟩ :=
          round_of_joins horder ih hrounds hleaves hdistinct hlt hchildren₁ hjoin
        refine ⟨hcell₂, arrived, result, harrived, hround, ?_⟩
        have hall : arrived.length = numbers.length := by
          rw [harrived.length_eq, sent, List.length_mapIdx]
        have hknown : ∀ report ∈ arrived, report.position < numbers.length := by
          intro report hreport
          obtain ⟨p, hp, rfl⟩ := List.mem_mapIdx.mp (harrived.mem_iff.mp hreport)
          exact hp
        have herrors : Fork.Note.errors ⟨Fork.pick (ts.map node) numbers, arrived⟩ =
            arrived.filterMap (·.result.error?) := by
          simp [Fork.Note.errors, hlength, hall]
        exact (Fork.absorb_underWay hltnodes hknown).trans (congrArg (fun arrivedErrors =>
          Fork.underWay (ts.map node) (Fork.waiting (Fork.byChild numbers arrived))
            (errors ++ arrivedErrors) _) herrors)
    obtain ⟨hmade₃, hcell₃⟩ := hkept (hcell₂.made hmade₁)
    rw [World.unlock_nil]
    exact ⟨_, rfl, plays_of_round (hround.mono hchildren₁ hbefore' hafter') harrived hleaves
      hdistinct hlt hchildren hwhole hended hmade₃ hfree' hcell₃⟩

/-- **A call of a tree plays a round of its load.** -/
theorem callsPlay (horder : ∀ nodes reports, (order nodes reports).Perm reports) (d : Nat) :
    CallsPlay play order d := by
  induction d with
  | zero => exact callsPlay_of_ih horder fun d' he => absurd he (Nat.succ_ne_zero d').symm
  | succ d ih =>
    refine callsPlay_of_ih horder fun d' he => ?_
    cases he
    exact ih

end Rounds

end Call

end ForkTree

end TickTree
