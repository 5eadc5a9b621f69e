/-
# Children with marks

A tick may be run against children, or against the same children with marks on them,
each of which raises a flag when the tick of the child inside succeeds. Nothing else
changes: what is seen is the same up to the marks, and the cells are left the same up
to the flag and the marks on nodes that are kept in them. That holds whichever of the
two runs is the one that is given, and in rounds of nodes ticked in parallel too, where
other lanes may go on between a success and the raising of the flag.

Two programs that differ in this way are put side by side request by request
(`Prog.Sim`). A lane whose child has succeeded owes the flag until it has raised it.

Key definitions: `Node.mark`, `Family.Wraps`, `UpToMarks`, `Prog.Sim`, `Event.mark`.
Key theorems: `Request.Matches.served`, `Family.Wraps.call`, `UpToMarks.interleaves`,
`Prog.Sim.performs_marked`, `Prog.Sim.performs_unmarked`.
-/
import TickTree.Proofs.Family
import Mathlib.Data.Option.Defs

namespace TickTree

variable {J : Interface} {C T σ α β : Type}

/-! ### Marks -/

/-- The node with a mark on the child inside. -/
def Node.mark {I : Interface} (flag : Ref .flag) : Node I → Node I
  | memorized record node => memorized record (node.mark flag)
  | flagged other node => flagged other (node.mark flag)
  | node => flagged flag node
termination_by structural node => node

/-- A cycle with marks on its children. -/
def Round.mark {I : Interface} (flag : Ref .flag) (r : Round I) : Round I :=
  { r with remaining := r.remaining.map (Node.mark flag) }

/-- A child in wrappings that do not bear this flag. -/
inductive Family.Wraps (flag : Ref .flag) : Node (Family J C T) → Prop
  | child (c : C) : Wraps flag (node c)
  | memorized {record : Ref .record} {node} : Wraps flag node → Wraps flag (.memorized record node)
  | flagged {other : Ref .flag} {node} : other ≠ flag → Wraps flag node →
      Wraps flag (.flagged other node)

/-- The second state is the first with marks on the nodes in it. -/
def CellKind.Marks (flag : Ref .flag) :
    (kind : CellKind) → kind.State (Family J C T) → kind.State (Family J C T) → Prop
  | .execution, (open? : Option (List (Node (Family J C T)))), marked =>
    marked = open?.map (List.map (Node.mark flag)) ∧
      ∀ nodes ∈ open?, ∀ node ∈ nodes, Family.Wraps flag node
  | .round, (r : Round (Family J C T)), marked =>
    marked = r.mark flag ∧ ∀ node ∈ r.remaining, Family.Wraps flag node
  | _, state, marked => marked = state

/-- What a cell holds without marks and with them: nodes have marks in cells with one of
these locks only. -/
structure Held (flag : Ref .flag) (mine : Lock → Prop) {kind : CellKind} (s : Ref kind)
    (state marked : kind.State (Family J C T)) : Prop where
  marks : mine s.lock → kind.Marks flag state marked
  same : ¬ mine s.lock → marked = state

/-- Two worlds that differ in the marks on nodes in these cells, and in the flag, which
is raised in the second or not. -/
structure UpToMarks (flag : Ref .flag) (mine : Lock → Prop) (raised : Bool)
    (w w' : World (Family J C T) σ) : Prop where
  outside : w'.outside = w.outside
  locked : w'.locked = w.locked
  size : ∀ kind, (w'.heap.table kind).size = (w.heap.table kind).size
  made : w'.heap.Made flag
  up : w'.heap.get flag = raised
  cell : ∀ {kind : CellKind} {s : Ref kind}, s.lock ≠ flag.lock →
    Held flag mine s (w.heap.get s) (w'.heap.get s)

theorem Heap.size_set {I : Interface} {kind other : CellKind} (h : Heap I) (r : Ref kind)
    (state : kind.State I) : ((h.set r state).table other).size = (h.table other).size := by
  by_cases hkind : kind = other
  · subst hkind
    simp [set]
  · simp [set, hkind]

/-- A cell that was not made cannot be set. -/
theorem Heap.get_set_of_not_made {I : Interface} {kind : CellKind} {h : Heap I} {r : Ref kind}
    (hr : ¬ h.Made r) (state : kind.State I) : (h.set r state).get r = h.get r := by
  rw [get_of_not_made hr, get_of_not_made (mt (made_set state).mp hr)]

theorem Ref.eq_of_lock_eq {kind : CellKind} {r s : Ref kind} (h : r.lock = s.lock) : r = s :=
  Ref.lock_injective h

namespace UpToMarks

variable {flag : Ref .flag} {mine : Lock → Prop} {raised : Bool} {w w' : World (Family J C T) σ}

theorem made_iff (h : UpToMarks flag mine raised w w') {kind : CellKind} (s : Ref kind) :
    w'.heap.Made s ↔ w.heap.Made s := by
  unfold Heap.Made
  rw [h.size]

theorem unlock (h : UpToMarks flag mine raised w w') (held : List Lock) :
    UpToMarks flag mine raised (w.unlock held) (w'.unlock held) := by
  refine ⟨h.outside, ?_, h.size, h.made, h.up, h.cell⟩
  unfold World.unlock
  rw [h.locked]

/-- The flag is set, in the world that has it. -/
theorem set_flag (h : UpToMarks flag mine raised w w') (raised' : Bool) :
    UpToMarks flag mine raised' w { w' with heap := w'.heap.set flag raised' } := by
  refine ⟨h.outside, h.locked, fun kind => (Heap.size_set _ _ _).trans (h.size kind),
    (Heap.made_set _).mpr h.made, Heap.get_set h.made _, fun {kind s} hs => ?_⟩
  have hget : (w'.heap.set flag raised').get s = w'.heap.get s :=
    Heap.get_set_of_lock_ne (fun he => hs he.symm) _ _
  exact hget.symm ▸ h.cell hs

/-- Any other cell is set, in both. -/
theorem set (h : UpToMarks flag mine raised w w') {kind : CellKind} {r : Ref kind}
    {state marked : kind.State (Family J C T)} (hr : r.lock ≠ flag.lock)
    (hstate : Held flag mine r state marked) :
    UpToMarks flag mine raised { w with heap := w.heap.set r state }
      { w' with heap := w'.heap.set r marked } := by
  refine ⟨h.outside, h.locked, fun kind => ?_, (Heap.made_set _).mpr h.made, ?_,
    fun {kind' s} hs => ?_⟩
  · exact (Heap.size_set _ _ _).trans ((h.size kind).trans (Heap.size_set _ _ _).symm)
  · exact (Heap.get_set_of_lock_ne hr _ _).trans h.up
  · by_cases hsame : r.lock = s.lock
    · obtain rfl : kind = kind' := congrArg Lock.kind hsame
      obtain rfl := Ref.eq_of_lock_eq hsame
      by_cases hmade : w.heap.Made r
      · change Held flag mine r ((w.heap.set r state).get r) ((w'.heap.set r marked).get r)
        rw [Heap.get_set hmade, Heap.get_set ((h.made_iff r).mpr hmade)]
        exact hstate
      · change Held flag mine r ((w.heap.set r state).get r) ((w'.heap.set r marked).get r)
        rw [Heap.get_set_of_not_made hmade, Heap.get_set_of_not_made (mt (h.made_iff r).mp hmade)]
        exact h.cell hs
    · change Held flag mine s ((w.heap.set r state).get s) ((w'.heap.set r marked).get s)
      rw [Heap.get_set_of_lock_ne hsame, Heap.get_set_of_lock_ne hsame]
      exact h.cell hs

/-- A cell is made, in both. -/
theorem alloc (h : UpToMarks flag mine raised w w') (kind : CellKind) :
    (w'.heap.alloc kind).1 = (w.heap.alloc kind).1 ∧
      (w.heap.alloc kind).1.lock ≠ flag.lock ∧
      UpToMarks flag mine raised { w with heap := (w.heap.alloc kind).2 }
        { w' with heap := (w'.heap.alloc kind).2 } := by
  refine ⟨congrArg Ref.mk (h.size kind), fun he => ?_, h.outside, h.locked, fun other => ?_,
    Heap.made_alloc_of_made h.made kind, (Heap.get_alloc _ kind flag).trans h.up,
    fun {kind' s} hs => ?_⟩
  · obtain rfl : kind = .flag := congrArg Lock.kind he
    obtain rfl := Ref.eq_of_lock_eq he
    exact Nat.lt_irrefl _ ((h.made_iff _).mp h.made)
  · by_cases hkind : kind = other
    · subst hkind
      simp [Heap.alloc, h.size]
    · simp [Heap.alloc, hkind, h.size]
  · change Held flag mine s ((w.heap.alloc kind).2.get s) ((w'.heap.alloc kind).2.get s)
    rw [Heap.get_alloc, Heap.get_alloc]
    exact h.cell hs

end UpToMarks

/-! ### Requests side by side -/

/-- A request and the same with marks, and how their answers differ. -/
inductive Request.Matches (flag : Ref .flag) (mine : Lock → Prop) :
    (r r' : Request (Family J C T)) → (r.Reply → r'.Reply → Prop) → Prop
  | ask {query : (Family J C T).Query} : Matches flag mine (.ask query) (.ask query) Eq
  | read {kind : CellKind} {s : Ref kind} : s.lock ≠ flag.lock →
      Matches flag mine (.read kind s) (.read kind s) (Held flag mine s)
  | swap {kind : CellKind} {s : Ref kind} {state marked : kind.State (Family J C T)} :
      s.lock ≠ flag.lock → Held flag mine s state marked →
      Matches flag mine (.swap kind s state) (.swap kind s marked) (Held flag mine s)
  | alloc {kind : CellKind} :
      Matches flag mine (.alloc kind) (.alloc kind) fun s s' => s' = s ∧ s.lock ≠ flag.lock
  | acquire {kind : CellKind} {s : Ref kind} :
      Matches flag mine (.acquire kind s) (.acquire kind s) fun _ _ => True
  | release {kind : CellKind} {s : Ref kind} :
      Matches flag mine (.release kind s) (.release kind s) fun _ _ => True

namespace Request.Matches

variable {flag : Ref .flag} {mine : Lock → Prop} {raised : Bool}
  {env : Environment (Family J C T) σ} {caller : Caller} {held held₁ : List Lock}
  {w w₁ w' w₁' : World (Family J C T) σ}
  {r r' : Request (Family J C T)} {Q : r.Reply → r'.Reply → Prop}

/-- Both are served or none is, in worlds that are alike, which they stay. -/
theorem served (hr : r.Matches flag mine r' Q) (hw : UpToMarks flag mine raised w w')
    (env : Environment (Family J C T) σ) (caller : Caller) (held : List Lock) :
    Option.Rel (fun x x' => Q x.1 x'.1 ∧ x'.2.1 = x.2.1 ∧ UpToMarks flag mine raised x.2.2 x'.2.2 ∧
        r'.said x'.1 = r.said x.1)
      (w.serve env caller held r) (w'.serve env caller held r') := by
  cases hr with
  | @ask query =>
    have hserve : ∀ w : World (Family J C T) σ, w.serve env caller held (.ask query) =
        (env.answer caller query w.outside).map fun x => (x.1, held, { w with outside := x.2 }) :=
      fun _ => rfl
    rw [hserve, hserve, hw.outside]
    cases env.answer caller query w.outside with
    | none => exact .none
    | some x => exact .some ⟨rfl, rfl, ⟨rfl, hw.locked, hw.size, hw.made, hw.up, hw.cell⟩, rfl⟩
  | read hs => exact .some ⟨hw.cell hs, rfl, hw, rfl⟩
  | swap hs hstate => exact .some ⟨hw.cell hs, rfl, hw.set hs hstate, rfl⟩
  | @alloc kind =>
    obtain ⟨href, hne, hmarks⟩ := hw.alloc kind
    exact .some ⟨⟨href, hne⟩, rfl, hmarks, rfl⟩
  | @acquire kind s =>
    by_cases hfree : s.lock ∈ w.locked
    · have hserve : ∀ w : World (Family J C T) σ, s.lock ∈ w.locked →
          w.serve env caller held (.acquire kind s) = none := by
        intro w hmem
        simp [World.serve, hmem]
      rw [hserve w hfree, hserve w' (hw.locked.symm ▸ hfree)]
      exact .none
    · rw [World.serve_acquire_hold hfree, World.serve_acquire_hold (hw.locked.symm ▸ hfree)]
      refine .some ⟨trivial, rfl, ⟨hw.outside, ?_, hw.size, hw.made, hw.up, hw.cell⟩, rfl⟩
      exact congrArg (s.lock :: ·) hw.locked
  | @release kind s => exact .some ⟨trivial, rfl, hw.unlock [s.lock], rfl⟩

theorem isServed (hr : r.Matches flag mine r' Q) : r.isServed ∧ r'.isServed := by
  cases hr with
  | _ => exact ⟨rfl, rfl⟩

theorem serve (hr : r.Matches flag mine r' Q) (hw : UpToMarks flag mine raised w w') {x : r.Reply}
    (hserve : w.serve env caller held r = some (x, held₁, w₁)) :
    ∃ x' w₁', w'.serve env caller held r' = some (x', held₁, w₁') ∧ Q x x' ∧
      UpToMarks flag mine raised w₁ w₁' ∧ r'.said x' = r.said x := by
  have h := hr.served hw env caller held
  rw [hserve] at h
  generalize hserve' : w'.serve env caller held r' = served' at h
  cases h with
  | @some _ x' h =>
    obtain ⟨x', held', w₁'⟩ := x'
    obtain ⟨hx, rfl, hw₁, hsaid⟩ := h
    exact ⟨x', w₁', rfl, hx, hw₁, hsaid⟩

theorem serve_back (hr : r.Matches flag mine r' Q) (hw : UpToMarks flag mine raised w w')
    {x' : r'.Reply} (hserve : w'.serve env caller held r' = some (x', held₁, w₁')) :
    ∃ x w₁, w.serve env caller held r = some (x, held₁, w₁) ∧ Q x x' ∧
      UpToMarks flag mine raised w₁ w₁' ∧ r'.said x' = r.said x := by
  have h := hr.served hw env caller held
  rw [hserve] at h
  generalize hserve' : w.serve env caller held r = served at h
  cases h with
  | @some x _ h =>
    obtain ⟨x, held', w₁⟩ := x
    obtain ⟨hx, rfl, hw₁, hsaid⟩ := h
    exact ⟨x, w₁, rfl, hx, hw₁, hsaid⟩

end Request.Matches

/-! ### Successes -/

/-- The call has returned success. -/
def Outcome.succeeds : Outcome → Bool
  | .returned (.ok .success) => true
  | _ => false

/-- The tick of a child was called and has returned success. -/
def Said.succeeds : Said (Family J C T) → Bool
  | ⟨.call _ _, (outcome : Outcome)⟩ => outcome.succeeds
  | _ => false

/-- The tick of a child has returned success in its lane. -/
def Beat.succeeds : Beat (Family J C T) → Bool
  | .said _ entry => entry.succeeds
  | .ended _ _ => false

/-- The tick of a child that was ticked has returned success. -/
def Event.succeeds : Event (Family J C T) → Bool
  | .said _ => false
  | .turn taken => taken.talk.any Said.succeeds
  | .round _ beats => beats.any Beat.succeeds

/-- What is seen of a program, with marks on the nodes that it ticks. -/
def Event.mark {I : Interface} (flag : Ref .flag) : Event I → Event I
  | .said entry => .said entry
  | .turn taken => .turn { taken with node := taken.node.mark flag }
  | .round nodes beats => .round (nodes.map (Node.mark flag)) beats

theorem any_succeeds_call (c : C) (t : T) (outcome : Outcome) :
    ((Request.ask (.call c t) : Request (Family J C T)).said outcome).any Said.succeeds =
      outcome.succeeds :=
  Bool.or_false _

theorem any_succeeds_said {r : Request (Family J C T)} (hr : ∀ c t, r ≠ .ask (.call c t))
    (reply : r.Reply) : (r.said reply).any Said.succeeds = false := by
  cases r with
  | ask query =>
    cases query with
    | call c t => exact absurd rfl (hr c t)
    | other | expand => rfl
  | _ => rfl

/-! ### Programs side by side -/

/-- The second program does the same as the first with marks on the nodes. In the turn of
a child it raises the flag besides, once the tick of the child has returned success;
the index tells whether it owes that now. -/
inductive Prog.Sim (flag : Ref .flag) (mine : Lock → Prop) (inTurn : Bool) {α β : Type}
    (R : α → β → Prop) : Bool → Prog (Family J C T) α → Prog (Family J C T) β → Prop
  | pure {a b} : R a b → Sim flag mine inTurn R false (.pure a) (.pure b)
  | serve {r r' : Request (Family J C T)} {Q next next'} : r.Matches flag mine r' Q →
      (inTurn → ∀ c t, r ≠ .ask (.call c t)) →
      (∀ x x', Q x x' → Sim flag mine inTurn R false (next x) (next' x')) →
      Sim flag mine inTurn R false (.request r next) (.request r' next')
  | call {c : C} {t : T} {next : Outcome → Prog (Family J C T) α}
      {next' : Outcome → Prog (Family J C T) β} : inTurn →
      (∀ outcome, Sim flag mine inTurn R outcome.succeeds (next outcome) (next' outcome)) →
      Sim flag mine inTurn R false (.request (.ask (.call c t)) next)
        (.request (.ask (.call c t)) next')
  | raise {p q} : Sim flag mine inTurn R false p q →
      Sim flag mine inTurn R true p (.request (.swap .flag flag true) fun _ => q)
  | tick {node : Node (Family J C T)} {next next'} : inTurn = false → Family.Wraps flag node →
      (∀ result, Sim flag mine inTurn R false (next result) (next' result)) →
      Sim flag mine inTurn R false (.request (.tick node) next)
        (.request (.tick (node.mark flag)) next')
  | parallel {nodes : List (Node (Family J C T))} {next next'} : inTurn = false →
      (∀ node ∈ nodes, Family.Wraps flag node) →
      (∀ reports, Sim flag mine inTurn R false (next reports) (next' reports)) →
      Sim flag mine inTurn R false (.request (.parallel nodes) next)
        (.request (.parallel (nodes.map (Node.mark flag))) next')
  | panic {payload : Payload} {next next'} :
      Sim flag mine inTurn R false (.request (.panic payload) next)
        (.request (.panic payload) next')

namespace Prog.Sim

variable {flag : Ref .flag} {mine : Lock → Prop} {inTurn owes raised : Bool}
  {env : Environment (Family J C T) σ} {caller : Caller} {held held' : List Lock}
  {w w₁ w' w₁' : World (Family J C T) σ}

theorem bind {α' β' : Type} {R : α → β → Prop} {R' : α' → β' → Prop} {p : Prog (Family J C T) α}
    {q : Prog (Family J C T) β} {f : α → Prog (Family J C T) α'} {g : β → Prog (Family J C T) β'}
    (h : p.Sim flag mine inTurn R owes q)
    (hf : ∀ a b, R a b → (f a).Sim flag mine inTurn R' false (g b)) :
    (p.bind f).Sim flag mine inTurn R' owes (q.bind g) := by
  induction h with
  | pure hab => exact hf _ _ hab
  | serve hr hcall _ ih => exact .serve hr hcall ih
  | call hin _ ih => exact .call hin ih
  | raise _ ih => exact .raise ih
  | tick hin hnode _ ih => exact .tick hin hnode ih
  | parallel hin hnodes _ ih => exact .parallel hin hnodes ih
  | panic => exact .panic

/-- What is said in a turn does not depend on the marks, and the flag is raised besides
if the tick of the child succeeds. -/
theorem speaks_marked {p q : Prog (Family J C T) α} {talk : List (Said (Family J C T))}
    {ending : Ending α} (h : p.Sim flag mine true Eq owes q) (hw : UpToMarks flag mine raised w w')
    (hp : p.Speaks env Eq caller held w talk ending held' w₁) :
    ∃ w₁', q.Speaks env Eq caller held w' talk ending held' w₁' ∧
      UpToMarks flag mine (raised || owes || talk.any Said.succeeds) w₁ w₁' := by
  induction h generalizing raised held w w' talk with
  | pure hab =>
    subst hab
    obtain ⟨rfl, rfl, rfl, rfl⟩ := Prog.Speaks.pure_iff.mp hp
    exact ⟨w', .pure rfl, by simpa using hw⟩
  | panic =>
    obtain ⟨rfl, rfl, rfl, rfl⟩ := Prog.Speaks.panic_iff.mp hp
    exact ⟨w', .panic rfl, by simpa using hw⟩
  | @serve r r' Q next next' hr hcall _ ih =>
    obtain ⟨_, x, held₁, w₁, talk, rfl, hserve, hnext, rfl⟩ :=
      (Speaks.serve_iff hr.isServed.1).mp hp
    obtain ⟨x', w₁', hserve', hx, hw₁, hsaid⟩ := hr.serve hw hserve
    obtain ⟨w₂', hq, hw₂⟩ := ih x x' hx hw₁ hnext
    rw [List.any_append, any_succeeds_said (hcall rfl) x, Bool.false_or, ← hsaid]
    exact ⟨w₂', .serve rfl hserve' hq, hw₂⟩
  | @call c t next next' _ _ ih =>
    have hask : (Request.ask (.call c t) : Request (Family J C T)).Matches flag mine
        (.ask (.call c t)) Eq := .ask
    obtain ⟨_, outcome, held₁, w₁, talk, rfl, hserve, hnext, rfl⟩ := (Speaks.serve_iff rfl).mp hp
    obtain ⟨_, w₁', hserve', rfl, hw₁, -⟩ := hask.serve hw hserve
    obtain ⟨w₂', hq, hw₂⟩ := ih outcome hw₁ hnext
    refine ⟨w₂', .serve rfl hserve' hq, ?_⟩
    rw [Bool.or_false, List.any_append, any_succeeds_call c t outcome, ← Bool.or_assoc]
    exact hw₂
  | raise _ ih =>
    obtain ⟨w₁', hq, hw₁⟩ := ih (hw.set_flag true) hp
    exact ⟨w₁', .serve rfl rfl hq, by simpa using hw₁⟩
  | tick hin => cases hin
  | parallel hin => cases hin

theorem speaks_unmarked {p q : Prog (Family J C T) α} {talk : List (Said (Family J C T))}
    {ending : Ending α} (h : p.Sim flag mine true Eq owes q) (hw : UpToMarks flag mine raised w w')
    (hq : q.Speaks env Eq caller held w' talk ending held' w₁') :
    ∃ w₁, p.Speaks env Eq caller held w talk ending held' w₁ ∧
      UpToMarks flag mine (raised || owes || talk.any Said.succeeds) w₁ w₁' := by
  induction h generalizing raised held w w' talk with
  | pure hab =>
    subst hab
    obtain ⟨rfl, rfl, rfl, rfl⟩ := Prog.Speaks.pure_iff.mp hq
    exact ⟨w, .pure rfl, by simpa using hw⟩
  | panic =>
    obtain ⟨rfl, rfl, rfl, rfl⟩ := Prog.Speaks.panic_iff.mp hq
    exact ⟨w, .panic rfl, by simpa using hw⟩
  | @serve r r' Q next next' hr hcall _ ih =>
    obtain ⟨_, x', held₁, w₁', talk, rfl, hserve', hnext, rfl⟩ :=
      (Speaks.serve_iff hr.isServed.2).mp hq
    obtain ⟨x, w₁, hserve, hx, hw₁, hsaid⟩ := hr.serve_back hw hserve'
    obtain ⟨w₂, hp, hw₂⟩ := ih x x' hx hw₁ hnext
    rw [List.any_append, hsaid, any_succeeds_said (hcall rfl) x, Bool.false_or]
    exact ⟨w₂, .serve rfl hserve hp, hw₂⟩
  | @call c t next next' _ _ ih =>
    have hask : (Request.ask (.call c t) : Request (Family J C T)).Matches flag mine
        (.ask (.call c t)) Eq := .ask
    obtain ⟨_, _, held₁, w₁', talk, rfl, hserve', hnext, rfl⟩ := (Speaks.serve_iff rfl).mp hq
    obtain ⟨outcome, w₁, hserve, rfl, hw₁, -⟩ := hask.serve_back hw hserve'
    obtain ⟨w₂, hp, hw₂⟩ := ih outcome hw₁ hnext
    refine ⟨w₂, .serve rfl hserve hp, ?_⟩
    rw [Bool.or_false, List.any_append, any_succeeds_call c t outcome, ← Bool.or_assoc]
    exact hw₂
  | raise _ ih =>
    obtain ⟨_, _, held₁, w₂', talk, rfl, hserve, hnext, rfl⟩ := (Speaks.serve_iff rfl).mp hq
    cases hserve
    obtain ⟨w₁, hp, hw₁⟩ := ih (hw.set_flag true) hnext
    exact ⟨w₁, hp, by simpa using hw₁⟩
  | tick hin => cases hin
  | parallel hin => cases hin

end Prog.Sim

/-! ### A turn of a child -/

/-- Cells of other kinds keep no nodes. -/
theorem Held.iff_eq {flag : Ref .flag} {mine : Lock → Prop} {kind : CellKind} {s : Ref kind}
    {state marked : kind.State (Family J C T)} (hexecution : kind ≠ .execution)
    (hround : kind ≠ .round) : Held flag mine s state marked ↔ marked = state := by
  have hmarks : kind.Marks flag state marked ↔ marked = state := by
    cases kind with
    | execution => exact absurd rfl hexecution
    | round => exact absurd rfl hround
    | _ => exact Iff.rfl
  constructor
  · intro h
    by_cases hmine : mine s.lock
    · exact hmarks.mp (h.marks hmine)
    · exact h.same hmine
  · exact fun he => ⟨fun _ => hmarks.mpr he, fun _ => he⟩

theorem Held.unmarked {flag : Ref .flag} {mine : Lock → Prop} {kind : CellKind} {s : Ref kind}
    {state : kind.State (Family J C T)} (hexecution : kind ≠ .execution) (hround : kind ≠ .round) :
    Held flag mine s state state :=
  (iff_eq hexecution hround).mpr rfl

/-- What a node and the same with marks expand to. -/
inductive Expands (flag : Ref .flag) (mine : Lock → Prop) :
    Option (Tick (Family J C T)) × List (Node (Family J C T)) →
      Option (Tick (Family J C T)) × List (Node (Family J C T)) → Prop
  | none {children} : Expands flag mine (none, children) (none, children)
  | some {t t' : Tick (Family J C T)} {children} :
      (t.run children).Sim flag mine true Eq false (t'.run children) →
      Expands flag mine (some t, children) (some t', children)

section

variable {flag : Ref .flag} {mine : Lock → Prop} {inTurn : Bool}
  {p q : Prog (Family J C T) TickResult}

theorem Memorize.sim_record (record : Ref .record) (h : p.Sim flag mine inTurn Eq false q) :
    (Memorize.record record p).Sim flag mine inTurn Eq false (Memorize.record record q) := by
  refine h.bind fun result _ he => ?_
  subst he
  have hlock := Ref.lock_ne (by decide) record flag
  change Prog.Sim flag mine inTurn Eq false (if !result.isRunning then _ else _)
    (if !result.isRunning then _ else _)
  split
  · exact .serve (.swap hlock (.unmarked (by decide) (by decide))) (fun _ _ _ => nofun)
      fun _ _ _ => .pure rfl
  · exact .pure rfl

theorem AnySuccess.sim_note {other : Ref .flag} (hother : other ≠ flag)
    (h : p.Sim flag mine inTurn Eq false q) :
    (AnySuccess.note other p).Sim flag mine inTurn Eq false (AnySuccess.note other q) := by
  refine h.bind fun result _ he => ?_
  subst he
  have hlock : other.lock ≠ flag.lock := fun he => hother (Ref.eq_of_lock_eq he)
  match result with
  | .ok .success =>
    exact .serve (.swap hlock (.unmarked (by decide) (by decide))) (fun _ _ _ => nofun)
      fun _ _ _ => .pure rfl
  | .ok .running | .ok .failure | .error e => exact .pure rfl

/-- The mark on a child raises the flag if its tick succeeds. -/
theorem Family.sim_call (c : C) (t : T) :
    (call c t : Prog (Family J C T) TickResult).Sim flag mine true Eq false
      (AnySuccess.note flag (call c t)) := by
  refine .call rfl fun outcome => ?_
  match outcome with
  | .returned (.ok .success) => exact .raise (.pure rfl)
  | .returned (.ok .running) | .returned (.ok .failure) | .returned (.error e) => exact .pure rfl
  | .panicked payload => exact .panic

theorem Family.Wraps.expand {node : Node (Family J C T)} (h : Wraps flag node) :
    node.expand.Sim flag mine inTurn (Expands flag mine) false (node.mark flag).expand := by
  induction h with
  | child c =>
    refine .serve .ask (fun _ _ _ => nofun) fun (reply : Option T × Nat) _ he => ?_
    subst he
    obtain ⟨t?, n⟩ := reply
    cases t? with
    | none => exact .pure .none
    | some t =>
      refine .pure (.some ?_)
      change ((Family.tick c t).run _).Sim flag mine true Eq false
        (AnySuccess.note flag ((Family.tick c t).run _))
      rw [Family.run_tick]
      exact Family.sim_call c t
  | @memorized record node _ ih =>
    refine ih.bind fun expansion expansion' he => ?_
    refine .serve (.read (Ref.lock_ne (by decide) record flag)) (fun _ _ _ => nofun)
      fun _ (recorded : Option TickResult) hr => ?_
    obtain rfl := (Held.iff_eq (by decide) (by decide)).mp hr
    cases recorded with
    | some result =>
      cases he with
      | none | some _ => exact .pure (.some (.pure rfl))
    | none =>
      cases he with
      | none => exact .pure .none
      | some hrun => exact .pure (.some (Memorize.sim_record record hrun))
  | @flagged other node hother _ ih =>
    refine ih.bind fun expansion expansion' he => ?_
    cases he with
    | none => exact .pure .none
    | some hrun => exact .pure (.some (AnySuccess.sim_note hother hrun))

/-- **A turn of a child** with marks and without. -/
theorem Family.Wraps.call {node : Node (Family J C T)} (h : Wraps flag node) :
    node.call.Sim flag mine true Eq false (node.mark flag).call := by
  refine h.expand.bind fun expansion expansion' he => ?_
  cases he with
  | none => exact .pure rfl
  | some hrun => exact hrun

end

/-! ### Rounds side by side -/

/-- A lane and the same with marks; it may owe the flag. -/
structure Strand (J : Interface) (C T : Type) where
  caller : Caller
  position : Nat
  prog : Prog (Family J C T) TickResult
  twin : Prog (Family J C T) TickResult
  held : List Lock
  owes : Bool

namespace Strand

/-- The lane. -/
def lane (s : Strand J C T) : Lane (Family J C T) := ⟨s.caller, s.position, s.prog, s.held⟩

/-- The lane with marks. -/
def marked (s : Strand J C T) : Lane (Family J C T) := ⟨s.caller, s.position, s.twin, s.held⟩

/-- The two lanes do the same, up to the flag. -/
def Linked (flag : Ref .flag) (mine : Lock → Prop) (s : Strand J C T) : Prop :=
  s.prog.Sim flag mine true Eq s.owes s.twin

end Strand

theorem map_eq_middle {f : α → β} {l : List α} {before after : List β} {b : β}
    (h : l.map f = before ++ b :: after) :
    ∃ pre a post, l = pre ++ a :: post ∧ pre.map f = before ∧ f a = b ∧ post.map f = after := by
  obtain ⟨pre, rest, rfl, hpre, hrest⟩ := List.map_eq_append_iff.mp h
  obtain ⟨a, post, rfl, ha, hpost⟩ := List.map_eq_cons_iff.mp hrest
  exact ⟨pre, a, post, rfl, hpre, ha, hpost⟩

theorem forall_mem_middle {P : α → Prop} {pre post : List α} {a : α} :
    (∀ b ∈ pre ++ a :: post, P b) ↔ P a ∧ ∀ b ∈ pre ++ post, P b := by
  simp only [List.forall_mem_append, List.forall_mem_cons]
  tauto

theorem any_succeeds_beats (p : Nat) (talk : List (Said (Family J C T)))
    (beats : List (Beat (Family J C T))) :
    (talk.map (Beat.said p) ++ beats).any Beat.succeeds =
      (talk.any Said.succeeds || beats.any Beat.succeeds) := by
  rw [List.any_append, List.any_map]
  rfl

section

variable {flag : Ref .flag} {mine : Lock → Prop} {raised : Bool}
  {env : Environment (Family J C T) σ} {w w₁ w' w₁' : World (Family J C T) σ}
  {beats : List (Beat (Family J C T))} {reports : List Report}

/-- An end of a lane leaves the worlds alike. -/
theorem UpToMarks.leave (hw : UpToMarks flag mine raised w w') (env : Environment (Family J C T) σ)
    (s : Strand J C T) (ending : Ending TickResult) :
    UpToMarks flag mine raised (s.lane.leave env ending w) (s.marked.leave env ending w') := by
  have hleft := hw.unlock s.held
  refine ⟨?_, hleft.locked, hleft.size, hleft.made, hleft.up, hleft.cell⟩
  exact congrArg (env.ended s.caller ending.outcome) hw.outside

/-- A lane raises the flag, and nobody hears of it. -/
theorem Interleaves.raise {before after : List (Lane (Family J C T))} {lane : Lane (Family J C T)}
    {q : Prog (Family J C T) TickResult}
    (hprog : lane.prog = .request (.swap .flag flag true) fun _ => q)
    (h : Interleaves env (before ++ { lane with prog := q } :: after)
      { w with heap := w.heap.set flag true } beats reports w₁) :
    Interleaves env (before ++ lane :: after) w beats reports w₁ := by
  have hserve : w.serve env lane.caller lane.held (.swap .flag flag true) =
      some (w.heap.get flag, lane.held, { w with heap := w.heap.set flag true }) := rfl
  exact .serve hprog hserve h

/-- Lanes with marks can go on as the lanes without: each raises the flag as soon as it
owes it. -/
theorem Interleaves.marked {ls : List (Lane (Family J C T))}
    (h : Interleaves env ls w beats reports w₁) :
    ∀ {raised : Bool} {w' : World (Family J C T) σ} (strands : List (Strand J C T)),
      strands.map Strand.lane = ls → (∀ s ∈ strands, s.owes = false ∧ s.Linked flag mine) →
      UpToMarks flag mine raised w w' →
      ∃ w₁', Interleaves env (strands.map Strand.marked) w' beats reports w₁' ∧
        UpToMarks flag mine (raised || beats.any Beat.succeeds) w₁ w₁' := by
  induction h with
  | none =>
    rintro raised w' strands hls - hw
    obtain rfl := List.map_eq_nil_iff.mp hls
    exact ⟨w', .none, by simpa using hw⟩
  | @serve before after lane r next x beats reports held w w₁ w₂ hprog hserve _ ih =>
    rintro raised w' strands hls hlinked hw
    obtain ⟨pre, ⟨caller, position, prog, twin, held₀, owes⟩, post, rfl, rfl, rfl, rfl⟩ :=
      map_eq_middle hls
    obtain ⟨⟨rfl, hsim⟩, hrest⟩ := forall_mem_middle.mp hlinked
    obtain rfl : prog = .request r next := hprog
    rw [any_succeeds_beats, List.map_append, List.map_cons]
    cases hsim with
    | @serve _ r' Q _ next' hr hcall hnext =>
      obtain ⟨x', w₁', hserve', hx, hw₁, hsaid⟩ := hr.serve hw hserve
      let s : Strand J C T := ⟨caller, position, next x, next' x', held, false⟩
      obtain ⟨w₂', hgoes, hw₂⟩ := ih (pre ++ s :: post) List.map_append
        (forall_mem_middle.mpr ⟨⟨rfl, hnext x x' hx⟩, hrest⟩) hw₁
      rw [List.map_append, List.map_cons] at hgoes
      rw [any_succeeds_said (hcall rfl) x, Bool.false_or, ← hsaid]
      exact ⟨w₂', .serve rfl hserve' hgoes, hw₂⟩
    | @call c t next next' _ hnext =>
      have hask : (Request.ask (.call c t) : Request (Family J C T)).Matches flag mine
          (.ask (.call c t)) Eq := .ask
      obtain ⟨_, w₁', hserve', rfl, hw₁, -⟩ := hask.serve hw hserve
      rw [any_succeeds_call c t x, ← Bool.or_assoc]
      have hsim := hnext x
      generalize Outcome.succeeds x = succeeded at hsim ⊢
      generalize htwin : next' x = twin at hsim
      cases succeeded with
      | false =>
        let s : Strand J C T := ⟨caller, position, next x, twin, held, false⟩
        obtain ⟨w₂', hgoes, hw₂⟩ := ih (pre ++ s :: post) List.map_append
          (forall_mem_middle.mpr ⟨⟨rfl, hsim⟩, hrest⟩) hw₁
        rw [List.map_append, List.map_cons] at hgoes
        rw [Bool.or_false]
        exact ⟨w₂', .serve rfl hserve' (htwin ▸ hgoes), hw₂⟩
      | true =>
        cases hsim with
        | @raise _ q hsim =>
          -- The flag goes up before any other lane goes on.
          let s : Strand J C T := ⟨caller, position, next x, q, held, false⟩
          obtain ⟨w₂', hgoes, hw₂⟩ := ih (pre ++ s :: post) List.map_append
            (forall_mem_middle.mpr ⟨⟨rfl, hsim⟩, hrest⟩) (hw₁.set_flag true)
          rw [List.map_append, List.map_cons] at hgoes
          rw [Bool.or_true]
          exact ⟨w₂', .serve rfl hserve' (.raise htwin hgoes), hw₂⟩
    | tick hin => cases hin
    | parallel hin => cases hin
    | panic => cases hserve
  | @ends before after lane ending beats reports w w₁ hprog _ ih =>
    rintro raised w' strands hls hlinked hw
    obtain ⟨pre, ⟨caller, position, prog, twin, held₀, owes⟩, post, rfl, rfl, rfl, rfl⟩ :=
      map_eq_middle hls
    obtain ⟨⟨rfl, hsim⟩, hrest⟩ := forall_mem_middle.mp hlinked
    obtain rfl : prog = ending.resume .pure := hprog
    have htwin : twin = ending.resume .pure := by
      cases ending with
      | value result =>
        cases hsim with
        | pure he => exact congrArg _ he.symm
      | panic payload =>
        cases hsim with
        | serve hr => cases hr
        | panic => exact Prog.request_panic payload _
    let s : Strand J C T := ⟨caller, position, ending.resume .pure, twin, held₀, false⟩
    obtain ⟨w₁', hgoes, hw₁⟩ := ih (pre ++ post) List.map_append hrest (hw.leave env s ending)
    rw [List.map_append] at hgoes
    rw [List.map_append, List.map_cons]
    exact ⟨w₁', .ends htwin hgoes, hw₁⟩

/-- Lanes without marks can go on as the lanes with: when one of these raises the flag
it was owed. -/
theorem Interleaves.unmarked {ls : List (Lane (Family J C T))}
    (h : Interleaves env ls w' beats reports w₁') :
    ∀ {raised : Bool} {w : World (Family J C T) σ} (strands : List (Strand J C T)),
      strands.map Strand.marked = ls → (∀ s ∈ strands, s.Linked flag mine) →
      UpToMarks flag mine raised w w' →
      ∃ w₁, Interleaves env (strands.map Strand.lane) w beats reports w₁ ∧
        UpToMarks flag mine (raised || strands.any (·.owes) || beats.any Beat.succeeds) w₁ w₁' := by
  induction h with
  | none =>
    rintro raised w strands hls - hw
    obtain rfl := List.map_eq_nil_iff.mp hls
    exact ⟨w, .none, by simpa using hw⟩
  | @serve before after lane r' next' x' beats reports held w' w₁' w₂' hprog hserve _ ih =>
    rintro raised w strands hls hlinked hw
    obtain ⟨pre, ⟨caller, position, prog, twin, held₀, owes⟩, post, rfl, rfl, rfl, rfl⟩ :=
      map_eq_middle hls
    obtain ⟨hsim, hrest⟩ := forall_mem_middle.mp hlinked
    obtain rfl : twin = .request r' next' := hprog
    have hany : ∀ owes (prog twin : Prog (Family J C T) TickResult) held,
        (pre ++ ⟨caller, position, prog, twin, held, owes⟩ :: post).any (·.owes) =
          (owes || (pre ++ post).any (·.owes)) := by
      intro owes prog twin held
      rw [List.any_append, List.any_cons, List.any_append, Bool.or_left_comm]
    rw [any_succeeds_beats, hany, List.map_append, List.map_cons]
    cases hsim with
    | @serve r _ Q next _ hr hcall hnext =>
      obtain ⟨x, w₁, hserve', hx, hw₁, hsaid⟩ := hr.serve_back hw hserve
      let s : Strand J C T := ⟨caller, position, next x, next' x', held, false⟩
      obtain ⟨w₂, hgoes, hw₂⟩ := ih (pre ++ s :: post) List.map_append
        (forall_mem_middle.mpr ⟨hnext x x' hx, hrest⟩) hw₁
      rw [List.map_append, List.map_cons] at hgoes
      rw [hany] at hw₂
      rw [hsaid, any_succeeds_said (hcall rfl) x, Bool.false_or]
      exact ⟨w₂, .serve rfl hserve' hgoes, hw₂⟩
    | @call c t next next' _ hnext =>
      have hask : (Request.ask (.call c t) : Request (Family J C T)).Matches flag mine
          (.ask (.call c t)) Eq := .ask
      obtain ⟨x, w₁, hserve', rfl, hw₁, -⟩ := hask.serve_back hw hserve
      let s : Strand J C T := ⟨caller, position, next x, next' x, held, Outcome.succeeds x⟩
      obtain ⟨w₂, hgoes, hw₂⟩ := ih (pre ++ s :: post) List.map_append
        (forall_mem_middle.mpr ⟨hnext x, hrest⟩) hw₁
      rw [List.map_append, List.map_cons] at hgoes
      rw [hany] at hw₂
      rw [any_succeeds_call c t x]
      refine ⟨w₂, .serve rfl hserve' hgoes, ?_⟩
      -- What the lane owes from now on is what the beat has added.
      have hbits : (raised || (Outcome.succeeds x || (pre ++ post).any (·.owes)) ||
          beats.any Beat.succeeds) = (raised || (false || (pre ++ post).any (·.owes)) ||
          (Outcome.succeeds x || beats.any Beat.succeeds)) := by
        rw [Bool.false_or]
        ac_rfl
      exact hbits ▸ hw₂
    | @raise _ q hsim =>
      -- The lane without marks stays where it is.
      cases hserve
      let s : Strand J C T := ⟨caller, position, prog, q, held₀, false⟩
      obtain ⟨w₂, hgoes, hw₂⟩ := ih (pre ++ s :: post) List.map_append
        (forall_mem_middle.mpr ⟨hsim, hrest⟩) (hw.set_flag true)
      rw [List.map_append, List.map_cons] at hgoes
      exact ⟨w₂, hgoes, by simpa using hw₂⟩
    | tick hin => cases hin
    | parallel hin => cases hin
    | panic => cases hserve
  | @ends before after lane ending beats reports w' w₁' hprog _ ih =>
    rintro raised w strands hls hlinked hw
    obtain ⟨pre, ⟨caller, position, prog, twin, held₀, owes⟩, post, rfl, rfl, rfl, rfl⟩ :=
      map_eq_middle hls
    obtain ⟨hsim, hrest⟩ := forall_mem_middle.mp hlinked
    obtain rfl : twin = ending.resume .pure := hprog
    obtain ⟨rfl, hown⟩ : owes = false ∧ prog = ending.resume .pure := by
      cases ending with
      | value result =>
        cases hsim with
        | pure he => exact ⟨rfl, congrArg _ he⟩
      | panic payload =>
        cases hsim with
        | serve hr => cases hr
        | panic => exact ⟨rfl, Prog.request_panic payload _⟩
    let s : Strand J C T := ⟨caller, position, prog, ending.resume .pure, held₀, false⟩
    obtain ⟨w₁, hgoes, hw₁⟩ := ih (pre ++ post) List.map_append hrest (hw.leave env s ending)
    rw [List.map_append] at hgoes
    rw [List.map_append, List.map_cons]
    refine ⟨w₁, .ends hown hgoes, ?_⟩
    rw [List.any_append] at hw₁
    rw [List.any_append, List.any_cons, Bool.false_or]
    exact hw₁

/-- **A round with marks and without.** -/
theorem UpToMarks.interleaves (hw : UpToMarks flag mine raised w w')
    {nodes : List (Node (Family J C T))} (hnodes : ∀ node ∈ nodes, Family.Wraps flag node)
    (callers : Nat → Caller) :
    (∀ {beats reports w₁}, Interleaves env (lanes callers nodes) w beats reports w₁ →
      ∃ w₁', Interleaves env (lanes callers (nodes.map (Node.mark flag))) w' beats reports w₁' ∧
        UpToMarks flag mine (raised || beats.any Beat.succeeds) w₁ w₁') ∧
    ∀ {beats reports w₁'},
      Interleaves env (lanes callers (nodes.map (Node.mark flag))) w' beats reports w₁' →
      ∃ w₁, Interleaves env (lanes callers nodes) w beats reports w₁ ∧
        UpToMarks flag mine (raised || beats.any Beat.succeeds) w₁ w₁' := by
  let strands : List (Strand J C T) := nodes.mapIdx fun p node =>
    ⟨callers p, p, node.call, (node.mark flag).call, [], false⟩
  have hlanes : strands.map Strand.lane = lanes callers nodes :=
    List.ext_getElem (by simp [strands, lanes]) fun p hp hp' => by
      simp [strands, lanes, Strand.lane]
  have hmarked : strands.map Strand.marked = lanes callers (nodes.map (Node.mark flag)) :=
    List.ext_getElem (by simp [strands, lanes]) fun p hp hp' => by
      simp [strands, lanes, Strand.marked]
  have hlinked : ∀ s ∈ strands, s.owes = false ∧ s.Linked flag mine := by
    intro s hs
    obtain ⟨p, hp, rfl⟩ := List.mem_mapIdx.mp hs
    exact ⟨rfl, (hnodes _ (List.getElem_mem hp)).call⟩
  have hnone : strands.any (·.owes) = false := by
    rw [List.any_eq_false]
    exact fun s hs => by simp [(hlinked s hs).1]
  constructor
  · intro beats reports w₁ h
    exact hmarked ▸ h.marked strands hlanes hlinked hw
  · intro beats reports w₁' h
    obtain ⟨w₁, hround, hw₁⟩ := h.unmarked strands hmarked (fun s hs => (hlinked s hs).2) hw
    rw [hnone, Bool.or_false] at hw₁
    exact ⟨w₁, hlanes ▸ hround, hw₁⟩

end

/-! ### Programs that tick marked nodes -/

section

variable {flag : Ref .flag} {mine : Lock → Prop} {raised owes : Bool}
  {env : Environment (Family J C T) σ} {caller : Caller} {held held' : List Lock}
  {w w₁ w' w₁' : World (Family J C T) σ}

/-- A turn of a child with marks and without. -/
theorem UpToMarks.turn (hw : UpToMarks flag mine raised w w') {node : Node (Family J C T)}
    (hnode : Family.Wraps flag node) :
    (∀ {talk ending w₁}, Turn.Takes env caller ⟨node, talk, ending⟩ w w₁ →
      ∃ w₁', Turn.Takes env caller ⟨node.mark flag, talk, ending⟩ w' w₁' ∧
        UpToMarks flag mine (raised || talk.any Said.succeeds) w₁ w₁') ∧
    ∀ {talk ending w₁'}, Turn.Takes env caller ⟨node.mark flag, talk, ending⟩ w' w₁' →
      ∃ w₁, Turn.Takes env caller ⟨node, talk, ending⟩ w w₁ ∧
        UpToMarks flag mine (raised || talk.any Said.succeeds) w₁ w₁' := by
  constructor
  · rintro talk ending _ ⟨held, w₁, hspeaks, rfl⟩
    obtain ⟨w₁', hspeaks', hw₁⟩ := hnode.call.speaks_marked hw hspeaks
    rw [Bool.or_false] at hw₁
    exact ⟨_, ⟨held, w₁', hspeaks', rfl⟩, hw₁.unlock held⟩
  · rintro talk ending _ ⟨held, w₁', hspeaks, rfl⟩
    obtain ⟨w₁, hspeaks', hw₁⟩ := hnode.call.speaks_unmarked hw hspeaks
    rw [Bool.or_false] at hw₁
    exact ⟨_, ⟨held, w₁, hspeaks', rfl⟩, hw₁.unlock held⟩

theorem any_succeeds_events (talk : List (Said (Family J C T)))
    (events : List (Event (Family J C T))) :
    (talk.map Event.said ++ events).any Event.succeeds = events.any Event.succeeds := by
  have hsaid : (talk.map Event.said).any (Event.succeeds : Event (Family J C T) → Bool) =
      false := by
    rw [List.any_map]
    exact List.any_eq_false.mpr fun _ _ => Bool.false_ne_true
  rw [List.any_append, hsaid, Bool.false_or]

theorem mark_events_said (talk : List (Said (Family J C T)))
    (events : List (Event (Family J C T))) :
    (talk.map Event.said ++ events).map (Event.mark flag) =
      talk.map Event.said ++ events.map (Event.mark flag) := by
  rw [List.map_append, List.map_map]
  rfl

/-- **What a program does without marks** it does with them, and the flag is raised
besides by the successes of children that are ticked. -/
theorem Prog.Sim.performs_marked {p q : Prog (Family J C T) α} {ending : Ending α}
    {events : List (Event (Family J C T))} (h : p.Sim flag mine false Eq owes q)
    (howes : owes = false) (hw : UpToMarks flag mine raised w w')
    (hp : p.Performs env caller held w events ending held' w₁) :
    ∃ w₁', q.Performs env caller held w' (events.map (Event.mark flag)) ending held' w₁' ∧
      UpToMarks flag mine (raised || events.any Event.succeeds) w₁ w₁' := by
  induction h generalizing raised held w w' events with
  | pure he =>
    subst he
    obtain ⟨rfl, rfl, rfl, rfl⟩ := Prog.Performs.pure_iff.mp hp
    exact ⟨w', .pure, by simpa using hw⟩
  | serve hr _ _ ih =>
    cases hp with
    | serve hserve hnext =>
      obtain ⟨x', w₁', hserve', hx, hw₁, hsaid⟩ := hr.serve hw hserve
      obtain ⟨w₂', hq, hw₂⟩ := ih _ x' hx rfl hw₁ hnext
      rw [mark_events_said, any_succeeds_events, ← hsaid]
      exact ⟨w₂', .serve hserve' hq, hw₂⟩
    | tick | tickPanic | parallel | panic => cases hr
  | call hin => cases hin
  | raise => cases howes
  | tick _ hnode _ ih =>
    cases hp with
    | serve hserve => cases hserve
    | tick htakes hnext =>
      obtain ⟨w₁', htakes', hw₁⟩ := (hw.turn hnode).1 htakes
      obtain ⟨w₂', hq, hw₂⟩ := ih _ rfl hw₁ hnext
      exact ⟨w₂', .tick htakes' hq, by rwa [List.any_cons, ← Bool.or_assoc]⟩
    | tickPanic htakes =>
      obtain ⟨w₁', htakes', hw₁⟩ := (hw.turn hnode).1 htakes
      exact ⟨w₁', .tickPanic htakes', by rwa [List.any_cons, List.any_nil, Bool.or_false]⟩
  | parallel _ hnodes _ ih =>
    cases hp with
    | serve hserve => cases hserve
    | @parallel _ _ callers _ _ _ _ _ _ _ _ _ hround hnext =>
      obtain ⟨w₁', hround', hw₁⟩ := (hw.interleaves hnodes callers).1 hround
      obtain ⟨w₂', hq, hw₂⟩ := ih _ rfl hw₁ hnext
      exact ⟨w₂', .parallel hround' hq, by rwa [List.any_cons, ← Bool.or_assoc]⟩
  | panic =>
    cases hp with
    | serve hserve => cases hserve
    | panic => exact ⟨w', .panic, by simpa using hw⟩

/-- **What a program does with marks** it does without. -/
theorem Prog.Sim.performs_unmarked {p q : Prog (Family J C T) α} {ending : Ending α}
    {marked : List (Event (Family J C T))} (h : p.Sim flag mine false Eq owes q)
    (howes : owes = false) (hw : UpToMarks flag mine raised w w')
    (hq : q.Performs env caller held w' marked ending held' w₁') :
    ∃ events w₁, marked = events.map (Event.mark flag) ∧
      p.Performs env caller held w events ending held' w₁ ∧
      UpToMarks flag mine (raised || events.any Event.succeeds) w₁ w₁' := by
  induction h generalizing raised held w w' marked with
  | pure he =>
    subst he
    obtain ⟨rfl, rfl, rfl, rfl⟩ := Prog.Performs.pure_iff.mp hq
    exact ⟨[], w, rfl, .pure, by simpa using hw⟩
  | @serve r _ _ _ _ hr _ _ ih =>
    cases hq with
    | serve hserve' hnext =>
      obtain ⟨x, w₁, hserve, hx, hw₁, hsaid⟩ := hr.serve_back hw hserve'
      obtain ⟨events, w₂, rfl, hp, hw₂⟩ := ih x _ hx rfl hw₁ hnext
      refine ⟨(r.said x).map .said ++ events, w₂, ?_, .serve hserve hp, ?_⟩
      · rw [mark_events_said, hsaid]
      · rw [any_succeeds_events]
        exact hw₂
    | tick | tickPanic | parallel | panic => cases hr
  | call hin => cases hin
  | raise => cases howes
  | tick _ hnode _ ih =>
    cases hq with
    | serve hserve => cases hserve
    | tick htakes hnext =>
      obtain ⟨w₁, htakes', hw₁⟩ := (hw.turn hnode).2 htakes
      obtain ⟨events, w₂, rfl, hp, hw₂⟩ := ih _ rfl hw₁ hnext
      exact ⟨.turn _ :: events, w₂, rfl, .tick htakes' hp,
        by rwa [List.any_cons, ← Bool.or_assoc]⟩
    | tickPanic htakes =>
      obtain ⟨w₁, htakes', hw₁⟩ := (hw.turn hnode).2 htakes
      exact ⟨[.turn _], w₁, rfl, .tickPanic htakes',
        by rwa [List.any_cons, List.any_nil, Bool.or_false]⟩
  | @parallel nodes _ _ _ hnodes _ ih =>
    cases hq with
    | serve hserve => cases hserve
    | @parallel _ _ callers _ _ _ _ _ _ _ _ _ hround hnext =>
      obtain ⟨w₁, hround', hw₁⟩ := (hw.interleaves hnodes callers).2 hround
      obtain ⟨events, w₂, rfl, hp, hw₂⟩ := ih _ rfl hw₁ hnext
      exact ⟨.round nodes _ :: events, w₂, rfl, .parallel hround' hp,
        by rwa [List.any_cons, ← Bool.or_assoc]⟩
  | panic =>
    cases hq with
    | serve hserve => cases hserve
    | panic => exact ⟨[], w, rfl, .panic, by simpa using hw⟩

end

end TickTree
