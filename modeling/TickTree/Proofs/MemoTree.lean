/-
# Memorized trees, polled and run through

A tree of memorized composites over leaves can be run through in one go: a leaf
is called again and again until it answers something other than running, and a
composite runs its children in order, as far as their statuses let it. Or it can
be polled: a tick calls leaves until one answers running, and the next tick
resumes there. Between two ticks it is enough to know where the tree was
interrupted: a path to a leaf, with the statuses of the children that were gone
past on the way (`Pause`).

The rest of a run from a pause is what the ticks from there on perform
(`rest_tick`): a tick that answers running does a part of it and leaves the rest
for later, and a tick that answers anything else does all of it.

Key definitions: `MemoTree`, `Pause`, `MemoTree.Blocks`, `MemoTree.tick`,
`MemoTree.Rest`, `Chunk`.
Key theorems: `MemoTree.rest_none`, `MemoTree.rest_tick`, `MemoTree.chunk_tick`.
-/
import TickTree.Machine

namespace TickTree

variable {L σ : Type}

/-- A static tree: leaves, each named for what it does, and composites, each
memorized in a cell of its own. -/
inductive MemoTree (L : Type) where
  | leaf (name : L)
  | inner (kind : Composite) (execution : Ref .execution) (children : List (MemoTree L))

/-- What surrounds a tree: the state that its leaves share, and the calls of
leaves so far, with their results. -/
structure Outside (L σ : Type) where
  state : σ
  calls : List (L × TickResult)

/-- A call of a leaf. -/
def Outside.call (play : L → σ → TickResult × σ) (l : L) (o : Outside L σ) :
    TickResult × Outside L σ :=
  let (result, state) := play l o.state
  (result, { state, calls := o.calls ++ [(l, result)] })

/-- The answer of a composite after it has gone past these statuses. -/
def Composite.soFar (kind : Composite) (past : List Status) : Status :=
  past.foldl kind.answer kind.initial

theorem Composite.soFar_snoc (kind : Composite) (past : List Status) (s : Status) :
    kind.soFar (past ++ [s]) = kind.answer (kind.soFar past) s := by
  simp [soFar]

theorem Composite.isRunning_soFar (kind : Composite) (past : List Status) :
    (kind.soFar past).isRunning = false := by
  have hfold : ∀ (past : List Status) (s : Status), s.isRunning = false →
      (past.foldl kind.answer s).isRunning = false := by
    intro past
    induction past with
    | nil => exact fun _ hs => hs
    | cons s' past ih =>
      intro s hs
      refine ih _ ?_
      cases kind with
      | sequence | selector => exact hs
      | all =>
        simp only [answer]
        split
        · rfl
        · exact hs
  exact hfold past _ (by cases kind <;> rfl)

theorem Composite.goesPast_running (kind : Composite) : kind.goesPast .running = false := by
  cases kind <;> rfl

/-! ### Running through -/

/-- The leaf, called until it answers anything but running, answers `r`. -/
inductive Outside.Settles (play : L → σ → TickResult × σ) (l : L) :
    Outside L σ → TickResult → Outside L σ → Prop
  | again {o o₁ r o'} : o.call play l = (.ok .running, o₁) → Settles play l o₁ r o' →
      Settles play l o r o'
  | settled {o r o'} : o.call play l = (r, o') → r.isRunning = false → Settles play l o r o'

/-- What a composite that has gone past `past` does about the result of its next
child: it shows the error with its tag, goes past the status to `rest`, or
answers the status. -/
def Composite.Continues (kind : Composite) (past : List Status)
    (rest : List Status → Outside L σ → TickResult → Outside L σ → Prop) :
    TickResult → Outside L σ → TickResult → Outside L σ → Prop
  | .error e, o, r, o' => r = .error (kind.tag past.length e) ∧ o' = o
  | .ok s, o, r, o' =>
    if kind.goesPast s then rest (past ++ [s]) o r o' else r = .ok s ∧ o' = o

namespace MemoTree

section
variable (play : L → σ → TickResult × σ)

mutual

/-- The tree, run through in one go, answers `r`. -/
def Blocks : MemoTree L → Outside L σ → TickResult → Outside L σ → Prop
  | leaf l => Outside.Settles play l
  | inner kind _ children => BlocksFrom kind children []
termination_by structural tree => tree

/-- The composite, which has gone past `past`, runs through the other children. -/
def BlocksFrom (kind : Composite) : List (MemoTree L) → List Status → Outside L σ → TickResult →
    Outside L σ → Prop
  | [], past, o, r, o' => r = .ok (kind.soFar past) ∧ o' = o
  | tree :: trees, past, o, r, o' => ∃ r₁ o₁, tree.Blocks o r₁ o₁ ∧
      kind.Continues past (BlocksFrom kind trees) r₁ o₁ r o'
termination_by structural trees => trees

end

end

end MemoTree

/-! ### Polling -/

/-- Where a tree is interrupted: at a leaf, or in a composite that has gone past
some children, inside the next. -/
inductive Pause where
  | here
  | inside (past : List Status) (pause : Pause)
  deriving Repr

/-- What an interrupted composite has gone past, and where its next child is
interrupted. -/
def Pause.split : Option Pause → List Status × Option Pause
  | some (inside past pause) => (past, some pause)
  | _ => ([], none)

namespace MemoTree

section
variable (play : L → σ → TickResult × σ)

mutual

/-- One tick of a tree, resumed where it is interrupted: its answer, and where
it is interrupted then. -/
def tick : MemoTree L → Option Pause → Outside L σ → TickResult × Option Pause × Outside L σ
  | leaf l, _, o =>
    let (r, o) := o.call play l
    (r, if r.isRunning then some .here else none, o)
  | inner kind _ children, pause, o =>
    let (past, pause) := Pause.split pause
    scan kind children past.length past pause o
termination_by structural tree => tree

/-- The same for a composite, from the child number `skip` of these on; it has
gone past `past` before. -/
def scan (kind : Composite) : List (MemoTree L) → Nat → List Status → Option Pause →
    Outside L σ → TickResult × Option Pause × Outside L σ
  | [], _, past, _, o => (.ok (kind.soFar past), none, o)
  | _ :: trees, skip + 1, past, pause, o => scan kind trees skip past pause o
  | tree :: trees, 0, past, pause, o =>
    match tree.tick pause o with
    | (.error e, _, o) => (.error (kind.tag past.length e), none, o)
    | (.ok s, pause, o) =>
      if kind.goesPast s then scan kind trees 0 (past ++ [s]) none o
      else (.ok s, pause.map (.inside past), o)
termination_by structural trees => trees

end

mutual

/-- The rest of a run of a tree that is interrupted there answers `r`. -/
def Rest : MemoTree L → Option Pause → Outside L σ → TickResult → Outside L σ → Prop
  | leaf l, _ => Outside.Settles play l
  | inner kind _ children, pause =>
    let (past, pause) := Pause.split pause
    RestFrom kind children past.length past pause
termination_by structural tree => tree

/-- The same for a composite, from the child number `skip` of these on. -/
def RestFrom (kind : Composite) : List (MemoTree L) → Nat → List Status → Option Pause →
    Outside L σ → TickResult → Outside L σ → Prop
  | [], _, past, _, o, r, o' => r = .ok (kind.soFar past) ∧ o' = o
  | _ :: trees, skip + 1, past, pause, o, r, o' => RestFrom kind trees skip past pause o r o'
  | tree :: trees, 0, past, pause, o, r, o' => ∃ r₁ o₁, tree.Rest pause o r₁ o₁ ∧
      kind.Continues past (fun past => RestFrom kind trees 0 past none) r₁ o₁ r o'
termination_by structural trees => trees

end

end

variable {play : L → σ → TickResult × σ}

mutual

/-- The rest of a run that has not begun is the run. -/
theorem rest_none (tree : MemoTree L) : tree.Rest play none = tree.Blocks play :=
  match tree with
  | leaf _ => rfl
  | inner kind _ children => restFrom_none kind children []

theorem restFrom_none (kind : Composite) (trees : List (MemoTree L)) (past : List Status) :
    RestFrom play kind trees 0 past none = BlocksFrom play kind trees past :=
  match trees with
  | [] => rfl
  | tree :: trees => by
    have htree := rest_none tree
    have htrees : (fun past => RestFrom play kind trees 0 past none) = BlocksFrom play kind trees :=
      funext (restFrom_none kind trees)
    funext o r o'
    simp only [RestFrom, BlocksFrom, htree, htrees]

end

/-- A tick that answers `r`, and leaves the tree interrupted at `pause` if it is,
does a part of the run `before`: either all of it, or all but `after`. -/
def Advances {α : Type} (before : Outside L σ → TickResult → Outside L σ → Prop)
    (after : α → Outside L σ → TickResult → Outside L σ → Prop) (o : Outside L σ) (r : TickResult)
    (pause : Option α) (o₁ : Outside L σ) : Prop :=
  match pause with
  | some p => r = .ok .running ∧ ∀ r' o', before o r' o' ↔ after p o₁ r' o'
  | none => r.isRunning = false ∧ ∀ r' o', before o r' o' ↔ r' = r ∧ o' = o₁

/-- A call of a leaf does a part of settling it. -/
theorem advances_leaf (l : L) (o : Outside L σ) {r : TickResult} {o₁ : Outside L σ}
    (h : o.call play l = (r, o₁)) :
    Advances (Outside.Settles play l) (fun _ : Pause => Outside.Settles play l) o r
      (if r.isRunning then some .here else none) o₁ := by
  by_cases hr : r.isRunning
  · rw [if_pos hr]
    obtain rfl := TickResult.isRunning_iff.mp hr
    refine ⟨rfl, fun r' o' => ⟨fun hs => ?_, fun hs => .again h hs⟩⟩
    cases hs with
    | again h' hs =>
      cases h.symm.trans h'
      exact hs
    | settled h' hr' =>
      cases h.symm.trans h'
      cases hr'
  · rw [if_neg hr]
    have hr : r.isRunning = false := by simpa using hr
    refine ⟨hr, fun r' o' => ⟨fun hs => ?_, fun hs => ?_⟩⟩
    · cases hs with
      | again h' =>
        cases h.symm.trans h'
        cases hr
      | settled h' =>
        cases h.symm.trans h'
        exact ⟨rfl, rfl⟩
    · obtain ⟨rfl, rfl⟩ := hs
      exact .settled h hr

mutual

/-- **A tick does a part of what is left**: all of it, unless it answers running,
and then all but what is left from where it stops. -/
theorem rest_tick (tree : MemoTree L) (pause : Option Pause) (o : Outside L σ) {r : TickResult}
    {pause' : Option Pause} {o₁ : Outside L σ} (h : tree.tick play pause o = (r, pause', o₁)) :
    Advances (tree.Rest play pause) (fun p => tree.Rest play (some p)) o r pause' o₁ :=
  match tree with
  | leaf l => by
    simp only [tick, Prod.mk.injEq] at h
    obtain ⟨rfl, rfl, rfl⟩ := h
    exact advances_leaf l o rfl
  | inner kind ref children => by
    have hscan := rest_scan kind children _ _ _ o h
    cases pause' with
    | none => exact hscan
    | some p =>
      obtain ⟨more, p, rfl, hrunning, hrest⟩ := hscan
      refine ⟨hrunning, fun r' o' => ?_⟩
      simp only [Rest, Pause.split, List.length_append]
      exact hrest r' o'

theorem rest_scan (kind : Composite) (trees : List (MemoTree L)) (skip : Nat) (past : List Status)
    (pause : Option Pause) (o : Outside L σ) {r : TickResult} {pause' : Option Pause}
    {o₁ : Outside L σ} (h : scan play kind trees skip past pause o = (r, pause', o₁)) :
    match pause' with
    | some p => ∃ more p', p = .inside (past ++ more) p' ∧ r = .ok .running ∧
        ∀ r' o', RestFrom play kind trees skip past pause o r' o' ↔
          RestFrom play kind trees (skip + more.length) (past ++ more) (some p') o₁ r' o'
    | none => r.isRunning = false ∧
        ∀ r' o', RestFrom play kind trees skip past pause o r' o' ↔ r' = r ∧ o' = o₁ :=
  match trees, skip with
  | [], skip => by
    simp only [scan, Prod.mk.injEq] at h
    obtain ⟨rfl, rfl, rfl⟩ := h
    refine ⟨kind.isRunning_soFar past, fun r' o' => ?_⟩
    simp only [RestFrom]
  | tree :: trees, skip + 1 => by
    have hscan := rest_scan kind trees skip past pause o h
    cases pause' with
    | none => exact hscan
    | some p =>
      obtain ⟨more, p', rfl, hrunning, hrest⟩ := hscan
      refine ⟨more, p', rfl, hrunning, fun r' o' => ?_⟩
      rw [Nat.add_right_comm]
      simp only [RestFrom]
      exact hrest r' o'
  | tree :: trees, 0 => by
    rcases htick : tree.tick play pause o with ⟨r₁, pause₁, o₂⟩
    have htree := rest_tick tree pause o htick
    simp only [scan, htick] at h
    cases pause₁ with
    | some p =>
      -- the child is interrupted, and so is the composite
      obtain ⟨rfl, hrest⟩ := htree
      simp only [kind.goesPast_running, Bool.false_eq_true, if_false, Option.map_some,
        Prod.mk.injEq] at h
      obtain ⟨rfl, rfl, rfl⟩ := h
      refine ⟨[], p, by rw [List.append_nil], rfl, fun r' o' => ?_⟩
      simp only [RestFrom, hrest, List.length_nil, List.append_nil]
    | none =>
      obtain ⟨hover, hrest⟩ := htree
      -- the child has answered, so the rest is what the composite does about that
      have hchild : ∀ r' o', RestFrom play kind (tree :: trees) 0 past pause o r' o' ↔
          kind.Continues past (fun past => RestFrom play kind trees 0 past none) r₁ o₂ r' o' := by
        intro r' o'
        simp only [RestFrom, hrest]
        constructor
        · rintro ⟨_, _, ⟨rfl, rfl⟩, hcontinues⟩
          exact hcontinues
        · exact fun hcontinues => ⟨_, _, ⟨rfl, rfl⟩, hcontinues⟩
      cases r₁ with
      | error e =>
        simp only [Prod.mk.injEq] at h
        obtain ⟨rfl, rfl, rfl⟩ := h
        exact ⟨rfl, hchild⟩
      | ok s =>
        simp only at h
        split at h
        · rename_i hpast
          have hscan := rest_scan kind trees 0 (past ++ [s]) none o₂ h
          have hnext : ∀ r' o', RestFrom play kind (tree :: trees) 0 past pause o r' o' ↔
              RestFrom play kind trees 0 (past ++ [s]) none o₂ r' o' := by
            intro r' o'
            rw [hchild]
            simp only [Composite.Continues, hpast, if_true]
          cases pause' with
          | none => exact ⟨hscan.1, fun r' o' => (hnext r' o').trans (hscan.2 r' o')⟩
          | some p =>
            obtain ⟨more, p', rfl, hrunning, hmore⟩ := hscan
            refine ⟨s :: more, p', by simp, hrunning, fun r' o' => ?_⟩
            have hlist : past ++ s :: more = past ++ [s] ++ more := by simp
            rw [hnext, hmore, hlist, List.length_cons, Nat.zero_add, Nat.zero_add]
            simp only [RestFrom]
        · rename_i hpast
          simp only [Option.map_none, Prod.mk.injEq] at h
          obtain ⟨rfl, rfl, rfl⟩ := h
          refine ⟨hover, fun r' o' => ?_⟩
          rw [hchild]
          simp only [Composite.Continues, hpast, Bool.false_eq_true, if_false]

end

/-! ### The calls of one tick -/

/-- The calls of a tick that answers `r`: if it answers running, the last call
did, and no other; else none did. -/
def Chunk (r : TickResult) (calls : List (L × TickResult)) : Prop :=
  if r.isRunning then ∃ past l, calls = past ++ [(l, .ok .running)] ∧
    ∀ call ∈ past, call.2.isRunning = false
  else ∀ call ∈ calls, call.2.isRunning = false

theorem chunk_append {r : TickResult} {calls more : List (L × TickResult)}
    (hcalls : ∀ call ∈ calls, call.2.isRunning = false) (hmore : Chunk r more) :
    Chunk r (calls ++ more) := by
  unfold Chunk at hmore ⊢
  split
  · rename_i hr
    rw [if_pos hr] at hmore
    obtain ⟨past, l, rfl, hpast⟩ := hmore
    refine ⟨calls ++ past, l, (List.append_assoc ..).symm, fun call hcall => ?_⟩
    exact (List.mem_append.mp hcall).elim (hcalls call) (hpast call)
  · rename_i hr
    rw [if_neg hr] at hmore
    exact fun call hcall => (List.mem_append.mp hcall).elim (hcalls call) (hmore call)

theorem chunk_of_not_running {r : TickResult} (hr : r.isRunning = false)
    {calls : List (L × TickResult)} :
    Chunk r calls ↔ ∀ call ∈ calls, call.2.isRunning = false := by
  simp [Chunk, hr]

mutual

/-- **The calls of one tick**: all but the last have answered, and the last as
the tick does. -/
theorem chunk_tick (tree : MemoTree L) (pause : Option Pause) (o : Outside L σ) {r : TickResult}
    {pause' : Option Pause} {o₁ : Outside L σ} (h : tree.tick play pause o = (r, pause', o₁)) :
    ∃ calls, o₁.calls = o.calls ++ calls ∧ Chunk r calls :=
  match tree with
  | leaf l => by
    simp only [tick, Prod.mk.injEq] at h
    obtain ⟨rfl, rfl, rfl⟩ := h
    refine ⟨[(l, (o.call play l).1)], rfl, ?_⟩
    by_cases hr : (o.call play l).1.isRunning
    · rw [TickResult.isRunning_iff.mp hr]
      exact ⟨[], l, rfl, by simp⟩
    · have hr : (o.call play l).1.isRunning = false := by simpa using hr
      rw [chunk_of_not_running hr]
      simpa using hr
  | inner kind ref children => chunk_scan kind children _ _ _ o h

theorem chunk_scan (kind : Composite) (trees : List (MemoTree L)) (skip : Nat) (past : List Status)
    (pause : Option Pause) (o : Outside L σ) {r : TickResult} {pause' : Option Pause}
    {o₁ : Outside L σ} (h : scan play kind trees skip past pause o = (r, pause', o₁)) :
    ∃ calls, o₁.calls = o.calls ++ calls ∧ Chunk r calls :=
  match trees, skip with
  | [], skip => by
    simp only [scan, Prod.mk.injEq] at h
    obtain ⟨rfl, rfl, rfl⟩ := h
    have hover : TickResult.isRunning (.ok (kind.soFar past)) = false := kind.isRunning_soFar past
    refine ⟨[], (List.append_nil _).symm, (chunk_of_not_running hover).mpr ?_⟩
    simp
  | _ :: trees, skip + 1 => chunk_scan kind trees skip past pause o h
  | tree :: trees, 0 => by
    rcases htick : tree.tick play pause o with ⟨r₁, pause₁, o₂⟩
    obtain ⟨calls, hcalls, hchunk⟩ := chunk_tick tree pause o htick
    simp only [scan, htick] at h
    cases r₁ with
    | error e =>
      simp only [Prod.mk.injEq] at h
      obtain ⟨rfl, rfl, rfl⟩ := h
      exact ⟨calls, hcalls, hchunk⟩
    | ok s =>
      simp only at h
      split at h
      · rename_i hpast
        obtain ⟨more, hmore, hchunk'⟩ := chunk_scan kind trees 0 (past ++ [s]) none o₂ h
        have hover : TickResult.isRunning (.ok s) = false := by
          cases s with
          | running => exact absurd (kind.goesPast_running.symm.trans hpast) (by decide)
          | success | failure => rfl
        refine ⟨calls ++ more, by rw [hmore, hcalls, List.append_assoc], ?_⟩
        exact chunk_append ((chunk_of_not_running hover).mp hchunk) hchunk'
      · simp only [Prod.mk.injEq] at h
        obtain ⟨rfl, rfl, rfl⟩ := h
        exact ⟨calls, hcalls, hchunk⟩

end

theorem Chunk.ne_nil {calls : List (L × TickResult)} (h : Chunk (.ok .running) calls) :
    calls ≠ [] := by
  obtain ⟨past, l, rfl, -⟩ := h
  simp

theorem settles_calls {l : L} {o o' : Outside L σ} {r : TickResult}
    (h : Outside.Settles play l o r o') : o.calls.length ≤ o'.calls.length := by
  have hcall : ∀ {o o' : Outside L σ} {r : TickResult}, o.call play l = (r, o') →
      o.calls.length ≤ o'.calls.length := by
    intro o o' r h
    cases h
    simp [List.length_append]
  induction h with
  | again h _ ih => exact Nat.le_trans (hcall h) ih
  | settled h _ => exact hcall h

mutual

/-- What is left of a run takes back no call. -/
theorem rest_calls (tree : MemoTree L) (pause : Option Pause) {o o' : Outside L σ} {r : TickResult}
    (h : tree.Rest play pause o r o') : o.calls.length ≤ o'.calls.length :=
  match tree with
  | leaf _ => settles_calls h
  | inner kind _ children => restFrom_calls kind children _ _ _ h

theorem restFrom_calls (kind : Composite) (trees : List (MemoTree L)) (skip : Nat)
    (past : List Status) (pause : Option Pause) {o o' : Outside L σ} {r : TickResult}
    (h : RestFrom play kind trees skip past pause o r o') : o.calls.length ≤ o'.calls.length :=
  match trees, skip with
  | [], _ => by
    simp only [RestFrom] at h
    obtain ⟨-, rfl⟩ := h
    exact Nat.le_refl _
  | _ :: trees, skip + 1 => restFrom_calls kind trees skip past pause h
  | tree :: trees, 0 => by
    simp only [RestFrom] at h
    obtain ⟨r₁, o₁, htree, hcontinues⟩ := h
    refine Nat.le_trans (rest_calls tree pause htree) ?_
    cases r₁ with
    | error e =>
      obtain ⟨-, rfl⟩ := hcontinues
      exact Nat.le_refl _
    | ok s =>
      simp only [Composite.Continues] at hcontinues
      split at hcontinues
      · exact restFrom_calls kind trees 0 (past ++ [s]) none hcontinues
      · obtain ⟨-, rfl⟩ := hcontinues
        exact Nat.le_refl _

end

end MemoTree

end TickTree
