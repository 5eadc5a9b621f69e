/-
# Programs that wait for a lock

Most cells have a lock, and only its holder may use the cell; records and flags are
the exception. The program of every tick keeps to that. It is built from requests
that have nothing to do with the lock and from blocks that begin by waiting for it
(`Prog.Closed.call`), so what such requests and blocks have in common is true of the
program of every tick.

In particular the program of every tick waits for the lock before it changes the
cell (`Node.awaits_call`). So while somebody holds the lock, the program of any tick
leaves the cell alone, or never ends (`Prog.Among.spares`): it cannot be made to run
the wrapper again from within.

Key definitions: `CellKind.isGuarded`, `Request.Avoids`, `Prog.Closed`, `Prog.Awaits`,
`Others.Respects`.
Key theorems: `Prog.Closed.call`, `Node.awaits_expand`, `Tick.awaits_run`,
`Node.awaits_call`, `Prog.Among.spares`, `Node.Ticked.spares`.
-/
import TickTree.Proofs.Among
import TickTree.Proofs.Execution

namespace TickTree

variable {I : Interface} {σ α β : Type} {kind : CellKind} {ref : Ref kind} {lock : Lock}

/-- Is a cell of this kind used under its lock only? -/
def CellKind.isGuarded : CellKind → Bool
  | record | flag => false
  | _ => true

/-- A cell of another kind has another lock. -/
theorem Ref.lock_ne {kind kind' : CellKind} (hne : kind ≠ kind') (r : Ref kind) (r' : Ref kind') :
    r.lock ≠ r'.lock :=
  fun he => hne (congrArg Lock.kind he)

/-- The request has nothing to do with the lock, its cell, or a worker of that cell. -/
def Request.Avoids (lock : Lock) : Request I → Prop
  | .read _ other => other.lock ≠ lock
  | .swap _ other _ => other.lock ≠ lock
  | .acquire _ other => other.lock ≠ lock
  | .release _ other => other.lock ≠ lock
  | .start worker _ _ => worker.lock ≠ lock
  | _ => True

/-! ### What the program of a tick is built from -/

/-- Something is true of what is built from requests that avoid the lock and from
blocks under it. The lock of a worker is taken by asynchronous ticks only. -/
structure Prog.Closed (lock : Lock) (P : {α : Type} → Prog I α → Prop) : Prop where
  pure {α : Type} {a : α} : P (.pure a)
  bind {α β : Type} {p : Prog I α} {f : α → Prog I β} : P p → (∀ a, P (f a)) → P (p.bind f)
  request {α : Type} {r : Request I} {next : r.Reply → Prog I α} :
    r.Avoids lock → (∀ reply, P (next reply)) → P (.request r next)
  block {α : Type} {kind : CellKind} {other : Ref kind} {next : Unit → Prog I α} :
    other.lock = lock → kind ≠ .worker → P (.request (.acquire kind other) next)
  async {worker : Ref .worker} {tick : Tick I} {children : List (Node I)} :
    worker.lock = lock → P (Asynchronous.run worker tick children)

namespace Prog.Closed

variable {P : {α : Type} → Prog I α → Prop}

/-- What is done under a lock. -/
theorem locked (hP : Closed lock @P) {kind : CellKind} {other : Ref kind} (hkind : kind ≠ .worker)
    {p : Prog I α} {f : α → Prog I β} (hp : other.lock ≠ lock → P p)
    (hf : other.lock ≠ lock → ∀ a, P (f a)) :
    P (Prog.request (.acquire kind other) fun _ => p.bind f) := by
  by_cases hsame : other.lock = lock
  · exact hP.block hsame hkind
  · exact hP.request hsame fun _ => hP.bind (hp hsame) (hf hsame)

/-- A cell that is read under its lock. -/
theorem reading (hP : Closed lock @P) {kind : CellKind} {other : Ref kind}
    (hne : other.lock ≠ lock) : P (Prog.read other : Prog I (kind.State I)) :=
  hP.request hne fun _ => hP.pure

theorem toProg (hP : Closed lock @P) (recipe : Recipe I α) : P recipe.toProg := by
  induction recipe with
  | yield value => exact hP.pure
  | ask query next ih => exact hP.request trivial ih
  | alloc kind next ih => exact hP.request trivial ih

section Expansions

variable {p : Prog I (Option (Tick I) × List (Node I))}

theorem memorized (hP : Closed lock @P) (hlock : lock.kind.isGuarded) (hp : P p)
    (record : Ref .record) : P (Memorize.expand record p) := by
  have hne : record.lock ≠ lock := by
    rintro rfl
    cases hlock
  refine hP.bind hp fun (tick, children) => hP.request hne fun recorded => ?_
  cases recorded with
  | none | some result => exact hP.pure

theorem sibling (hP : Closed lock @P) (hp : P p) (other : Ref .statuses) (index : Nat) :
    P (Siblings.expand other index p) := by
  refine hP.locked (by decide) (fun _ => hp) fun hne (tick, children) =>
    hP.request hne fun last => hP.request hne fun _ => ?_
  cases tick with
  | none => exact hP.pure
  | some tick =>
    change P (if Siblings.mayRun last index then _ else _)
    split
    · exact hP.pure
    · exact hP.pure

end Expansions

mutual

theorem expand (hP : Closed lock @P) (hlock : lock.kind.isGuarded) : ∀ node : Node I, P node.expand
  | .plain _ _ => hP.pure
  | .made recipe => expandMade hP hlock recipe
  | .memorized record node => hP.memorized hlock (expand hP hlock node) record
  | .flagged _ node => hP.bind (expand hP hlock node) fun _ => hP.pure
  | .sibling other index node => hP.sibling (expand hP hlock node) other index
  | .exitOnFailure node => hP.bind (expand hP hlock node) fun _ => hP.pure
termination_by structural node => node

theorem expandMade (hP : Closed lock @P) (hlock : lock.kind.isGuarded) :
    ∀ recipe : Recipe I (Node I), P (Node.expandMade recipe)
  | .yield node => expand hP hlock node
  | .ask _ next => hP.request trivial fun reply => expandMade hP hlock (next reply)
  | .alloc _ next => hP.request trivial fun r => expandMade hP hlock (next r)
termination_by structural recipe => recipe

end

theorem routine (hP : Closed lock @P) (hlock : lock.kind.isGuarded) (children : List (Node I))
    (code : Routine I children.length) : P (code.run children) := by
  induction code with
  | finish result => exact hP.pure
  | panic payload => exact hP.request trivial fun reply => nomatch reply
  | tick child next ih => exact hP.request trivial ih
  | expand child next ih =>
    exact hP.bind (hP.expand hlock (children.get child)) fun expansion => ih _ _
  | ask query next ih => exact hP.request trivial ih

theorem composite (hP : Closed lock @P) (kind : Composite) (children : List (Node I)) :
    ∀ index soFar, P (kind.runFrom index soFar children) := by
  induction children with
  | nil => exact fun _ _ => hP.pure
  | cons node nodes ih =>
    intro index soFar
    refine hP.request trivial fun result => ?_
    cases result with
    | error e => exact hP.pure
    | ok s =>
      change P (if kind.goesPast s then _ else _)
      split
      · exact ih _ _
      · exact hP.pure

theorem snapshot (hP : Closed lock @P) (children : List (Node I)) :
    P (Memorize.snapshot children) := by
  induction children with
  | nil => exact hP.pure
  | cons node nodes ih => exact hP.request trivial fun _ => hP.bind ih fun _ => hP.pure

theorem memorize (hP : Closed lock @P) {inner : List (Node I) → Prog I TickResult}
    (hinner : ∀ nodes, P (inner nodes)) (execution : Ref .execution) (children : List (Node I)) :
    P (Memorize.run execution inner children) := by
  refine hP.locked (by decide) (fun hne => ?_) fun hne nodes =>
    hP.bind (hinner nodes) fun result => ?_
  · refine hP.request hne fun opened => ?_
    cases opened with
    | some nodes => exact hP.pure
    | none =>
      refine hP.bind (p := Memorize.snapshot children) (hP.snapshot children) fun nodes => ?_
      exact hP.request hne fun _ => hP.pure
  · have hrest : P (Prog.request (.release .execution execution) fun _ =>
        (Prog.pure result : Prog I TickResult)) := hP.request hne fun _ => hP.pure
    change P (if !result.isRunning then _ else _)
    split
    · exact hP.request hne fun _ => hrest
    · exact hrest

theorem record (hP : Closed lock @P) (hlock : lock.kind.isGuarded) {inner : Prog I TickResult}
    (hinner : P inner) (record : Ref .record) : P (Memorize.record record inner) := by
  have hne : record.lock ≠ lock := by
    rintro rfl
    cases hlock
  refine hP.bind hinner fun result => ?_
  change P (if !result.isRunning then _ else _)
  split
  · exact hP.request hne fun _ => hP.pure
  · exact hP.pure

theorem any (hP : Closed lock @P) (hlock : lock.kind.isGuarded)
    {inner : List (Node I) → Prog I TickResult} (hinner : ∀ nodes, P (inner nodes))
    (flag : Ref .flag) (children : List (Node I)) : P (AnySuccess.run flag inner children) := by
  have hne : flag.lock ≠ lock := by
    rintro rfl
    cases hlock
  refine hP.bind (hinner _) fun result => ?_
  match result with
  | .ok .running => exact hP.pure
  | .ok .success | .ok .failure | .error e => exact hP.request hne fun _ => hP.pure

theorem note (hP : Closed lock @P) (hlock : lock.kind.isGuarded) {inner : Prog I TickResult}
    (hinner : P inner) (flag : Ref .flag) : P (AnySuccess.note flag inner) := by
  have hne : flag.lock ≠ lock := by
    rintro rfl
    cases hlock
  refine hP.bind hinner fun result => ?_
  match result with
  | .ok .success => exact hP.request hne fun _ => hP.pure
  | .ok .running | .ok .failure | .error e => exact hP.pure

theorem gate (hP : Closed lock @P) {inner : Prog I TickResult} (hinner : P inner)
    (other : Ref .statuses) (index : Nat) : P (Siblings.gate other index inner) :=
  hP.locked (by decide) (fun _ => hinner) fun hne _ => hP.request hne fun _ =>
    hP.request hne fun _ => hP.request hne fun _ => hP.pure

theorem fork (hP : Closed lock @P) (round : Ref .round) (children : List (Node I)) :
    P (Fork.run round children) := by
  refine hP.locked (by decide) hP.reading fun hne before => hP.request hne fun _ => ?_
  have hrest : ∀ ended : Round I, P (Prog.request (.swap .round round ended.next) fun _ =>
      Prog.request (.release .round round) fun _ =>
        (Prog.pure ended.verdict : Prog I TickResult)) :=
    fun ended => hP.request hne fun _ => hP.request hne fun _ => hP.pure
  change P (if (Round.begin before children).remaining.isEmpty then _ else _)
  split
  · exact hrest _
  · exact hP.request trivial fun _ => hrest _

theorem scan (hP : Closed lock @P) (jobs : List (Node I)) :
    ∀ passed, P (Background.scan passed jobs) := by
  induction jobs with
  | nil => exact fun _ => hP.pure
  | cons job jobs ih =>
    intro passed
    refine hP.request trivial fun result => ?_
    split
    · exact ih _
    · exact hP.pure

theorem background (hP : Closed lock @P) (jobs : Ref .jobs) (generator : Recipe I (Tick I))
    (children : List (Node I)) : P (Background.run jobs generator children) := by
  refine hP.locked (by decide) hP.reading fun hne before =>
    hP.bind (hP.scan before []) fun found => ?_
  cases found with
  | some found => exact hP.request hne fun _ => hP.request hne fun _ => hP.pure
  | none =>
    refine hP.bind (hP.toProg generator) fun tick => hP.request trivial fun result => ?_
    have hrest : P (Prog.request (.release .jobs jobs) fun _ =>
        (Prog.pure result : Prog I TickResult)) := hP.request hne fun _ => hP.pure
    change P (if TickResult.isRunning result then _ else _)
    split
    · exact hP.request hne fun _ => hrest
    · exact hrest

/-- A call of an asynchronous tick whose worker has another lock. -/
theorem asynchronous (hP : Closed lock @P) (worker : Ref .worker) (tick : Tick I)
    (children : List (Node I)) : P (Asynchronous.run worker tick children) := by
  by_cases hsame : worker.lock = lock
  · exact hP.async hsame
  · refine hP.request hsame fun _ => hP.request hsame fun before => ?_
    have hrest : P (Prog.request (.release .worker worker) fun _ =>
        (Prog.pure (Worker.call before).1 : Prog I TickResult)) := hP.request hsame fun _ => hP.pure
    match (before : Worker) with
    | .idle => exact hP.request hsame fun _ => hP.request hsame fun _ => hrest
    | .busy => exact hrest
    | .finished _ | .lost => exact hP.request hsame fun _ => hrest

theorem run (hP : Closed lock @P) (hlock : lock.kind.isGuarded) :
    ∀ (tick : Tick I) (children : List (Node I)), P (tick.run children)
  | .const _, _ => hP.pure
  | .custom code, children => hP.routine hlock children (code children.length)
  | .ask _ next, children => hP.request trivial fun reply => hP.run hlock (next reply) children
  | .composite kind, children => hP.composite kind children 0 kind.initial
  | .not inner, children => hP.bind (hP.run hlock inner children) fun _ => hP.pure
  | .memorize execution inner, children => hP.memorize (hP.run hlock inner) execution children
  | .any flag inner, children => hP.any hlock (hP.run hlock inner) flag children
  | .fork round, children => hP.fork round children
  | .background jobs generator, children => hP.background jobs generator children
  | .async worker inner, children => hP.asynchronous worker inner children
  | .recording rec inner, children => hP.record hlock (hP.run hlock inner children) rec
  | .flagging flag inner, children => hP.note hlock (hP.run hlock inner children) flag
  | .gated other index inner, children => hP.gate (hP.run hlock inner children) other index
  | .exitOnFailure inner, children => hP.bind (hP.run hlock inner children) fun _ => hP.pure
termination_by structural tick => tick

/-- **It is true of the program of every tick of a node.** -/
theorem call (hP : Closed lock @P) (hlock : lock.kind.isGuarded) (node : Node I) : P node.call := by
  refine hP.bind (hP.expand hlock node) fun (tick, children) => ?_
  cases tick with
  | some tick => exact hP.run hlock tick children
  | none => exact hP.pure

end Prog.Closed

/-! ### Programs that wait for the lock -/

/-- The request neither changes the cell nor gives its lock back. -/
def Request.Spares (ref : Ref kind) : Request I → Prop
  | .swap _ other _ => other.lock ≠ ref.lock
  | .release _ other => other.lock ≠ ref.lock
  | _ => True

theorem Request.Avoids.spares {r : Request I} (h : r.Avoids ref.lock) : r.Spares ref := by
  cases r with
  | swap | release => exact h
  | tick | parallel | start | read | alloc | acquire | panic | ask => trivial

/-- The program waits for the lock of the cell before it changes the cell or gives
the lock back. -/
inductive Prog.Awaits (ref : Ref kind) : {α : Type} → Prog I α → Prop
  | pure {α : Type} {a : α} : Awaits ref (.pure a)
  | acquire {α : Type} {next : Unit → Prog I α} : Awaits ref (.request (.acquire _ ref) next)
  | request {α : Type} {r : Request I} {next : r.Reply → Prog I α} :
      r.Spares ref → (∀ reply, Awaits ref (next reply)) → Awaits ref (.request r next)

namespace Prog.Awaits

theorem bind {p : Prog I α} {f : α → Prog I β} (hp : p.Awaits ref) (hf : ∀ a, (f a).Awaits ref) :
    (p.bind f).Awaits ref := by
  induction hp with
  | pure => exact hf _
  | acquire => exact .acquire
  | request hr _ ih => exact .request hr fun reply => ih reply

theorem block {kind' : CellKind} {other : Ref kind'} (hsame : other.lock = ref.lock)
    (next : Unit → Prog I α) : (Prog.request (.acquire kind' other) next).Awaits ref := by
  obtain ⟨index⟩ := other
  obtain ⟨index'⟩ := ref
  cases hsame
  exact .acquire

theorem closed (ref : Ref kind) : Closed (I := I) ref.lock (Awaits ref) where
  pure := .pure
  bind := bind
  request hr hnext := .request hr.spares hnext
  block hsame _ := block hsame _
  async hsame := block hsame _

end Prog.Awaits

theorem Node.awaits_expand (hkind : kind.isGuarded) (ref : Ref kind) (node : Node I) :
    node.expand.Awaits ref :=
  (Prog.Awaits.closed ref).expand hkind node

theorem Tick.awaits_run (hkind : kind.isGuarded) (ref : Ref kind) (tick : Tick I)
    (children : List (Node I)) : (tick.run children).Awaits ref :=
  (Prog.Awaits.closed ref).run hkind tick children

/-- The program of every tick waits for the lock of the cell. -/
theorem Node.awaits_call (hkind : kind.isGuarded) (ref : Ref kind) (node : Node I) :
    node.call.Awaits ref :=
  (Prog.Awaits.closed ref).call hkind node

/-! ### While the lock is held -/

/-- Another cell is replaced. -/
theorem Heap.get_set_of_lock_ne {kind kind' : CellKind} {r : Ref kind} {r' : Ref kind'}
    (hne : r.lock ≠ r'.lock) (heap : Heap I) (state : kind.State I) :
    (heap.set r state).get r' = heap.get r' := by
  by_cases hkind : kind = kind'
  · subst hkind
    exact get_set_ne (fun he => hne (congrArg Ref.lock he)) state
  · exact get_set_kind hkind r r' state

namespace World

variable {w w₁ : World I σ}

/-- The world when a lock is taken. -/
def hold (w : World I σ) (lock : Lock) : World I σ := { w with locked := lock :: w.locked }

theorem serve_acquire_hold {env : Environment I σ} {caller : Caller} {held : List Lock}
    {kind : CellKind} {r : Ref kind} (hfree : r.lock ∉ w.locked) :
    w.serve env caller held (.acquire kind r) = some ((), r.lock :: held, w.hold r.lock) :=
  serve_acquire hfree

/-- A lock is taken when nobody holds it. -/
theorem serve_acquire_iff {env : Environment I σ} {caller : Caller} {held held' : List Lock}
    {kind : CellKind} {r : Ref kind} {reply : Unit} {w' : World I σ} :
    w.serve env caller held (.acquire kind r) = some (reply, held', w') ↔
      r.lock ∉ w.locked ∧ held' = r.lock :: held ∧ w' = w.hold r.lock := by
  constructor
  · intro hserve
    by_cases hfree : r.lock ∈ w.locked
    · simp [serve, hfree] at hserve
    · rw [serve_acquire_hold hfree] at hserve
      cases hserve
      exact ⟨hfree, rfl, rfl⟩
  · rintro ⟨hfree, rfl, rfl⟩
    exact serve_acquire_hold hfree

theorem mem_unlock {lock : Lock} {locks : List Lock} :
    lock ∈ (w.unlock locks).locked ↔ lock ∈ w.locked ∧ lock ∉ locks := by
  simp [unlock]

theorem Spares.unlock {locks : List Lock} (hnot : ref.lock ∉ locks) :
    Spares ref w (w.unlock locks) :=
  ⟨id, rfl, mem_unlock.trans (and_iff_left hnot)⟩

theorem Spares.unlock_both (h : Spares ref w w₁) (locks : List Lock) :
    Spares ref (w.unlock locks) (w₁.unlock locks) :=
  ⟨h.made, h.cell, by rw [mem_unlock, mem_unlock, h.lock]⟩

/-- A request that has nothing to do with the cell or its lock. -/
theorem Spares.of_avoids {env : Environment I σ} {caller : Caller} {held held₁ : List Lock}
    {r : Request I} {reply : r.Reply} (hr : r.Avoids ref.lock)
    (hserve : w.serve env caller held r = some (reply, held₁, w₁)) :
    Spares ref w w₁ ∧ (ref.lock ∈ held₁ ↔ ref.lock ∈ held) := by
  cases r with
  | tick | parallel | start | panic => cases hserve
  | read kind other =>
    cases hserve
    exact ⟨.refl _ _, Iff.rfl⟩
  | swap kind other state =>
    cases hserve
    exact ⟨⟨(Heap.made_set state).mpr, Heap.get_set_of_lock_ne hr _ state, Iff.rfl⟩, Iff.rfl⟩
  | alloc kind =>
    cases hserve
    exact ⟨⟨fun hmade => Heap.made_alloc_of_made hmade kind, Heap.get_alloc _ kind ref, Iff.rfl⟩,
      Iff.rfl⟩
  | acquire kind other =>
    have hne : ref.lock ≠ other.lock := fun he => hr he.symm
    obtain ⟨-, rfl, rfl⟩ := serve_acquire_iff.mp hserve
    exact ⟨⟨id, rfl, List.mem_cons.trans (or_iff_right hne)⟩,
      List.mem_cons.trans (or_iff_right hne)⟩
  | release kind other =>
    cases hserve
    have hne : ref.lock ≠ other.lock := fun he => hr he.symm
    refine ⟨.unlock (by simpa using hne), ?_⟩
    simp [hne]
  | ask query =>
    simp only [serve, Option.map_eq_some_iff] at hserve
    obtain ⟨⟨reply', outside⟩, -, he⟩ := hserve
    cases he
    exact ⟨⟨id, rfl, Iff.rfl⟩, Iff.rfl⟩

/-- A request that spares the cell and is served while its lock is held. -/
theorem Spares.of_serve {env : Environment I σ} {caller : Caller} {held held₁ : List Lock}
    {r : Request I} {reply : r.Reply} (hr : r.Spares ref) (hlocked : ref.lock ∈ w.locked)
    (hserve : w.serve env caller held r = some (reply, held₁, w₁)) :
    Spares ref w w₁ ∧ (ref.lock ∈ held₁ ↔ ref.lock ∈ held) := by
  cases r with
  | read kind other =>
    cases hserve
    exact ⟨.refl _ _, Iff.rfl⟩
  | acquire kind other =>
    refine of_avoids ?_ hserve
    intro (he : other.lock = ref.lock)
    exact (serve_acquire_iff.mp hserve).1 (he.symm ▸ hlocked)
  | start => cases hserve
  | swap | release | tick | parallel | alloc | panic | ask =>
    refine of_avoids ?_ hserve
    exact hr

end World

/-- Others that leave a cell and its lock alone, and do anything else. -/
def Others.sparing {kind : CellKind} (r : Ref kind) : Others I σ where
  change := World.Spares r
  joins := fun w _ _ w' => World.Spares r w w'
  refl := .refl r
  trans := .trans

/-- Others that leave a cell alone while its lock is held, as those do that use it under
its lock only. -/
structure Others.Respects (others : Others I σ) (ref : Ref kind) : Prop where
  change : ∀ {w w'}, others.change w w' → ref.lock ∈ w.locked → World.Spares ref w w'
  joins : ∀ {w nodes reports w'}, others.joins w nodes reports w' → ref.lock ∈ w.locked →
    World.Spares ref w w'

theorem Others.Respects.sparing (ref : Ref kind) :
    (Others.sparing ref : Others I σ).Respects ref :=
  ⟨fun ho _ => ho, fun hjoin _ => hjoin⟩

section

variable {env : Environment I σ} {others : Others I σ} {caller : Caller} {p : Prog I α}
  {held held' : List Lock} {w w' : World I σ} {ending : Ending α}

/-- The lock is taken when others have left it free. -/
theorem Prog.Among.acquire_iff {next : Unit → Prog I α} :
    (Prog.request (.acquire kind ref) next).Among env others caller held w ending held' w' ↔
      ∃ w₀, others.change w w₀ ∧ ref.lock ∉ w₀.locked ∧ (next ()).Among env others caller
        (ref.lock :: held) (w₀.hold ref.lock) ending held' w' := by
  refine (serve_iff rfl).trans ⟨?_, ?_⟩
  · rintro ⟨w₀, reply, held₁, w₁, ho, hserve, hnext⟩
    obtain ⟨hfree, rfl, rfl⟩ := World.serve_acquire_iff.mp hserve
    exact ⟨w₀, ho, hfree, hnext⟩
  · rintro ⟨w₀, ho, hfree, hnext⟩
    exact ⟨w₀, (), _, _, ho, World.serve_acquire_hold hfree, hnext⟩

/-- **While somebody holds the lock, what waits for it leaves the cell alone.** -/
theorem Prog.Among.spares (h : p.Among env others caller held w ending held' w')
    (hothers : others.Respects ref) (hkind : kind.isGuarded) (hp : p.Awaits ref)
    (hlocked : ref.lock ∈ w.locked) :
    World.Spares ref w w' ∧ (ref.lock ∈ held' ↔ ref.lock ∈ held) := by
  induction h with
  | pure ho => exact ⟨hothers.change ho hlocked, Iff.rfl⟩
  | @serve _ r _ _ _ _ _ _ w w₀ w₁ w' ho hserve _ ih =>
    have ho := hothers.change ho hlocked
    have hlocked₀ := ho.lock.mpr hlocked
    cases hp with
    | acquire => exact absurd hlocked₀ (World.serve_acquire_iff.mp hserve).1
    | request hr hnext =>
      obtain ⟨hspares, hheld⟩ := World.Spares.of_serve hr hlocked₀ hserve
      obtain ⟨hspares', hheld'⟩ := ih (hnext _) (hspares.lock.mpr hlocked₀)
      exact ⟨(ho.trans hspares).trans hspares', hheld'.trans hheld⟩
  | @tick _ node next result ending held held₁ held' w w₀ w₁ w' ho _ _ ihcall ih =>
    have ho := hothers.change ho hlocked
    obtain ⟨hcall, hheld⟩ := ihcall (node.awaits_call hkind ref) (ho.lock.mpr hlocked)
    have hgiven : World.Spares ref w₁ (w₁.unlock held₁) :=
      .unlock fun hmem => List.not_mem_nil (hheld.mp hmem)
    have hspares := (ho.trans hcall).trans hgiven
    cases hp with
    | request _ hnext =>
      obtain ⟨hspares', hheld'⟩ := ih (hnext _) (hspares.lock.mpr hlocked)
      exact ⟨hspares.trans hspares', hheld'⟩
  | @tickPanic _ node next payload held held₁ w w₀ w₁ w' ho _ hlast ihcall =>
    have ho := hothers.change ho hlocked
    obtain ⟨hcall, hheld⟩ := ihcall (node.awaits_call hkind ref) (ho.lock.mpr hlocked)
    have hgiven : World.Spares ref w₁ (w₁.unlock held₁) :=
      .unlock fun hmem => List.not_mem_nil (hheld.mp hmem)
    have hspares := (ho.trans hcall).trans hgiven
    exact ⟨hspares.trans (hothers.change hlast (hspares.lock.mpr hlocked)), Iff.rfl⟩
  | @parallel _ _ _ _ _ _ _ w w₀ w₁ w' ho hjoin _ ih =>
    have ho := hothers.change ho hlocked
    have hspares := ho.trans (hothers.joins hjoin (ho.lock.mpr hlocked))
    cases hp with
    | request _ hnext =>
      obtain ⟨hspares', hheld⟩ := ih (hnext _) (hspares.lock.mpr hlocked)
      exact ⟨hspares.trans hspares', hheld⟩
  | @start _ _ _ _ _ _ _ _ w w₀ w' ho _ ih =>
    have ho := hothers.change ho hlocked
    cases hp with
    | request _ hnext =>
      obtain ⟨hspares, hheld⟩ := ih (hnext _) (ho.lock.mpr hlocked)
      exact ⟨ho.trans hspares, hheld⟩
  | panic ho => exact ⟨hothers.change ho hlocked, Iff.rfl⟩

/-- So does the tick of any node, which gives back no lock of another. -/
theorem Node.Ticked.spares {node : Node I} {ending : Ending TickResult}
    (h : node.Ticked env others caller w ending w') (hothers : others.Respects ref)
    (hkind : kind.isGuarded) (hlocked : ref.lock ∈ w.locked) : World.Spares ref w w' := by
  obtain ⟨held, w₁, hcall, rfl⟩ := h
  obtain ⟨hspares, hheld⟩ := hcall.spares hothers hkind (node.awaits_call hkind ref) hlocked
  exact hspares.trans (.unlock fun hmem => List.not_mem_nil (hheld.mp hmem))

end

end TickTree
