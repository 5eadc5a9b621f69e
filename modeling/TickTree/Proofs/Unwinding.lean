/-
# How a panic leaves a tick

A panic is let through by whatever runs a tick in its own thread. Here it is said, for
each wrapper, where the panic of a call comes from, and what it has passed when it
leaves: a wrapper panics if and only if what it runs does, and with the same payload.
Neither a fork nor an asynchronous tick does, since others run what they start
(`Prog.All.returns`).

A wrapper that keeps a cell under a lock has the lock from the time at which others
have left it free, and keeps it until it has returned. While it has the lock nobody
else changes the cell. So after a panic the cell is as the wrapper had left it by then,
and the lock is given back with those of the tick (`World.Spares.give_back`).

Key definitions: `Request.isCalm`, `Node.Passed`, `Node.Broken`, `Others.Frees`,
`Background.Breaks`.
Key theorems: `Node.ticked_panic_iff`, `Prog.Row.among_panic_iff`,
`Background.among_panic_iff`, `Siblings.among_gate_iff`, `Memorize.among_panic_iff`.
-/
import TickTree.Proofs.Performing

namespace TickTree

variable {I : Interface} {σ α β : Type} {env : Environment I σ} {others : Others I σ}
  {caller : Caller} {held held' : List Lock} {w w₀ w₁ w' : World I σ} {payload : Payload}
  {kind : CellKind} {ref : Ref kind}

/-! ### Programs that do not panic -/

/-- The request neither panics nor ticks a node on the thread that makes it. -/
def Request.isCalm : Request I → Bool
  | .tick _ | .panic _ => false
  | _ => true

/-- A program of such requests ends with a value. -/
theorem Prog.All.returns {p : Prog I α} {ending : Ending α} (hp : p.All (·.isCalm))
    (h : p.Among env others caller held w ending held' w') : ∃ a, ending = .value a := by
  induction h with
  | pure => exact ⟨_, rfl⟩
  | serve _ _ _ ih | parallel _ _ _ ih | start _ _ ih =>
    cases hp with
    | request _ hnext => exact ih (hnext _)
  | tick | tickPanic | panic =>
    cases hp with
    | request hr _ => cases hr

/-- What does not panic lets the panic through that comes before it. -/
theorem Prog.Among.bind_panic_iff {p : Prog I α} {f : α → Prog I β}
    (hf : ∀ a, (f a).All (·.isCalm)) :
    (p.bind f).Among env others caller held w (.panic payload) held' w' ↔
      p.Among env others caller held w (.panic payload) held' w' := by
  constructor
  · intro h
    rcases Prog.Among.bind_iff.mp h with ⟨_, he, hp⟩ | ⟨a, held₁, w₁, -, hrest⟩
    · cases he
      exact hp
    · obtain ⟨_, he⟩ := (hf a).returns hrest
      cases he
  · exact fun h => h.bind_panic

/-- What does not panic does not hold up the panic that comes after it. -/
theorem Prog.Among.calm_bind_iff {p : Prog I α} {f : α → Prog I β} (hp : p.All (·.isCalm)) :
    (p.bind f).Among env others caller held w (.panic payload) held' w' ↔
      ∃ a held₁ w₁, p.Among env others caller held w (.value a) held₁ w₁ ∧
        (f a).Among env others caller held₁ w₁ (.panic payload) held' w' := by
  refine Prog.Among.bind_iff.trans ⟨?_, .inr⟩
  rintro (⟨_, -, h⟩ | h)
  · obtain ⟨_, he⟩ := hp.returns h
    cases he
  · exact h

theorem Recipe.all_calm (recipe : Recipe I α) : recipe.toProg.All (·.isCalm) := by
  induction recipe with
  | yield a => exact .pure
  | ask query next ih => exact .request rfl ih
  | alloc kind next ih => exact .request rfl ih

theorem Fork.all_calm (ref : Ref .round) (children : List (Node I)) :
    (Fork.run ref children).All (·.isCalm) := by
  refine .request rfl fun _ => .request rfl fun (before : Round I) => .request rfl fun _ => ?_
  have hrest : ∀ ended : Round I, (Prog.request (.swap .round ref ended.next) fun _ =>
      Prog.request (.release .round ref) fun _ => Prog.pure ended.verdict).All (·.isCalm) :=
    fun ended => .request rfl fun _ => .request rfl fun _ => .pure
  change Prog.All _ (if (before.begin children).remaining.isEmpty then _ else _)
  split
  · exact hrest _
  · exact .request rfl fun _ => hrest _

theorem Asynchronous.all_calm (ref : Ref .worker) (inner : Tick I) (children : List (Node I)) :
    (Asynchronous.run ref inner children).All (·.isCalm) := by
  refine .request rfl fun _ => .request rfl fun (worker : Worker) => ?_
  have hrest : (Prog.request (.release .worker ref) fun _ =>
      Prog.pure worker.call.1 : Prog I TickResult).All (·.isCalm) := .request rfl fun _ => .pure
  cases worker with
  | idle => exact .request rfl fun _ => .request rfl fun _ => hrest
  | busy => exact hrest
  | finished | lost => exact .request rfl fun _ => hrest

/-! ### Nodes, and ticks of nodes -/

mutual

/-- The expansion of a node does not panic. -/
theorem Node.all_calm_expand : ∀ node : Node I, node.expand.All (·.isCalm)
  | .plain _ _ => .pure
  | .made recipe => Node.all_calm_expandMade recipe
  | .memorized _ node => node.all_calm_expand.bind fun (_, _) => .request rfl fun recorded => by
      cases recorded <;> exact .pure
  | .flagged _ node => node.all_calm_expand.bind fun (_, _) => .pure
  | .sibling _ index node => .request rfl fun _ => node.all_calm_expand.bind fun (tick?, _) =>
      .request rfl fun last => .request rfl fun _ => by
        cases tick? with
        | none => exact .pure
        | some tick =>
          change Prog.All _ (if Siblings.mayRun last index then _ else _)
          split <;> exact .pure
  | .exitOnFailure node => node.all_calm_expand.bind fun (_, _) => .pure
termination_by structural node => node

theorem Node.all_calm_expandMade :
    ∀ recipe : Recipe I (Node I), (Node.expandMade recipe).All (·.isCalm)
  | .yield node => node.all_calm_expand
  | .ask _ next => .request rfl fun reply => Node.all_calm_expandMade (next reply)
  | .alloc _ next => .request rfl fun ref => Node.all_calm_expandMade (next ref)
termination_by structural recipe => recipe

end

/-- A node panics as the tick does that it has expanded to. -/
theorem Node.ticked_panic_iff {node : Node I} :
    node.Ticked env others caller w (.panic payload) w' ↔
      ∃ tick children held w₀ held' w₁,
        node.expand.Among env others caller [] w (.value (some tick, children)) held w₀ ∧
        (tick.run children).Among env others caller held w₀ (.panic payload) held' w₁ ∧
        w' = w₁.unlock held' := by
  constructor
  · rintro ⟨held', w₁, hcall, rfl⟩
    obtain ⟨⟨tick?, children⟩, held, w₀, hexpand, hrun⟩ :=
      (Prog.Among.bind_iff.mp hcall).resolve_left fun ⟨_, _, hpanic⟩ => by
        obtain ⟨_, he⟩ := node.all_calm_expand.returns hpanic
        cases he
    cases tick? with
    | none => cases (Prog.Among.pure_iff.mp hrun).1
    | some tick => exact ⟨tick, children, held, w₀, held', w₁, hexpand, hrun, rfl⟩
  · rintro ⟨tick, children, held, w₀, held', w₁, hexpand, hrun, rfl⟩
    exact ⟨held', w₁, hexpand.bind hrun, rfl⟩

section Rows

variable (env others caller)

/-- The nodes are ticked one after another, and each returns such a result. -/
inductive Node.Passed (P : TickResult → Prop) : List (Node I) → World I σ → World I σ → Prop
  | nil {w w' : World I σ} : others.change w w' → Passed P [] w w'
  | cons {node : Node I} {nodes : List (Node I)} {result : TickResult} {w w₀ w₁ w' : World I σ} :
      others.change w w₀ → node.Ticked env others caller w₀ (.value result) w₁ → P result →
      Passed P nodes w₁ w' → Passed P (node :: nodes) w w'

/-- One of the nodes panics. Those before it have been passed, and those after it are not
ticked. -/
def Node.Broken (P : TickResult → Prop) (nodes : List (Node I)) (payload : Payload)
    (w w' : World I σ) : Prop :=
  ∃ before node after w₁ w₂, nodes = before ++ node :: after ∧
    Node.Passed env others caller P before w w₁ ∧
    node.Ticked env others caller w₁ (.panic payload) w₂ ∧ others.change w₂ w'

end Rows

variable {P : TickResult → Prop} {node : Node I} {nodes : List (Node I)}

theorem Node.Passed.change (ho : others.change w w₁)
    (h : Node.Passed env others caller P nodes w₁ w') :
    Node.Passed env others caller P nodes w w' := by
  cases h with
  | nil ho' => exact .nil (others.trans ho ho')
  | cons ho' hticked hp hrest => exact .cons (others.trans ho ho') hticked hp hrest

theorem Node.broken_nil : ¬ Node.Broken env others caller P [] payload w w' := by
  rintro ⟨before, node, after, _, _, hsplit, -⟩
  simp at hsplit

theorem Node.broken_cons_iff :
    Node.Broken env others caller P (node :: nodes) payload w w' ↔
      ∃ w₀ w₁, others.change w w₀ ∧
        (node.Ticked env others caller w₀ (.panic payload) w₁ ∧ others.change w₁ w' ∨
          ∃ result, node.Ticked env others caller w₀ (.value result) w₁ ∧ P result ∧
            Node.Broken env others caller P nodes payload w₁ w') := by
  constructor
  · rintro ⟨before, node', after, w₁, w₂, hsplit, hpassed, hpanic, hlast⟩
    cases hpassed with
    | nil ho =>
      cases hsplit
      exact ⟨_, _, ho, .inl ⟨hpanic, hlast⟩⟩
    | cons ho hticked hp hrest =>
      cases hsplit
      exact ⟨_, _, ho, .inr ⟨_, hticked, hp, _, _, _, _, _, rfl, hrest, hpanic, hlast⟩⟩
  · rintro ⟨w₀, w₁, ho, ⟨hpanic, hlast⟩ |
      ⟨result, hticked, hp, before, node', after, w₂, w₃, rfl, hpassed, hpanic, hlast⟩⟩
    · exact ⟨[], node, nodes, _, _, rfl, .nil ho, hpanic, hlast⟩
    · exact ⟨node :: before, node', after, _, _, rfl, .cons ho hticked hp hpassed, hpanic, hlast⟩

theorem Node.Broken.change (ho : others.change w w₁)
    (h : Node.Broken env others caller P nodes payload w₁ w') :
    Node.Broken env others caller P nodes payload w w' := by
  obtain ⟨before, node, after, w₂, w₃, hsplit, hpassed, hpanic, hlast⟩ := h
  exact ⟨before, node, after, w₂, w₃, hsplit, hpassed.change ho, hpanic, hlast⟩

/-- While somebody holds the lock, nodes that are ticked leave the cell alone. -/
theorem Node.Passed.spares (h : Node.Passed env others caller P nodes w w')
    (hothers : others.Respects ref) (hkind : kind.isGuarded) (hlocked : ref.lock ∈ w.locked) :
    World.Spares ref w w' := by
  induction h with
  | nil ho => exact hothers.change ho hlocked
  | cons ho hticked _ _ ih =>
    have ho := hothers.change ho hlocked
    have hticked := hticked.spares hothers hkind (ho.lock.mpr hlocked)
    have hspares := ho.trans hticked
    exact hspares.trans (ih (hspares.lock.mpr hlocked))

theorem Node.Broken.spares (h : Node.Broken env others caller P nodes payload w w')
    (hothers : others.Respects ref) (hkind : kind.isGuarded) (hlocked : ref.lock ∈ w.locked) :
    World.Spares ref w w' := by
  obtain ⟨before, node, after, w₁, w₂, -, hpassed, hpanic, hlast⟩ := h
  have hpassed := hpassed.spares hothers hkind hlocked
  have hspares := hpassed.trans (hpanic.spares hothers hkind (hpassed.lock.mpr hlocked))
  exact hspares.trans (hothers.change hlast (hspares.lock.mpr hlocked))

/-- The program ticks the nodes one after another, as long as they return such results. It
does not panic itself. -/
inductive Prog.Row (P : TickResult → Prop) : List (Node I) → Prog I α → Prop
  | nil {p : Prog I α} : p.All (·.isCalm) → Row P [] p
  | cons {node : Node I} {nodes : List (Node I)} {next : TickResult → Prog I α} :
      (∀ result, P result → Row P nodes (next result)) →
      (∀ result, ¬ P result → (next result).All (·.isCalm)) →
      Row P (node :: nodes) (.request (.tick node) next)

/-- It panics if and only if one of the nodes does that it comes to. -/
theorem Prog.Row.among_panic_iff {p : Prog I α} (h : p.Row P nodes) :
    p.Among env others caller held w (.panic payload) held' w' ↔
      held' = held ∧ Node.Broken env others caller P nodes payload w w' := by
  induction h generalizing w with
  | nil hcalm =>
    refine iff_of_false (fun h => ?_) fun h => Node.broken_nil h.2
    obtain ⟨_, he⟩ := hcalm.returns h
    cases he
  | @cons node nodes next _ hstops ih =>
    rw [Node.broken_cons_iff]
    refine Prog.Among.tick_iff.trans ?_
    constructor
    · rintro ⟨w₀, first, w₁, ho, hticked, hrest⟩
      cases first with
      | panic _ =>
        obtain ⟨he, rfl, hlast⟩ := Prog.Among.panic_iff.mp hrest
        cases he
        exact ⟨rfl, w₀, w₁, ho, .inl ⟨hticked, hlast⟩⟩
      | value result =>
        by_cases hp : P result
        · obtain ⟨rfl, hbroken⟩ := (ih result hp).mp hrest
          exact ⟨rfl, w₀, w₁, ho, .inr ⟨result, hticked, hp, hbroken⟩⟩
        · obtain ⟨_, he⟩ := (hstops result hp).returns hrest
          cases he
    · rintro ⟨rfl, w₀, w₁, ho, ⟨hpanic, hlast⟩ | ⟨result, hticked, hp, hbroken⟩⟩
      · exact ⟨w₀, _, w₁, ho, hpanic, Prog.Among.panic_iff.mpr ⟨rfl, rfl, hlast⟩⟩
      · exact ⟨w₀, _, w₁, ho, hticked, (ih result hp).mpr ⟨rfl, hbroken⟩⟩

/-- A composite goes on past this result. -/
def Composite.LetsPass (kind : Composite) (result : TickResult) : Prop :=
  ∃ s, result = .ok s ∧ kind.goesPast s

theorem Composite.row (kind : Composite) (children : List (Node I)) :
    ∀ index soFar, (kind.runFrom index soFar children).Row kind.LetsPass children := by
  induction children with
  | nil => exact fun _ _ => .nil .pure
  | cons child children ih =>
    intro index soFar
    refine .cons (fun result => ?_) fun result hstops => ?_
    · rintro ⟨s, rfl, hpast⟩
      change Prog.Row _ _ (if kind.goesPast s then _ else _)
      rw [if_pos hpast]
      exact ih _ _
    · match result with
      | .error e => exact .pure
      | .ok s =>
        change Prog.All _ (if kind.goesPast s then _ else _)
        rw [if_neg fun hpast => hstops ⟨s, rfl, hpast⟩]
        exact .pure

/-- The inverted tick panics as the tick inside does. -/
theorem Tick.among_not_iff {inner : Tick I} {children : List (Node I)} :
    ((Tick.not inner).run children).Among env others caller held w (.panic payload) held' w' ↔
      (inner.run children).Among env others caller held w (.panic payload) held' w' :=
  Prog.Among.bind_panic_iff fun _ => .pure

/-- So does a tick that succeeds if any child does, over children with marks. -/
theorem AnySuccess.among_panic_iff {flag : Ref .flag} {inner : List (Node I) → Prog I TickResult}
    {children : List (Node I)} :
    (AnySuccess.run flag inner children).Among env others caller held w (.panic payload) held' w' ↔
      (inner (children.map (.flagged flag))).Among env others caller held w (.panic payload) held'
        w' := by
  refine Prog.Among.bind_panic_iff fun result => ?_
  match result with
  | .ok .running => exact .pure
  | .ok .success | .ok .failure | .error e => exact .request rfl fun _ => .pure

/-! ### Wrappers with a lock -/

/-- Others have come to leave the lock free. -/
def Others.Frees (others : Others I σ) (ref : Ref kind) (w w₀ : World I σ) : Prop :=
  others.change w w₀ ∧ ref.lock ∉ w₀.locked

/-- The lock is taken, and what is then done leaves the cell alone. When all locks are
given back, the cell and its lock are as they were. -/
theorem World.Spares.give_back (h : World.Spares ref (w₀.hold ref.lock) w₁)
    (hfree : ref.lock ∉ w₀.locked) (hheld : ref.lock ∈ held) :
    World.Spares ref w₀ (w₁.unlock held) := by
  refine ⟨h.made, h.cell, iff_of_false (fun hmem => ?_) hfree⟩
  exact (World.mem_unlock.mp hmem).2 hheld

theorem Prog.Among.spares_given_back {p : Prog I α} {ending : Ending α}
    (h : p.Among env others caller (ref.lock :: held) (w₀.hold ref.lock) ending held' w')
    (hothers : others.Respects ref) (hkind : kind.isGuarded) (hp : p.Awaits ref)
    (hfree : ref.lock ∉ w₀.locked) : World.Spares ref w₀ (w'.unlock held') := by
  obtain ⟨hspares, hheld⟩ := h.spares hothers hkind hp List.mem_cons_self
  exact hspares.give_back hfree (hheld.mpr List.mem_cons_self)

/-- A program that takes a lock, does something, and then does not panic. -/
theorem Prog.Among.locked_panic_iff {p : Prog I α} {f : α → Prog I β}
    (hf : ∀ a, (f a).All (·.isCalm)) :
    (Prog.request (.acquire kind ref) fun _ => p.bind f).Among env others caller held w
        (.panic payload) held' w' ↔
      ∃ w₀, others.Frees ref w w₀ ∧
        p.Among env others caller (ref.lock :: held) (w₀.hold ref.lock) (.panic payload) held'
          w' := by
  refine acquire_iff.trans (exists_congr fun w₀ => ?_)
  rw [bind_panic_iff hf, Others.Frees, and_assoc]

namespace Siblings

variable {ref : Ref .statuses} {index : Nat}

/-- A sibling that runs its tick panics as that does. -/
theorem among_gate_iff {p : Prog I TickResult} :
    (gate ref index p).Among env others caller held w (.panic payload) held' w' ↔
      ∃ w₀, others.Frees ref w w₀ ∧
        p.Among env others caller (ref.lock :: held) (w₀.hold ref.lock) (.panic payload) held' w' :=
  Prog.Among.locked_panic_iff fun _ => .request rfl fun _ => .request rfl fun _ =>
    .request rfl fun _ => .pure

end Siblings

namespace Memorize

variable {ref : Ref .execution} {children nodes : List (Node I)}

theorem all_calm_snapshot (children : List (Node I)) : (snapshot children).All (·.isCalm) := by
  induction children with
  | nil => exact .pure
  | cons node children ih => exact .request rfl fun _ => ih.bind fun _ => .pure

theorem all_calm_execution (ref : Ref .execution) (children : List (Node I)) :
    (execution ref children).All (·.isCalm) := by
  refine .request rfl fun (open? : Option (List (Node I))) => ?_
  cases open? with
  | some nodes => exact .pure
  | none => exact (all_calm_snapshot children).bind fun _ => .request rfl fun _ => .pure

/-- What a call does once the tick inside has returned. -/
def close (ref : Ref .execution) (result : TickResult) : Prog I TickResult :=
  if !result.isRunning then
    .request (.swap .execution ref none) fun _ => .request (.release .execution ref) fun _ =>
      .pure result
  else .request (.release .execution ref) fun _ => .pure result

theorem all_calm_close (ref : Ref .execution) (result : TickResult) :
    (close ref result : Prog I TickResult).All (·.isCalm) := by
  unfold close
  split
  · exact .request rfl fun _ => .request rfl fun _ => .pure
  · exact .request rfl fun _ => .pure

theorem run_eq (ref : Ref .execution) (inner : List (Node I) → Prog I TickResult)
    (children : List (Node I)) :
    run ref inner children = .request (.acquire .execution ref) fun _ =>
      ((execution ref children).bind inner).bind (close ref) := by
  refine congrArg (Prog.request _) (funext fun _ => ?_)
  refine Eq.trans ?_ (Prog.bind_assoc (execution ref children) inner (close ref)).symm
  refine congrArg (Prog.bind (execution ref children)) (funext fun nodes => ?_)
  refine congrArg (Prog.bind (inner nodes)) (funext fun result => ?_)
  unfold close
  split <;> rfl

/-- A memorized tick panics as the tick inside does with the nodes of the execution. -/
theorem among_panic_iff {inner : List (Node I) → Prog I TickResult} :
    (run ref inner children).Among env others caller held w (.panic payload) held' w' ↔
      ∃ w₀ nodes held₁ w₁, others.Frees ref w w₀ ∧
        (execution ref children).Among env others caller (ref.lock :: held) (w₀.hold ref.lock)
          (.value nodes) held₁ w₁ ∧
        (inner nodes).Among env others caller held₁ w₁ (.panic payload) held' w' := by
  rw [run_eq]
  refine (Prog.Among.locked_panic_iff (all_calm_close ref)).trans (exists_congr fun w₀ => ?_)
  rw [Prog.Among.calm_bind_iff (all_calm_execution ref children)]
  simp only [exists_and_left]

/-- The nodes are those of the execution under way, or there is none and they are the
children with a record each. -/
def Finds (ref : Ref .execution) (children nodes : List (Node I)) (w : World I σ) : Prop :=
  w.heap.get ref = some nodes ∨ w.heap.get ref = none ∧
    ∃ recs : List (Ref .record), recs.length = children.length ∧ nodes = records recs children

theorem among_snapshot
    (h : (snapshot children).Among env others caller held w (.value nodes) held' w') :
    held' = held ∧
      ∃ recs : List (Ref .record),
        recs.length = children.length ∧ nodes = records recs children := by
  induction children generalizing nodes w held with
  | nil =>
    obtain ⟨he, rfl, -⟩ := Prog.Among.pure_iff.mp h
    cases he
    exact ⟨rfl, [], rfl, rfl⟩
  | cons node children ih =>
    obtain ⟨w₁, record, _, w₂, -, halloc, hnext⟩ := (Prog.Among.serve_iff rfl).mp h
    obtain ⟨first, hrest, he⟩ := Prog.Among.map_iff.mp hnext
    cases first with
    | panic _ => cases he
    | value rest =>
      cases he
      obtain ⟨hheld, recs, hlength, rfl⟩ := ih hrest
      cases halloc
      exact ⟨hheld, _ :: recs, congrArg (· + 1) hlength, rfl⟩

/-- While the lock is held, the execution is found or is begun, and it is kept. -/
theorem among_execution (hothers : others.Respects ref) (hmade : w.heap.Made ref)
    (hlocked : ref.lock ∈ w.locked)
    (h : (execution ref children).Among env others caller held w (.value nodes) held' w') :
    held' = held ∧ w'.heap.get ref = some nodes ∧ ref.lock ∈ w'.locked ∧
      Finds ref children nodes w := by
  obtain ⟨w₁, (open? : Option (List (Node I))), held₁, w₂, ho, hread, h⟩ :=
    (Prog.Among.serve_iff rfl).mp h
  cases hread
  have ho := hothers.change ho hlocked
  generalize hopen : (w₁.heap.get ref : Option (List (Node I))) = open? at h
  have hfound : w.heap.get ref = open? := ho.cell.symm.trans hopen
  have hlocked₁ := ho.lock.mpr hlocked
  cases open? with
  | some under =>
    obtain ⟨he, rfl, ho'⟩ := Prog.Among.pure_iff.mp h
    cases he
    have ho' := hothers.change ho' hlocked₁
    exact ⟨rfl, ho'.cell.trans hopen, ho'.lock.mpr hlocked₁, .inl hfound⟩
  | none =>
    have h : ((snapshot children).bind fun nodes => Prog.request (.swap .execution ref (some nodes))
        fun _ => .pure nodes).Among env others caller held w₁ (.value nodes) held' w' := h
    rcases Prog.Among.bind_iff.mp h with ⟨_, he, -⟩ | ⟨begun, held₂, w₃, hsnapshot, hkeep⟩
    · cases he
    obtain ⟨rfl, hrecords⟩ := among_snapshot hsnapshot
    have hspares := (hsnapshot.spares hothers rfl
      ((Prog.Awaits.closed ref).snapshot children) hlocked₁).1
    have hlocked₃ := hspares.lock.mpr hlocked₁
    obtain ⟨w₄, _, _, _, ho₄, hswap, hpure⟩ := (Prog.Among.serve_iff rfl).mp hkeep
    cases hswap
    have ho₄ := hothers.change ho₄ hlocked₃
    obtain ⟨he, rfl, ho₅⟩ := Prog.Among.pure_iff.mp hpure
    cases he
    have hlocked₄ := ho₄.lock.mpr hlocked₃
    have ho₅ := hothers.change ho₅ hlocked₄
    have hmade₄ := ho₄.made (hspares.made (ho.made hmade))
    exact ⟨rfl, ho₅.cell.trans (Heap.get_set hmade₄ _), ho₅.lock.mpr hlocked₄,
      .inr ⟨hfound, hrecords⟩⟩

/-- **When a memorized tick panics,** the execution stays open, and the lock is given
back. -/
theorem kept_by_panic (hothers : others.Respects ref) (hmade : w₀.heap.Made ref)
    {inner : Tick I} {held₁ : List Lock}
    (hexec : (execution ref children).Among env others caller (ref.lock :: held)
      (w₀.hold ref.lock) (.value nodes) held₁ w₁)
    (hinner : (inner.run nodes).Among env others caller held₁ w₁ (.panic payload) held' w') :
    Finds ref children nodes w₀ ∧ (w'.unlock held').heap.get ref = some nodes ∧
      ref.lock ∉ (w'.unlock held').locked := by
  obtain ⟨rfl, hopen, hlocked, hfinds⟩ :=
    among_execution (w := w₀.hold ref.lock) hothers hmade List.mem_cons_self hexec
  obtain ⟨hspares, hheld⟩ := hinner.spares hothers rfl (inner.awaits_run rfl ref nodes) hlocked
  refine ⟨hfinds, hspares.cell.trans hopen, fun hmem => ?_⟩
  exact (World.mem_unlock.mp hmem).2 (hheld.mpr List.mem_cons_self)

end Memorize

namespace Background

variable {ref : Ref .jobs} {generator : Recipe I (Tick I)} {children : List (Node I)}

theorem row_scan (jobs : List (Node I)) :
    ∀ passed, (scan passed jobs).Row (fun result => result.isRunning) jobs := by
  induction jobs with
  | nil => exact fun _ => .nil .pure
  | cons job jobs ih =>
    intro passed
    refine .cons (fun result hrunning => ?_) fun result hover => ?_
    · rw [if_pos hrunning]
      exact ih _
    · rw [if_neg hover]
      exact .pure

/-- Jobs that are looked through come to an end if all report running. -/
theorem among_scan_none_iff {jobs : List (Node I)} :
    ∀ {passed : List (Node I)} {w : World I σ},
      (scan passed jobs).Among env others caller held w (.value none) held' w' ↔
        held' = held ∧ Node.Passed env others caller (·.isRunning) jobs w w' := by
  induction jobs with
  | nil =>
    intro passed w
    refine Prog.Among.pure_iff.trans ⟨fun ⟨_, hheld, ho⟩ => ⟨hheld, .nil ho⟩, ?_⟩
    rintro ⟨hheld, hpassed⟩
    cases hpassed with
    | nil ho => exact ⟨rfl, hheld, ho⟩
  | cons job jobs ih =>
    intro passed w
    refine Prog.Among.tick_iff.trans ?_
    constructor
    · rintro ⟨w₀, first, w₁, ho, hticked, hrest⟩
      cases first with
      | panic _ => cases (Prog.Among.panic_iff.mp hrest).1
      | value result =>
        change Prog.Among _ _ _ (if result.isRunning then _ else _) _ _ _ _ _ at hrest
        by_cases hrunning : result.isRunning
        · rw [if_pos hrunning] at hrest
          obtain ⟨rfl, hpassed⟩ := ih.mp hrest
          exact ⟨rfl, .cons ho hticked hrunning hpassed⟩
        · rw [if_neg hrunning] at hrest
          cases (Prog.Among.pure_iff.mp hrest).1
    · rintro ⟨rfl, hpassed⟩
      cases hpassed with
      | @cons _ _ result _ w₀ w₁ _ ho hticked hrunning hpassed =>
        refine ⟨w₀, _, w₁, ho, hticked, ?_⟩
        change Prog.Among _ _ _ (if result.isRunning then _ else _) _ _ _ _ _
        rw [if_pos hrunning]
        exact ih.mpr ⟨rfl, hpassed⟩

section

variable (env others caller)

/-- A job panics, and those before it have reported running; or all jobs have, and the
task panics that has been made then. -/
inductive Breaks (generator : Recipe I (Tick I)) (children jobs : List (Node I))
    (held : List Lock) (payload : Payload) (w w' : World I σ) : Prop
  | job : Node.Broken env others caller (·.isRunning) jobs payload w w' →
      Breaks generator children jobs held payload w w'
  | task {tick : Tick I} {w₁ w₂ w₃ : World I σ} :
      Node.Passed env others caller (·.isRunning) jobs w w₁ →
      generator.toProg.Among env others caller held w₁ (.value tick) held w₂ →
      (Node.of tick children).Ticked env others caller w₂ (.panic payload) w₃ →
      others.change w₃ w' → Breaks generator children jobs held payload w w'

end

theorem held_of_among_toProg {recipe : Recipe I α} {ending : Ending α}
    (h : recipe.toProg.Among env others caller held w ending held' w') : held' = held := by
  induction recipe generalizing w with
  | yield a => exact (Prog.Among.pure_iff.mp h).2.1
  | ask query next ih =>
    obtain ⟨w₀, reply, held₁, w₁, -, hserve, hnext⟩ := (Prog.Among.serve_iff rfl).mp h
    obtain ⟨-, -, rfl⟩ := World.heap_of_ask hserve
    exact ih _ hnext
  | alloc kind next ih =>
    obtain ⟨w₀, reply, held₁, w₁, -, hserve, hnext⟩ := (Prog.Among.serve_iff rfl).mp h
    cases hserve
    exact ih _ hnext

/-- What a pool does with what its jobs have come to. -/
def goOn (ref : Ref .jobs) (generator : Recipe I (Tick I)) (children jobs : List (Node I)) :
    Option (TickResult × List (Node I)) → Prog I TickResult
  | some (result, rest) =>
    .request (.swap .jobs ref rest) fun _ => .request (.release .jobs ref) fun _ => .pure result
  | none => generator.toProg.bind fun tick =>
    .request (.tick (Node.of tick children)) fun result =>
      if TickResult.isRunning result then
        .request (.swap .jobs ref (jobs ++ [Node.of tick children])) fun _ =>
          .request (.release .jobs ref) fun _ => .pure result
      else .request (.release .jobs ref) fun _ => .pure result

theorem run_eq (ref : Ref .jobs) (generator : Recipe I (Tick I)) (children : List (Node I)) :
    run ref generator children = .request (.acquire .jobs ref) fun _ =>
      .request (.read .jobs ref) fun jobs =>
        (scan [] jobs).bind (goOn ref generator children jobs) := by
  refine congrArg (Prog.request _) (funext fun _ => ?_)
  refine congrArg (Prog.request _) (funext fun jobs => ?_)
  refine congrArg (Prog.bind (scan [] jobs)) (funext fun found => ?_)
  cases found with
  | none => rfl
  | some found => rfl

theorem among_goOn_iff {jobs : List (Node I)} :
    (goOn ref generator children jobs none).Among env others caller held w (.panic payload) held'
        w' ↔
      held' = held ∧ ∃ tick w₁ w₂,
        generator.toProg.Among env others caller held w (.value tick) held w₁ ∧
        (Node.of tick children).Ticked env others caller w₁ (.panic payload) w₂ ∧
        others.change w₂ w' := by
  have hrow : ∀ tick : Tick I, Prog.Row (fun _ => False) [Node.of tick children]
      (.request (.tick (Node.of tick children)) fun result =>
        if TickResult.isRunning result then
          .request (.swap .jobs ref (jobs ++ [Node.of tick children])) fun _ =>
            .request (.release .jobs ref) fun _ => .pure result
        else .request (.release .jobs ref) fun _ => .pure result) := by
    refine fun tick => .cons (fun _ => False.elim) fun result _ => ?_
    split
    · exact .request rfl fun _ => .request rfl fun _ => .pure
    · exact .request rfl fun _ => .pure
  refine (Prog.Among.calm_bind_iff generator.all_calm).trans ?_
  constructor
  · rintro ⟨tick, held₁, w₁, hmakes, h⟩
    obtain rfl := held_of_among_toProg hmakes
    obtain ⟨rfl, hbroken⟩ := (hrow tick).among_panic_iff.mp h
    obtain ⟨w₂, w₃, ho, ⟨hpanic, hlast⟩ | ⟨_, _, hp, _⟩⟩ := Node.broken_cons_iff.mp hbroken
    · exact ⟨rfl, tick, w₂, w₃, hmakes.trailing ho, hpanic, hlast⟩
    · exact hp.elim
  · rintro ⟨rfl, tick, w₁, w₂, hmakes, hpanic, hlast⟩
    refine ⟨tick, _, w₁, hmakes, (hrow tick).among_panic_iff.mpr ⟨rfl, ?_⟩⟩
    exact Node.broken_cons_iff.mpr ⟨w₁, w₂, others.refl w₁, .inl ⟨hpanic, hlast⟩⟩

/-- **A pool panics** as one of its jobs does, or as the task does that it has made. -/
theorem among_panic_iff (hothers : others.Respects ref) :
    (run ref generator children).Among env others caller held w (.panic payload) held' w' ↔
      ∃ w₀, others.Frees ref w w₀ ∧ held' = ref.lock :: held ∧
        Breaks env others caller generator children (w₀.heap.get ref) (ref.lock :: held) payload
          (w₀.hold ref.lock) w' := by
  have hfound : ∀ {found : TickResult × List (Node I)} {jobs : List (Node I)},
      (goOn ref generator children jobs (some found)).All (·.isCalm) :=
    .request rfl fun _ => .request rfl fun _ => .pure
  rw [run_eq]
  refine Prog.Among.acquire_iff.trans (exists_congr fun w₀ => ?_)
  rw [Others.Frees, and_assoc]
  refine and_congr_right fun _ => and_congr_right fun _ => ?_
  refine (Prog.Among.serve_iff rfl).trans ?_
  constructor
  · rintro ⟨w₁, jobs, held₁, _, ho, hread, h⟩
    cases hread
    have hjobs : w₁.heap.get ref = w₀.heap.get ref :=
      (hothers.change ho List.mem_cons_self).cell
    rw [hjobs] at h
    rcases Prog.Among.bind_iff.mp h with ⟨_, he, hscan⟩ | ⟨found, held₁, w₂, hscan, hrest⟩
    · cases he
      obtain ⟨rfl, hbroken⟩ := (row_scan _ []).among_panic_iff.mp hscan
      exact ⟨rfl, .job (hbroken.change ho)⟩
    · cases found with
      | some found =>
        obtain ⟨_, he⟩ := hfound.returns hrest
        cases he
      | none =>
        obtain ⟨rfl, hpassed⟩ := among_scan_none_iff.mp hscan
        obtain ⟨rfl, tick, w₃, w₄, hmakes, hpanic, hlast⟩ := among_goOn_iff.mp hrest
        exact ⟨rfl, .task (hpassed.change ho) hmakes hpanic hlast⟩
  · rintro ⟨rfl, hbreaks⟩
    refine ⟨_, _, _, _, others.refl _, rfl, ?_⟩
    cases hbreaks with
    | job hbroken => exact ((row_scan _ []).among_panic_iff.mpr ⟨rfl, hbroken⟩).bind_panic
    | task hpassed hmakes hpanic hlast =>
      exact (among_scan_none_iff.mpr ⟨rfl, hpassed⟩).bind
        (among_goOn_iff.mpr ⟨rfl, _, _, _, hmakes, hpanic, hlast⟩)

/-- **When a pool panics,** it has the jobs that it had when it took the lock, and the lock
is given back. -/
theorem spares_of_breaks (hothers : others.Respects ref) (hfree : ref.lock ∉ w₀.locked)
    {jobs : List (Node I)}
    (h : Breaks env others caller generator children jobs (ref.lock :: held) payload
      (w₀.hold ref.lock) w') : World.Spares ref w₀ (w'.unlock (ref.lock :: held)) := by
  have hlocked : ref.lock ∈ (w₀.hold ref.lock).locked := List.mem_cons_self
  refine World.Spares.give_back ?_ hfree List.mem_cons_self
  cases h with
  | job hbroken => exact hbroken.spares hothers rfl hlocked
  | task hpassed hmakes hpanic hlast =>
    have hpassed := hpassed.spares hothers rfl hlocked
    have hmakes := (hmakes.spares hothers rfl ((Prog.Awaits.closed ref).toProg generator)
      (hpassed.lock.mpr hlocked)).1
    have hspares := hpassed.trans hmakes
    have hspares := hspares.trans (hpanic.spares hothers rfl (hspares.lock.mpr hlocked))
    exact hspares.trans (hothers.change hlast (hspares.lock.mpr hlocked))

end Background

end TickTree
