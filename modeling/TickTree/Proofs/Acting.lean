/-
# A thread among others

What a thread does can be followed while others go on: other threads change the
world between its steps, and so do the ticks of the nodes that it calls. Of all
that only what its first tick does itself is looked at here. It calls nodes and
is answered, it asks the world, and it makes cells (`Thread.shows`).

Nothing is assumed of the others but which changes they make. So a call of a node
may take any number of steps and answer anything, or never end. What is left of a
thread that returns in the end is said request by request (`Prog.Returns`): a
request is served in a world that the others have changed before, and a node that
is called answers something in a world that the others have changed.

Key definitions: `Act`, `Thread.shows`, `Thread.Acts`, `Prog.Returns`,
`Node.Answers`.
Key theorems: `Prog.Returns.pure`, `Prog.Returns.serve`, `Prog.Returns.tick`.
-/
import TickTree.Machine

namespace TickTree

variable {I : Interface} {σ : Type}

/-- What a tick does that those around it can see: it calls a node, and is
answered; it asks the world something; it makes a cell. -/
inductive Act (I : Interface) where
  | called (node : Node I)
  | answered (result : TickResult)
  | asked (query : I.Query) (reply : I.Reply query)
  | made (kind : CellKind) (ref : Ref kind)

/-- Does the world serve the request? Else the machine carries it out. -/
def Request.isServed : Request I → Bool
  | .tick _ | .parallel _ | .start _ _ _ | .panic _ => false
  | _ => true

namespace Act

/-- A node is called and answers. -/
def ticked (node : Node I) (result : TickResult) : List (Act I) := [called node, answered result]

/-- What a request shows that is served. -/
def ofServed : (r : Request I) → r.Reply → List (Act I)
  | .ask query, reply => [asked query reply]
  | .alloc kind, ref => [made kind ref]
  | _, _ => []

end Act

/-- What is done leaves the cell and its lock alone. -/
structure World.Spares {kind : CellKind} (ref : Ref kind) (w w' : World I σ) : Prop where
  made : w.heap.Made ref → w'.heap.Made ref
  cell : w'.heap.get ref = w.heap.get ref
  lock : ref.lock ∈ w'.locked ↔ ref.lock ∈ w.locked

namespace World.Spares

variable {kind : CellKind} {ref : Ref kind} {w w' w'' : World I σ}

theorem refl (ref : Ref kind) (w : World I σ) : Spares ref w w := ⟨id, rfl, Iff.rfl⟩

theorem trans (h : Spares ref w w') (h' : Spares ref w' w'') : Spares ref w w'' :=
  ⟨h'.made ∘ h.made, h'.cell.trans h.cell, h'.lock.trans h.lock⟩

end World.Spares

namespace Thread

/-- What the next step of the thread shows of its first tick. -/
def shows (env : Environment I σ) (t : Thread I) (w : World I σ) : List (Act I) :=
  match t.frames, t.activity with
  | [], .running (.request (.tick node) _) => [.called node]
  | [], .running (.request r _) =>
    match w.serve env t.toCaller t.held r with
    | some (reply, _) => Act.ofServed r reply
    | none => []
  | [_], .running (.pure result) => [.answered result]
  | _, _ => []

/-- The thread goes on among others, and these are the acts of its first tick. The
others change the world now and then, the nodes that it calls change it like the
others, and nodes that these tick in parallel report to it. -/
inductive Acts (env : Environment I σ) (others : World I σ → World I σ → Prop) :
    Thread I → World I σ → List (Act I) → Thread I → World I σ → Prop
  | refl {t w} : Acts env others t w [] t w
  | change {t w w₁ acts t' w'} : others w w₁ → Acts env others t w₁ acts t' w' →
      Acts env others t w acts t' w'
  | receive {t : Thread I} {w acts t' w'} (report : Option Report) :
      Acts env others (t.receive report) w acts t' w' → Acts env others t w acts t' w'
  | step {t : Thread I} {w acts t' w'} {s : Step I σ} : t.step env w = some s →
      (t.frames ≠ [] → others w s.world) → Acts env others s.thread s.world acts t' w' →
      Acts env others t w (t.shows env w ++ acts) t' w'

variable {env : Environment I σ} {others : World I σ → World I σ → Prop} {t t' : Thread I}
  {w w' : World I σ} {acts : List (Act I)} {outcome : Outcome}

theorem Acts.trans {t'' : Thread I} {w'' : World I σ} {acts' : List (Act I)}
    (h : Acts env others t w acts t' w') (h' : Acts env others t' w' acts' t'' w'') :
    Acts env others t w (acts ++ acts') t'' w'' := by
  induction h with
  | refl => exact h'
  | change hchange _ ih => exact .change hchange (ih h')
  | receive report _ ih => exact .receive report (ih h')
  | step hs hothers _ ih =>
    rw [List.append_assoc]
    exact .step hs hothers (ih h')

/-- A thread that has ended does nothing more. -/
theorem Acts.of_ended (hrefl : ∀ w, others w w)
    (htrans : ∀ {u v w}, others u v → others v w → others u w) (h : Acts env others t w acts t' w')
    (hended : t.activity = .ended outcome) : acts = [] ∧ t'.outcome? = some outcome ∧ others w w' := by
  induction h with
  | refl => exact ⟨rfl, by simp [outcome?, hended], hrefl _⟩
  | change hchange _ ih =>
    obtain ⟨hacts, hout, hothers⟩ := ih hended
    exact ⟨hacts, hout, htrans hchange hothers⟩
  | @receive t w acts t' w' report _ ih =>
    have hsame : t.receive report = t := by simp [Thread.receive, hended]
    rw [hsame] at ih
    exact ih hended
  | step hs => simp [Thread.step, hended] at hs

/-- Before a running thread takes its next step, there are only the others. -/
theorem Acts.first (hrefl : ∀ w, others w w)
    (htrans : ∀ {u v w}, others u v → others v w → others u w) (h : Acts env others t w acts t' w')
    (hended : t'.outcome? = some outcome) {p : Prog I TickResult} (hrunning : t.activity = .running p) :
    ∃ w₀ s acts', others w w₀ ∧ t.step env w₀ = some s ∧ (t.frames ≠ [] → others w₀ s.world) ∧
      acts = t.shows env w₀ ++ acts' ∧ Acts env others s.thread s.world acts' t' w' := by
  induction h with
  | refl => simp [outcome?, hrunning] at hended
  | change hchange _ ih =>
    obtain ⟨w₀, s, acts', hothers, hfirst⟩ := ih hended hrunning
    exact ⟨w₀, s, acts', htrans hchange hothers, hfirst⟩
  | @receive t w acts t' w' report _ ih =>
    have hsame : t.receive report = t := by simp [Thread.receive, hrunning]
    rw [hsame] at ih
    exact ih hended hrunning
  | @step t w acts t' w' s hs hothers hrest => exact ⟨w, s, acts, hrefl w, hs, hothers, rfl, hrest⟩

/-- A thread that panics in its first tick does not return. -/
theorem Acts.of_panic (hrefl : ∀ w, others w w)
    (htrans : ∀ {u v w}, others u v → others v w → others u w) {caller : Caller} {payload : Payload}
    {held : List Lock} {result : TickResult}
    (h : Acts env others ⟨caller, .running (.panic payload), held, []⟩ w acts t' w') :
    t'.outcome? ≠ some (.returned result) := by
  intro hended
  obtain ⟨w₀, s, acts', -, hs, -, -, hrest⟩ := h.first hrefl htrans hended rfl
  cases hs
  obtain ⟨-, hout, -⟩ := hrest.of_ended hrefl htrans rfl
  cases hout.symm.trans hended

/-- A thread whose request the world serves goes on with the answer. -/
theorem step_iff_of_served {r : Request I} {next : r.Reply → Prog I TickResult} {s : Step I σ}
    (hact : t.activity = .running (.request r next)) (hserved : r.isServed) :
    t.step env w = some s ↔
      ∃ reply held w', w.serve env t.toCaller t.held r = some (reply, held, w') ∧
        s = ⟨{ t with activity := .running (next reply), held }, w', []⟩ := by
  unfold step
  rw [hact]
  cases r with
  | tick | parallel | start | panic => cases hserved
  | read | swap | alloc | acquire | release | ask =>
    simp only [serve, Option.map_eq_some_iff, Prod.exists]
    simp only [eq_comm]

/-- A step while the first tick waits for a node: the node goes on, it answers, or
it panics. -/
theorem step_of_waiting {s : Step I σ} {deeper : List (Frame I)} {base : Frame I}
    (hs : t.step env w = some s) (hframes : t.frames = deeper ++ [base]) :
    (t.shows env w = [] ∧ s.thread.toCaller = t.toCaller ∧ s.thread.outcome? = none ∧
      ∃ deeper', s.thread.frames = deeper' ++ [base]) ∨
    (∃ answer, t.shows env w = [.answered answer] ∧
      s.thread = ⟨t.toCaller, .running (base.next answer), base.held, []⟩) ∨
    ∃ payload, s.thread = ⟨t.toCaller, .running (.panic payload), base.held, []⟩ := by
  obtain ⟨caller, activity, held, frames⟩ := t
  obtain rfl : frames = deeper ++ [base] := hframes
  have hshows : ∀ r next, shows env ⟨caller, .running (.request r next), held, deeper ++ [base]⟩ w =
      [] := by
    intro r next
    simp only [shows]
    split <;> simp_all
  cases activity with
  | running p =>
    cases p with
    | pure answer =>
      cases deeper with
      | nil =>
        cases hs
        exact .inr (.inl ⟨answer, rfl, rfl⟩)
      | cons frame deeper =>
        cases hs
        refine .inl ⟨?_, rfl, rfl, deeper, rfl⟩
        cases deeper <;> rfl
    | request r next =>
      cases r with
      | tick node =>
        cases hs
        exact .inl ⟨hshows _ _, rfl, rfl, ⟨next, held⟩ :: deeper, rfl⟩
      | parallel | start =>
        cases hs
        exact .inl ⟨hshows _ _, rfl, rfl, deeper, rfl⟩
      | panic payload =>
        cases deeper with
        | nil =>
          cases hs
          exact .inr (.inr ⟨payload, rfl⟩)
        | cons frame deeper =>
          cases hs
          exact .inl ⟨hshows _ _, rfl, rfl, deeper, rfl⟩
      | read | swap | alloc | acquire | release | ask =>
        obtain ⟨reply, held', w', -, rfl⟩ := (step_iff_of_served rfl rfl).mp hs
        exact .inl ⟨hshows _ _, rfl, rfl, deeper, rfl⟩
  | joining pending reports next =>
    cases pending with
    | zero =>
      cases hs
      refine .inl ⟨?_, rfl, rfl, deeper, rfl⟩
      cases deeper with
      | nil => rfl
      | cons frame deeper => cases deeper <;> rfl
    | succ pending => cases hs
  | ended outcome => cases hs

/-- A node that the first tick has called answers, if the thread returns in the
end. -/
theorem Acts.answered (hrefl : ∀ w, others w w)
    (htrans : ∀ {u v w}, others u v → others v w → others u w) (h : Acts env others t w acts t' w')
    {result : TickResult} (hended : t'.outcome? = some (.returned result)) :
    ∀ {deeper : List (Frame I)} {base : Frame I}, t.outcome? = none → t.frames = deeper ++ [base] →
      ∃ answer w₁ acts', acts = .answered answer :: acts' ∧ others w w₁ ∧
        Acts env others ⟨t.toCaller, .running (base.next answer), base.held, []⟩ w₁ acts' t' w' := by
  induction h with
  | refl =>
    intro _ _ hgoing _
    cases hgoing.symm.trans hended
  | change hchange _ ih =>
    intro deeper base hgoing hframes
    obtain ⟨answer, w₁, acts', hacts, hothers, hrest⟩ := ih hended hgoing hframes
    exact ⟨answer, w₁, acts', hacts, htrans hchange hothers, hrest⟩
  | @receive t w acts t' w' report _ ih =>
    intro deeper base hgoing hframes
    have hsame : (t.receive report).toCaller = t.toCaller ∧ (t.receive report).frames = t.frames ∧
        (t.receive report).outcome? = t.outcome? := by
      unfold Thread.receive
      split
      · rename_i hact
        exact ⟨rfl, rfl, by simp [outcome?, hact]⟩
      · exact ⟨rfl, rfl, rfl⟩
    obtain ⟨hcaller, hframes', hout⟩ := hsame
    have hback := ih hended (hout.trans hgoing) (hframes'.trans hframes)
    rwa [hcaller] at hback
  | @step t w acts t' w' s hs hothers hrest ih =>
    intro deeper base hgoing hframes
    have hdeep : t.frames ≠ [] := by simp [hframes]
    rcases step_of_waiting hs hframes with ⟨hshows, hcaller, hgoing', deeper', hframes'⟩ |
      ⟨answer, hshows, hthread⟩ | ⟨payload, hthread⟩
    · obtain ⟨answer, w₁, acts', rfl, hothers', hrest'⟩ := ih hended hgoing' hframes'
      rw [hcaller] at hrest'
      exact ⟨answer, w₁, acts', by simp [hshows], htrans (hothers hdeep) hothers', hrest'⟩
    · rw [hthread] at hrest
      exact ⟨answer, s.world, acts, by simp [hshows], hothers hdeep, hrest⟩
    · rw [hthread] at hrest
      exact absurd hended (hrest.of_panic hrefl htrans)

end Thread

/-! ### What is left of a thread that returns -/

/-- A thread whose first tick has this program left, and holds these locks, returns
the result in the end. -/
def Prog.Returns (env : Environment I σ) (others : World I σ → World I σ → Prop) (caller : Caller)
    (p : Prog I TickResult) (held : List Lock) (w : World I σ) (acts : List (Act I))
    (result : TickResult) (w' : World I σ) : Prop :=
  ∃ t', Thread.Acts env others ⟨caller, .running p, held, []⟩ w acts t' w' ∧
    t'.outcome? = some (.returned result)

/-- The node can be called in the world `w` and answer, and leaves `w'`. -/
structure Node.Answers (env : Environment I σ) (others : World I σ → World I σ → Prop)
    (caller : Caller) (node : Node I) (w : World I σ) (result : TickResult) (w' : World I σ) :
    Prop where
  change : others w w'
  acts : ∀ base : Frame I, Thread.Acts env others ⟨caller, .running node.call, [], [base]⟩ w
    [.answered result] ⟨caller, .running (base.next result), base.held, []⟩ w'

namespace Prog.Returns

variable {env : Environment I σ} {others : World I σ → World I σ → Prop} {caller : Caller}
  {held held₁ : List Lock} {w w₁ w' : World I σ} {acts : List (Act I)} {result : TickResult}

section Inversion

variable (hrefl : ∀ w, others w w) (htrans : ∀ {u v w}, others u v → others v w → others u w)
include hrefl htrans

/-- A program that is over gives its locks back. -/
theorem pure {a : TickResult} (h : Returns env others caller (.pure a) held w acts result w') :
    acts = [] ∧ result = a ∧ ∃ w₁, others w w₁ ∧ others (w₁.unlock held) w' := by
  obtain ⟨t', hacts, hended⟩ := h
  obtain ⟨w₁, s, acts', hothers, hs, -, rfl, hrest⟩ := hacts.first hrefl htrans hended rfl
  cases hs
  obtain ⟨rfl, hout, hothers'⟩ := hrest.of_ended hrefl htrans rfl
  cases hout.symm.trans hended
  exact ⟨rfl, rfl, w₁, hothers, hothers'⟩

/-- A request that the world serves is served after some changes by others. -/
theorem serve {r : Request I} {next : r.Reply → Prog I TickResult}
    (hserved : r.isServed)
    (h : Returns env others caller (.request r next) held w acts result w') :
    ∃ w₀ reply held₁ w₁ acts', others w w₀ ∧ w₀.serve env caller held r = some (reply, held₁, w₁) ∧
      acts = Act.ofServed r reply ++ acts' ∧
      Returns env others caller (next reply) held₁ w₁ acts' result w' := by
  obtain ⟨t', hacts, hended⟩ := h
  obtain ⟨w₀, s, acts', hothers, hs, -, rfl, hrest⟩ := hacts.first hrefl htrans hended rfl
  obtain ⟨reply, held₁, w₁, hserve, rfl⟩ := (Thread.step_iff_of_served rfl hserved).mp hs
  refine ⟨w₀, reply, held₁, w₁, acts', hothers, hserve, ?_, t', hrest, hended⟩
  cases r with
  | tick | parallel | start | panic => cases hserved
  | read | swap | alloc | acquire | release | ask => simp only [Thread.shows, hserve]

/-- A node is called and answers. -/
theorem tick {node : Node I} {next : TickResult → Prog I TickResult}
    (h : Returns env others caller (.request (.tick node) next) held w acts result w') :
    ∃ answer w₁ acts', others w w₁ ∧ acts = Act.ticked node answer ++ acts' ∧
      Returns env others caller (next answer) held w₁ acts' result w' := by
  obtain ⟨t', hacts, hended⟩ := h
  obtain ⟨w₀, s, acts', hothers, hs, -, rfl, hrest⟩ := hacts.first hrefl htrans hended rfl
  cases hs
  obtain ⟨answer, w₁, acts'', rfl, hothers', hrest'⟩ :=
    @Thread.Acts.answered _ _ _ _ _ _ _ _ _ hrefl htrans hrest _ hended [] _ rfl rfl
  exact ⟨answer, w₁, acts'', htrans hothers hothers', rfl, t', hrest', hended⟩

end Inversion

theorem of_pure : Returns env others caller (.pure result) held w [] result (w.unlock held) :=
  ⟨_, .step rfl (fun hne => absurd rfl hne) .refl, rfl⟩

theorem of_serve {r : Request I} {next : r.Reply → Prog I TickResult} {reply : r.Reply}
    (hserve : w.serve env caller held r = some (reply, held₁, w₁))
    (h : Returns env others caller (next reply) held₁ w₁ acts result w') :
    Returns env others caller (.request r next) held w (Act.ofServed r reply ++ acts) result w' := by
  obtain ⟨t', hacts, hended⟩ := h
  have hstep : Thread.step env ⟨caller, .running (.request r next), held, []⟩ w =
      some ⟨⟨caller, .running (next reply), held₁, []⟩, w₁, []⟩ := by
    cases r with
    | tick | parallel | start | panic => cases hserve
    | read | swap | alloc | acquire | release | ask =>
      simp only [Thread.step, Thread.serve, hserve, Option.map_some]
  have hshows : Thread.shows env ⟨caller, .running (.request r next), held, []⟩ w =
      Act.ofServed r reply := by
    cases r with
    | tick | parallel | start | panic => cases hserve
    | read | swap | alloc | acquire | release | ask => simp only [Thread.shows, hserve]
  refine ⟨t', ?_, hended⟩
  rw [← hshows]
  exact .step hstep (fun hne => absurd rfl hne) hacts

theorem of_tick {node : Node I} {next : TickResult → Prog I TickResult} {answer : TickResult}
    (hanswers : node.Answers env others caller w answer w₁)
    (h : Returns env others caller (next answer) held w₁ acts result w') :
    Returns env others caller (.request (.tick node) next) held w
      (Act.ticked node answer ++ acts) result w' := by
  obtain ⟨t', hacts, hended⟩ := h
  have hcalled : Thread.Acts env others ⟨caller, .running (.request (.tick node) next), held, []⟩ w
      ([.called node] ++ ([.answered answer] ++ acts)) t' w' :=
    .step rfl (fun hne => absurd rfl hne) ((hanswers.acts ⟨next, held⟩).trans hacts)
  exact ⟨t', hcalled, hended⟩

end Prog.Returns

end TickTree
