/-
# Absent ticks under wrappers

A wrapper expands the node inside once. Before and after that it only looks at its own
cell and takes and gives back the lock of it (`Wrapping.before`, `Wrapping.after`), and
no expansion replaces what any cell holds (`Node.leaves_expand`). So the children are
those of the node inside, and of a node that has no tick this time every wrapper but one
makes none either.

That one is the wrapper of a memorized child. It looks for a record before it looks for
the tick, and where it finds one it replays it, also if the node has no tick any more
(`recorded_outlives_tick`). A sibling replays too, but looks for the tick first. So an
absent tick passes exactly where no result is recorded of the node.

Key definitions: `Request.Leaves`, `Wrapping`, `Wrapping.recorded`, `Wrapping.Kept`.
Key theorems: `Node.leaves_expand`, `Wrapping.after_iff`, `absent_ticks_pass`.
-/
import TickTree.Proofs.Memorizing

namespace TickTree

variable {I : Interface} {σ α : Type}

/-! ### Expanding replaces nothing -/

/-- The request leaves what the cells hold, and the other threads, alone. -/
def Request.Leaves : Request I → Prop
  | .ask _ | .read _ _ | .alloc _ | .acquire _ _ | .release _ _ => True
  | _ => False

/-- The request looks at a cell, or takes or gives back a lock. -/
def Request.Looks : Request I → Prop
  | .read _ _ | .acquire _ _ | .release _ _ => True
  | _ => False

theorem Request.Looks.leaves {r : Request I} (h : r.Looks) : r.Leaves := by
  cases r <;> trivial

theorem Request.Leaves.get {env : Environment I σ} {caller : Caller} {held held₁ : List Lock}
    {w w₁ : World I σ} {r : Request I} {reply : r.Reply} (hr : r.Leaves)
    (hserve : w.serve env caller held r = some (reply, held₁, w₁)) {kind : CellKind}
    (ref : Ref kind) : w₁.heap.get ref = w.heap.get ref := by
  cases r with
  | ask query => rw [(World.heap_of_ask hserve).1]
  | read =>
    cases hserve
    rfl
  | alloc kind =>
    cases hserve
    exact Heap.get_alloc _ kind ref
  | acquire =>
    simp only [World.serve] at hserve
    split at hserve
    · cases hserve
    · cases hserve
      rfl
  | release =>
    cases hserve
    rfl
  | _ => exact hr.elim

/-- A program that leaves the cells alone ends with a value, and what the others leave of a
cell it leaves too. -/
theorem Prog.Among.leaves {env : Environment I σ} {others : Others I σ} {caller : Caller}
    {p : Prog I α} {held held' : List Lock} {w w' : World I σ} {ending : Ending α}
    (h : p.Among env others caller held w ending held' w') (hp : p.All (·.Leaves)) :
    (∃ a, ending = .value a) ∧ ∀ {β : Type} {kind : CellKind} (ref : Ref kind)
      (part : kind.State I → β),
      (∀ {w w'}, others.change w w' → part (w'.heap.get ref) = part (w.heap.get ref)) →
      part (w'.heap.get ref) = part (w.heap.get ref) := by
  induction h with
  | pure ho => exact ⟨⟨_, rfl⟩, fun _ _ hothers => hothers ho⟩
  | serve ho hserve _ ih =>
    cases hp with
    | request hr hnext =>
    obtain ⟨hvalue, hget⟩ := ih (hnext _)
    refine ⟨hvalue, fun ref part hothers => ?_⟩
    rw [hget ref part hothers, hr.get hserve ref, hothers ho]
  | tick | tickPanic | parallel | start | panic =>
    cases hp with
    | request hr => exact hr.elim

mutual

/-- **An expansion leaves what the cells hold alone.** -/
theorem Node.leaves_expand : ∀ node : Node I, node.expand.All (·.Leaves)
  | .plain _ _ => .pure
  | .made recipe => leaves_expandMade recipe
  | .memorized ref node => (leaves_expand node).bind fun e => by
    refine .request trivial fun (recorded : Option TickResult) => ?_
    cases recorded <;> exact .pure
  | .flagged _ node => (leaves_expand node).bind fun _ => .pure
  | .sibling ref index node => .request trivial fun _ => (leaves_expand node).bind fun e => by
    refine .request trivial fun (last : List (Nat × Status)) => .request trivial fun _ => ?_
    obtain ⟨tick, children⟩ := e
    cases tick with
    | none => exact .pure
    | some tick =>
      change Prog.All _ (if Siblings.mayRun last index then _ else _)
      split <;> exact .pure
  | .exitOnFailure node => (leaves_expand node).bind fun _ => .pure
termination_by structural node => node

theorem Node.leaves_expandMade : ∀ recipe : Recipe I (Node I),
    (Node.expandMade recipe).All (·.Leaves)
  | .yield node => leaves_expand node
  | .ask _ next => .request trivial fun reply => leaves_expandMade (next reply)
  | .alloc _ next => .request trivial fun ref => leaves_expandMade (next ref)
termination_by structural recipe => recipe

end

/-! ### Wrappers -/

/-- What a node can be wrapped in. -/
inductive Wrapping where
  | memorized (record : Ref .record)
  | flagged (flag : Ref .flag)
  | sibling (statuses : Ref .statuses) (index : Nat)
  | exitOnFailure

namespace Wrapping

/-- The node with its wrapper. -/
def wrap (node : Node I) : Wrapping → Node I
  | memorized record => .memorized record node
  | flagged flag => .flagged flag node
  | sibling statuses index => .sibling statuses index node
  | exitOnFailure => .exitOnFailure node

/-- The result that is recorded of the node. -/
def recorded (w : World I σ) : Wrapping → Option TickResult
  | memorized record => w.heap.get record
  | _ => none

/-- What the wrapper remembers of the node is the same in both worlds: its record, the
flag, or the last status of the sibling. -/
def Kept (w w' : World I σ) : Wrapping → Prop
  | memorized record => w'.heap.get record = w.heap.get record
  | flagged flag => w'.heap.get flag = w.heap.get flag
  | sibling statuses index =>
    List.lookup index (w'.heap.get statuses) = List.lookup index (w.heap.get statuses)
  | exitOnFailure => True

/-- What the wrapper does before it expands the node. -/
def before : Wrapping → Prog I Unit
  | sibling statuses _ => Prog.acquire statuses
  | _ => .pure ()

/-- What the wrapper makes of what the node has expanded to. -/
def after (expansion : Option (Tick I) × List (Node I)) :
    Wrapping → Prog I (Option (Tick I) × List (Node I))
  | memorized record => Memorize.expand record (.pure expansion)
  | flagged flag => AnySuccess.expand flag (.pure expansion)
  | sibling statuses index => do
    let last : List (Nat × Status) ← Prog.read statuses
    Prog.release statuses
    match expansion.1 with
    | none => return (none, expansion.2)
    | some tick =>
      if Siblings.mayRun last index then return (some (.gated statuses index tick), expansion.2)
      else return (some (.const (.ok (Siblings.remembered last index))), expansion.2)
  | exitOnFailure => .pure (expansion.1.map .exitOnFailure, expansion.2)

variable {W : Wrapping} {node : Node I}

theorem expand_wrap (W : Wrapping) (node : Node I) :
    (W.wrap node).expand = W.before.bind fun _ => node.expand.bind W.after := by
  cases W with
  | memorized record => rfl
  | flagged flag => rfl
  | sibling statuses index => rfl
  | exitOnFailure => rfl

theorem looks_before (W : Wrapping) : (W.before : Prog I Unit).All (·.Looks) := by
  cases W with
  | sibling statuses index => exact .request trivial fun _ => .pure
  | _ => exact .pure

theorem looks_after (W : Wrapping) (expansion : Option (Tick I) × List (Node I)) :
    (W.after expansion).All (·.Looks) := by
  obtain ⟨tick, children⟩ := expansion
  cases W with
  | memorized record =>
    refine .request trivial fun (recorded : Option TickResult) => ?_
    cases recorded <;> exact .pure
  | sibling statuses index =>
    refine .request trivial fun (last : List (Nat × Status)) => .request trivial fun _ => ?_
    cases tick with
    | none => exact .pure
    | some tick =>
      change Prog.All _ (if Siblings.mayRun last index then _ else _)
      split <;> exact .pure
  | _ => exact .pure

variable {env : Environment I σ} {others : Others I σ} {caller : Caller}
  {held held' : List Lock} {w w₁ w' : World I σ}

theorem Kept.refl (W : Wrapping) (w : World I σ) : W.Kept w w := by
  cases W <;> first | rfl | trivial

theorem Kept.trans (h : W.Kept w w₁) (h' : W.Kept w₁ w') : W.Kept w w' := by
  cases W with
  | exitOnFailure => trivial
  | _ => exact Eq.trans h' h

theorem Kept.recorded (h : W.Kept w w') : W.recorded w' = W.recorded w := by
  cases W with
  | memorized record => exact h
  | _ => rfl

/-- A program that leaves the cells alone changes nothing that the wrapper remembers. -/
theorem kept_of_leaves {p : Prog I α} {ending : Ending α}
    (h : p.Among env others caller held w ending held' w') (hp : p.All (·.Leaves))
    (hothers : ∀ {w w'}, others.change w w' → W.Kept w w') : W.Kept w w' := by
  cases W with
  | exitOnFailure => trivial
  | memorized record => exact (h.leaves hp).2 record id hothers
  | flagged flag => exact (h.leaves hp).2 flag id hothers
  | sibling statuses index => exact (h.leaves hp).2 statuses (List.lookup index) hothers

/-- A wrapper keeps the children, and makes a tick of none only to replay the record that
it sees. -/
theorem after_among {tick : Option (Tick I)} {children : List (Node I)}
    {ending : Ending (Option (Tick I) × List (Node I))}
    (h : (W.after (tick, children)).Among env others caller held w ending held' w') :
    ∃ tick' seen, ending = .value (tick', children) ∧
      (tick = none → tick' = (W.recorded seen).map .const) ∧
      ((∀ {w w'}, others.change w w' → W.Kept w w') → W.Kept w seen) := by
  cases W with
  | memorized record =>
    obtain ⟨seen, (replayed : Option TickResult), _, _, ho, hread, hlast⟩ :=
      (Prog.Among.serve_iff rfl).mp h
    have hrecorded : recorded seen (memorized record) = replayed :=
      congrArg Prod.fst (Option.some.inj hread)
    refine ⟨replayed.elim (tick.map (.recording record)) fun result => some (.const result), seen,
      ?_, ?_, fun hothers => hothers ho⟩
    · cases replayed with
      | none => exact (Prog.Among.pure_iff.mp hlast).1
      | some result => exact (Prog.Among.pure_iff.mp hlast).1
    · rintro rfl
      rw [hrecorded]
      cases replayed <;> rfl
  | flagged flag =>
    obtain ⟨rfl, -, -⟩ := Prog.Among.pure_iff.mp h
    exact ⟨_, w, rfl, fun hnone => hnone ▸ rfl, fun _ => .refl _ w⟩
  | exitOnFailure =>
    obtain ⟨rfl, -, -⟩ := Prog.Among.pure_iff.mp h
    exact ⟨_, w, rfl, fun hnone => hnone ▸ rfl, fun _ => .refl _ w⟩
  | sibling statuses index =>
    obtain ⟨_, (last : List (Nat × Status)), _, _, -, -, hnext⟩ := (Prog.Among.serve_iff rfl).mp h
    obtain ⟨_, _, _, _, -, -, hlast⟩ := (Prog.Among.serve_iff rfl).mp hnext
    cases tick with
    | none =>
      obtain ⟨rfl, -, -⟩ := Prog.Among.pure_iff.mp hlast
      exact ⟨_, w, rfl, fun _ => rfl, fun _ => .refl _ w⟩
    | some tick =>
      change Prog.Among env others caller (if Siblings.mayRun last index then _ else _) _ _ _ _ _
        at hlast
      split at hlast <;>
      · obtain ⟨rfl, -, -⟩ := Prog.Among.pure_iff.mp hlast
        exact ⟨_, w, rfl, nofun, fun _ => .refl _ w⟩

/-- An expansion of a wrapped node: the node inside is expanded, and what it expands to is
passed on. -/
theorem expand_among {ending : Ending (Option (Tick I) × List (Node I))}
    (h : (W.wrap node).expand.Among env others caller held w ending held' w') :
    ∃ held₀ w₀ held₁ w₁ tick children tick' seen,
      node.expand.Among env others caller held₀ w₀ (.value (tick, children)) held₁ w₁ ∧
      ending = .value (tick', children) ∧
      (tick = none → tick' = (W.recorded seen).map .const) ∧
      ((∀ {w w'}, others.change w w' → W.Kept w w') → W.Kept w seen ∧ W.Kept w w') := by
  have hkept := kept_of_leaves (W := W) h (Node.leaves_expand _)
  have hleaves := (W.looks_before (I := I)).mono fun _ => Request.Looks.leaves
  rw [expand_wrap, Prog.Among.bind_iff] at h
  rcases h with ⟨payload, -, h⟩ | ⟨⟨⟩, held₀, w₀, hbefore, h⟩
  · obtain ⟨⟨a, ha⟩, -⟩ := h.leaves hleaves
    cases ha
  rcases Prog.Among.bind_iff.mp h with
    ⟨payload, -, h⟩ | ⟨⟨tick, children⟩, held₁, w₁, hexpand, hafter⟩
  · obtain ⟨⟨a, ha⟩, -⟩ := h.leaves (Node.leaves_expand node)
    cases ha
  obtain ⟨tick', seen, rfl, habsent, hseen⟩ := after_among hafter
  refine ⟨held₀, w₀, held₁, w₁, tick, children, tick', seen, hexpand, rfl, habsent,
    fun hothers => ⟨?_, hkept hothers⟩⟩
  have hkept₀ : W.Kept w w₀ := kept_of_leaves hbefore hleaves hothers
  have hkept₁ : W.Kept w₀ w₁ := kept_of_leaves hexpand (Node.leaves_expand node) hothers
  exact (hkept₀.trans hkept₁).trans (hseen hothers)

end Wrapping

/-- What a call of a node does once the node is expanded. -/
theorem Node.call_eq (node : Node I) : node.call = node.expand.bind fun expansion =>
    match expansion with
    | (some tick, children) => tick.run children
    | (none, _) => .pure (.error .missingTick) := rfl

/-- **Absent ticks and children pass through every wrapper** that has no record of the node,
and where there is one the children do, whatever cells hold, whatever others do meanwhile,
and whatever the node inside expands to this time.

A wrapper expands the node once, and beside that looks at cells and takes and gives back
locks. The children are those of the node. If the node has no tick this time, then the
wrapper makes one only to replay the record that it sees; so a call fails for want of a
tick if there is none. What the wrapper remembers of the node is not changed by an
expansion, nor by such a call. -/
theorem absent_ticks_pass (W : Wrapping) (node : Node I) :
    (∃ (before : Prog I Unit)
      (after : Option (Tick I) × List (Node I) → Prog I (Option (Tick I) × List (Node I))),
      before.All (·.Looks) ∧ (∀ expansion, (after expansion).All (·.Looks)) ∧
      (W.wrap node).expand = before.bind fun _ => node.expand.bind after) ∧
    ∀ (env : Environment I σ) (others : Others I σ) (caller : Caller) (held : List Lock)
      (w : World I σ),
      (∀ ending held' w', (W.wrap node).expand.Among env others caller held w ending held' w' →
        ∃ held₀ w₀ held₁ w₁ tick children tick' seen,
          node.expand.Among env others caller held₀ w₀ (.value (tick, children)) held₁ w₁ ∧
          ending = .value (tick', children) ∧
          (tick = none → tick' = (W.recorded seen).map .const) ∧
          ((∀ {w w'}, others.change w w' → W.Kept w w') → W.Kept w seen ∧ W.Kept w w')) ∧
      (∀ ending held' w', (W.wrap node).call.Among env others caller held w ending held' w' →
        ∃ held₀ w₀ held₁ w₁ tick children seen,
          node.expand.Among env others caller held₀ w₀ (.value (tick, children)) held₁ w₁ ∧
          (tick = none → ending = .value ((W.recorded seen).getD (.error .missingTick)) ∧
            ((∀ {w w'}, others.change w w' → W.Kept w w') → W.Kept w seen ∧ W.Kept w w'))) ∧
      (∀ children held' w', (W.wrap node).expand.Among env others caller held w
          (.value (none, children)) held' w' →
        (W.wrap node).call.Among env others caller held w (.value (.error .missingTick)) held'
          w') := by
  refine ⟨⟨W.before, W.after, W.looks_before, W.looks_after, W.expand_wrap node⟩,
    fun env others caller held w => ⟨fun _ _ _ => Wrapping.expand_among, fun ending held' w' h => ?_,
      fun children held' w' h => ?_⟩⟩
  · rw [Node.call_eq] at h
    rcases Prog.Among.bind_iff.mp h with ⟨payload, -, h⟩ | ⟨_, held₁, w₁, hexpand, hrun⟩
    · obtain ⟨⟨a, ha⟩, -⟩ := h.leaves (Node.leaves_expand _)
      cases ha
    obtain ⟨held₀, w₀, held₂, w₂, tick, children, tick', seen, hinner, ⟨⟩, habsent, hkept⟩ :=
      Wrapping.expand_among hexpand
    refine ⟨held₀, w₀, held₂, w₂, tick, children, seen, hinner, fun hnone => ?_⟩
    rw [habsent hnone] at hrun
    -- either way the call answers at once
    have hanswer : (Prog.pure ((W.recorded seen).getD (.error .missingTick))).Among env others
        caller held₁ w₁ ending held' w' := by
      cases hrecorded : W.recorded seen with
      | none => simpa [hrecorded] using hrun
      | some result => simpa [hrecorded, Tick.run] using hrun
    obtain ⟨rfl, -, ho⟩ := Prog.Among.pure_iff.mp hanswer
    exact ⟨rfl, fun hothers =>
      ⟨(hkept hothers).1, (hkept hothers).2.trans (hothers ho)⟩⟩
  · rw [Node.call_eq]
    exact h.bind (.pure (others.refl w'))

/-- A child of which the world counts the expansions: it has a tick in the first only,
which succeeds. The other child always has one, which runs on. -/
def vanishing : Environment (Family ⟨Empty, nofun⟩ Bool Unit) Nat where
  answer _ query n := match query with
    | .other e => nomatch e
    | .expand false => some ((if n = 0 then some () else none, 0), n + 1)
    | .expand true => some ((some (), 0), n)
    | .call false _ => some (.returned (.ok .success), n)
    | .call true _ => some (.returned (.ok .running), n)
  ended _ _ n := n

theorem absent_ticks_pass_vanished :
    let W : Wrapping := .memorized ⟨0⟩
    let node : Node (Family ⟨Empty, nofun⟩ Bool Unit) := Family.node false
    let w : World (Family ⟨Empty, nofun⟩ Bool Unit) Nat := ⟨(Heap.empty.alloc .record).2, [], 1⟩
    let others := Others.sparing (⟨0⟩ : Ref .record)
    (W.wrap node).call.Among vanishing others default [] w (.value (.error .missingTick)) []
        { w with outside := 2 } ∧
      W.Kept w { w with outside := 2 } := by
  intro W node w others
  have hexpand : (W.wrap node).expand.Among vanishing others default [] w (.value (none, [])) []
      { w with outside := 2 } :=
    .serve (.refl _ w) rfl (.serve (.refl _ _) rfl (.pure (.refl _ _)))
  obtain ⟨-, law⟩ := absent_ticks_pass (σ := Nat) W node
  have hcall := (law vanishing others default [] w).2.2 [] [] _ hexpand
  obtain ⟨_, _, _, _, _, _, _, _, _, _, -, hkept⟩ := (law vanishing others default [] w).1 _ _ _ hexpand
  exact ⟨hcall, (hkept fun ho => ho.cell).2⟩

/-- A memorized sequence is called twice with both children. The first has finished in the
first call and has no tick any more in the second, where it still succeeds. -/
theorem recorded_outlives_tick :
    let wrapped (c : Bool) : Node (Family ⟨Empty, nofun⟩ Bool Unit) :=
      .memorized ⟨c.toNat⟩ (Family.node c)
    let succeeds : Turn (Family ⟨Empty, nofun⟩ Bool Unit) :=
      ⟨wrapped false, [⟨.expand false, (some (), 0)⟩, ⟨.call false (), .returned (.ok .success)⟩],
        .value (.ok .success)⟩
    let absent : Turn (Family ⟨Empty, nofun⟩ Bool Unit) :=
      ⟨wrapped false, [⟨.expand false, (none, 0)⟩], .value (.ok .success)⟩
    let runs : Turn (Family ⟨Empty, nofun⟩ Bool Unit) :=
      ⟨wrapped true, [⟨.expand true, (some (), 0)⟩, ⟨.call true (), .returned (.ok .running)⟩],
        .value (.ok .running)⟩
    let w : World (Family ⟨Empty, nofun⟩ Bool Unit) Nat := ⟨(Heap.empty.alloc .execution).2, [], 0⟩
    (∃ w', Family.Calls vanishing (Memorize.Rests ⟨0⟩ .sequence) (.memorize ⟨0⟩ .sequence) w
      [⟨[false, true], [.turn succeeds, .turn runs], .value (.ok .running)⟩,
        ⟨[false, true], [.turn absent, .turn runs], .value (.ok .running)⟩] w') ∧
      absent.ending ≠ .value (.error .missingTick) := by
  intro wrapped succeeds absent runs w
  let ref : Ref .execution := ⟨0⟩
  let opened := (((w.heap.alloc .record).2.alloc .record).2).set ref
    (some [wrapped false, wrapped true])
  let heap := opened.set (⟨0⟩ : Ref .record) (some (.ok .success))
  have hsucceeds : succeeds.Takes vanishing default ⟨opened, [ref.lock], 0⟩
      ⟨heap, [ref.lock], 1⟩ :=
    ⟨[], _, .serve rfl rfl (.serve rfl rfl (.serve rfl rfl (.serve rfl rfl (.pure rfl)))), rfl⟩
  have habsent : absent.Takes vanishing default ⟨heap, [ref.lock], 1⟩ ⟨heap, [ref.lock], 2⟩ :=
    ⟨[], _, .serve rfl rfl (.serve rfl rfl (.pure rfl)), rfl⟩
  have hruns : ∀ n, runs.Takes vanishing default ⟨heap, [ref.lock], n⟩ ⟨heap, [ref.lock], n⟩ :=
    fun n => ⟨[], _, .serve rfl rfl (.serve rfl rfl (.serve rfl rfl (.pure rfl))), rfl⟩
  have hfirst : ((Tick.memorize ref .sequence).run ([false, true].map Family.node)).Performs
      vanishing default [] w [.turn succeeds, .turn runs] (.value (.ok .running)) []
      ⟨heap, [], 1⟩ :=
    .serve rfl (.serve rfl (.serve rfl (.serve rfl (.serve rfl (.tick hsucceeds
      (.tick (hruns 1) (.serve rfl .pure)))))))
  have hsecond : ((Tick.memorize ref .sequence).run ([false, true].map Family.node)).Performs
      vanishing default [] ⟨heap, [], 1⟩ [.turn absent, .turn runs] (.value (.ok .running)) []
      ⟨heap, [], 2⟩ :=
    .serve rfl (.serve rfl (.tick habsent (.tick (hruns 2) (.serve rfl .pure))))
  have hrests : ∀ w : World (Family ⟨Empty, nofun⟩ Bool Unit) Nat,
      Memorize.Rests ref .sequence w w := fun w _ s _ => .refl s w
  exact ⟨⟨_, .call (hrests _) hfirst (.call (hrests _) hsecond .none)⟩, nofun⟩

end TickTree
