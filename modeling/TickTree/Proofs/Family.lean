/-
# Children of which nothing is known

What a wrapper does to its children should not depend on what they are. Here they
are only names: what a child expands to, a tick or none and so many children, and
what a call of that tick comes to, are questions to the world, which may answer
them differently each time. Beside them the world answers the questions of another
interface, which are those of the code around.

A child that panics does so in the call of its tick.

Key definitions: `Family`, `Family.node`, `Family.tick`, `Family.Calls`, `Tended`.
Key theorems: `Family.tended_of_speaks`.
-/
import TickTree.Proofs.Performing

namespace TickTree

/-- How a call ends that has this outcome. -/
def Outcome.ending : Outcome → Ending TickResult
  | .returned result => .value result
  | .panicked payload => .panic payload

/-- The questions about children, beside those of an interface: what a child expands
to this time, and what the tick that it has expanded to comes to this time. -/
inductive FamilyQuery (J : Interface) (C T : Type) where
  | other (query : J.Query)
  | expand (child : C)
  | call (child : C) (tick : T)

/-- The questions about children with their answers: a tick, if there is one, and the
number of children; and the outcome of a call. -/
abbrev Family (J : Interface) (C T : Type) : Interface where
  Query := FamilyQuery J C T
  Reply
    | .other query => J.Reply query
    | .expand _ => Option T × Nat
    | .call _ _ => Outcome

variable {J : Interface} {C T σ α : Type}

namespace Family

/-- The tick of a child. -/
def tick (c : C) (t : T) : Tick (Family J C T) :=
  .ask (.call c t) fun
    | .returned result => .const result
    | .panicked payload => .custom fun _ => .panic payload

/-- What a child expands to. -/
def expansion (c : C) (reply : Option T × Nat) : Node (Family J C T) :=
  .plain (reply.1.map (tick c)) (List.replicate reply.2 (.plain none []))

/-- A child as a node. -/
def node (c : C) : Node (Family J C T) :=
  .made (.ask (.expand c) fun reply => .yield (expansion c reply))

/-- What a call of the tick of a child does. -/
def call (c : C) (t : T) : Prog (Family J C T) TickResult :=
  .request (.ask (.call c t)) fun outcome => (Outcome.ending outcome).resume .pure

theorem run_tick (c : C) (t : T) (children : List (Node (Family J C T))) :
    (tick c t).run children = call c t := by
  unfold tick call
  rw [Tick.run]
  congr 1
  funext outcome
  cases outcome with
  | returned result => rfl
  | panicked payload => rfl

end Family

/-! ### Calls of a tick -/

/-- A call of a tick: the children that it is called with, what is seen of it, and how
it ends. -/
structure FamilyCall (J : Interface) (C T : Type) where
  children : List C
  events : List (Event (Family J C T))
  ending : Ending TickResult

/-- The turns of nodes in a call. -/
def FamilyCall.turns (call : FamilyCall J C T) : List (Turn (Family J C T)) :=
  call.events.flatMap Event.turns

/-- The tick is called again and again, each time with other children perhaps. Between
two calls the world rests, as far as that is said. -/
inductive Family.Calls (env : Environment (Family J C T) σ)
    (rests : World (Family J C T) σ → World (Family J C T) σ → Prop) (t : Tick (Family J C T)) :
    World (Family J C T) σ → List (FamilyCall J C T) → World (Family J C T) σ → Prop
  | none {w} : Calls env rests t w [] w
  | call {w w₀ w₁ w'} {call : FamilyCall J C T} {calls} {caller : Caller} {held : List Lock} :
      rests w w₀ →
      (t.run (call.children.map Family.node)).Performs env caller [] w₀ call.events call.ending held
        w₁ →
      Calls env rests t (w₁.unlock held) calls w' → Calls env rests t w (call :: calls) w'

/-! ### The turns of a child with a record -/

/-- A turn of a child of which this is recorded: its node is expanded, once. If a
result is recorded that is its answer. If not, a child without a tick answers the
error for that, and a tick is called, once, and its outcome is that of the turn. -/
inductive Tended (c : C) : Option TickResult → List (Said (Family J C T)) → Ending TickResult → Prop
  | replays {result} {reply : Option T × Nat} :
      Tended c (some result) [⟨.expand c, reply⟩] (.value result)
  | absent {n : Nat} :
      Tended c none [⟨.expand c, (none, n)⟩] (.value (.error .missingTick))
  | runs {t : T} {n : Nat} {outcome : Outcome} :
      Tended c none [⟨.expand c, (some t, n)⟩, ⟨.call c t, outcome⟩] outcome.ending

/-- The result that a child has finished with, if a call of its tick is among what was
said and has come to anything but running. -/
def finished (talk : List (Said (Family J C T))) : Option TickResult :=
  talk.findSome? fun
    | ⟨.call _ _, .returned result⟩ => if result.isRunning then none else some result
    | _ => none

theorem finished_called (c : C) (t : T) (reply : Option T × Nat) (result : TickResult) :
    finished ([⟨.expand c, reply⟩, ⟨.call c t, .returned result⟩] : List (Said (Family J C T))) =
      if result.isRunning then none else some result := by
  unfold finished
  rw [List.findSome?_cons, List.findSome?_cons]
  by_cases hrunning : result.isRunning
  · simp [hrunning]
  · simp [hrunning]

section

variable {c : C} {recorded : Option TickResult} {talk : List (Said (Family J C T))}

/-- A child that has reported a terminal status has it recorded. -/
theorem Tended.records {s : Status} (h : Tended c recorded talk (.value (.ok s)))
    (hs : s ≠ .running) : recorded.or (finished talk) = some (.ok s) := by
  generalize he : (Ending.value (.ok s) : Ending TickResult) = ending at h
  cases h with
  | replays =>
    cases he
    rfl
  | absent => cases he
  | @runs t n outcome =>
    cases outcome with
    | panicked => cases he
    | returned result =>
      cases he
      refine (finished_called c t _ _).trans (if_neg fun hrunning => hs ?_)
      cases TickResult.isRunning_iff.mp hrunning
      rfl

/-- A child that panics has run, and nothing is recorded of it. -/
theorem Tended.records_nothing {payload : Payload} (h : Tended c recorded talk (.panic payload)) :
    recorded.or (finished talk) = none := by
  generalize he : (Ending.panic payload : Ending TickResult) = ending at h
  cases h with
  | replays | absent => cases he
  | @runs t n outcome =>
    cases outcome with
    | returned => cases he
    | panicked => rfl

end

namespace Family

variable {rec : Ref .record} {c : C} {env : Environment (Family J C T) σ}
  {others : World (Family J C T) σ → World (Family J C T) σ → Prop} {caller : Caller}
  {held held' : List Lock} {w w' : World (Family J C T) σ} {talk : List (Said (Family J C T))}
  {ending : Ending TickResult}

/-- What a memorized child does that has expanded to this, if this is recorded. -/
def attend (rec : Ref .record) (c : C) (tick : Option T) :
    Option TickResult → Prog (Family J C T) TickResult
  | some result => .pure result
  | none =>
    match tick with
    | none => .pure (.error .missingTick)
    | some t => Memorize.record rec (call c t)

theorem call_memorized (rec : Ref .record) (c : C) :
    (Node.memorized rec (node c) : Node (Family J C T)).call =
      .request (.ask (.expand c)) fun reply =>
        .request (.read .record rec) (attend rec c reply.1) := by
  change Prog.request _ _ = _
  congr 1
  funext (reply : Option T × Nat)
  change Prog.request _ _ = _
  congr 1
  funext (recorded : Option TickResult)
  match recorded, reply with
  | some _, _ | none, (none, _) => rfl
  | none, (some t, n) => exact congrArg (Memorize.record rec) (run_tick c t _)

/-- A memorized child changes nothing but its record. -/
theorem minds_memorized (rec : Ref .record) (c : C) :
    (Node.memorized rec (node c) : Node (Family J C T)).call.All (·.Minds rec.lock) := by
  rw [call_memorized]
  refine .request trivial fun reply => .request trivial fun (recorded : Option TickResult) => ?_
  obtain ⟨t?, n⟩ := reply
  match recorded, t? with
  | some _, _ | none, none => exact .pure
  | none, some t =>
    refine .request trivial fun (outcome : Outcome) => ?_
    cases outcome with
    | panicked payload => exact .request trivial fun e => nomatch e
    | returned result =>
      change Prog.All _ (if (!result.isRunning) = true then _ else _)
      split
      · exact .request rfl fun _ => .pure
      · exact .pure

/-- **A turn of a child with a record.** It is tended as what is recorded says, and
leaves a result that it finishes with in the record. -/
theorem tended_of_speaks
    (hothers : ∀ {w w'}, others w w' → (w.heap.Made rec → w'.heap.Made rec) ∧
      w'.heap.get rec = w.heap.get rec)
    (hmade : w.heap.Made rec) {recorded : Option TickResult} (hrec : w.heap.get rec = recorded)
    (h : (Node.memorized rec (node c)).call.Speaks env others caller held w talk ending held' w') :
    held' = held ∧ Tended c recorded talk ending ∧ w'.heap.Made rec ∧
      w'.heap.get rec = recorded.or (finished talk) := by
  rw [call_memorized] at h
  obtain ⟨w₀, (reply : Option T × Nat), _, w₁, _, ho, hexpand, h₁, rfl⟩ :=
    (Prog.Speaks.serve_iff rfl).mp h
  obtain ⟨hheap₁, -, rfl⟩ := World.heap_of_ask hexpand
  obtain ⟨w₂, _, _, _, _, ho₂, hread, h₂, rfl⟩ := (Prog.Speaks.serve_iff rfl).mp h₁
  cases hread
  have hmade₂ : w₂.heap.Made rec := (hothers ho₂).1 (hheap₁ ▸ (hothers ho).1 hmade)
  have hrec₂ : (w₂.heap.get rec : Option TickResult) = recorded := by
    rw [(hothers ho₂).2, hheap₁, (hothers ho).2, hrec]
  rw [hrec₂] at h₂
  obtain ⟨t?, n⟩ := reply
  match recorded, t? with
  | some result, _ =>
    obtain ⟨rfl, rfl, rfl, ho'⟩ := Prog.Speaks.pure_iff.mp h₂
    exact ⟨rfl, .replays, (hothers ho').1 hmade₂, (hothers ho').2.trans hrec₂⟩
  | none, none =>
    obtain ⟨rfl, rfl, rfl, ho'⟩ := Prog.Speaks.pure_iff.mp h₂
    exact ⟨rfl, .absent, (hothers ho').1 hmade₂, (hothers ho').2.trans hrec₂⟩
  | none, some t =>
    obtain ⟨w₃, (outcome : Outcome), _, w₄, _, ho₃, hcall, h₃, rfl⟩ :=
      (Prog.Speaks.serve_iff rfl).mp h₂
    obtain ⟨hheap₄, -, rfl⟩ := World.heap_of_ask hcall
    have hmade₄ : w₄.heap.Made rec := hheap₄ ▸ (hothers ho₃).1 hmade₂
    have hrec₄ : (w₄.heap.get rec : Option TickResult) = none := by
      rw [hheap₄, (hothers ho₃).2, hrec₂]
    cases outcome with
    | panicked payload =>
      obtain ⟨rfl, rfl, rfl, ho'⟩ := Prog.Speaks.panic_iff.mp h₃
      exact ⟨rfl, .runs, (hothers ho').1 hmade₄, (hothers ho').2.trans hrec₄⟩
    | returned result =>
      change Prog.Speaks env others caller (if (!result.isRunning) = true then _ else _) _ _ _ _ _ _
        at h₃
      by_cases hrunning : result.isRunning
      · rw [if_neg (by simp [hrunning])] at h₃
        obtain ⟨rfl, rfl, rfl, ho'⟩ := Prog.Speaks.pure_iff.mp h₃
        refine ⟨rfl, .runs, (hothers ho').1 hmade₄, (hothers ho').2.trans (hrec₄.trans ?_)⟩
        exact (finished_called c t _ result).trans (if_pos hrunning) |>.symm
      · rw [if_pos (by simp [hrunning])] at h₃
        obtain ⟨w₅, _, _, _, _, ho₅, hswap, h₅, rfl⟩ := (Prog.Speaks.serve_iff rfl).mp h₃
        cases hswap
        obtain ⟨rfl, rfl, rfl, ho'⟩ := Prog.Speaks.pure_iff.mp h₅
        have hmade₅ := (hothers ho₅).1 hmade₄
        refine ⟨rfl, .runs, (hothers ho').1 ((Heap.made_set _).mpr hmade₅), ?_⟩
        refine ((hothers ho').2.trans (Heap.get_set hmade₅ _)).trans ?_
        exact (finished_called c t _ result).trans (if_neg hrunning) |>.symm

end Family

end TickTree
