/-
# Executions that a panic interrupts

A composite that is memorized ticks the children of its execution from left to right. If
one panics the call ends there. Those before it have finished and have their results
recorded, the child itself has no record, and the execution stays open: all is as if the
child had returned running. So the next call, whatever it passes, expands the nodes of
the finished children without running their ticks, and then runs the child again.

A tick that succeeds if any of its children does keeps its flag past a panic, as it does
past running: the flag is up if a child has succeeded in the execution under way.

Key definitions: `Composite.Visits`, `Environment.lenient`, `Memorize.Interrupted`,
`Memorize.Replays`.
Key theorems: `Turn.Takes.lenient`, `Memorize.AtRest.interrupted`,
`Memorize.Interrupted.resumes`, `AnySuccess.flag_of_calls`.
-/
import TickTree.Proofs.Memorizing
import TickTree.Proofs.Overriding

namespace TickTree

/-! ### Composites, child by child -/

namespace Composite

section

variable {I : Interface} {σ : Type} {env : Environment I σ} {caller : Caller} {kind : Composite}
  {held held' : List Lock} {w w₁ w' : World I σ} {events : List (Event I)}
  {ending : Ending TickResult} {nodes : List (Node I)} {turn : Turn I} {turns : List (Turn I)}

/-- The composite goes on past a child that ends so. -/
def passes (kind : Composite) : Ending TickResult → Bool
  | .value (.ok s) => kind.goesPast s
  | _ => false

theorem of_passes {ending : Ending TickResult} (h : kind.passes ending) :
    ∃ s, ending = .value (.ok s) ∧ s ≠ .running := by
  match ending with
  | .value (.ok s) =>
    refine ⟨s, rfl, ?_⟩
    rintro rfl
    cases kind <;> cases h
  | .value (.error _) | .panic _ => cases h

/-- The nodes are ticked from left to right, as long as the composite goes on. -/
inductive Visits (env : Environment I σ) (caller : Caller) (kind : Composite) :
    List (Node I) → List (Turn I) → World I σ → World I σ → Prop
  | nil {w : World I σ} : Visits env caller kind [] [] w w
  | stops {turn : Turn I} {nodes : List (Node I)} {w w' : World I σ} :
      turn.Takes env caller w w' → kind.passes turn.ending = false →
      Visits env caller kind (turn.node :: nodes) [turn] w w'
  | passes {turn : Turn I} {nodes : List (Node I)} {turns : List (Turn I)} {w w₁ w' : World I σ} :
      turn.Takes env caller w w₁ → kind.passes turn.ending →
      Visits env caller kind nodes turns w₁ w' →
      Visits env caller kind (turn.node :: nodes) (turn :: turns) w w'

/-- What a call of a composite is, and where a panic of it comes from. -/
theorem visits_of_performs {index : Nat} {soFar : Status}
    (h : (kind.runFrom index soFar nodes).Performs env caller held w events ending held' w') :
    held' = held ∧ ∃ turns, events = turns.map .turn ∧ Visits env caller kind nodes turns w w' ∧
      ∀ payload, ending = .panic payload →
        ∃ earlier turn, turns = earlier ++ [turn] ∧ turn.ending = .panic payload := by
  induction nodes generalizing index soFar w events with
  | nil =>
    obtain ⟨rfl, rfl, rfl, rfl⟩ := Prog.Performs.pure_iff.mp h
    exact ⟨rfl, [], rfl, .nil, nofun⟩
  | cons node nodes ih =>
    cases h with
    | serve hserve => cases hserve
    | tickPanic hturn => exact ⟨rfl, [_], rfl, .stops hturn rfl, fun _ he => ⟨[], _, rfl, he⟩⟩
    | @tick _ _ _ result _ _ _ _ _ _ _ hturn hnext =>
      match result with
      | .error e =>
        obtain ⟨rfl, rfl, rfl, rfl⟩ := Prog.Performs.pure_iff.mp hnext
        exact ⟨rfl, [_], rfl, .stops hturn rfl, nofun⟩
      | .ok s =>
        change (if kind.goesPast s then _ else _ : Prog I TickResult).Performs _ _ _ _ _ _ _ _
          at hnext
        by_cases hpast : kind.goesPast s
        · rw [if_pos hpast] at hnext
          obtain ⟨rfl, turns, rfl, hvisits, hpanics⟩ := ih hnext
          refine ⟨rfl, _ :: turns, rfl, .passes hturn hpast hvisits, fun payload he => ?_⟩
          obtain ⟨earlier, turn, rfl, hturn⟩ := hpanics payload he
          exact ⟨_ :: earlier, turn, rfl, hturn⟩
        · rw [if_neg hpast] at hnext
          obtain ⟨rfl, rfl, rfl, rfl⟩ := Prog.Performs.pure_iff.mp hnext
          exact ⟨rfl, [_], rfl, .stops hturn (Bool.eq_false_iff.mpr hpast), nofun⟩

theorem performs_passes {index : Nat} {soFar s : Status} (hturn : turn.Takes env caller w w₁)
    (hs : turn.ending = .value (.ok s)) (hpast : kind.goesPast s)
    (hrest : (kind.runFrom (index + 1) (kind.answer soFar s) nodes).Performs env caller held w₁
      events ending held' w') :
    (kind.runFrom index soFar (turn.node :: nodes)).Performs env caller held w
      (.turn turn :: events) ending held' w' := by
  obtain ⟨node, talk, _⟩ := turn
  cases hs
  refine .tick hturn ?_
  show (if kind.goesPast s then _ else _ : Prog I TickResult).Performs _ _ _ _ _ _ _ _
  rw [if_pos hpast]
  exact hrest

theorem performs_stops {index : Nat} {soFar s : Status} (hturn : turn.Takes env caller w w')
    (hs : turn.ending = .value (.ok s)) (hstops : kind.goesPast s = false) :
    (kind.runFrom index soFar (turn.node :: nodes)).Performs env caller held w [.turn turn]
      (.value (.ok s)) held w' := by
  obtain ⟨node, talk, _⟩ := turn
  cases hs
  refine .tick hturn ?_
  show (if kind.goesPast s then _ else _ : Prog I TickResult).Performs _ _ _ _ _ _ _ _
  rw [if_neg (Bool.eq_false_iff.mp hstops)]
  exact .pure

/-- The nodes ticked are the first ones. -/
theorem Visits.exists_rest (h : Visits env caller kind nodes turns w w') :
    ∃ rest, nodes = turns.map (·.node) ++ rest := by
  induction h with
  | nil => exact ⟨[], rfl⟩
  | stops => exact ⟨_, rfl⟩
  | passes _ _ _ ih =>
    obtain ⟨rest, rfl⟩ := ih
    exact ⟨rest, rfl⟩

/-- All turns but the last have been passed. -/
theorem Visits.passed {earlier : List (Turn I)}
    (h : Visits env caller kind nodes (earlier ++ [turn]) w w') :
    ∀ past ∈ earlier, kind.passes past.ending := by
  induction earlier generalizing nodes w with
  | nil => exact nofun
  | cons first earlier ih =>
    rw [List.cons_append] at h
    generalize hlater : earlier ++ [turn] = later at h
    cases h with
    | stops => cases List.append_ne_nil_of_right_ne_nil earlier (List.cons_ne_nil _ _) hlater
    | passes _ hpast hrest =>
      subst hlater
      exact List.forall_mem_cons.mpr ⟨hpast, ih hrest⟩

end

end Composite

/-! ### Running instead of a panic -/

variable {J : Interface} {C T σ : Type}

/-- Running instead of a panic. -/
def Outcome.lenient : Outcome → Outcome
  | .returned result => .returned result
  | .panicked _ => .returned (.ok .running)

/-- Running instead of a panic. -/
def Ending.lenient : Ending TickResult → Ending TickResult
  | .value result => .value result
  | .panic _ => .value (.ok .running)

/-- The world, but calls of children return running where they would panic. -/
def Environment.lenient (env : Environment (Family J C T) σ) : Environment (Family J C T) σ where
  answer caller
    | .other query, outside => env.answer caller (.other query) outside
    | .expand c, outside => env.answer caller (.expand c) outside
    | .call c t, outside =>
      (env.answer caller (.call c t) outside).map fun (outcome, outside) =>
        (Outcome.lenient outcome, outside)
  ended := env.ended

section

variable {env : Environment (Family J C T) σ} {caller : Caller} {rec : Ref .record} {c : C}
  {held held' : List Lock} {w w' : World (Family J C T) σ} {talk : List (Said (Family J C T))}
  {ending : Ending TickResult} {turn : Turn (Family J C T)}

theorem Environment.serve_lenient_call {t : T} {outcome : Outcome}
    (h : w.serve env caller held (.ask (.call c t)) = some (outcome, held', w')) :
    w.serve env.lenient caller held (.ask (.call c t)) = some (outcome.lenient, held', w') := by
  obtain ⟨⟨reply, outside⟩, hanswer, he⟩ := Option.map_eq_some_iff.mp h
  cases he
  show ((env.answer caller (.call c t) w.outside).map _).map _ = _
  rw [hanswer]
  rfl

/-- A memorized child that panics would have done the same if it had returned running. -/
theorem Family.speaks_attend_lenient {tick : Option T} {recorded : Option TickResult}
    (h : (attend rec c tick recorded : Prog (Family J C T) TickResult).Speaks env Eq caller held w
      talk ending held' w') :
    ∃ talk', (attend rec c tick recorded).Speaks env.lenient Eq caller held w talk' ending.lenient
        held' w' ∧ ∀ result, ending = .value result → talk' = talk := by
  match recorded, tick with
  | some result, _ =>
    obtain ⟨rfl, rfl, rfl, rfl⟩ := Prog.Speaks.pure_iff.mp h
    exact ⟨[], .pure rfl, fun _ _ => rfl⟩
  | none, none =>
    obtain ⟨rfl, rfl, rfl, rfl⟩ := Prog.Speaks.pure_iff.mp h
    exact ⟨[], .pure rfl, fun _ _ => rfl⟩
  | none, some t =>
    obtain ⟨_, (outcome : Outcome), _, w₁, talk, rfl, hcall, hnext, rfl⟩ :=
      (Prog.Speaks.serve_iff rfl).mp h
    have hcall := Environment.serve_lenient_call hcall
    cases outcome with
    | panicked payload =>
      obtain ⟨rfl, rfl, rfl, rfl⟩ := Prog.Speaks.panic_iff.mp hnext
      exact ⟨_, .serve rfl hcall (.pure rfl), nofun⟩
    | returned result =>
      have hsilent : Prog.All (I := Family J C T) (·.isSilent)
          (if (!result.isRunning) = true then (Prog.write rec (some result)).bind fun _ =>
            .pure result else .pure result) := by
        split
        · exact .request rfl fun _ => .pure
        · exact .pure
      obtain ⟨⟨_, rfl⟩, hnext⟩ := hnext.of_isSilent hsilent env.lenient
      exact ⟨_, .serve rfl hcall hnext, fun _ _ => rfl⟩

theorem Turn.Takes.lenient (h : turn.Takes env caller w w')
    (hnode : turn.node = Memorize.wrapper (rec, c)) :
    ∃ talk, Turn.Takes env.lenient caller ⟨turn.node, talk, turn.ending.lenient⟩ w w' ∧
      ∀ result, turn.ending = .value result → talk = turn.talk := by
  obtain ⟨held, w₁, hspeaks, rfl⟩ := h
  have hcall : turn.node.call = .request (.ask (.expand c)) fun reply =>
      .request (.read .record rec) (Family.attend rec c reply.1) := by
    rw [hnode]
    exact Family.call_memorized rec c
  rw [hcall] at hspeaks
  obtain ⟨_, reply, held₂, w₂, _, rfl, hexpand, hnext, htalk⟩ :=
    (Prog.Speaks.serve_iff rfl).mp hspeaks
  obtain ⟨_, recorded, held₃, w₃, _, rfl, hread, hattend, rfl⟩ :=
    (Prog.Speaks.serve_iff rfl).mp hnext
  obtain ⟨talk, hattend, hsame⟩ := Family.speaks_attend_lenient hattend
  have hexpand : w.serve env.lenient caller [] (.ask (.expand c)) = some (reply, held₂, w₂) :=
    hexpand
  have hread : w₂.serve env.lenient caller held₂ (.read .record rec) = some (recorded, held₃, w₃) :=
    hread
  have hlenient : turn.node.call.Speaks env.lenient Eq caller [] w
      (⟨.expand c, reply⟩ :: talk) turn.ending.lenient held w₁ := by
    rw [hcall]
    exact .serve rfl hexpand (.serve rfl hread hattend)
  refine ⟨_, ⟨held, w₁, hlenient, rfl⟩, fun result he => ?_⟩
  rw [htalk, hsame result he]
  rfl

/-- A turn of a memorized child that does not panic is no other then. -/
theorem Turn.Takes.lenient_value {result : TickResult} (h : turn.Takes env caller w w')
    (hnode : turn.node = Memorize.wrapper (rec, c)) (hvalue : turn.ending = .value result) :
    turn.Takes env.lenient caller w w' := by
  obtain ⟨talk, htakes, htalk⟩ := h.lenient hnode
  obtain ⟨node, talk', ending⟩ := turn
  cases hvalue
  cases htalk result rfl
  exact htakes

/-- A composite over memorized children that panics would have done the same, and reported
running, if the child that panics had. -/
theorem Composite.Visits.lenient {kind : Composite} {nodes : List (Node (Family J C T))}
    {earlier : List (Turn (Family J C T))} {payload : Payload}
    (h : Visits env caller kind nodes (earlier ++ [turn]) w w')
    (hnodes : ∀ node ∈ nodes, ∃ rec c, node = Memorize.wrapper (rec, c))
    (hpanic : turn.ending = .panic payload) :
    ∃ again : Turn (Family J C T), again.node = turn.node ∧ again.ending = .value (.ok .running) ∧
      ∀ held index soFar, (kind.runFrom index soFar nodes).Performs env.lenient caller held w
        ((earlier ++ [again]).map .turn) (.value (.ok .running)) held w' := by
  induction earlier generalizing nodes w with
  | nil =>
    rw [List.nil_append] at h
    cases h with
    | passes _ hpast =>
      rw [hpanic] at hpast
      cases hpast
    | stops hturn =>
      obtain ⟨rec, c, hnode⟩ := hnodes _ List.mem_cons_self
      obtain ⟨talk, hagain, -⟩ := hturn.lenient hnode
      rw [hpanic] at hagain
      have hstops : kind.goesPast .running = false := by cases kind <;> rfl
      exact ⟨⟨turn.node, talk, .value (.ok .running)⟩, rfl, rfl,
        fun held index soFar => performs_stops hagain rfl hstops⟩
  | cons first earlier ih =>
    rw [List.cons_append] at h
    generalize hlater : earlier ++ [turn] = later at h
    cases h with
    | stops => cases List.append_ne_nil_of_right_ne_nil earlier (List.cons_ne_nil _ _) hlater
    | passes hfirst hpast hrest =>
      subst hlater
      obtain ⟨⟨rec, c, hnode⟩, hnodes⟩ := List.forall_mem_cons.mp hnodes
      obtain ⟨s, hs, -⟩ := of_passes hpast
      rw [hs] at hpast
      obtain ⟨again, hsame, hrunning, hperforms⟩ := ih hrest hnodes
      exact ⟨again, hsame, hrunning, fun held index soFar =>
        performs_passes (hfirst.lenient_value hnode hs) hs hpast (hperforms held _ _)⟩

end

/-! ### Memorized composites -/

namespace Memorize

variable {ref : Ref .execution} {kind : Composite} {env : Environment (Family J C T) σ}
  {caller : Caller} {w w' : World (Family J C T) σ} {e : Execution J C T}
  {turns earlier : List (Turn (Family J C T))} {turn : Turn (Family J C T)}
  {call : FamilyCall J C T}

/-- A turn of a child that has finished, in a later call: the node is expanded, and the
answer is that of the turn before. -/
structure Replays (past again : Turn (Family J C T)) : Prop where
  node : again.node = past.node
  ending : again.ending = past.ending
  talk : ∃ rec c reply, past.node = wrapper (rec, c) ∧ again.talk = [⟨.expand c, reply⟩]

/-- How the cells stand after a call in which these children have finished and the next
has panicked: the execution is open, and the panic has left no record. -/
structure Interrupted (ref : Ref .execution) (kind : Composite) (e : Execution J C T)
    (earlier : List (Turn (Family J C T))) (turn : Turn (Family J C T))
    (w : World (Family J C T) σ) : Prop where
  atRest : AtRest ref (.composite kind) (some e) w
  nodes : ∃ rest, e.nodes = earlier.map (·.node) ++ turn.node :: rest
  finished : ∀ past ∈ earlier, ∃ s, past.ending = .value (.ok s) ∧ kind.goesPast s ∧
    ∀ rec ∈ past.node.record?, recorded e.turns rec = some (.ok s)
  unfinished : ∀ rec ∈ turn.node.record?, recorded e.turns rec = none

namespace Execution

/-- What the turns of a call leave recorded that ends with this panic. -/
theorem Follows.interrupted {payload : Payload}
    (h : e.Follows turns (earlier ++ [turn])) (hpassed : ∀ past ∈ earlier, kind.passes past.ending)
    (hpanic : turn.ending = .panic payload) :
    (∀ past ∈ earlier, ∃ s, past.ending = .value (.ok s) ∧ kind.goesPast s ∧
      ∀ rec ∈ past.node.record?, recorded (turns ++ (earlier ++ [turn])) rec = some (.ok s)) ∧
    ∀ rec ∈ turn.node.record?, recorded (turns ++ (earlier ++ [turn])) rec = none := by
  constructor
  · intro past hmem
    obtain ⟨s, hs, hrunning⟩ := Composite.of_passes (hpassed past hmem)
    have hpast := hpassed past hmem
    rw [hs] at hpast
    refine ⟨s, hs, hpast, fun rec hrec => ?_⟩
    obtain ⟨before, after, rfl⟩ := List.append_of_mem hmem
    rw [List.append_assoc, follows_append] at h
    obtain ⟨rec', c, -, hnode, htended⟩ := h.2.1
    obtain rfl : rec' = rec := by
      rw [hnode] at hrec
      exact Option.some.inj hrec
    rw [hs] at htended
    have hafter := htended.records hrunning
    rw [← recorded_concat hrec] at hafter
    rw [List.append_cons before, List.append_assoc, ← List.append_assoc turns,
      ← List.append_assoc turns, recorded_append, hafter]
    rfl
  · intro rec hrec
    obtain ⟨rec', c, -, hnode, htended⟩ := (follows_append.mp h).2.1
    obtain rfl : rec' = rec := by
      rw [hnode] at hrec
      exact Option.some.inj hrec
    rw [hpanic] at htended
    rw [← List.append_assoc, recorded_concat hrec]
    exact htended.records_nothing

/-- A composite replays the children that have finished, and then comes to the next. -/
theorem Follows.resumes {node : Node (Family J C T)} {rest : List (Node (Family J C T))}
    {new : List (Turn (Family J C T))} (h : e.Follows turns new)
    (hvisits : kind.Visits env caller (earlier.map (·.node) ++ node :: rest) new w w')
    (hdone : ∀ past ∈ earlier, ∃ s, past.ending = .value (.ok s) ∧ kind.goesPast s ∧
      ∀ rec ∈ past.node.record?, recorded turns rec = some (.ok s))
    (hnone : ∀ rec ∈ node.record?, recorded turns rec = none) :
    ∃ replays again later, new = replays ++ again :: later ∧
      List.Forall₂ Replays earlier replays ∧ again.node = node ∧
      ∃ rec c, node = wrapper (rec, c) ∧ Tended c none again.talk again.ending := by
  induction earlier generalizing turns new w with
  | nil =>
    have hfirst : ∃ again later, new = again :: later ∧ again.node = node := by
      cases hvisits with
      | stops => exact ⟨_, _, rfl, rfl⟩
      | passes => exact ⟨_, _, rfl, rfl⟩
    obtain ⟨again, later, rfl, rfl⟩ := hfirst
    obtain ⟨⟨rec, c, -, hnode, htended⟩, -⟩ := h
    rw [hnone rec (congrArg Node.record? hnode)] at htended
    exact ⟨[], again, later, rfl, .nil, rfl, rec, c, hnode, htended⟩
  | cons past earlier ih =>
    obtain ⟨⟨s, hs, hpast, hrecorded⟩, hdone⟩ := List.forall_mem_cons.mp hdone
    have hreplays : ∀ {first : Turn (Family J C T)}, first.node = past.node →
        e.Tends turns first → Replays past first ∧ ∀ rec, recorded [first] rec = none := by
      rintro first hsame ⟨rec, c, -, hnode, htended⟩
      rw [hrecorded rec (hsame ▸ congrArg Node.record? hnode)] at htended
      generalize hanswer : first.ending = ending at htended
      generalize htalk : first.talk = talk at htended
      cases htended with
      | @replays _ reply =>
        refine ⟨⟨hsame, hanswer.trans hs.symm, rec, c, reply, hsame ▸ hnode, htalk⟩, fun rec => ?_⟩
        unfold recorded
        rw [List.findSome?_singleton, htalk]
        split <;> rfl
    rw [List.map_cons, List.cons_append] at hvisits
    generalize hsame : past.node = first at hvisits
    cases hvisits with
    | @stops first _ _ _ _ hstops =>
      obtain ⟨hreplay, -⟩ := hreplays hsame.symm h.1
      rw [hreplay.ending, hs] at hstops
      cases hpast.symm.trans hstops
    | @passes first _ later _ _ _ _ _ hvisits =>
      obtain ⟨hreplay, hsilent⟩ := hreplays hsame.symm h.1
      have hkept : ∀ rec, recorded (turns ++ [first]) rec = recorded turns rec := fun rec => by
        rw [recorded_append, hsilent, Option.or_none]
      obtain ⟨replays, again, later, rfl, hreplays, hagain⟩ := ih h.2 hvisits
        (fun past hmem => by simpa only [hkept] using hdone past hmem)
        (fun rec hrec => (hkept rec).trans (hnone rec hrec))
      exact ⟨first :: replays, again, later, rfl, .cons hreplay hreplays, hagain⟩

end Execution

theorem turns_of_events (h : call.events = turns.map .turn) : call.turns = turns := by
  unfold FamilyCall.turns
  rw [h, List.flatMap_map]
  exact List.flatMap_singleton' turns

variable {open? : Option (Execution J C T)} {payload : Payload} {next : FamilyCall J C T}

/-- Between calls the cells always stand so. -/
theorem AtRest.calls {t : Tick (Family J C T)} {calls : List (FamilyCall J C T)} (ht : t.isDirect)
    (h : AtRest ref t open? w)
    (hcalls : Family.Calls env (Rests ref t) (.memorize ref t) w calls w') :
    ∃ later, AtRest ref t later w' := by
  obtain ⟨later, hexecutes⟩ := (h.calls_iff ht).mp hcalls
  clear hcalls
  induction hexecutes with
  | none => exact ⟨_, h⟩
  | call hrests hbegins hopens hinner _ _ ih =>
    obtain ⟨hruns, -⟩ := (h.rests hrests).runs hbegins hopens
    obtain ⟨-, -, hstands⟩ := hruns.proceeds ht hinner
    exact ih hstands

/-- **A call in which a child panics** ends with that panic. It leaves the world as it would
if the child had returned running and the call had then. -/
theorem AtRest.interrupted (h : AtRest ref (.composite kind) open? w)
    (hcall : Family.Calls env (Rests ref (.composite kind)) (.memorize ref (.composite kind)) w
      [call] w') (hpanic : call.ending = .panic payload) :
    ∃ (e : Execution J C T) (earlier : List (Turn (Family J C T))) (turn : Turn (Family J C T))
        (w₀ : World (Family J C T) σ),
      Rests ref (.composite kind) w w₀ ∧ e.Begins open? call.children w₀ ∧
      call.events = (earlier ++ [turn]).map .turn ∧ turn.ending = .panic payload ∧
      Interrupted ref kind { e with turns := e.turns ++ call.turns } earlier turn w' ∧
      ∃ again : Turn (Family J C T), again.node = turn.node ∧
        again.ending = .value (.ok .running) ∧
        Family.Calls env.lenient (Rests ref (.composite kind)) (.memorize ref (.composite kind)) w
          [⟨call.children, (earlier ++ [again]).map .turn, .value (.ok .running)⟩] w' := by
  obtain ⟨later, hexecutes⟩ := (h.calls_iff rfl).mp hcall
  cases hexecutes with
  | @call _ _ _ w₀ w₁ w₂ _ _ _ caller e hrests hbegins hopens hinner hfollows hrest =>
    cases hrest
    obtain ⟨hruns, -⟩ := (h.rests hrests).runs hbegins hopens
    obtain ⟨-, -, hstands⟩ := hruns.proceeds rfl hinner
    obtain ⟨-, turns, hevents, hvisits, hpanics⟩ := Composite.visits_of_performs hinner
    obtain ⟨earlier, turn, rfl, hturn⟩ := hpanics payload hpanic
    have hturns := turns_of_events hevents
    have hafter : e.after call = some { e with turns := e.turns ++ call.turns } := by
      unfold Execution.after
      rw [hpanic]
    obtain ⟨rest, hnodes⟩ := hvisits.exists_rest
    rw [hturns] at hfollows
    obtain ⟨hfinished, hunfinished⟩ := hfollows.interrupted hvisits.passed hturn
    have hwrapped : ∀ node ∈ e.nodes, ∃ rec c, node = wrapper (rec, c) := by
      intro node hmem
      obtain ⟨⟨rec, c⟩, -, rfl⟩ := List.mem_map.mp hmem
      exact ⟨rec, c, rfl⟩
    obtain ⟨again, hsame, hrunning, hlenient⟩ := hvisits.lenient hwrapped hturn
    refine ⟨e, earlier, turn, w₀, hrests, hbegins, hevents, hturn, ⟨hafter ▸ hstands, ?_, ?_, ?_⟩,
      again, hsame, hrunning, ?_⟩
    · refine ⟨rest, hnodes.trans ?_⟩
      rw [List.map_append, List.append_assoc]
      rfl
    · rw [hturns]
      exact hfinished
    · rw [hturns]
      exact hunfinished
    · let lenient : FamilyCall J C T :=
        ⟨call.children, (earlier ++ [again]).map .turn, .value (.ok .running)⟩
      have hopens := hopens.of_isSilent ((all_execution ref _).mono fun _ h => h.1) env.lenient
      have hlenient : ((Tick.composite kind).run e.nodes).Performs env.lenient caller [ref.lock] w₁
          lenient.events lenient.ending [ref.lock] w₂ := hlenient [ref.lock] 0 kind.initial
      obtain ⟨-, hfollows, -⟩ := hruns.proceeds rfl hlenient
      have hends : ends ref lenient.ending w₂ = ends ref call.ending w₂ := by
        rw [hpanic]
        rfl
      have hlast : Executes env.lenient ref (.composite kind) (e.after lenient)
          (ends ref lenient.ending w₂) [] (e.after lenient) (ends ref call.ending w₂) :=
        hends ▸ .none
      exact (h.calls_iff rfl).mpr ⟨_, .call hrests hbegins hopens hlenient hfollows hlast⟩

/-- **The next call,** whatever it passes, replays the children that have finished, and
then ticks the one that has panicked. -/
theorem Interrupted.resumes (h : Interrupted ref kind e earlier turn w)
    (hcall : Family.Calls env (Rests ref (.composite kind)) (.memorize ref (.composite kind)) w
      [next] w') :
    ∃ replays again later, next.events = (replays ++ again :: later).map .turn ∧
      List.Forall₂ Replays earlier replays ∧ again.node = turn.node ∧
      ∃ rec c, turn.node = wrapper (rec, c) ∧ Tended c none again.talk again.ending := by
  obtain ⟨later, hexecutes⟩ := (h.atRest.calls_iff rfl).mp hcall
  cases hexecutes with
  | @call _ _ _ w₀ w₁ w₂ _ _ _ caller e' hrests hbegins hopens hinner hfollows hrest =>
    obtain rfl : e' = e := hbegins
    obtain ⟨-, turns, hevents, hvisits, -⟩ := Composite.visits_of_performs hinner
    rw [turns_of_events hevents] at hfollows
    obtain ⟨rest, hnodes⟩ := h.nodes
    rw [hnodes] at hvisits
    obtain ⟨replays, again, later, rfl, hresumes⟩ :=
      hfollows.resumes hvisits h.finished h.unfinished
    exact ⟨replays, again, later, hevents, hresumes⟩

end Memorize

/-! ### Success of any child -/

theorem Ending.goesOn_overridden (raised : Bool) (ending : Ending TickResult) :
    (ending.overridden raised).goesOn = ending.goesOn := by
  match ending with
  | .value (.ok .running) | .value (.error _) | .panic _ => rfl
  | .value (.ok .success) | .value (.ok .failure) => cases raised <;> rfl

namespace FamilyCall

variable {flag : Ref .flag} {past calls : List (FamilyCall J C T)} {call : FamilyCall J C T}

theorem succeeds_overridden : (call.overridden flag past).succeeds = call.succeeds := by
  show (call.events.map (Event.mark flag)).any Event.succeeds = _
  rw [List.any_map]
  refine congrArg (call.events.any ·) (funext fun event => ?_)
  cases event with
  | said | turn | round => rfl

theorem overriddenFrom_concat :
    overriddenFrom flag past (calls ++ [call]) =
      overriddenFrom flag past calls ++ [call.overridden flag (past ++ calls)] := by
  induction calls generalizing past with
  | nil => rw [List.append_nil]; rfl
  | cons first calls ih =>
    rw [List.cons_append, overriddenFrom, ih, overriddenFrom, List.append_assoc]
    rfl

/-- Whether a child has succeeded in the execution under way is the same with marks. -/
theorem any_succeeds_overriddenFrom :
    (current (overriddenFrom flag past calls)).any succeeds = (current calls).any succeeds := by
  induction calls using List.reverseRecOn with
  | nil => rfl
  | append_singleton calls call ih =>
    rw [overriddenFrom_concat, any_succeeds_concat, any_succeeds_concat, ih, succeeds_overridden]
    exact congrArg (· && _) (Ending.goesOn_overridden _ _)

end FamilyCall

/-- **The flag** is up if a child has succeeded in the execution under way. -/
theorem AnySuccess.flag_of_calls {env : Environment (Family J C T) σ} {flag : Ref .flag}
    {t : Tick (Family J C T)} (ht : t.actsInCalls) (hflag : ⟨_, flag⟩ ∉ t.cells)
    {w w' : World (Family J C T) σ} (hfresh : ∀ cell ∈ (Tick.any flag t).cells, w.Fresh cell.2)
    {calls : List (FamilyCall J C T)}
    (h : Family.Calls env (Tick.any flag t).Rests (.any flag t) w calls w') :
    w'.heap.get flag = (FamilyCall.current calls).any FamilyCall.succeeds := by
  have hw : UpToMarks flag t.Keeps ((FamilyCall.current ([] : List (FamilyCall J C T))).any
      FamilyCall.succeeds) w w := upToMarks_of_fresh hfresh
  obtain ⟨inside, w₁, rfl, -, hmarks⟩ := calls_of_any ht hflag hw h
  rw [FamilyCall.any_succeeds_overriddenFrom]
  exact hmarks.up

end TickTree
