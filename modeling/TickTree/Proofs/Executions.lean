/-
# The children of an execution

While a memorized tick is in an execution its children have records, one for each
place, even if the same child stands at two. The tick inside may tick them in any
order and as often as it likes, one at a time or several in parallel. Each turn of a
child is tended as the turns before it say: the node is expanded, once, and the tick of
the child is called until it has come to anything but running; from then on the turn
answers that (`Tended`).

What a turn does to the records is said once (`Execution.Holds.turn`), and of the
turns of a round, in which the children go on side by side, it follows that none
meddles with the record of another (`Execution.Holds.round`).

Key definitions: `Memorize.Execution`, `Memorize.recorded`, `Memorize.Execution.Tends`,
`Memorize.Execution.Follows`, `Memorize.Execution.Holds`.
Key theorems: `Memorize.Execution.Holds.turn`, `Memorize.Execution.Holds.round`,
`Memorize.Execution.Holds.performs`.
-/
import TickTree.Proofs.Family
import Mathlib.Data.List.Nodup

namespace TickTree

/-- The record of a child of an execution. -/
def Node.record? {I : Interface} : Node I → Option (Ref .record)
  | .memorized record _ => some record
  | _ => none

/-- The request asks, reads, or ticks one of these nodes. -/
def Request.Ticks {I : Interface} (nodes : List (Node I)) : Request I → Prop
  | .ask _ | .read _ _ | .panic _ => True
  | .tick node => node ∈ nodes
  | _ => False

namespace Memorize

variable {J : Interface} {C T σ α : Type}

/-- What is recorded of the child with this record after these turns: the first result
that it has finished with. -/
def recorded (turns : List (Turn (Family J C T))) (rec : Ref .record) : Option TickResult :=
  turns.findSome? fun turn => if turn.node.record? = some rec then finished turn.talk else none

/-- An execution: the children that it has begun with, the record of each, and the
turns that they have had. -/
structure Execution (J : Interface) (C T : Type) where
  children : List C
  records : List (Ref .record)
  turns : List (Turn (Family J C T))

/-- A child with its record as a node. -/
def wrapper (child : Ref .record × C) : Node (Family J C T) :=
  .memorized child.1 (Family.node child.2)

namespace Execution

/-- The children with their records. -/
def pairs (e : Execution J C T) : List (Ref .record × C) := e.records.zip e.children

/-- The nodes that the tick inside is passed. -/
def nodes (e : Execution J C T) : List (Node (Family J C T)) := e.pairs.map wrapper

/-- The turn is one of a child of the execution, and is tended as the turns before it
say. -/
def Tends (e : Execution J C T) (past : List (Turn (Family J C T))) (turn : Turn (Family J C T)) :
    Prop :=
  ∃ rec c, (rec, c) ∈ e.pairs ∧ turn.node = wrapper (rec, c) ∧
    Tended c (recorded past rec) turn.talk turn.ending

/-- So are these turns, one after another. -/
def Follows (e : Execution J C T) :
    List (Turn (Family J C T)) → List (Turn (Family J C T)) → Prop
  | _, [] => True
  | past, turn :: turns => e.Tends past turn ∧ e.Follows (past ++ [turn]) turns

/-- The records tell what has come of these turns. -/
structure Holds (e : Execution J C T) (turns : List (Turn (Family J C T)))
    (w : World (Family J C T) σ) : Prop where
  distinct : (e.pairs.map Prod.fst).Nodup
  made : ∀ rec ∈ e.pairs.map Prod.fst, w.heap.Made rec
  cell : ∀ rec ∈ e.pairs.map Prod.fst, w.heap.get rec = recorded turns rec

/-- The lock of the record of a child. -/
def Owns (e : Execution J C T) (lock : Lock) : Prop :=
  ∃ rec ∈ e.pairs.map Prod.fst, lock = rec.lock

end Execution

theorem recorded_append (turns turns' : List (Turn (Family J C T))) (rec : Ref .record) :
    recorded (turns ++ turns') rec = (recorded turns rec).or (recorded turns' rec) :=
  List.findSome?_append

theorem recorded_cons (turn : Turn (Family J C T)) (turns : List (Turn (Family J C T)))
    (rec : Ref .record) : recorded (turn :: turns) rec =
      (if turn.node.record? = some rec then finished turn.talk else none).or
        (recorded turns rec) := by
  unfold recorded
  rw [List.findSome?_cons]
  cases (if turn.node.record? = some rec then finished turn.talk else none) <;> rfl

theorem recorded_of_not_mem {turns : List (Turn (Family J C T))} {rec : Ref .record}
    (h : some rec ∉ turns.map (·.node.record?)) : recorded turns rec = none := by
  refine List.findSome?_eq_none_iff.mpr fun turn hturn => if_neg fun he => h ?_
  exact List.mem_map.mpr ⟨turn, hturn, he⟩

/-- What is recorded of a child after a turn of it. -/
theorem recorded_concat {turns : List (Turn (Family J C T))} {turn : Turn (Family J C T)}
    {rec : Ref .record} (hrec : turn.node.record? = some rec) :
    recorded (turns ++ [turn]) rec = (recorded turns rec).or (finished turn.talk) := by
  rw [recorded_append, recorded_cons, if_pos hrec]
  exact congrArg _ Option.or_none

/-- The one turn of a child among several. -/
theorem recorded_of_mem {turns : List (Turn (Family J C T))} {turn : Turn (Family J C T)}
    {rec : Ref .record} (hdistinct : (turns.map (·.node.record?)).Nodup) (hmem : turn ∈ turns)
    (hrec : turn.node.record? = some rec) : recorded turns rec = finished turn.talk := by
  induction turns with
  | nil => exact absurd hmem List.not_mem_nil
  | cons first turns ih =>
    obtain ⟨hfirst, hrest⟩ := List.nodup_cons.mp hdistinct
    rw [recorded_cons]
    rcases List.mem_cons.mp hmem with rfl | hmem
    · rw [if_pos hrec, recorded_of_not_mem (hrec ▸ hfirst), Option.or_none]
    · rw [if_neg, Option.none_or, ih hrest hmem]
      intro he
      exact hfirst (List.mem_map.mpr ⟨turn, hmem, hrec.trans he.symm⟩)

namespace Execution

variable {e : Execution J C T} {turns past new : List (Turn (Family J C T))} {rec : Ref .record}
  {c : C} {env : Environment (Family J C T) σ} {caller : Caller}
  {w w' : World (Family J C T) σ}

theorem follows_append {new new' : List (Turn (Family J C T))} :
    e.Follows turns (new ++ new') ↔ e.Follows turns new ∧ e.Follows (turns ++ new) new' := by
  induction new generalizing turns with
  | nil => simp [Follows]
  | cons first new ih =>
    rw [List.cons_append, Follows, Follows, ih, and_assoc, List.append_assoc, List.singleton_append]

/-- Turns of different children do not concern each other. -/
theorem follows_of_distinct (hdistinct : (new.map (·.node.record?)).Nodup)
    (h : ∀ turn ∈ new, e.Tends past turn) : e.Follows past new := by
  induction new generalizing past with
  | nil => trivial
  | cons turn new ih =>
    obtain ⟨hturn, hrest⟩ := List.nodup_cons.mp hdistinct
    refine ⟨h turn List.mem_cons_self, ih hrest fun turn' hmem => ?_⟩
    obtain ⟨rec, c, hpair, hnode, htended⟩ := h turn' (List.mem_cons_of_mem _ hmem)
    refine ⟨rec, c, hpair, hnode, ?_⟩
    have hother : recorded [turn] rec = none := by
      refine recorded_of_not_mem fun hsame => hturn ?_
      have hsame : some rec = turn.node.record? := List.mem_singleton.mp hsame
      exact List.mem_map.mpr ⟨turn', hmem, (congrArg Node.record? hnode).trans hsame⟩
    rw [recorded_append, hother, Option.or_none]
    exact htended

/-- A turn of a child by itself. -/
theorem Holds.turn (h : e.Holds turns w) (hpair : (rec, c) ∈ e.pairs)
    {turn : Turn (Family J C T)} (hnode : turn.node = wrapper (rec, c))
    (hturn : turn.Takes env caller w w') :
    e.Tends turns turn ∧ e.Holds (turns ++ [turn]) w' ∧ w.Within e.Owns w' := by
  obtain ⟨held, w₁, hspeaks, rfl⟩ := hturn
  rw [hnode] at hspeaks
  have hrec : rec ∈ e.pairs.map Prod.fst := List.mem_map.mpr ⟨_, hpair, rfl⟩
  have hsame : ∀ {w w' : World (Family J C T) σ}, w = w' → w.Within (· = rec.lock) w' := by
    rintro w _ rfl
    exact .refl _ w
  obtain ⟨hwithin, rfl⟩ : w.Within (· = rec.lock) w₁ ∧ held = [] :=
    hspeaks.within (Family.minds_memorized rec c) rfl hsame
  obtain ⟨-, htended, hmade, hget⟩ := Family.tended_of_speaks
    (fun he => he ▸ ⟨id, rfl⟩) (h.made rec hrec) (h.cell rec hrec) hspeaks
  rw [World.unlock_nil]
  refine ⟨⟨rec, c, hpair, hnode, htended⟩, ⟨h.distinct,
    fun rec' hrec' => hwithin.made (h.made rec' hrec'), fun rec' hrec' => ?_⟩,
    hwithin.mono fun _ hl => ⟨rec, hrec, hl⟩⟩
  have hrecord : turn.node.record? = some rec := congrArg Node.record? hnode
  by_cases he : rec' = rec
  · subst he
    rw [recorded_concat hrecord, hget]
  · rw [recorded_append, recorded_cons, hrecord,
      if_neg (fun hsome => he (Option.some.inj hsome).symm),
      hwithin.cell (fun hlock => he (Ref.lock_injective hlock)), h.cell rec' hrec']
    exact (Option.or_none).symm

/-- The lock of the record at a position. -/
def lockAt (us : List (Ref .record × C)) (p : Nat) : Lock :=
  (us[p]?.map (·.1.lock)).getD ⟨.record, 0⟩

theorem lockAt_of_getElem? {us : List (Ref .record × C)} {p : Nat} {u : Ref .record × C}
    (hp : us[p]? = some u) : lockAt us p = u.1.lock := by
  rw [lockAt, hp, Option.map_some, Option.getD_some]

theorem map_lockAt (callers : Nat → Caller) (us : List (Ref .record × C)) :
    (lanes callers (us.map wrapper) : List (Lane (Family J C T))).map
      (fun lane => lockAt us lane.position) = (us.map Prod.fst).map Ref.lock := by
  refine List.ext_getElem (by simp [lanes]) fun p hp hp' => ?_
  have hlt : p < us.length := by simpa using hp'
  simp [lanes, lockAt, hlt]

theorem mem_lanes {callers : Nat → Caller} {us : List (Ref .record × C)}
    {lane : Lane (Family J C T)} : lane ∈ lanes callers (us.map wrapper) ↔
      ∃ p u, us[p]? = some u ∧ lane = ⟨callers p, p, (wrapper u).call, []⟩ := by
  constructor
  · intro hmem
    obtain ⟨p, hp, rfl⟩ := List.mem_mapIdx.mp hmem
    have hlt : p < us.length := by simpa using hp
    exact ⟨p, us[p], List.getElem?_eq_getElem hlt, by rw [List.getElem_map]⟩
  · rintro ⟨p, u, hp, rfl⟩
    obtain ⟨hlt, rfl⟩ := List.getElem?_eq_some_iff.mp hp
    exact List.mem_mapIdx.mpr ⟨p, by simpa using hlt, by rw [List.getElem_map]⟩

/-- The turns of a round, one for each child in it. -/
theorem Holds.turns_round (h : e.Holds turns w) {us : List (Ref .record × C)}
    (hus : ∀ u ∈ us, u ∈ e.pairs) (hdistinct : (us.map Prod.fst).Nodup) {callers : Nat → Caller}
    {beats : List (Beat (Family J C T))} {reports : List Report}
    (hround : Interleaves env (lanes callers (us.map wrapper)) w beats reports w') :
    w.Within (· ∈ (us.map Prod.fst).map Ref.lock) w' ∧
      ∃ ending : Nat → Ending TickResult,
        (Event.round (us.map wrapper) beats).turns =
          us.mapIdx (fun p u => ⟨wrapper u, talkOf p beats, ending p⟩) ∧
        ∀ (p : Nat) (u : Ref .record × C), us[p]? = some u →
          Tended u.2 (recorded turns u.1) (talkOf p beats) (ending p) ∧
          w'.heap.get u.1 = (recorded turns u.1).or (finished (talkOf p beats)) ∧
          endingOf p beats = some (ending p) := by
  obtain ⟨hwithin, hlanes⟩ := hround.lane (lockAt us)
    (map_lockAt (J := J) (T := T) callers us ▸ hdistinct.map Ref.lock_injective) fun lane hmem => by
      obtain ⟨p, u, hp, rfl⟩ := mem_lanes.mp hmem
      rw [lockAt_of_getElem? hp]
      exact ⟨Family.minds_memorized u.1 u.2, rfl⟩
  rw [map_lockAt] at hwithin
  have hturn : ∀ p : Nat, ∃ ending, ∀ u : Ref .record × C, us[p]? = some u →
      Tended u.2 (recorded turns u.1) (talkOf p beats) ending ∧
        w'.heap.get u.1 = (recorded turns u.1).or (finished (talkOf p beats)) ∧
        endingOf p beats = some ending := by
    intro p
    cases hp : us[p]? with
    | none => exact ⟨.value (.ok .running), fun u hu => by cases hu⟩
    | some u =>
      have hu : u.1 ∈ e.pairs.map Prod.fst :=
        List.mem_map.mpr ⟨u, hus u (List.mem_of_getElem? hp), rfl⟩
      obtain ⟨ending, w₁, hending, hspeaks, hafter⟩ := hlanes _ (mem_lanes.mpr ⟨p, u, hp, rfl⟩)
      rw [lockAt_of_getElem? hp] at hspeaks hafter
      have hne : ¬ (u.1.lock ≠ u.1.lock) := fun hne => hne rfl
      obtain ⟨-, htended, -, hget⟩ := Family.tended_of_speaks (c := u.2)
        (fun hw => ⟨hw.made, hw.cell hne⟩) (h.made u.1 hu) (h.cell u.1 hu) hspeaks
      refine ⟨ending, fun u' hu' => ?_⟩
      cases hu'
      exact ⟨htended, (hafter.cell hne).trans hget, hending⟩
  choose ending hending using hturn
  refine ⟨hwithin, ending, ?_, hending⟩
  have hended : ∀ p < (us.map wrapper : List (Node (Family J C T))).length,
      endingOf p beats = some (ending p) := by
    intro p hp
    have hlt : p < us.length := by simpa using hp
    exact (hending p _ (List.getElem?_eq_getElem hlt)).2.2
  rw [Event.turns_round hended]
  exact List.ext_getElem (by simp) fun p hp hp' => by simp

/-- **A round of children ticked in parallel.** -/
theorem Holds.round (h : e.Holds turns w) {us : List (Ref .record × C)}
    (hus : ∀ u ∈ us, u ∈ e.pairs) (hdistinct : (us.map Prod.fst).Nodup) {callers : Nat → Caller}
    {beats : List (Beat (Family J C T))} {reports : List Report}
    (hround : Interleaves env (lanes callers (us.map wrapper)) w beats reports w') :
    e.Follows turns (Event.round (us.map wrapper) beats).turns ∧
      e.Holds (turns ++ (Event.round (us.map wrapper) beats).turns) w' ∧ w.Within e.Owns w' := by
  obtain ⟨hwithin, ending, hnew, hturn⟩ := h.turns_round hus hdistinct hround
  rw [hnew]
  generalize hturns : (us.mapIdx fun p u => ⟨wrapper u, talkOf p beats, ending p⟩ :
    List (Turn (Family J C T))) = new
  have hmem : ∀ {p : Nat} {u : Ref .record × C}, us[p]? = some u →
      ⟨wrapper u, talkOf p beats, ending p⟩ ∈ new := by
    intro p u hp
    obtain ⟨hlt, rfl⟩ := List.getElem?_eq_some_iff.mp hp
    rw [← hturns]
    exact List.mem_mapIdx.mpr ⟨p, hlt, rfl⟩
  have hrecords : new.map (·.node.record?) = (us.map Prod.fst).map some := by
    rw [← hturns]
    exact List.ext_getElem (by simp) fun p hp hp' => by simp [wrapper, Node.record?]
  have hdistinct' : (new.map (·.node.record?)).Nodup := by
    rw [hrecords]
    exact hdistinct.map fun _ _ => Option.some.inj
  have hrec : ∀ u ∈ us, u.1 ∈ e.pairs.map Prod.fst := fun u hu =>
    List.mem_map.mpr ⟨u, hus u hu, rfl⟩
  refine ⟨follows_of_distinct hdistinct' fun turn hin => ?_, ⟨h.distinct,
    fun rec hrec' => hwithin.made (h.made rec hrec'), fun rec hrec' => ?_⟩, hwithin.mono ?_⟩
  · rw [← hturns] at hin
    obtain ⟨p, hp, rfl⟩ := List.mem_mapIdx.mp hin
    have hp := List.getElem?_eq_getElem hp
    exact ⟨_, _, hus _ (List.mem_of_getElem? hp), rfl, (hturn p _ hp).1⟩
  · rw [recorded_append]
    by_cases hin : rec ∈ us.map Prod.fst
    · obtain ⟨u, hu, rfl⟩ := List.mem_map.mp hin
      obtain ⟨p, hp⟩ := List.getElem?_of_mem hu
      rw [(hturn p u hp).2.1, recorded_of_mem hdistinct' (hmem hp) rfl]
    · have hlock : rec.lock ∉ (us.map Prod.fst).map Ref.lock := fun hl => by
        obtain ⟨rec', hrec', he⟩ := List.mem_map.mp hl
        exact hin (Ref.lock_injective he ▸ hrec')
      have hnone : recorded new rec = none := by
        refine recorded_of_not_mem fun hs => hin ?_
        rw [hrecords] at hs
        exact (List.mem_map_of_injective fun _ _ => Option.some.inj).mp hs
      rw [hwithin.cell hlock, h.cell rec hrec', hnone]
      exact Option.or_none.symm
  · intro l hl
    obtain ⟨rec, hin, rfl⟩ := List.mem_map.mp hl
    obtain ⟨u, hu, rfl⟩ := List.mem_map.mp hin
    exact ⟨u.1, hrec u hu, rfl⟩

/-! ### Programs that tick one child at a time -/

theorem all_ticks_expand {node : Node (Family J C T)} (hnode : node ∈ e.nodes) :
    node.expand.All (·.Ticks e.nodes) := by
  obtain ⟨⟨rec, c⟩, -, rfl⟩ := List.mem_map.mp hnode
  refine .request trivial fun reply => .request trivial fun (recorded : Option TickResult) => ?_
  cases recorded with
  | none | some result => exact .pure

theorem all_ticks_routine (code : Routine (Family J C T) e.nodes.length) :
    (code.run e.nodes).All (·.Ticks e.nodes) := by
  induction code with
  | finish result => exact .pure
  | panic payload => exact .request trivial fun reply => nomatch reply
  | tick child next ih => exact .request (List.get_mem e.nodes child) ih
  | expand child next ih =>
    exact (all_ticks_expand (List.get_mem e.nodes child)).bind fun expansion => ih _ _
  | ask query next ih => exact .request trivial ih

theorem all_ticks_composite (kind : Composite) {nodes : List (Node (Family J C T))}
    (hsub : ∀ node ∈ nodes, node ∈ e.nodes) :
    ∀ index soFar, (kind.runFrom index soFar nodes).All (·.Ticks e.nodes) := by
  induction nodes with
  | nil => exact fun _ _ => .pure
  | cons node nodes ih =>
    have ih := ih fun node hmem => hsub node (List.mem_cons_of_mem _ hmem)
    intro index soFar
    refine .request (hsub node List.mem_cons_self) fun (result : TickResult) => ?_
    cases result with
    | error e => exact .pure
    | ok s =>
      change Prog.All _ (if kind.goesPast s then _ else _)
      split
      · exact ih _ _
      · exact .pure

/-- What a program does that ticks nodes of the execution one at a time. -/
theorem Holds.performs {p : Prog (Family J C T) α} {events : List (Event (Family J C T))}
    {ending : Ending α} {held held' : List Lock} (h : e.Holds turns w)
    (hall : p.All (·.Ticks e.nodes))
    (hperforms : p.Performs env caller held w events ending held' w') :
    held' = held ∧ e.Follows turns (events.flatMap Event.turns) ∧
      e.Holds (turns ++ events.flatMap Event.turns) w' ∧ w.Within e.Owns w' := by
  have hone : ∀ {node : Node (Family J C T)} {talk ending turns} {w w₁ : World (Family J C T) σ},
      node ∈ e.nodes → e.Holds turns w → Turn.Takes env caller ⟨node, talk, ending⟩ w w₁ →
      e.Tends turns ⟨node, talk, ending⟩ ∧ e.Holds (turns ++ [⟨node, talk, ending⟩]) w₁ ∧
        w.Within e.Owns w₁ := by
    intro node talk ending turns w w₁ hnode h hturn
    obtain ⟨⟨rec, c⟩, hpair, rfl⟩ := List.mem_map.mp hnode
    exact h.turn hpair rfl hturn
  induction hperforms generalizing turns with
  | pure => exact ⟨rfl, trivial, by simpa using h, .refl _ _⟩
  | @serve r next reply events _ held held₁ _ w w₁ w' hserve _ ih =>
    cases hall with
    | request hr hnext =>
    have hstep : w₁.heap = w.heap ∧ w₁.locked = w.locked ∧ held₁ = held := by
      cases r with
      | ask query => exact World.heap_of_ask hserve
      | read kind ref =>
        cases hserve
        exact ⟨rfl, rfl, rfl⟩
      | panic => cases hserve
      | tick => cases hserve
      | _ => exact hr.elim
    obtain ⟨hheap, hlocked, rfl⟩ := hstep
    have h₁ : e.Holds turns w₁ := ⟨h.distinct, fun rec hrec => hheap ▸ h.made rec hrec,
      fun rec hrec => hheap ▸ h.cell rec hrec⟩
    have hsilent : ((r.said reply).map Event.said).flatMap Event.turns =
        ([] : List (Turn (Family J C T))) := by
      rw [List.flatMap_map]
      exact List.flatMap_eq_nil_iff.mpr fun _ _ => rfl
    obtain ⟨rfl, hfollows, hholds, hwithin⟩ := ih h₁ (hnext reply)
    rw [List.flatMap_append, hsilent, List.nil_append]
    have hstep : w.Within e.Owns w₁ := ⟨fun hmade => hheap ▸ hmade, fun _ => hheap ▸ rfl, hlocked⟩
    exact ⟨rfl, hfollows, hholds, hstep.trans hwithin⟩
  | tick hturn _ ih =>
    cases hall with
    | request hr hnext =>
    obtain ⟨htends, h₁, hfirst⟩ := hone hr h hturn
    obtain ⟨rfl, hfollows, hholds, hwithin⟩ := ih h₁ (hnext _)
    rw [List.flatMap_cons]
    refine ⟨rfl, ⟨htends, hfollows⟩, ?_, hfirst.trans hwithin⟩
    rw [List.append_assoc] at hholds
    exact hholds
  | tickPanic hturn =>
    cases hall with
    | request hr hnext =>
    obtain ⟨htends, h₁, hfirst⟩ := hone hr h hturn
    exact ⟨rfl, ⟨htends, trivial⟩, h₁, hfirst⟩
  | parallel =>
    cases hall with
    | request hr _ => exact hr.elim
  | panic => exact ⟨rfl, trivial, by simpa using h, .refl _ _⟩

end Execution

end Memorize

end TickTree
