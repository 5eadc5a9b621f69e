/-
# A fork in executions

A fork that is memorized does what it does by itself. While a child is among those that a
cycle goes on with, it has not finished, so there is nothing in its record to answer
instead; and once it has finished, or died, the fork does not tick it again before the
cycle is over, and then the execution is over too. So the records are filled and never
read.

The two are put side by side: in a round a child with an empty record does what it does
without (`Memorize.alike_child`), and from call to call both are between two cycles, or
in the same cycle over the same children (`Memorize.InStep`).

Key definitions: `Memorize.unfilled`, `Fork.Plays`, `Memorize.Execution.Pending`,
`Memorize.InStep`.
Key theorems: `Fork.performs_run_iff`, `Memorize.unfilled_round`,
`Memorize.Execution.Pending.reported`, `Memorize.InStep.opens`, `Memorize.InStep.call`,
`Memorize.transparent_law`.
-/
import TickTree.Proofs.Alongside
import TickTree.Proofs.Memorizing
import TickTree.Proofs.Overriding
import Mathlib.Data.List.ReduceOption

namespace TickTree

variable {J : Interface} {C T σ : Type}

/-! ### Children with and without records -/

/-- What a child does. -/
theorem Family.call_node (c : C) : (node c : Node (Family J C T)).call =
    .request (.ask (.expand c)) fun reply =>
      match reply.1 with
      | none => .pure (.error .missingTick)
      | some t => call c t := by
  change Prog.request _ _ = _
  congr 1
  funext (reply : Option T × Nat)
  obtain ⟨t?, n⟩ := reply
  cases t? with
  | none => rfl
  | some t => exact run_tick c t _

/-- A child changes no cell. -/
theorem Family.minds_node (lock : Lock) (c : C) :
    (node c : Node (Family J C T)).call.All (·.Minds lock) := by
  rw [call_node]
  refine .request trivial fun (reply : Option T × Nat) => ?_
  obtain ⟨t?, n⟩ := reply
  cases t? with
  | none => exact .pure
  | some t =>
    refine .request trivial fun (outcome : Outcome) => ?_
    cases outcome with
    | returned result => exact .pure
    | panicked payload => exact .request trivial fun e => nomatch e

namespace Memorize

/-- The second of the two worlds has records of its own. Those that are known of the lanes
are empty, and no two lanes have the same. -/
def unfilled (J : Interface) (C T σ : Type) :
    Likeness (Family J C T) σ (Option (Ref .record)) where
  Alike ks w w' := w'.outside = w.outside ∧ ks.reduceOption.Nodup ∧
    ∀ rec ∈ ks.reduceOption, w'.heap.get rec = (none : Option TickResult)
  rest := none
  rests := Iff.rfl
  perm hperm h := by
    have hrecs := hperm.filterMap (fun rec : Option (Ref .record) => rec)
    exact ⟨h.1, hrecs.nodup_iff.mp h.2.1, fun rec hrec => h.2.2 rec (hrecs.mem_iff.mpr hrec)⟩
  outside h := h.1
  leave h _ _ := ⟨rfl, h.2⟩

section

variable {env : Environment (Family J C T) σ} {rec : Ref .record}

/-- An empty record is looked at, which is not seen. -/
theorem unseen_read : (unfilled J C T σ).flip.Unseen env (some rec) (.read .record rec)
    fun k x => k = some rec ∧ x = (none : Option TickResult) := by
  refine ⟨rfl, fun caller held {ks w w'} hw => ?_⟩
  exact ⟨w.heap.get rec, w, some rec, rfl, rfl, ⟨rfl, hw.2.2 rec List.mem_cons_self⟩, hw⟩

/-- A record is filled, and no more is known of it. -/
theorem unseen_fill (result : TickResult) :
    (unfilled J C T σ).flip.Unseen env (some rec) (.swap .record rec (some result))
      fun k _ => k = none := by
  refine ⟨rfl, fun caller held {ks w w'} hw => ?_⟩
  obtain ⟨houtside, hnodup, hempty⟩ := hw
  obtain ⟨hrec, hnodup⟩ := List.nodup_cons.mp hnodup
  refine ⟨_, _, none, rfl, rfl, rfl, houtside, hnodup, fun other hother => ?_⟩
  have hne : rec ≠ other := fun he => hrec (he ▸ hother)
  exact (Heap.get_set_ne hne _).trans (hempty other (List.mem_cons_of_mem _ hother))

/-- **A child with an empty record** does what it does without. -/
theorem alike_child {N} (rec : Ref .record) (c : C) :
    (Family.node c).call.Alike (unfilled J C T σ) env N (unfilled J C T σ).Ends (some rec)
      (Node.memorized rec (Family.node c)).call := by
  have hrest : ∀ {ks} {w w' : World (Family J C T) σ},
      (unfilled J C T σ).Alike (some rec :: ks) w w' → (unfilled J C T σ).Alike (none :: ks) w w' :=
    fun h => ⟨h.1, (List.nodup_cons.mp h.2.1).2, fun other hother =>
      h.2.2 other (List.mem_cons_of_mem _ hother)⟩
  rw [Family.call_node, Family.call_memorized]
  refine .both (Likeness.serves_ask _ env _ _) fun k _ (reply : Option T × Nat) he => ?_
  obtain ⟨rfl, rfl⟩ := he
  refine .right unseen_read fun k recorded he => ?_
  obtain ⟨rfl, rfl⟩ := he
  obtain ⟨t?, n⟩ := reply
  cases t? with
  | none => exact .forget hrest (.pure ⟨rfl, rfl⟩)
  | some t =>
    refine .both (Likeness.serves_ask _ env _ _) fun k _ (outcome : Outcome) he => ?_
    obtain ⟨rfl, rfl⟩ := he
    cases outcome with
    | panicked payload => exact .forget hrest .panic
    | returned result =>
      change Prog.Alike _ _ _ _ _ (.pure result) (if !result.isRunning then _ else _)
      split
      · refine .right (unseen_fill result) fun k _ he => ?_
        subst he
        exact .pure ⟨rfl, rfl⟩
      · exact .forget hrest (.pure ⟨rfl, rfl⟩)

variable {us : List (Ref .record × C)} {callers : Nat → Caller}
  {w w₁ w' w₁' : World (Family J C T) σ} {beats : List (Beat (Family J C T))}
  {reports : List Report}

/-- **A round of children with empty records**, and without. -/
theorem unfilled_round (hdistinct : (us.map Prod.fst).Nodup)
    (hempty : ∀ u ∈ us, w'.heap.get u.1 = (none : Option TickResult))
    (houtside : w'.outside = w.outside) :
    (∀ {w₁}, Interleaves env (lanes callers (us.map fun u => Family.node u.2)) w beats reports w₁ →
      ∃ w₁', Interleaves env (lanes callers (us.map wrapper)) w' beats reports w₁' ∧
        w₁'.outside = w₁.outside) ∧
    ∀ {w₁'}, Interleaves env (lanes callers (us.map wrapper)) w' beats reports w₁' →
      ∃ w₁, Interleaves env (lanes callers (us.map fun u => Family.node u.2)) w beats reports w₁ ∧
        w₁'.outside = w₁.outside := by
  have hknown : (us.map fun u => some u.1).reduceOption = us.map Prod.fst := by
    unfold List.reduceOption
    rw [List.filterMap_map, ← List.filterMap_eq_map]
    rfl
  have hw : (unfilled J C T σ).Alike (us.map fun u => some u.1) w w' := by
    refine ⟨houtside, hknown.symm ▸ hdistinct, fun rec hrec => ?_⟩
    rw [hknown] at hrec
    obtain ⟨u, hu, rfl⟩ := List.mem_map.mp hrec
    exact hempty u hu
  constructor
  · intro w₁ h
    obtain ⟨w₁', hround, hw₁⟩ := Likeness.interleaves _ wrapper (fun u => some u.1)
      (fun u _ => alike_child u.1 u.2) hw h
    exact ⟨w₁', hround, hw₁.1⟩
  · intro w₁' h
    obtain ⟨w₁, hround, hw₁⟩ := Likeness.interleaves (L := (unfilled J C T σ).flip) wrapper
      (fun u => Family.node u.2) (fun u => some u.1)
      (fun u _ => (alike_child u.1 u.2).flip_lane) hw h
    exact ⟨w₁, hround, hw₁.1⟩

end

/-- The children of a round change nothing but the world outside. -/
theorem within_round {us : List (Ref .record × C)} {callers : Nat → Caller}
    {env : Environment (Family J C T) σ} {w w₁ : World (Family J C T) σ}
    {beats : List (Beat (Family J C T))} {reports : List Report}
    (h : Interleaves env (lanes callers (us.map fun u => Family.node u.2)) w beats reports w₁) :
    w.Within (·.kind = .record) w₁ := by
  have hmap : (lanes callers (us.map fun u => Family.node u.2) : List (Lane (Family J C T))).map
      (fun lane => (⟨lane.position⟩ : Ref .record).lock) =
        (List.range us.length).map fun p => (⟨p⟩ : Ref .record).lock :=
    List.ext_getElem (by simp [lanes]) fun p hp hp' => by simp [lanes]
  obtain ⟨hwithin, -⟩ := h.lane (fun p => (⟨p⟩ : Ref .record).lock) (by
    rw [hmap]
    refine List.nodup_range.map fun p p' he => ?_
    injection Ref.lock_injective he) fun lane hlane => by
      obtain ⟨p, hp, rfl⟩ := List.mem_mapIdx.mp hlane
      rw [List.getElem_map]
      exact ⟨Family.minds_node _ _, rfl⟩
  refine hwithin.mono fun lock hlock => ?_
  obtain ⟨lane, -, rfl⟩ := List.mem_map.mp hlock
  rfl

end Memorize

/-! ### A call of a fork -/

/-- Of each lane there is the end that it has reported. -/
theorem Interleaves.endingOf_report {I : Interface} {env : Environment I σ} {ls : List (Lane I)}
    {w w' : World I σ} {beats : List (Beat I)} {reports : List Report}
    (h : Interleaves env ls w beats reports w') (hdistinct : (ls.map (·.position)).Nodup) :
    ∀ report ∈ reports, endingOf report.position beats = some (.value report.result) := by
  induction h with
  | none => exact fun _ hmem => absurd hmem List.not_mem_nil
  | serve _ _ _ ih =>
    intro report hmem
    rw [endingOf_said]
    exact ih (by simpa using hdistinct) report hmem
  | @ends before after lane ending beats reports w w' _ hrest ih =>
    have hperm := (@List.perm_middle _ lane before after).map (·.position)
    obtain ⟨hnot, hnodup⟩ := List.nodup_cons.mp (hperm.nodup_iff.mp hdistinct)
    intro report hmem
    rcases List.mem_append.mp hmem with hmem | hmem
    · cases ending with
      | panic payload => cases hmem
      | value result =>
        obtain rfl := List.mem_singleton.mp hmem
        simp [endingOf]
    · have hposition : report.position ∈ (before ++ after).map (·.position) :=
        hrest.subperm.subset (List.mem_map.mpr ⟨report, hmem, rfl⟩)
      have hne : lane.position ≠ report.position := fun he =>
        hnot (show lane.position ∈ _ from he ▸ hposition)
      rw [endingOf_ended_ne hne]
      exact ih hnodup report hmem

namespace Fork

variable {I : Interface} {ref : Ref .round} {env : Environment I σ} {caller : Caller}
  {held held' : List Lock} {w w' : World I σ} {events : List (Event I)} {ending : Ending TickResult}

/-- The round of a call that has put this cycle in place, and the cycle after it. There is
no round if nobody goes on. -/
inductive Plays (env : Environment I σ) (ref : Ref .round) (cycle : Round I) (w : World I σ) :
    List (Event I) → Round I → World I σ → Prop
  | nobody : cycle.remaining = [] → Plays env ref cycle w [] (ticking cycle) (started ref cycle w)
  | round {callers beats reports w₁} : cycle.remaining ≠ [] →
      Interleaves env (lanes callers cycle.remaining) (started ref cycle w) beats reports w₁ →
      Plays env ref cycle w [.round cycle.remaining beats]
        ((ticking cycle).absorb cycle.remaining reports) w₁

/-- The world when the cycle has ended so, and the call with it. -/
def settled (ref : Ref .round) (ended : Round I) (w : World I σ) : World I σ :=
  { w with heap := w.heap.set ref ended.next }.unlock [ref.lock]

/-- A call plays a round, and settles what came of it. -/
theorem performs_run_iff {children : List (Node I)} {cycle : Round I} (hfree : ref.lock ∉ w.locked)
    (hbegin : (w.heap.get ref : Round I).begin children = cycle) :
    (run ref children).Performs env caller held w events ending held' w' ↔
      ∃ ended w₁, Plays env ref cycle w events ended w₁ ∧ ending = .value ended.verdict ∧
        held' = (ref.lock :: held).filter (· != ref.lock) ∧ w' = settled ref ended w₁ := by
  constructor
  · intro h
    obtain ⟨ended, w₁, hround, hend⟩ := performs_run hfree hbegin h
    by_cases hover : cycle.remaining = []
    · rw [if_pos hover] at hround
      obtain ⟨rfl, rfl, rfl⟩ := hround
      exact ⟨_, _, .nobody hover, hend⟩
    · rw [if_neg hover] at hround
      obtain ⟨callers, beats, reports, rfl, hround, rfl⟩ := hround
      exact ⟨_, _, .round hover hround, hend⟩
  · rintro ⟨ended, w₁, hplays, rfl, rfl, rfl⟩
    subst hbegin
    have hsettle : (Prog.request (.swap .round ref ended.next) fun _ =>
        .request (.release .round ref) fun _ => .pure ended.verdict).Performs env caller
          (ref.lock :: held) w₁ [] (.value ended.verdict)
          ((ref.lock :: held).filter (· != ref.lock)) (settled ref ended w₁) :=
      .serve rfl (.serve rfl .pure)
    unfold run
    refine .serve (World.serve_acquire hfree) (.serve rfl (.serve rfl ?_))
    cases hplays with
    | nobody hover =>
      rw [if_pos (List.isEmpty_iff.mpr hover)]
      exact hsettle
    | round hover hround =>
      rw [if_neg (by simpa using hover)]
      exact .parallel hround hsettle

theorem call_iff {env : Environment (Family J C T) σ} {w w' : World (Family J C T) σ}
    {children : List C} {events : List (Event (Family J C T))} {cycle : Round (Family J C T)}
    (hfree : ref.lock ∉ w.locked)
    (hbegin : (w.heap.get ref : Round (Family J C T)).begin (children.map Family.node) = cycle) :
    Family.Call env caller (.fork ref) children w events ending w' ↔
      ∃ ended w₁, Plays env ref cycle w events ended w₁ ∧ ending = .value ended.verdict ∧
        w' = settled ref ended w₁ := by
  have hheld : [ref.lock].filter (· != ref.lock) = [] := by simp
  constructor
  · rintro ⟨held, _, hcall, rfl⟩
    obtain ⟨ended, w₁, hplays, hending, rfl, rfl⟩ := (performs_run_iff hfree hbegin).mp hcall
    rw [hheld, World.unlock_nil]
    exact ⟨ended, w₁, hplays, hending, rfl⟩
  · rintro ⟨ended, w₁, hplays, rfl, rfl⟩
    refine ⟨_, _, (performs_run_iff hfree hbegin).mpr ⟨ended, w₁, hplays, rfl, rfl, rfl⟩, ?_⟩
    rw [hheld, World.unlock_nil]

end Fork

/-! ### A cycle in an execution -/

/-- A child that answers running has not finished. -/
theorem Tended.unfinished {c : C} {talk : List (Said (Family J C T))}
    (h : Tended c none talk (.value (.ok .running))) : finished talk = none := by
  generalize he : (Ending.value (.ok .running) : Ending TickResult) = ending at h
  generalize hr : (none : Option TickResult) = recorded at h
  cases h with
  | replays => cases hr
  | absent => cases he
  | @runs t n outcome =>
    cases outcome with
    | panicked => cases he
    | returned result =>
      cases he
      exact finished_called c t (some t, n) (.ok .running)

theorem getElem?_filterMap {α β : Type} {f : α → Option β} {l : List α}
    (h : ∀ a ∈ l, (f a).isSome) (p : Nat) : (l.filterMap f)[p]? = l[p]?.bind f := by
  induction l generalizing p with
  | nil => rfl
  | cons a l ih =>
    obtain ⟨ha, hl⟩ := List.forall_mem_cons.mp h
    obtain ⟨b, hb⟩ := Option.isSome_iff_exists.mp ha
    rw [List.filterMap_cons_some hb]
    cases p with
    | zero => simp [hb]
    | succ p => exact ih hl p

theorem Fork.Note.errors_congr {I : Interface} {ticked ticked' : List (Node I)}
    (h : ticked.length = ticked'.length) (reports : List Report) :
    Note.errors ⟨ticked, reports⟩ = Note.errors ⟨ticked', reports⟩ := by
  unfold Note.errors
  rw [h]

namespace Memorize.Execution

variable {x : Execution J C T} {turns : List (Turn (Family J C T))}
  {numbers : List Nat} {errors : List TickError} {failed : Bool} {r r' : Ref .round}
  {env : Environment (Family J C T) σ} {w w₁ w' w₁' : World (Family J C T) σ}
  {events events' : List (Event (Family J C T))} {ended ended' : Round (Family J C T)}

/-- These children of the execution have empty records, and may go on. -/
structure Pending (x : Execution J C T) (numbers : List Nat) (w : World (Family J C T) σ) :
    Prop where
  paired : x.records.length = x.children.length
  distinct : numbers.Nodup
  lt : ∀ n ∈ numbers, n < x.nodes.length
  empty : ∀ u : Ref .record × C, u ∈ numbers.filterMap (x.pairs[·]?) →
    w.heap.get u.1 = (none : Option TickResult)

theorem Pending.of_records (h : x.Pending numbers w)
    (hget : ∀ rec : Ref .record, w'.heap.get rec = w.heap.get rec) : x.Pending numbers w' :=
  ⟨h.paired, h.distinct, h.lt, fun u hu => (hget u.1).trans (h.empty u hu)⟩

theorem Holds.of_records (h : x.Holds turns w)
    (hmade : ∀ rec : Ref .record, w.heap.Made rec → w'.heap.Made rec)
    (hget : ∀ rec : Ref .record, w'.heap.get rec = w.heap.get rec) : x.Holds turns w' :=
  ⟨h.distinct, fun rec hrec => hmade rec (h.made rec hrec),
    fun rec hrec => (hget rec).trans (h.cell rec hrec)⟩

theorem length_nodes (x : Execution J C T) : x.nodes.length = x.pairs.length := List.length_map _

/-- The children are those with records, without them. -/
theorem map_children (hpaired : x.records.length = x.children.length) :
    x.children.map (Family.node : C → Node (Family J C T)) =
      x.pairs.map fun u => Family.node u.2 := by
  have hsnd : x.pairs.map Prod.snd = x.children := List.map_snd_zip (Nat.le_of_eq hpaired.symm)
  rw [← hsnd, List.map_map]
  rfl

theorem length_children (hpaired : x.records.length = x.children.length) :
    (x.children.map (Family.node : C → Node (Family J C T))).length = x.nodes.length := by
  rw [map_children hpaired, List.length_map, x.length_nodes]

theorem Pending.lt_children (h : x.Pending numbers w) : ∀ n ∈ numbers,
    n < (x.children.map (Family.node : C → Node (Family J C T))).length :=
  fun n hn => length_children h.paired ▸ h.lt n hn

theorem pick_children (hpaired : x.records.length = x.children.length) (numbers : List Nat) :
    Fork.pick (x.children.map (Family.node : C → Node (Family J C T))) numbers =
      (numbers.filterMap (x.pairs[·]?)).map fun u => Family.node u.2 := by
  unfold Fork.pick
  rw [map_children hpaired, List.map_filterMap]
  exact List.filterMap_congr fun child _ => List.getElem?_map

/-- What a fork by itself, and the same in the execution, have come to after a round: both go
on with the same children, which have empty records. -/
structure Agrees (x : Execution J C T) (w₀ w₁ w₁' : World (Family J C T) σ)
    (events events' : List (Event (Family J C T))) (ended ended' : Round (Family J C T)) :
    Prop where
  seen : events'.map Event.bare = events.map Event.bare
  outside : w₁'.outside = w₁.outside
  within : w₀.Within (·.kind = .record) w₁
  cycle : ∃ numbers errors failed,
    ended = Fork.underWay (x.children.map Family.node) numbers errors failed ∧
    ended' = Fork.underWay x.nodes numbers errors failed ∧ x.Pending numbers w₁'

/-- After a round those children may go on that have reported running: they have not
finished, so their records are empty. -/
theorem Pending.reported (hp : x.Pending numbers w') (h : x.Holds turns w')
    {callers : Nat → Caller} {beats : List (Beat (Family J C T))} {reports : List Report}
    (harrive : Arrivals numbers.length reports)
    (hround' : Interleaves env (lanes callers (Fork.pick x.nodes numbers)) w' beats reports w₁') :
    x.Pending (Fork.waiting (Fork.byChild numbers reports)) w₁' := by
  rw [x.pick_nodes] at hround'
  generalize hus : numbers.filterMap (x.pairs[·]?) = us at hround'
  have hmem : ∀ u ∈ us, u ∈ x.pairs := by
    intro u hu
    obtain ⟨n, -, hn⟩ := List.mem_filterMap.mp (hus ▸ hu)
    exact List.mem_of_getElem? hn
  have hdistinct : (us.map Prod.fst).Nodup := hus ▸ nodup_picked h.distinct hp.distinct
  have hpositions : ((lanes callers (us.map wrapper) : List (Lane (Family J C T))).map
      (·.position)).Nodup := by
    rw [map_position_lanes]
    exact List.nodup_range
  obtain ⟨-, ending, -, hturn⟩ := h.turns_round hmem hdistinct hround'
  refine ⟨hp.paired, Fork.nodup_waiting hp.distinct harrive, fun n hn => ?_, fun u hu => ?_⟩
  · obtain ⟨report, -, hn, -⟩ := Fork.mem_byChild.mp (Fork.mem_waiting.mp hn)
    exact hp.lt n (List.mem_of_getElem? hn)
  · obtain ⟨n, hn, hu⟩ := List.mem_filterMap.mp hu
    obtain ⟨report, hreport, hn, hresult⟩ := Fork.mem_byChild.mp (Fork.mem_waiting.mp hn)
    have hsome : ∀ n ∈ numbers, (x.pairs[n]?).isSome := fun n hn => by
      simpa [x.length_nodes] using hp.lt n hn
    have hposition : us[report.position]? = some u := by
      rw [← hus, getElem?_filterMap hsome, hn]
      exact hu
    obtain ⟨htended, hget, hended⟩ := hturn _ u hposition
    have hempty : recorded turns u.1 = none := by
      have hu := List.mem_of_getElem? hposition
      rw [← h.cell u.1 (List.mem_map.mpr ⟨u, hmem u hu, rfl⟩)]
      exact hp.empty u (hus ▸ hu)
    rw [hround'.endingOf_report hpositions report hreport, hresult] at hended
    rw [hempty, ← Option.some.inj hended] at htended
    rw [hget, hempty, htended.unfinished]
    rfl

/-- A round without records and with them, if they go on in the same way. -/
theorem Pending.agrees (hp : x.Pending numbers w') (h : x.Holds turns w')
    {callers : Nat → Caller} {beats : List (Beat (Family J C T))} {reports : List Report}
    (hround : Interleaves env (lanes callers (Fork.pick (x.children.map Family.node) numbers)) w
      beats reports w₁)
    (hround' : Interleaves env (lanes callers (Fork.pick x.nodes numbers)) w' beats reports w₁')
    (houtside : w₁'.outside = w₁.outside) :
    x.Agrees w w₁ w₁' [.round (Fork.pick (x.children.map Family.node) numbers) beats]
      [.round (Fork.pick x.nodes numbers) beats]
      ((Fork.underWay (x.children.map Family.node) [] errors failed).absorb
        (Fork.pick (x.children.map Family.node) numbers) reports)
      ((Fork.underWay x.nodes [] errors failed).absorb (Fork.pick x.nodes numbers) reports) := by
  have hlt := hp.lt_children
  have harrive := hround'.arrivals
  rw [Fork.length_pick hp.lt] at harrive
  rw [Fork.absorb_underWay hlt harrive.known, Fork.absorb_underWay hp.lt harrive.known,
    Fork.Note.errors_congr ((Fork.length_pick hlt).trans (Fork.length_pick hp.lt).symm)]
  have hreported := hp.reported h harrive hround'
  rw [pick_children hp.paired] at hround ⊢
  refine ⟨?_, houtside, within_round hround, _, _, _, rfl, rfl, hreported⟩
  rw [x.pick_nodes, List.map_singleton, List.map_singleton, Event.bare, Event.bare, List.map_map,
    List.map_map]
  rfl

/-- **A round of a fork** by itself, and of the same in the execution. -/
theorem Pending.plays (hp : x.Pending numbers w') (r r' : Ref .round)
    (env : Environment (Family J C T) σ) (h : x.Holds turns w') (houtside : w'.outside = w.outside)
    {cycle cycle' : Round (Family J C T)}
    (hcycle : cycle = Fork.underWay (x.children.map Family.node) numbers errors failed)
    (hcycle' : cycle' = Fork.underWay x.nodes numbers errors failed) :
    (∀ {events ended w₁}, Fork.Plays env r cycle w events ended w₁ →
      ∃ events' ended' w₁', Fork.Plays env r' cycle' w' events' ended' w₁' ∧
        x.Agrees (Fork.started r cycle w) w₁ w₁' events events' ended ended') ∧
    ∀ {events' ended' w₁'}, Fork.Plays env r' cycle' w' events' ended' w₁' →
      ∃ events ended w₁, Fork.Plays env r cycle w events ended w₁ ∧
        x.Agrees (Fork.started r cycle w) w₁ w₁' events events' ended ended' := by
  have hrecords : ∀ rec : Ref .record, (Fork.started r' cycle' w').heap.get rec =
      w'.heap.get rec := fun rec => Heap.get_set_kind (by decide) r' rec _
  have hp' := hp.of_records hrecords
  have h' := h.of_records (fun _ => (Heap.made_set _).mpr) hrecords
  have hpick : cycle.remaining =
      (numbers.filterMap (x.pairs[·]?)).map fun u => Family.node u.2 := by
    rw [hcycle]
    exact pick_children hp.paired numbers
  have hpick' : cycle'.remaining = (numbers.filterMap (x.pairs[·]?)).map wrapper := by
    rw [hcycle']
    exact x.pick_nodes numbers
  have hnone : cycle.remaining = [] ↔ cycle'.remaining = [] := by
    rw [hpick, hpick', List.map_eq_nil_iff, List.map_eq_nil_iff]
  have hround := fun {callers beats reports} => @unfilled_round J C T σ env _ callers
    (Fork.started r cycle w) (Fork.started r' cycle' w') beats reports
    (nodup_picked h.distinct hp.distinct) hp'.empty houtside
  rw [← hpick, ← hpick'] at hround
  have hover : x.Agrees (Fork.started r cycle w) (Fork.started r cycle w)
      (Fork.started r' cycle' w') [] [] (Fork.ticking cycle) (Fork.ticking cycle') := by
    refine ⟨rfl, houtside, .refl _ _, [], errors, failed, ?_, ?_, hp.paired, .nil, nofun, nofun⟩
    · rw [hcycle]
      rfl
    · rw [hcycle']
      rfl
  subst hcycle hcycle'
  constructor
  · rintro _ _ _ (hnobody | ⟨hsome, hleft⟩)
    · exact ⟨_, _, _, .nobody (hnone.mp hnobody), hover⟩
    · obtain ⟨w₁', hright, hw₁⟩ := hround.1 hleft
      exact ⟨_, _, w₁', .round (mt hnone.mpr hsome) hright, hp'.agrees h' hleft hright hw₁⟩
  · rintro _ _ _ (hnobody | ⟨hsome, hright⟩)
    · exact ⟨_, _, _, .nobody (hnone.mpr hnobody), hover⟩
    · obtain ⟨w₁, hleft, hw₁⟩ := hround.2 hright
      exact ⟨_, _, w₁, .round (mt hnone.mp hsome) hleft, hp'.agrees h' hleft hright hw₁⟩

end Memorize.Execution

/-! ### Between calls -/

/-- A program that keeps to its cells leaves the world outside alone. -/
theorem Prog.Evaluates.outside_of_silent {I : Interface} {α : Type} {env : Environment I σ}
    {caller : Caller} {joins : Joins I σ} {p : Prog I α} {held held' : List Lock}
    {w w' : World I σ} {ending : Ending α} (hall : p.All (·.isSilent))
    (h : p.Evaluates env caller joins held w ending held' w') : w'.outside = w.outside := by
  induction h with
  | pure | panic => rfl
  | @serve _ r _ _ _ _ _ _ w w₁ _ hserve _ ih =>
    cases hall with
    | request hr hnext =>
    refine (ih (hnext _)).trans ?_
    cases r with
    | acquire kind ref =>
      obtain ⟨-, -, rfl⟩ := World.serve_acquire_iff.mp hserve
      rfl
    | read | swap | alloc | release =>
      cases hserve
      rfl
    | _ => cases hr
  | tick | tickPanic | parallel =>
    cases hall with
    | request hr => cases hr

namespace Memorize

variable {r r' : Ref .round} {e : Ref .execution} {open? : Option (Execution J C T)}
  {env : Environment (Family J C T) σ} {caller : Caller} {w w₁ w' w₁' : World (Family J C T) σ}

/-- The fork by itself and the one in executions are both between two cycles, or both in
the same cycle, over the children of the execution that is open. -/
def Together (open? : Option (Execution J C T)) (r r' : Ref .round)
    (w w' : World (Family J C T) σ) : Prop :=
  match open? with
  | none => w.heap.get r = (Round.between : Round (Family J C T))
  | some x => ∃ numbers errors failed,
    w.heap.get r = Fork.underWay (x.children.map Family.node) numbers errors failed ∧
    w'.heap.get r' = Fork.underWay x.nodes numbers errors failed ∧ x.Pending numbers w'

/-- A fork by itself in the first world, and a memorized one in the second, between two
calls. -/
structure InStep (r : Ref .round) (e : Ref .execution) (r' : Ref .round)
    (open? : Option (Execution J C T)) (w w' : World (Family J C T) σ) : Prop where
  made : w.heap.Made r
  unlocked : r.lock ∉ w.locked
  outside : w'.outside = w.outside
  rest : AtRest e (.fork r') open? w'
  cycle : Together open? r r' w w'

namespace InStep

/-- A call of either begins with the same children. -/
theorem opens (h : InStep r e r' open? w w') (env : Environment (Family J C T) σ) (caller : Caller)
    (joins : Joins (Family J C T) σ) (children : List C) :
    ∃ (x : Execution J C T) (v' : World (Family J C T) σ) (numbers : List Nat)
      (errors : List TickError) (failed : Bool), AtWork e (.fork r') x v' ∧
      (execution e (children.map Family.node)).Evaluates env caller joins [e.lock] (w'.hold e.lock)
        (.value x.nodes) [e.lock] v' ∧
      (w.heap.get r : Round (Family J C T)).begin (children.map Family.node) =
        Fork.underWay (x.children.map Family.node) numbers errors failed ∧
      (v'.heap.get r' : Round (Family J C T)).begin x.nodes =
        Fork.underWay x.nodes numbers errors failed ∧
      x.Pending numbers v' ∧ v'.outside = w.outside := by
  obtain ⟨x, v', hbegins, hwork, hexec⟩ := h.rest.opens env caller joins children
  have hall := all_execution e (children.map (Family.node : C → Node (Family J C T)))
  have hwithin := hexec.within (hall.mono fun _ h => h.2)
  have houtside : v'.outside = w.outside :=
    (hexec.outside_of_silent (hall.mono fun _ h => h.1)).trans h.outside
  have hround : v'.heap.get r' = w'.heap.get r' := hwithin.cell (Ref.lock_ne (by decide) r' e)
  have hcycle := h.cycle
  cases open? with
  | none =>
    obtain ⟨rfl, hturns, hlength, -, -⟩ := hbegins
    refine ⟨x, v', List.range x.nodes.length, [], false, hwork, hexec, ?_, ?_, ⟨hlength,
      List.nodup_range, fun n => List.mem_range.mp, fun u hu => ?_⟩, houtside⟩
    · rw [hcycle, ← Execution.length_children hlength]
      exact Fork.begin_between _
    · rw [hround, (h.rest.rounds r' rfl).2.2]
      exact Fork.begin_between _
    · obtain ⟨n, -, hn⟩ := List.mem_filterMap.mp hu
      rw [hwork.holds.cell u.1 (List.mem_map.mpr ⟨u, List.mem_of_getElem? hn, rfl⟩), hturns]
      rfl
  | some under =>
    obtain rfl : x = under := hbegins
    obtain ⟨numbers, errors, failed, hleft, hright, hp⟩ := hcycle
    refine ⟨x, v', numbers, errors, failed, hwork, hexec, ?_, ?_, hp.of_records fun rec => ?_,
      houtside⟩
    · rw [hleft]
      rfl
    · rw [hround, hright]
      rfl
    · exact hwithin.cell (Ref.lock_ne (by decide) rec e)

end InStep

section

variable {x : Execution J C T} {v' : World (Family J C T) σ} {children : List C}
  {cycle' : Round (Family J C T)} {events : List (Event (Family J C T))}

/-- The fork in the execution plays a round, and then the cells stand as they should. -/
theorem AtWork.plays_iff (h : AtWork e (.fork r') x v')
    (hbegin : (v'.heap.get r' : Round (Family J C T)).begin x.nodes = cycle')
    {ending : Ending TickResult} {held : List Lock} :
    ((Tick.fork r').run x.nodes).Performs env caller [e.lock] v' events ending held w₁ ↔
      ∃ ended w₁', Fork.Plays env r' cycle' v' events ended w₁' ∧
        ending = .value ended.verdict ∧ held = [e.lock] ∧ w₁ = Fork.settled r' ended w₁' := by
  obtain ⟨-, hfree, -, -⟩ := h.ready r' rfl
  have hne : e.lock ≠ r'.lock := Ref.lock_ne (by decide) e r'
  have hheld : (r'.lock :: [e.lock]).filter (· != r'.lock) = [e.lock] := by simp [hne]
  exact (Fork.performs_run_iff hfree hbegin).trans (by rw [hheld])

/-- A call of a memorized fork plays a round over the children of the execution. -/
theorem AtWork.call_fork_iff (h : AtWork e (.fork r') x v') (hfree : e.lock ∉ w'.locked)
    {joins : Joins (Family J C T) σ} (hexec : (execution e (children.map Family.node)).Evaluates env
      caller joins [e.lock] (w'.hold e.lock) (.value x.nodes) [e.lock] v')
    (hbegin : (v'.heap.get r' : Round (Family J C T)).begin x.nodes = cycle')
    {ending : Ending TickResult} :
    Family.Call env caller (.memorize e (.fork r')) children w' events ending w₁ ↔
      ∃ ended w₁', Fork.Plays env r' cycle' v' events ended w₁' ∧
        ending = .value ended.verdict ∧ w₁ = ends e ending (Fork.settled r' ended w₁') := by
  refine (performs_call_iff hfree hexec fun hinner => ?_).trans ?_
  · obtain ⟨_, _, -, -, rfl, -⟩ := (h.plays_iff hbegin).mp hinner
    rfl
  · constructor
    · rintro ⟨w₂, hinner, rfl⟩
      obtain ⟨ended, w₁', hplays, rfl, -, rfl⟩ := (h.plays_iff hbegin).mp hinner
      exact ⟨ended, w₁', hplays, rfl, rfl⟩
    · rintro ⟨ended, w₁', hplays, rfl, rfl⟩
      exact ⟨_, (h.plays_iff hbegin).mpr ⟨ended, w₁', hplays, rfl, rfl, rfl⟩, rfl⟩

end

namespace InStep

/-- After a call of each, with rounds that agree. -/
theorem settles (h : InStep r e r' open? w w') {x : Execution J C T}
    {v' : World (Family J C T) σ} {cycle cycle' ended ended' : Round (Family J C T)}
    (children : List C) {events events' : List (Event (Family J C T))}
    (hwork : AtWork e (.fork r') x v')
    (hbegin : (v'.heap.get r' : Round (Family J C T)).begin x.nodes = cycle')
    (hplays : Fork.Plays env r' cycle' v' events' ended' w₁')
    (hagrees : x.Agrees (Fork.started r cycle w) w₁ w₁' events events' ended ended') :
    ended'.verdict = ended.verdict ∧
      InStep r e r' (x.after ⟨children, events', .value ended'.verdict⟩) (Fork.settled r ended w₁)
        (ends e (.value ended'.verdict) (Fork.settled r' ended' w₁')) := by
  let call : FamilyCall J C T := ⟨children, events', .value ended'.verdict⟩
  have hinner : ((Tick.fork r').run x.nodes).Performs env default [e.lock] v' call.events
      call.ending [e.lock] (Fork.settled r' ended' w₁') :=
    (hwork.plays_iff hbegin).mpr ⟨ended', w₁', hplays, rfl, rfl, rfl⟩
  obtain ⟨-, -, hrest⟩ := hwork.proceeds rfl hinner
  obtain ⟨numbers, errors, failed, rfl, rfl, hp⟩ := hagrees.cycle
  have hverdict : (Fork.underWay x.nodes numbers errors failed).verdict =
      (Fork.underWay (x.children.map (Family.node : C → Node (Family J C T))) numbers errors
        failed).verdict := by
    rw [Fork.verdict_underWay hp.lt_children, Fork.verdict_underWay hp.lt]
  have hmade : w₁.heap.Made r := hagrees.within.made ((Heap.made_set _).mpr h.made)
  have hget : ∀ ended : Round (Family J C T), (Fork.settled r ended w₁).heap.get r = ended.next :=
    fun ended => Heap.get_set hmade ended.next
  refine ⟨hverdict, (Heap.made_set _).mpr hmade,
    fun hmem => (World.mem_unlock.mp hmem).2 (List.mem_singleton.mpr rfl), hagrees.outside, hrest,
    ?_⟩
  rcases @after_ends _ _ _ _ e (Fork.settled r' (Fork.underWay x.nodes numbers errors failed) w₁')
      ⟨children, events', .value (Fork.underWay x.nodes numbers errors failed).verdict⟩ x with
    ⟨hafter, hheap, hrunning⟩ | ⟨hafter, hheap, hover⟩
  · have hrunning := hrunning _ rfl
    have hmade' := (hrest.rounds r' rfl).1
    rw [hheap] at hmade'
    have hnext := (@Fork.next_underWay _ _ _ errors failed hp.lt).resolve_right
      fun h => by simp [h.1] at hrunning
    have hnext' := (@Fork.next_underWay _ _ _ errors failed hp.lt_children).resolve_right
      fun h => by simp [hverdict, h.1] at hrunning
    rw [hafter]
    refine ⟨numbers, errors, failed, (hget _).trans hnext'.2, ?_, hp.paired, hp.distinct, hp.lt,
      fun u hu => ?_⟩
    · rw [hheap]
      exact (Heap.get_set ((Heap.made_set _).mp hmade') _).trans hnext.2
    · rw [hheap]
      exact (Heap.get_set_kind (by decide) r' u.1 _).trans (hp.empty u hu)
  · have hover := hover _ rfl
    have hnext' := (@Fork.next_underWay _ _ _ errors failed hp.lt_children).resolve_left
      fun h => by simp [hverdict, h.1] at hover
    rw [hafter]
    exact (hget _).trans hnext'.2

/-- **A call** of a fork by itself, and of a memorized one. -/
theorem call (h : InStep r e r' open? w w') (children : List C) :
    (∀ {events ending v}, Family.Call env caller (.fork r) children w events ending v →
      ∃ events' v',
        Family.Call env caller (.memorize e (.fork r')) children w' events' ending v' ∧
        events'.map Event.bare = events.map Event.bare ∧
        ∃ later : Option (Execution J C T), InStep r e r' later v v') ∧
    ∀ {events' ending v'},
      Family.Call env caller (.memorize e (.fork r')) children w' events' ending v' →
      ∃ events v, Family.Call env caller (.fork r) children w events ending v ∧
        events.map Event.bare = events'.map Event.bare ∧
        ∃ later : Option (Execution J C T), InStep r e r' later v v' := by
  obtain ⟨x, w₀', numbers, errors, failed, hwork, hexec, hbegin, hbegin', hp, houtside⟩ :=
    h.opens env caller (fun _ _ _ _ => False) children
  obtain ⟨hplays, hplays'⟩ := hp.plays r r' env hwork.holds houtside rfl rfl
  constructor
  · intro events ending v hcall
    obtain ⟨ended, w₁, hround, rfl, rfl⟩ := (Fork.call_iff h.unlocked hbegin).mp hcall
    obtain ⟨events', ended', w₁', hround', hagrees⟩ := hplays hround
    obtain ⟨hverdict, hstep⟩ := h.settles children hwork hbegin' hround' hagrees
    refine ⟨events', _, ?_, hagrees.seen, _, hstep⟩
    exact (hwork.call_fork_iff h.rest.unlocked hexec hbegin').mpr
      ⟨ended', w₁', hround', congrArg _ hverdict.symm, by rw [hverdict]⟩
  · intro events' ending v' hcall
    obtain ⟨ended', w₁', hround', rfl, rfl⟩ :=
      (hwork.call_fork_iff h.rest.unlocked hexec hbegin').mp hcall
    obtain ⟨events, ended, w₁, hround, hagrees⟩ := hplays' hround'
    obtain ⟨hverdict, hstep⟩ := h.settles children hwork hbegin' hround' hagrees
    refine ⟨events, _, ?_, hagrees.seen.symm, _, hstep⟩
    exact (Fork.call_iff h.unlocked hbegin).mpr ⟨ended, w₁, hround, congrArg _ hverdict, rfl⟩

theorem fresh (hr : w.Fresh r) (he : w'.Fresh e) (hr' : w'.Fresh r')
    (houtside : w'.outside = w.outside) :
    InStep r e r' (none : Option (Execution J C T)) w w' := by
  refine ⟨hr.made, hr.unlocked, houtside, AtRest.fresh he fun r hround => ?_, hr.fresh⟩
  cases hround
  exact hr'

/-- **Between two calls** the worlds can rest in the same way. -/
theorem rests (h : InStep r e r' open? w w') :
    (∀ {w₀}, (Tick.fork r).Rests w w₀ →
      ∃ w₀', Rests e (.fork r') w' w₀' ∧ InStep r e r' open? w₀ w₀') ∧
    ∀ {w₀'}, Rests e (.fork r') w' w₀' →
      ∃ w₀, (Tick.fork r).Rests w w₀ ∧ InStep r e r' open? w₀ w₀' := by
  constructor
  · intro w₀ hrests
    have hspares := hrests ⟨_, r⟩ (List.mem_singleton.mpr rfl)
    have hrests' : Rests e (.fork r') w' { w' with outside := w₀.outside } :=
      fun s _ => ⟨id, rfl, Iff.rfl⟩
    refine ⟨_, hrests', hspares.made h.made, mt hspares.lock.mp h.unlocked, rfl,
      h.rest.rests hrests', ?_⟩
    have hcycle := h.cycle
    cases open? with
    | none => exact hspares.cell.trans hcycle
    | some x =>
      obtain ⟨numbers, errors, failed, hleft, hright, hp⟩ := hcycle
      exact ⟨numbers, errors, failed, hspares.cell.trans hleft, hright, hp.of_records fun _ => rfl⟩
  · intro w₀' hrests'
    have hrest := h.rest.rests hrests'
    refine ⟨{ w with outside := w₀'.outside }, fun cell _ => ⟨id, rfl, Iff.rfl⟩, h.made, h.unlocked,
      rfl, hrest, ?_⟩
    have hcycle := h.cycle
    cases open? with
    | none => exact hcycle
    | some x =>
      obtain ⟨numbers, errors, failed, hleft, hright, hp⟩ := hcycle
      refine ⟨numbers, errors, failed, hleft, ?_, hp.paired, hp.distinct, hp.lt, fun u hu => ?_⟩
      · exact (hrests' r' (.inr (.inl ⟨r', rfl, rfl⟩))).cell.trans hright
      · obtain ⟨n, -, hn⟩ := List.mem_filterMap.mp hu
        have hrec : u.1 ∈ x.pairs.map Prod.fst :=
          List.mem_map.mpr ⟨u, List.mem_of_getElem? hn, rfl⟩
        rw [(hrest.holds x rfl).cell u.1 hrec, ← (h.rest.holds x rfl).cell u.1 hrec]
        exact hp.empty u hu

end InStep

/-- **A memorized fork does what the fork does by itself**, and nothing else: whatever
calls there are of the one, with whatever children, which answer and die as they like, in
rounds that go in whatever order, there are the same calls of the other. They have the
same results, and see the same of the same children. -/
theorem transparent_law (env : Environment (Family J C T) σ) (r : Ref .round)
    (e : Ref .execution) (r' : Ref .round) (w w' : World (Family J C T) σ) (hr : w.Fresh r)
    (he : w'.Fresh e) (hr' : w'.Fresh r') (houtside : w'.outside = w.outside) :
    (∀ calls w₁, Family.Calls env (Tick.fork r).Rests (.fork r) w calls w₁ →
      ∃ calls' w₁', Family.Calls env (Rests e (.fork r')) (.memorize e (.fork r')) w' calls' w₁' ∧
        calls'.map FamilyCall.bare = calls.map FamilyCall.bare ∧ w₁'.outside = w₁.outside) ∧
    ∀ calls' w₁', Family.Calls env (Rests e (.fork r')) (.memorize e (.fork r')) w' calls' w₁' →
      ∃ calls w₁, Family.Calls env (Tick.fork r).Rests (.fork r) w calls w₁ ∧
        calls'.map FamilyCall.bare = calls.map FamilyCall.bare ∧ w₁'.outside = w₁.outside := by
  refine Family.same_calls
    (fun w w' => ∃ open? : Option (Execution J C T), InStep r e r' open? w w')
    ⟨fun ⟨_, hw⟩ hrests => ?_, fun ⟨_, hw⟩ hcall => ?_⟩
    ⟨fun ⟨_, hw⟩ hrests' => ?_, fun ⟨_, hw⟩ hcall' => ?_⟩
    (fun ⟨_, hw⟩ => hw.outside) ⟨none, .fresh hr he hr' houtside⟩
  · obtain ⟨w₀', hrests', hw₀⟩ := hw.rests.1 hrests
    exact ⟨w₀', hrests', _, hw₀⟩
  · exact (hw.call _).1 hcall
  · obtain ⟨w₀, hrests, hw₀⟩ := hw.rests.2 hrests'
    exact ⟨w₀, hrests, _, hw₀⟩
  · exact (hw.call _).2 hcall'

/-- Of three children one dies and two report running; one of these then fails and the
other succeeds, while the call passes no children. The cycle ends with the error for the
child that died, and nothing is kept of it. -/
theorem transparent_law_lost :
    let J : Interface := ⟨Empty, nofun⟩
    let outcome : Nat → Outcome
      | 0 => .panicked .other
      | 1 | 2 => .returned (.ok .running)
      | 3 => .returned (.ok .failure)
      | _ => .returned (.ok .success)
    let env : Environment (Family J Unit Unit) Nat :=
      ⟨fun _ query calls => match query with
        | .other e => nomatch e
        | .expand _ => some ((some (), 0), calls)
        | .call _ _ => some (outcome calls, calls + 1), fun _ _ calls => calls⟩
    let child : Node (Family J Unit Unit) := Family.node ()
    let lane (p : Nat) (outcome : Outcome) : List (Beat (Family J Unit Unit)) :=
      [.said p ⟨.expand (), (some (), 0)⟩, .said p ⟨.call () (), outcome⟩, .ended p outcome.ending]
    let calls : List (FamilyCall J Unit Unit) :=
      [⟨[(), (), ()], [.round [child, child, child] (lane 0 (outcome 0) ++ lane 1 (outcome 1) ++
          lane 2 (outcome 2))], .value (.ok .running)⟩,
        ⟨[], [.round [child, child] (lane 0 (outcome 3) ++ lane 1 (outcome 4))],
          .value (.error .forkChildLost)⟩]
    let w' : World (Family J Unit Unit) Nat :=
      ⟨((Heap.empty.alloc .execution).2.alloc .round).2, [], 0⟩
    ∃ calls' w₁', Family.Calls env (Rests ⟨0⟩ (.fork ⟨0⟩)) (.memorize ⟨0⟩ (.fork ⟨0⟩)) w' calls'
        w₁' ∧
      calls'.map FamilyCall.bare = calls ∧ w₁'.outside = 5 := by
  intro J outcome env child lane calls w'
  let ref : Ref .round := ⟨0⟩
  let fork : Tick (Family J Unit Unit) := .fork ref
  let w : World (Family J Unit Unit) Nat := ⟨(Heap.empty.alloc .round).2, [], 0⟩
  let started : Round (Family J Unit Unit) := ⟨[], some .success, none⟩
  let lost : Round (Family J Unit Unit) := ⟨[], some .failure, some .forkChildLost⟩
  let opened := w.heap.set ref started
  let kept := opened.set ref { lost with remaining := [child, child] }
  let reopened := kept.set ref lost
  let closed := reopened.set ref .between
  have hlane : ∀ {heap n ls beats reports w'} (p : Nat),
      Interleaves env ls ⟨heap, [ref.lock], n + 1⟩ beats reports w' →
      Interleaves env (⟨default, p, child.call, []⟩ :: ls) ⟨heap, [ref.lock], n⟩
        (lane p (outcome n) ++ beats)
        (Lane.report ⟨default, p, child.call, []⟩ (outcome n).ending ++ reports) w' := by
    intro heap n ls beats reports w' p hrest
    have hspeaks : child.call.Speaks env Eq default [] ⟨heap, [ref.lock], n⟩
        [⟨.expand (), (some (), 0)⟩, ⟨.call () (), outcome n⟩] (outcome n).ending []
        ⟨heap, [ref.lock], n + 1⟩ := by
      have hend : ∀ {outcome : Outcome} {w : World (Family J Unit Unit) Nat},
          (outcome.ending.resume .pure : Prog (Family J Unit Unit) TickResult).Speaks env Eq default
            [] w [] outcome.ending [] w := by
        intro outcome w
        cases outcome with
        | returned result => exact .pure rfl
        | panicked payload => exact .panic rfl
      rw [show child.call = _ from Family.call_node ()]
      exact .serve rfl rfl (.serve rfl rfl hend)
    exact @Interleaves.first _ _ _ _ _ _ _ _ ⟨default, p, child.call, []⟩ _ _ _ _ hrest hspeaks
  have hround : Interleaves env (lanes (fun _ => default) [child, child, child])
      ⟨opened, [ref.lock], 0⟩ (lane 0 (outcome 0) ++ lane 1 (outcome 1) ++ lane 2 (outcome 2))
      [⟨1, .ok .running⟩, ⟨2, .ok .running⟩] ⟨opened, [ref.lock], 3⟩ :=
    hlane 0 (hlane 1 (hlane 2 .none))
  have hround' : Interleaves env (lanes (fun _ => default) [child, child])
      ⟨reopened, [ref.lock], 3⟩ (lane 0 (outcome 3) ++ lane 1 (outcome 4))
      [⟨0, .ok .failure⟩, ⟨1, .ok .success⟩] ⟨reopened, [ref.lock], 5⟩ :=
    hlane 0 (hlane 1 .none)
  have hfirst : (fork.run [child, child, child]).Performs env default [] w
      [.round [child, child, child] (lane 0 (outcome 0) ++ lane 1 (outcome 1) ++
        lane 2 (outcome 2))] (.value (.ok .running)) [] ⟨kept, [], 3⟩ :=
    .serve rfl (.serve rfl (.serve rfl (.parallel hround (.serve rfl (.serve rfl .pure)))))
  have hsecond : (fork.run []).Performs env default [] ⟨kept, [], 3⟩
      [.round [child, child] (lane 0 (outcome 3) ++ lane 1 (outcome 4))]
      (.value (.error .forkChildLost)) [] ⟨closed, [], 5⟩ :=
    .serve rfl (.serve rfl (.serve rfl (.parallel hround' (.serve rfl (.serve rfl .pure)))))
  have hrests : ∀ w : World (Family J Unit Unit) Nat, fork.Rests w w :=
    fun w cell _ => .refl cell.2 w
  have hcalls : Family.Calls env fork.Rests fork w calls ⟨closed, [], 5⟩ :=
    .call (hrests w) hfirst (.call (hrests _) hsecond .none)
  obtain ⟨calls', w₁', hcalls', hbare, houtside⟩ := (transparent_law env ref ⟨0⟩ ⟨0⟩ w w'
    ⟨Nat.zero_lt_one, List.not_mem_nil, rfl⟩ ⟨Nat.zero_lt_one, List.not_mem_nil, rfl⟩
    ⟨Nat.zero_lt_one, List.not_mem_nil, rfl⟩ rfl).1 _ _ hcalls
  exact ⟨calls', w₁', hcalls', hbare, houtside⟩

end Memorize

end TickTree
