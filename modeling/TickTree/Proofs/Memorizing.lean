/-
# What memorizing means

A memorized tick goes through executions. One begins with the first call, and with
the first call after one that has returned anything but running; it lasts for that
call and those after it up to the next such return. In all of them the tick inside is
passed the nodes of the execution, which wrap the children of its first call, and
what the tick inside returns is what the memorized tick returns. What happens to the
children meanwhile is said in `TickTree.Proofs.Executions`.

The tick inside may be a composite, or code that ticks its children in any order and
as often as it likes and looks at the results or not, or a fork. A fork keeps the
children that go on from one call to the next; they are those of the execution, since
a cycle of the fork and the execution around it end with the same call
(`Memorize.Execution.Holds.direct`).

Key definitions: `Tick.isDirect`, `Memorize.Calls`, `Memorize.Execution.Begins`,
`Memorize.Executes`.
Key theorems: `Memorize.Execution.Holds.direct`, `Memorize.AtWork.proceeds`,
`Memorize.executions_law`.
-/
import TickTree.Proofs.Executions
import TickTree.Proofs.ForkCycle

namespace TickTree

section

variable {I : Interface} {σ : Type}

namespace Tick

/-- The tick ticks its children in its own calls, if it does, and wraps none of them.
If it keeps anything between calls it is a fork inside. -/
def isDirect : Tick I → Bool
  | const _ | custom _ | composite _ | fork _ => true
  | not inner | exitOnFailure inner => inner.isDirect
  | _ => false
termination_by structural tick => tick

/-- The cell of the fork inside, if there is one. -/
def round? : Tick I → Option (Ref .round)
  | fork round => some round
  | not inner | exitOnFailure inner => inner.round?
  | _ => none
termination_by structural tick => tick

end Tick

theorem TickResult.isRunning_invert (result : TickResult) :
    result.invert.isRunning = result.isRunning := by
  cases result with
  | error e => rfl
  | ok s => cases s <;> rfl

theorem TickResult.isRunning_exitOnFailure (result : TickResult) :
    result.exitOnFailure.isRunning = result.isRunning := by
  cases result with
  | error e => rfl
  | ok s => cases s <;> rfl

/-! ### A call of a fork -/

theorem map_position_lanes (callers : Nat → Caller) (nodes : List (Node I)) :
    (lanes callers nodes).map (·.position) = List.range nodes.length :=
  List.ext_getElem (by simp [lanes]) fun p hp hp' => by simp [lanes]

/-- The reports of a round are of its nodes, and of each there is one at most. -/
theorem Interleaves.arrivals {env : Environment I σ} {callers : Nat → Caller}
    {nodes : List (Node I)} {w w' : World I σ} {beats : List (Beat I)} {reports : List Report}
    (h : Interleaves env (lanes callers nodes) w beats reports w') :
    Arrivals nodes.length reports := by
  obtain ⟨positions, hperm, hsub⟩ := map_position_lanes callers nodes ▸ h.subperm
  refine ⟨fun report hmem => ?_, hperm.nodup_iff.mp (List.nodup_range.sublist hsub)⟩
  have hposition := hperm.mem_iff.mpr (List.mem_map.mpr ⟨report, hmem, rfl⟩)
  exact List.mem_range.mp (hsub.subset hposition)

namespace Fork

variable {ref : Ref .round} {env : Environment I σ} {caller : Caller} {held held' : List Lock}
  {w w' : World I σ} {events : List (Event I)} {ending : Ending TickResult}

/-- The world when a call has taken the lock and put the cycle in place. -/
def started (ref : Ref .round) (cycle : Round I) (w : World I σ) : World I σ :=
  ⟨w.heap.set ref (ticking cycle), ref.lock :: w.locked, w.outside⟩

/-- A call takes the lock, plays a round if there is anybody to tick, and settles what
came of it. -/
theorem performs_run {children : List (Node I)} {cycle : Round I} (hfree : ref.lock ∉ w.locked)
    (hbegin : (w.heap.get ref : Round I).begin children = cycle)
    (h : (run ref children).Performs env caller held w events ending held' w') :
    ∃ ended w₁,
      (if cycle.remaining = [] then
          events = [] ∧ ended = ticking cycle ∧ w₁ = started ref cycle w
        else ∃ callers beats reports, events = [.round cycle.remaining beats] ∧
          Interleaves env (lanes callers cycle.remaining) (started ref cycle w) beats reports w₁ ∧
          ended = (ticking cycle).absorb cycle.remaining reports) ∧
      ending = .value ended.verdict ∧ held' = (ref.lock :: held).filter (· != ref.lock) ∧
      w' = { w₁ with heap := w₁.heap.set ref ended.next }.unlock [ref.lock] := by
  subst hbegin
  unfold run at h
  obtain ⟨_, rfl, h⟩ := (Prog.Performs.serve_iff (World.serve_acquire hfree)).mp h
  obtain ⟨_, rfl, h⟩ := (Prog.Performs.serve_iff rfl).mp h
  obtain ⟨_, rfl, h⟩ := (Prog.Performs.serve_iff rfl).mp h
  have hsettle : ∀ {ended : Round I} {w₁ : World I σ} {events : List (Event I)},
      (Prog.request (.swap .round ref ended.next) fun _ => .request (.release .round ref) fun _ =>
        .pure ended.verdict).Performs env caller (ref.lock :: held) w₁ events ending held' w' →
      events = [] ∧ ending = .value ended.verdict ∧
        held' = (ref.lock :: held).filter (· != ref.lock) ∧
        w' = { w₁ with heap := w₁.heap.set ref ended.next }.unlock [ref.lock] := by
    intro ended w₁ events h
    obtain ⟨_, rfl, h⟩ := (Prog.Performs.serve_iff rfl).mp h
    obtain ⟨_, rfl, h⟩ := (Prog.Performs.serve_iff rfl).mp h
    obtain ⟨rfl, rfl, rfl, rfl⟩ := Prog.Performs.pure_iff.mp h
    exact ⟨rfl, rfl, rfl, rfl⟩
  by_cases hp : ((w.heap.get ref : Round I).begin children).remaining = []
  · rw [if_pos (List.isEmpty_iff.mpr hp)] at h
    obtain ⟨rfl, hend⟩ := hsettle h
    exact ⟨_, _, by rw [if_pos hp]; exact ⟨rfl, rfl, rfl⟩, hend⟩
  · rw [if_neg (by simpa using hp)] at h
    cases h with
    | serve hserve => cases hserve
    | parallel hround h =>
      obtain ⟨rfl, hend⟩ := hsettle h
      exact ⟨_, _, by rw [if_neg hp]; exact ⟨_, _, _, rfl, hround, rfl⟩, hend⟩

/-- A cycle goes on after running, and after nothing else. -/
theorem next_underWay {children : List (Node I)} {numbers : List Nat} {errors : List TickError}
    {failed : Bool} (hlt : ∀ child ∈ numbers, child < children.length) :
    ((underWay children numbers errors failed).verdict.isRunning = true ∧
        (underWay children numbers errors failed).next =
          underWay children numbers errors failed) ∨
      ((underWay children numbers errors failed).verdict.isRunning = false ∧
        (underWay children numbers errors failed).next = .between) := by
  have hlength := length_pick hlt
  rw [verdict_underWay hlt]
  unfold Round.next
  by_cases hnone : numbers = []
  · subst hnone
    rw [if_pos rfl]
    refine .inr ⟨?_, rfl⟩
    cases TickError.joinAll errors with
    | some e => rfl
    | none => cases failed <;> rfl
  · have hpick : (pick children numbers).isEmpty = false := by
      rw [List.isEmpty_eq_false_iff, ← List.length_pos_iff, hlength]
      exact List.length_pos_iff.mpr hnone
    rw [if_neg hnone, if_neg (by simpa [underWay] using hpick)]
    exact .inl ⟨rfl, rfl⟩

end Fork

end

namespace Memorize

variable {J : Interface} {C T σ : Type}

namespace Execution

variable {e : Execution J C T} {turns : List (Turn (Family J C T))}
  {env : Environment (Family J C T) σ} {caller : Caller} {held held' : List Lock}
  {w w' : World (Family J C T) σ} {events : List (Event (Family J C T))}
  {ending : Ending TickResult}

/-- The fork with this cell ticks children of the execution next, each once: it is
between two cycles, or in one with this execution. -/
def Forks (e : Execution J C T) (r : Ref .round) (w : World (Family J C T) σ) : Prop :=
  ∃ numbers errors failed,
    (w.heap.get r : Round (Family J C T)).begin e.nodes =
      Fork.underWay e.nodes numbers errors failed ∧
    numbers.Nodup ∧ ∀ child ∈ numbers, child < e.nodes.length

theorem forks_between {r : Ref .round} (h : w.heap.get r = (Round.between : Round _)) :
    e.Forks r w := by
  refine ⟨List.range e.nodes.length, [], false, ?_, List.nodup_range, fun _ => List.mem_range.mp⟩
  rw [h]
  exact Fork.begin_between e.nodes

/-- The children with these numbers. -/
theorem pick_nodes (e : Execution J C T) (numbers : List Nat) :
    Fork.pick e.nodes numbers = (numbers.filterMap (e.pairs[·]?)).map wrapper := by
  unfold Fork.pick nodes
  rw [List.map_filterMap]
  exact List.filterMap_congr fun child _ => List.getElem?_map

theorem nodup_picked (hdistinct : (e.pairs.map Prod.fst).Nodup) {numbers : List Nat}
    (hnumbers : numbers.Nodup) : ((numbers.filterMap (e.pairs[·]?)).map Prod.fst).Nodup := by
  have hfirst : (numbers.filterMap (e.pairs[·]?)).map Prod.fst =
      numbers.filterMap ((e.pairs.map Prod.fst)[·]?) := by
    rw [List.map_filterMap]
    exact List.filterMap_congr fun child _ => List.getElem?_map.symm
  rw [hfirst]
  refine hnumbers.filterMap fun child child' rec hrec hrec' => ?_
  obtain ⟨hlt, -⟩ := List.getElem?_eq_some_iff.mp hrec
  exact (List.getElem?_inj hlt hdistinct).mp (hrec.trans hrec'.symm)

/-- A round of a fork: turns of its children follow, and what it keeps is a cycle with
this execution. -/
theorem Holds.played (h : e.Holds turns w) {numbers : List Nat} {errors : List TickError}
    {failed : Bool} (hnumbers : numbers.Nodup) (hlt : ∀ child ∈ numbers, child < e.nodes.length)
    {w₁ : World (Family J C T) σ} {ended : Round (Family J C T)}
    (hround : if Fork.pick e.nodes numbers = [] then
        events = [] ∧ ended = Fork.underWay e.nodes [] errors failed ∧ w₁ = w
      else ∃ callers beats reports, events = [.round (Fork.pick e.nodes numbers) beats] ∧
        Interleaves env (lanes callers (Fork.pick e.nodes numbers)) w beats reports w₁ ∧
        ended = (Fork.underWay e.nodes [] errors failed).absorb (Fork.pick e.nodes numbers)
          reports) :
    e.Follows turns (events.flatMap Event.turns) ∧
      e.Holds (turns ++ events.flatMap Event.turns) w₁ ∧ w.Within e.Owns w₁ ∧
      ∃ numbers errors failed, ended = Fork.underWay e.nodes numbers errors failed ∧
        numbers.Nodup ∧ ∀ child ∈ numbers, child < e.nodes.length := by
  by_cases hnone : Fork.pick e.nodes numbers = []
  · rw [if_pos hnone] at hround
    obtain ⟨rfl, rfl, rfl⟩ := hround
    refine ⟨trivial, ?_, .refl _ _, [], errors, failed, rfl, .nil, fun _ hmem => ?_⟩
    · rwa [List.flatMap_nil, List.append_nil]
    · exact absurd hmem List.not_mem_nil
  · rw [if_neg hnone] at hround
    obtain ⟨callers, beats, reports, rfl, hinterleaves, rfl⟩ := hround
    have harrive := hinterleaves.arrivals
    rw [Fork.length_pick hlt] at harrive
    rw [Fork.absorb_underWay hlt harrive.known, List.flatMap_singleton]
    rw [e.pick_nodes] at hinterleaves ⊢
    have hus : ∀ u ∈ numbers.filterMap (e.pairs[·]?), u ∈ e.pairs := by
      intro u hu
      obtain ⟨child, -, hchild⟩ := List.mem_filterMap.mp hu
      exact List.mem_of_getElem? hchild
    obtain ⟨hfollows, hholds, hwithin⟩ := h.round hus (nodup_picked h.distinct hnumbers)
      hinterleaves
    refine ⟨hfollows, hholds, hwithin, _, _, _, rfl, Fork.nodup_waiting hnumbers harrive, ?_⟩
    intro child hmem
    obtain ⟨report, -, hchild, -⟩ := Fork.mem_byChild.mp (Fork.mem_waiting.mp hmem)
    exact hlt child (List.mem_of_getElem? hchild)

/-- What a fork does in one call: turns of its children follow, and it keeps a cycle
with this execution if it answers running, and none if not. -/
theorem Holds.fork (h : e.Holds turns w) {r : Ref .round} (hmade : w.heap.Made r)
    (hfree : r.lock ∉ w.locked) (hheld : r.lock ∉ held) (hforks : e.Forks r w)
    (hperforms : (Fork.run r e.nodes).Performs env caller held w events ending held' w') :
    ∃ result, ending = .value result ∧ held' = held ∧
      e.Follows turns (events.flatMap Event.turns) ∧
      e.Holds (turns ++ events.flatMap Event.turns) w' ∧
      w.Within (fun lock => e.Owns lock ∨ lock = r.lock) w' ∧
      if result.isRunning then e.Forks r w' else w'.heap.get r = (Round.between : Round _) := by
  obtain ⟨numbers, errors, failed, hbegin, hnumbers, hlt⟩ := hforks
  obtain ⟨ended, w₁, hround, rfl, hheld', rfl⟩ := Fork.performs_run hfree hbegin hperforms
  have hstarted : e.Holds turns
      (Fork.started r (Fork.underWay e.nodes numbers errors failed) w) := by
    refine ⟨h.distinct, fun rec hrec => (Heap.made_set _).mpr (h.made rec hrec), fun rec hrec => ?_⟩
    exact (Heap.get_set_kind (by decide) r rec _).trans (h.cell rec hrec)
  obtain ⟨hfollows, hholds, hwithin, numbers', errors', failed', rfl, hnumbers', hlt'⟩ :=
    hstarted.played hnumbers hlt hround
  have hlocked : w₁.locked = r.lock :: w.locked := hwithin.locked
  have hmade₁ : w₁.heap.Made r := hwithin.made ((Heap.made_set _).mpr hmade)
  refine ⟨_, rfl, ?_, hfollows, ?_, ⟨fun hs => ?_, fun {kind s} hs => ?_, ?_⟩, ?_⟩
  · rw [hheld', List.filter_cons_of_neg (by simp), List.filter_eq_self]
    intro lock hlock
    have hne : lock ≠ r.lock := fun he => hheld (he ▸ hlock)
    simpa using hne
  · refine ⟨h.distinct, fun rec hrec => (Heap.made_set _).mpr (hholds.made rec hrec),
      fun rec hrec => ?_⟩
    exact (Heap.get_set_kind (by decide) r rec _).trans (hholds.cell rec hrec)
  · exact (Heap.made_set _).mpr (hwithin.made ((Heap.made_set _).mpr hs))
  · have hne : r.lock ≠ s.lock := fun he => hs (.inr he.symm)
    refine (Heap.get_set_of_lock_ne hne _ _).trans ?_
    exact (hwithin.cell fun howns => hs (.inl howns)).trans (Heap.get_set_of_lock_ne hne _ _)
  · have hunlock := congrArg World.locked (World.unlock_cons hfree w₁.heap w₁.outside)
    simpa only [World.unlock, hlocked] using hunlock
  · have hget : ∀ state : Round (Family J C T), ({ w₁ with heap := w₁.heap.set r state }.unlock
        [r.lock]).heap.get r = state := Heap.get_set hmade₁
    rcases Fork.next_underWay hlt' with ⟨hrunning, hnext⟩ | ⟨hover, hnext⟩
    · rw [hnext, if_pos hrunning]
      refine ⟨numbers', errors', failed', ?_, hnumbers', hlt'⟩
      rw [hget]
      exact Fork.begin_underWay e.nodes
    · rw [hnext, if_neg (by simp [hover])]
      exact hget _

/-- The fork inside a tick, if there is one, may go on with the execution. -/
def Ready (t : Tick (Family J C T)) (held : List Lock) (e : Execution J C T)
    (w : World (Family J C T) σ) : Prop :=
  ∀ r ∈ t.round?, w.heap.Made r ∧ r.lock ∉ w.locked ∧ r.lock ∉ held ∧ e.Forks r w

/-- What the fork inside a tick keeps, if there is one, when a call has ended so: a
cycle with the execution after running, and nothing after anything else. -/
def Settled (t : Tick (Family J C T)) (ending : Ending TickResult) (e : Execution J C T)
    (w : World (Family J C T) σ) : Prop :=
  ∀ r ∈ t.round?, ∃ result, ending = .value result ∧
    if result.isRunning then e.Forks r w else w.heap.get r = (Round.between : Round _)

/-- The locks of the records, and of the fork inside a tick if there is one. -/
def Uses (t : Tick (Family J C T)) (e : Execution J C T) (lock : Lock) : Prop :=
  e.Owns lock ∨ ∃ r ∈ t.round?, lock = r.lock

theorem Settled.map {t t' : Tick (Family J C T)} {f : TickResult → TickResult} {result : TickResult}
    (h : Settled t (.value result) e w) (hrunning : (f result).isRunning = result.isRunning)
    (hround : t'.round? = t.round?) : Settled t' (.value (f result)) e w := by
  intro r hr
  obtain ⟨_, hending, hkept⟩ := h r (hround ▸ hr)
  cases hending
  exact ⟨_, rfl, hrunning ▸ hkept⟩

/-- **What a tick does with the nodes of an execution** in one call: turns of its
children follow. If it keeps a cycle from call to call, that has come to its end
unless the call answers running. -/
theorem Holds.direct : ∀ (t : Tick (Family J C T)), t.isDirect → e.Holds turns w →
    Ready t held e w →
    ∀ {events ending held' w'}, (t.run e.nodes).Performs env caller held w events ending held' w' →
    held' = held ∧ e.Follows turns (events.flatMap Event.turns) ∧
      e.Holds (turns ++ events.flatMap Event.turns) w' ∧ w.Within (Uses t e) w' ∧
      Settled t ending e w'
  | .const result, _, h, _, _, _, _, _, hperforms => by
    obtain ⟨hheld, hfollows, hholds, hwithin⟩ := h.performs .pure hperforms
    exact ⟨hheld, hfollows, hholds, hwithin.mono fun _ => .inl, nofun⟩
  | .custom code, _, h, _, _, _, _, _, hperforms => by
    obtain ⟨hheld, hfollows, hholds, hwithin⟩ :=
      h.performs (all_ticks_routine (code e.nodes.length)) hperforms
    exact ⟨hheld, hfollows, hholds, hwithin.mono fun _ => .inl, nofun⟩
  | .composite kind, _, h, _, _, _, _, _, hperforms => by
    obtain ⟨hheld, hfollows, hholds, hwithin⟩ :=
      h.performs (all_ticks_composite kind (fun _ => id) 0 kind.initial) hperforms
    exact ⟨hheld, hfollows, hholds, hwithin.mono fun _ => .inl, nofun⟩
  | .fork r, _, h, hready, _, _, _, _, hperforms => by
    obtain ⟨hmade, hfree, hheld, hforks⟩ := hready r rfl
    obtain ⟨result, rfl, rfl, hfollows, hholds, hwithin, hkept⟩ :=
      h.fork hmade hfree hheld hforks hperforms
    refine ⟨rfl, hfollows, hholds, hwithin.mono fun lock => ?_, fun r' hr' => ?_⟩
    · exact Or.imp_right fun hlock => ⟨r, rfl, hlock⟩
    · cases hr'
      exact ⟨result, rfl, hkept⟩
  | .not inner, ht, h, hready, _, ending, _, _, hperforms => by
    rcases Prog.Performs.bind_iff.mp hperforms with
      ⟨payload, rfl, hinner⟩ | ⟨result, held₁, w₁, first, second, rfl, hinner, hrest⟩
    · exact Holds.direct inner ht h hready hinner
    · obtain ⟨rfl, rfl, rfl, rfl⟩ := Prog.Performs.pure_iff.mp hrest
      rw [List.append_nil]
      obtain ⟨hheld, hfollows, hholds, hwithin, hsettled⟩ := Holds.direct inner ht h hready hinner
      exact ⟨hheld, hfollows, hholds, hwithin, hsettled.map result.isRunning_invert rfl⟩
  | .exitOnFailure inner, ht, h, hready, _, ending, _, _, hperforms => by
    rcases Prog.Performs.bind_iff.mp hperforms with
      ⟨payload, rfl, hinner⟩ | ⟨result, held₁, w₁, first, second, rfl, hinner, hrest⟩
    · exact Holds.direct inner ht h hready hinner
    · obtain ⟨rfl, rfl, rfl, rfl⟩ := Prog.Performs.pure_iff.mp hrest
      rw [List.append_nil]
      obtain ⟨hheld, hfollows, hholds, hwithin, hsettled⟩ := Holds.direct inner ht h hready hinner
      exact ⟨hheld, hfollows, hholds, hwithin, hsettled.map result.isRunning_exitOnFailure rfl⟩
  | .ask _ _, ht, _, _, _, _, _, _, _ | .memorize _ _, ht, _, _, _, _, _, _, _
  | .any _ _, ht, _, _, _, _, _, _, _ | .background _ _, ht, _, _, _, _, _, _, _
  | .async _ _, ht, _, _, _, _, _, _, _ | .recording _ _, ht, _, _, _, _, _, _, _
  | .flagging _ _, ht, _, _, _, _, _, _, _ | .gated _ _ _, ht, _, _, _, _, _, _, _ => nomatch ht
termination_by structural t => t

end Execution

/-! ### A call of a memorized tick -/

section

variable {I : Interface} {ref : Ref .execution} {env : Environment I σ} {caller : Caller}
  {joins : Joins I σ} {held held' : List Lock} {w w₁ w' : World I σ} {events : List (Event I)}
  {ending : Ending TickResult}

/-- A snapshot, and the start of a call, make records and change the one cell. -/
theorem all_snapshot (ref : Ref .execution) (nodes : List (Node I)) :
    (snapshot nodes).All fun r => r.isSilent ∧ r.Minds ref.lock := by
  induction nodes with
  | nil => exact .pure
  | cons node nodes ih => exact .request ⟨rfl, trivial⟩ fun _ => ih.bind fun _ => .pure

theorem all_execution (ref : Ref .execution) (children : List (Node I)) :
    (execution ref children).All fun r => r.isSilent ∧ r.Minds ref.lock := by
  refine .request ⟨rfl, trivial⟩ fun (opened : Option (List (Node I))) => ?_
  cases opened with
  | some nodes => exact .pure
  | none => exact (all_snapshot ref children).bind fun nodes => .request ⟨rfl, rfl⟩ fun _ => .pure

/-- The start of a call comes to one thing only, and nothing is seen of it. -/
theorem performs_execution_iff {children : List (Node I)} {ending ending' : Ending (List (Node I))}
    {held₁ : List Lock}
    (hexec : (execution ref children).Evaluates env caller joins held w ending held₁ w₁) :
    (execution ref children).Performs env caller held w events ending' held' w' ↔
      events = [] ∧ ending' = ending ∧ held' = held₁ ∧ w' = w₁ :=
  Prog.performs_iff_of_silent ((all_execution ref children).mono fun _ h => h.1) hexec

/-- The world when the tick inside has ended so, and the call has ended with it. -/
def ends (ref : Ref .execution) (ending : Ending TickResult) (w : World I σ) : World I σ :=
  { w with
    heap := match ending with
      | .value result => settle ref result w.heap
      | .panic _ => w.heap }.unlock [ref.lock]

/-- What a call does once the tick inside has returned. -/
theorem performs_settle_iff {result : TickResult} :
    (if !result.isRunning then
        (Prog.request (.swap .execution ref none) fun _ => .request (.release .execution ref)
          fun _ => .pure result)
      else Prog.request (.release .execution ref) fun _ => .pure result).Performs env caller held w
        events ending held' w' ↔
      events = [] ∧ ending = .value result ∧ held' = held.filter (· != ref.lock) ∧
        w' = ends ref (.value result) w := by
  unfold ends settle
  cases hr : result.isRunning with
  | false =>
    simp only [hr, Bool.not_false, if_true, Bool.false_eq_true, if_false]
    rw [Prog.Performs.serve_iff rfl]
    simp only [Request.said, List.map_nil, List.nil_append, exists_eq_left']
    rw [Prog.Performs.serve_iff rfl]
    simp only [Request.said, List.map_nil, List.nil_append, exists_eq_left', Prog.Performs.pure_iff]
  | true =>
    simp only [hr, Bool.not_true, Bool.false_eq_true, if_true, if_false]
    rw [Prog.Performs.serve_iff rfl]
    simp only [Request.said, List.map_nil, List.nil_append, exists_eq_left', Prog.Performs.pure_iff]

/-- **A call of a memorized tick** is one of the tick inside, with the nodes of the
execution, and ends as that does. -/
theorem performs_run_iff {inner : List (Node I) → Prog I TickResult}
    {children nodes : List (Node I)} (hfree : ref.lock ∉ w.locked)
    (hexec : (execution ref children).Evaluates env caller joins [ref.lock] (w.hold ref.lock)
      (.value nodes) [ref.lock] w₁) :
    (run ref inner children).Performs env caller [] w events ending held' w' ↔
      ∃ held w₂, (inner nodes).Performs env caller [ref.lock] w₁ events ending held w₂ ∧
        match ending with
        | .value _ => held' = held.filter (· != ref.lock) ∧ w' = ends ref ending w₂
        | .panic _ => held' = held ∧ w' = w₂ := by
  unfold run
  refine (Prog.Performs.serve_iff (World.serve_acquire_hold hfree)).trans ?_
  constructor
  · rintro ⟨_, rfl, h⟩
    rcases (Prog.Performs.bind_iff (p := execution ref children)).mp h with
      ⟨payload, -, hpanic⟩ | ⟨a, _, _, _, rest, rfl, hopens, h⟩
    · cases ((performs_execution_iff hexec).mp hpanic).2.1
    obtain ⟨rfl, ha, rfl, rfl⟩ := (performs_execution_iff hexec).mp hopens
    cases ha
    rcases Prog.Performs.bind_iff.mp h with
      ⟨payload, rfl, hinner⟩ | ⟨result, held, w₂, first, second, rfl, hinner, h⟩
    · exact ⟨_, _, hinner, rfl, rfl⟩
    · obtain ⟨rfl, rfl, rfl, rfl⟩ := performs_settle_iff.mp h
      exact ⟨held, w₂, by simpa using hinner, rfl, rfl⟩
  · rintro ⟨held, w₂, hinner, hend⟩
    have hopens := (performs_execution_iff hexec).mpr ⟨rfl, rfl, rfl, rfl⟩
    refine ⟨events, rfl, hopens.bind ?_⟩
    cases ending with
    | value result =>
      obtain ⟨rfl, rfl⟩ := hend
      rw [← List.append_nil events]
      exact hinner.bind (performs_settle_iff.mpr ⟨rfl, rfl, rfl, rfl⟩)
    | panic payload =>
      obtain ⟨rfl, rfl⟩ := hend
      exact hinner.bind_panic

/-- So the memorized tick ends, if the tick inside holds no other lock at its end. -/
theorem performs_call_iff {inner : List (Node I) → Prog I TickResult}
    {children nodes : List (Node I)} (hfree : ref.lock ∉ w.locked)
    (hexec : (execution ref children).Evaluates env caller joins [ref.lock] (w.hold ref.lock)
      (.value nodes) [ref.lock] w₁)
    (hheld : ∀ {held w₂}, (inner nodes).Performs env caller [ref.lock] w₁ events ending held w₂ →
      held = [ref.lock]) :
    (∃ held w₂, (run ref inner children).Performs env caller [] w events ending held w₂ ∧
        w' = w₂.unlock held) ↔
      ∃ w₂, (inner nodes).Performs env caller [ref.lock] w₁ events ending [ref.lock] w₂ ∧
        w' = ends ref ending w₂ := by
  have hgiven : [ref.lock].filter (· != ref.lock) = [] := by simp
  simp only [performs_run_iff hfree hexec]
  constructor
  · rintro ⟨held, _, ⟨held₁, w₂, hinner, hends⟩, rfl⟩
    obtain rfl := hheld hinner
    refine ⟨w₂, hinner, ?_⟩
    cases ending with
    | value result =>
      obtain ⟨rfl, rfl⟩ := hends
      rw [hgiven, World.unlock_nil]
    | panic payload =>
      obtain ⟨rfl, rfl⟩ := hends
      rfl
  · rintro ⟨w₂, hinner, rfl⟩
    cases ending with
    | value result =>
      exact ⟨_, _, ⟨_, w₂, hinner, rfl, rfl⟩, by rw [hgiven, World.unlock_nil]⟩
    | panic payload => exact ⟨_, _, ⟨_, w₂, hinner, rfl, rfl⟩, rfl⟩

end

/-! ### Calls and executions -/

variable {ref : Ref .execution} {t : Tick (Family J C T)} {env : Environment (Family J C T) σ}
  {caller : Caller} {open? : Option (Execution J C T)} {w w₁ w₂ w' : World (Family J C T) σ}
  {call : FamilyCall J C T}

/-- The locks of the cells that the calls of a memorized tick use: its own, that of
the fork inside, and the records of the execution under way. -/
def Keeps (ref : Ref .execution) (t : Tick (Family J C T)) (w : World (Family J C T) σ)
    (lock : Lock) : Prop :=
  lock = ref.lock ∨ (∃ r ∈ t.round?, lock = r.lock) ∨
    ∃ nodes : List (Node (Family J C T)), w.heap.get ref = some nodes ∧
      ∃ node ∈ nodes, ∃ rec ∈ node.record?, lock = rec.lock

/-- Between two calls nobody touches these cells. -/
def Rests (ref : Ref .execution) (t : Tick (Family J C T)) (w w' : World (Family J C T) σ) : Prop :=
  ∀ {kind : CellKind} (s : Ref kind), Keeps ref t w s.lock → World.Spares s w w'

namespace Execution

/-- A call with these children begins with the execution that is open. If none is, it
begins one over its children, with records that are distinct and new. -/
def Begins (e : Execution J C T) (open? : Option (Execution J C T)) (children : List C)
    (w : World (Family J C T) σ) : Prop :=
  match open? with
  | some under => e = under
  | none => e.children = children ∧ e.turns = [] ∧ e.records.length = children.length ∧
      e.records.Nodup ∧ ∀ rec ∈ e.records, ¬ w.heap.Made rec

/-- The execution that is open after the call: a call that returns anything but running
ends it. -/
def after (e : Execution J C T) (call : FamilyCall J C T) : Option (Execution J C T) :=
  match call.ending with
  | .value result =>
    if result.isRunning then some { e with turns := e.turns ++ call.turns } else none
  | .panic _ => some { e with turns := e.turns ++ call.turns }

end Execution

/-- **The calls of a memorized tick as executions of the tick inside.** In each call
the tick inside is passed the nodes of its execution. The turns of the children follow
those that they have had in the execution, and the call ends as the tick inside does. -/
inductive Executes (env : Environment (Family J C T) σ) (ref : Ref .execution)
    (t : Tick (Family J C T)) : Option (Execution J C T) → World (Family J C T) σ →
      List (FamilyCall J C T) → Option (Execution J C T) → World (Family J C T) σ → Prop
  | none {now : Option (Execution J C T)} {w : World (Family J C T) σ} :
      Executes env ref t now w [] now w
  | call {now later : Option (Execution J C T)} {w w₀ w₁ w₂ w' : World (Family J C T) σ}
      {call : FamilyCall J C T} {calls} {caller : Caller} {e : Execution J C T} :
      Rests ref t w w₀ → e.Begins now call.children w₀ →
      (execution ref (call.children.map Family.node)).Performs env caller [ref.lock]
        (w₀.hold ref.lock) [] (.value e.nodes) [ref.lock] w₁ →
      (t.run e.nodes).Performs env caller [ref.lock] w₁ call.events call.ending [ref.lock] w₂ →
      e.Follows e.turns call.turns →
      Executes env ref t (e.after call) (ends ref call.ending w₂) calls later w' →
      Executes env ref t now w (call :: calls) later w'

/-- What a fork keeps between two calls: a cycle with the execution that is open, or
none. -/
def Cycles (open? : Option (Execution J C T)) (r : Ref .round) (w : World (Family J C T) σ) :
    Prop :=
  match open? with
  | some e => e.Forks r w
  | none => w.heap.get r = (Round.between : Round _)

/-- How the cells stand between two calls: the execution that is open is kept, its
records tell what has come of its turns, and the fork inside is in a cycle with it or
between two. -/
structure AtRest (ref : Ref .execution) (t : Tick (Family J C T))
    (open? : Option (Execution J C T)) (w : World (Family J C T) σ) : Prop where
  made : w.heap.Made ref
  unlocked : ref.lock ∉ w.locked
  cell : w.heap.get ref = open?.map Execution.nodes
  holds : ∀ e ∈ open?, e.Holds e.turns w
  rounds : ∀ r ∈ t.round?, w.heap.Made r ∧ r.lock ∉ w.locked ∧ Cycles open? r w

/-- How they stand while the tick inside runs against the nodes of the execution. -/
structure AtWork (ref : Ref .execution) (t : Tick (Family J C T)) (e : Execution J C T)
    (w : World (Family J C T) σ) : Prop where
  made : w.heap.Made ref
  cell : w.heap.get ref = some e.nodes
  holds : e.Holds e.turns w
  ready : Execution.Ready t [ref.lock] e w

namespace Execution

variable {e e' : Execution J C T}

theorem filterMap_nodes (e : Execution J C T) :
    e.nodes.filterMap Node.record? = e.pairs.map Prod.fst := by
  unfold nodes
  rw [List.filterMap_map, ← List.filterMap_eq_map]
  rfl

end Execution

/-- A call that goes on leaves its cell and the execution; any other closes both. -/
theorem after_ends {e : Execution J C T} :
    (e.after call = some { e with turns := e.turns ++ call.turns } ∧
        (ends ref call.ending w).heap = w.heap ∧
        ∀ result, call.ending = .value result → result.isRunning = true) ∨
      (e.after call = none ∧ (ends ref call.ending w).heap = w.heap.set ref none ∧
        ∀ result, call.ending = .value result → result.isRunning = false) := by
  unfold Execution.after ends settle
  cases call.ending with
  | panic payload => exact .inl ⟨rfl, rfl, nofun⟩
  | value result =>
    cases hr : result.isRunning with
    | true =>
      refine .inl ⟨if_pos hr, if_pos hr, ?_⟩
      rintro _ ⟨⟩
      exact hr
    | false =>
      refine .inr ⟨if_neg (by simp [hr]), if_neg (by simp [hr]), ?_⟩
      rintro _ ⟨⟩
      exact hr

namespace AtRest

theorem fresh (hfresh : w.Fresh ref) (hround : ∀ r ∈ t.round?, w.Fresh r) :
    AtRest ref t none w :=
  ⟨hfresh.made, hfresh.unlocked, hfresh.fresh, nofun,
    fun r hr => ⟨(hround r hr).made, (hround r hr).unlocked, (hround r hr).fresh⟩⟩

theorem rests (h : AtRest ref t open? w) (hrests : Rests ref t w w') : AtRest ref t open? w' := by
  have href := hrests ref (.inl rfl)
  refine ⟨href.made h.made, mt href.lock.mp h.unlocked, href.cell.trans h.cell, fun e he => ?_,
    fun r hr => ?_⟩
  · obtain ⟨hdistinct, hmade, hcell⟩ := h.holds e he
    have hspares : ∀ rec ∈ e.pairs.map Prod.fst, World.Spares rec w w' := by
      intro rec hrec
      have hnodes : w.heap.get ref = some e.nodes := h.cell.trans (by rw [he, Option.map_some])
      rw [← e.filterMap_nodes] at hrec
      obtain ⟨node, hnode, hrecord⟩ := List.mem_filterMap.mp hrec
      exact hrests rec (.inr (.inr ⟨e.nodes, hnodes, node, hnode, rec, hrecord, rfl⟩))
    exact ⟨hdistinct, fun rec hrec => (hspares rec hrec).made (hmade rec hrec),
      fun rec hrec => (hspares rec hrec).cell.trans (hcell rec hrec)⟩
  · obtain ⟨hmade, hfree, hcycle⟩ := h.rounds r hr
    have hspares := hrests r (.inr (.inl ⟨r, hr, rfl⟩))
    refine ⟨hspares.made hmade, mt hspares.lock.mp hfree, ?_⟩
    cases open? with
    | none => exact hspares.cell.trans hcycle
    | some e =>
      unfold Cycles Execution.Forks
      rw [hspares.cell]
      exact hcycle

/-- A call finds the execution that is open, or begins one. -/
theorem opens (h : AtRest ref t open? w) (env : Environment (Family J C T) σ) (caller : Caller)
    (joins : Joins (Family J C T) σ) (children : List C) :
    ∃ (e : Execution J C T) (w₁ : World (Family J C T) σ), e.Begins open? children w ∧
      AtWork ref t e w₁ ∧
      (execution ref (children.map Family.node)).Evaluates env caller joins [ref.lock]
        (w.hold ref.lock) (.value e.nodes) [ref.lock] w₁ := by
  have hround : ∀ r : Ref .round, r.lock ≠ ref.lock := fun r => Ref.lock_ne (by decide) r ref
  cases open? with
  | some e =>
    obtain ⟨hdistinct, hmade, hcell⟩ := h.holds e rfl
    refine ⟨e, w.hold ref.lock, rfl, ⟨h.made, h.cell, ⟨hdistinct, hmade, hcell⟩, fun r hr => ?_⟩,
      evaluates_execution h.cell⟩
    obtain ⟨hmade, hfree, hforks⟩ := h.rounds r hr
    exact ⟨hmade, by simpa [World.hold, hround r] using hfree, by simpa using hround r, hforks⟩
  | none =>
    obtain ⟨recs, heap', hexec, hlength, hnodup, hnew, -, hopen⟩ :=
      @evaluates_execution_none _ _ env caller joins [ref.lock] w.heap (ref.lock :: w.locked)
        w.outside ref (children.map Family.node) h.cell h.made
    rw [List.length_map] at hlength
    have hwithin := hexec.within ((all_execution ref _).mono fun _ h => h.2)
    let e : Execution J C T := ⟨children, recs, []⟩
    have hnodes : records recs (children.map Family.node) = e.nodes := by
      unfold records Execution.nodes Execution.pairs
      rw [List.zipWith_map_right, List.zip, List.map_zipWith]
      rfl
    have hrecs : e.pairs.map Prod.fst = recs := List.map_fst_zip hlength.le
    rw [hnodes] at hexec hopen
    refine ⟨e, _, ⟨rfl, rfl, hlength, hnodup, fun rec hrec => (hnew rec hrec).1⟩,
      ⟨hwithin.made h.made, hopen, ⟨hrecs.symm ▸ hnodup, ?_, ?_⟩, fun r hr => ?_⟩, hexec⟩
    · rw [hrecs]
      exact fun rec hrec => (hnew rec hrec).2.1
    · rw [hrecs]
      exact fun rec hrec => (hnew rec hrec).2.2
    · obtain ⟨hmade, hfree, hbetween⟩ := h.rounds r hr
      refine ⟨hwithin.made hmade, by simpa [hround r] using hfree, by simpa using hround r, ?_⟩
      exact Execution.forks_between ((hwithin.cell (hround r)).trans hbetween)

/-- Whatever execution a call begins with, the cells stand so when it has begun. -/
theorem runs (h : AtRest ref t open? w) {e : Execution J C T} {children : List C}
    (hbegins : e.Begins open? children w)
    (hexec : (execution ref (children.map Family.node)).Performs env caller [ref.lock]
      (w.hold ref.lock) [] (.value e.nodes) [ref.lock] w₁) :
    AtWork ref t e w₁ ∧ (execution ref (children.map Family.node)).Evaluates env caller
      (fun _ _ _ _ => False) [ref.lock] (w.hold ref.lock) (.value e.nodes) [ref.lock] w₁ := by
  obtain ⟨e', w', hbegins', hruns, hexec'⟩ := h.opens env caller (fun _ _ _ _ => False) children
  obtain ⟨-, hnodes, -, rfl⟩ := (performs_execution_iff hexec').mp hexec
  have hnodes : e.nodes = e'.nodes := by injection hnodes
  refine ⟨?_, hnodes ▸ hexec'⟩
  cases open? with
  | some under =>
    obtain rfl : e = under := hbegins
    obtain rfl : e' = e := hbegins'
    exact hruns
  | none =>
    obtain ⟨hdistinct, hmade, hcell⟩ := hruns.holds
    have hrecs : e.pairs.map Prod.fst = e'.pairs.map Prod.fst := by
      rw [← e.filterMap_nodes, hnodes, e'.filterMap_nodes]
    have hturns : e.turns = e'.turns := hbegins.2.1.trans hbegins'.2.1.symm
    refine ⟨hruns.made, hnodes ▸ hruns.cell, ⟨hrecs ▸ hdistinct, hrecs ▸ hmade,
      hrecs ▸ hturns ▸ hcell⟩, fun r hr => ?_⟩
    obtain ⟨hmade, hfree, hheld, hforks⟩ := hruns.ready r hr
    unfold Execution.Forks
    rw [hnodes]
    exact ⟨hmade, hfree, hheld, hforks⟩

end AtRest

/-- One call: the turns of the children follow, and the cells stand as they should. -/
theorem AtWork.proceeds {e : Execution J C T} {held : List Lock} (ht : t.isDirect)
    (h : AtWork ref t e w₁)
    (hinner : (t.run e.nodes).Performs env caller [ref.lock] w₁ call.events call.ending held w₂) :
    held = [ref.lock] ∧ e.Follows e.turns call.turns ∧
      AtRest ref t (e.after call) (ends ref call.ending w₂) := by
  obtain ⟨rfl, hfollows, hholds, hwithin, hsettled⟩ :=
    Execution.Holds.direct t ht h.holds h.ready hinner
  have huses : ¬ Execution.Uses t e ref.lock := by
    rintro (⟨rec, -, he⟩ | ⟨r, -, he⟩)
    · exact Ref.lock_ne (by decide) ref rec he
    · exact Ref.lock_ne (by decide) ref r he
  have hmade : w₂.heap.Made ref := hwithin.made h.made
  have hcell : w₂.heap.get ref = some e.nodes := (hwithin.cell huses).trans h.cell
  have hunlocked : ∀ {lock : Lock}, lock ∈ (ends ref call.ending w₂).locked →
      lock ∈ w₁.locked ∧ lock ≠ ref.lock := by
    intro lock hmem
    obtain ⟨hmem, hne⟩ := World.mem_unlock.mp hmem
    exact ⟨hwithin.locked ▸ hmem, by simpa using hne⟩
  have hround : ∀ r ∈ t.round?, w₂.heap.Made r ∧ r.lock ∉ (ends ref call.ending w₂).locked := by
    intro r hr
    obtain ⟨hmade, hfree, -⟩ := h.ready r hr
    exact ⟨hwithin.made hmade, fun hmem => hfree (hunlocked hmem).1⟩
  refine ⟨rfl, hfollows, ?_⟩
  rcases @after_ends _ _ _ _ ref w₂ call e with
    ⟨hafter, hheap, hrunning⟩ | ⟨hafter, hheap, hover⟩
  · rw [hafter]
    refine ⟨hheap ▸ hmade, fun hmem => (hunlocked hmem).2 rfl, hheap ▸ hcell, ?_, fun r hr => ?_⟩
    · rintro _ ⟨⟩
      exact ⟨hholds.distinct, hheap ▸ hholds.made, hheap ▸ hholds.cell⟩
    · obtain ⟨result, hending, hkept⟩ := hsettled r hr
      rw [if_pos (hrunning result hending)] at hkept
      refine ⟨hheap ▸ (hround r hr).1, (hround r hr).2, ?_⟩
      unfold Cycles Execution.Forks
      rw [hheap]
      exact hkept
  · rw [hafter]
    refine ⟨hheap ▸ (Heap.made_set _).mpr hmade, fun hmem => (hunlocked hmem).2 rfl, ?_, nofun,
      fun r hr => ?_⟩
    · rw [hheap]
      exact Heap.get_set hmade _
    · obtain ⟨result, hending, hkept⟩ := hsettled r hr
      rw [if_neg (by simp [hover result hending])] at hkept
      refine ⟨hheap ▸ (Heap.made_set _).mpr (hround r hr).1, (hround r hr).2, ?_⟩
      unfold Cycles
      rw [hheap]
      exact (Heap.get_set_kind (by decide) ref r _).trans hkept

/-- **Calls and executions.** From here on the memorized tick does just what the tick
inside does in the executions that follow. -/
theorem AtRest.calls_iff (ht : t.isDirect) {calls : List (FamilyCall J C T)}
    (h : AtRest ref t open? w) :
    Family.Calls env (Rests ref t) (.memorize ref t) w calls w' ↔
      ∃ later, Executes env ref t open? w calls later w' := by
  constructor
  · intro hcalls
    induction hcalls generalizing open? with
    | none => exact ⟨open?, .none⟩
    | @call w w₀ w₁ w' call calls caller held hrests hcall _ ih =>
      have h₀ := h.rests hrests
      obtain ⟨e, w₂, hbegins, hruns, hexec⟩ :=
        h₀.opens env caller (fun _ _ _ _ => False) call.children
      obtain ⟨w₃, hinner, hworld⟩ := (performs_call_iff h₀.unlocked hexec
        fun hinner => (hruns.proceeds ht hinner).1).mp ⟨held, w₁, hcall, rfl⟩
      obtain ⟨-, hfollows, hstands⟩ := hruns.proceeds ht hinner
      rw [hworld] at ih
      obtain ⟨later, hlater⟩ := ih hstands
      have hopens := (performs_execution_iff hexec).mpr ⟨rfl, rfl, rfl, rfl⟩
      exact ⟨later, .call hrests hbegins hopens hinner hfollows hlater⟩
  · rintro ⟨later, hexecutes⟩
    induction hexecutes with
    | none => exact .none
    | @call now later w w₀ w₁ w₂ w' call calls caller e hrests hbegins hopens hinner _ _ ih =>
      have h₀ := h.rests hrests
      obtain ⟨hruns, hexec⟩ := h₀.runs hbegins hopens
      obtain ⟨-, -, hstands⟩ := hruns.proceeds ht hinner
      obtain ⟨held, w₃, hcall, hworld⟩ := (performs_call_iff h₀.unlocked hexec
        fun hinner => (hruns.proceeds ht hinner).1).mpr ⟨w₂, hinner, rfl⟩
      exact .call hrests hcall (hworld ▸ ih hstands)

/-- **What a memorized tick does** is, call by call, what the tick inside does in its
executions, and all of that: whatever children the calls pass, whatever these come to,
and in whatever order and however often the tick inside ticks them. -/
theorem executions_law (env : Environment (Family J C T) σ) (ref : Ref .execution)
    (t : Tick (Family J C T)) (ht : t.isDirect) (w : World (Family J C T) σ) (hfresh : w.Fresh ref)
    (hround : ∀ r ∈ t.round?, w.Fresh r) (calls : List (FamilyCall J C T))
    (w' : World (Family J C T) σ) :
    Family.Calls env (Rests ref t) (.memorize ref t) w calls w' ↔
      ∃ later, Executes env ref t none w calls later w' :=
  (AtRest.fresh hfresh hround).calls_iff ht

/-- The code ticks its first child twice, which finishes in the first turn and is not
run in the second. The next call passes no child, and gets the same. -/
theorem executions_law_twice :
    let J : Interface := ⟨Empty, nofun⟩
    let env : Environment (Family J Unit Unit) Nat :=
      ⟨fun _ query calls => match query with
        | .other e => nomatch e
        | .expand _ => some ((some (), 0), calls)
        | .call _ _ => some (.returned (.ok .success), calls + 1), fun _ _ calls => calls⟩
    let code : (n : Nat) → Routine (Family J Unit Unit) n
      | 0 => .finish (.ok .failure)
      | _ + 1 => .tick 0 fun _ => .tick 0 fun _ => .finish (.ok .running)
    let child : Node (Family J Unit Unit) := wrapper (⟨0⟩, ())
    let runs : Turn (Family J Unit Unit) :=
      ⟨child, [⟨.expand (), (some (), 0)⟩, ⟨.call () (), .returned (.ok .success)⟩],
        .value (.ok .success)⟩
    let replays : Turn (Family J Unit Unit) :=
      ⟨child, [⟨.expand (), (some (), 0)⟩], .value (.ok .success)⟩
    let calls : List (FamilyCall J Unit Unit) :=
      [⟨[()], [.turn runs, .turn replays], .value (.ok .running)⟩,
        ⟨[], [.turn replays, .turn replays], .value (.ok .running)⟩]
    let w : World (Family J Unit Unit) Nat := ⟨(Heap.empty.alloc .execution).2, [], 0⟩
    ∃ later w', Executes env ⟨0⟩ (.custom code) none w calls later w' ∧ w'.outside = 1 := by
  intro J env code child runs replays calls w
  have hfresh : w.Fresh (⟨0⟩ : Ref .execution) := ⟨Nat.zero_lt_one, List.not_mem_nil, rfl⟩
  have hrests : ∀ w : World (Family J Unit Unit) Nat, Rests ⟨0⟩ (.custom code) w w :=
    fun w _ s _ => .refl s w
  let ref : Ref .execution := ⟨0⟩
  let t : Tick (Family J Unit Unit) := .memorize ref (.custom code)
  let opened := (w.heap.alloc .record).2.set ref (some [child])
  let heap := opened.set (⟨0⟩ : Ref .record) (some (.ok .success))
  have hruns : runs.Takes env default ⟨opened, [ref.lock], 0⟩ ⟨heap, [ref.lock], 1⟩ :=
    ⟨[], _, .serve rfl rfl (.serve rfl rfl (.serve rfl rfl (.serve rfl rfl (.pure rfl)))), rfl⟩
  have hreplays : replays.Takes env default ⟨heap, [ref.lock], 1⟩ ⟨heap, [ref.lock], 1⟩ :=
    ⟨[], _, .serve rfl rfl (.serve rfl rfl (.pure rfl)), rfl⟩
  have hfirst : (t.run [Family.node ()]).Performs env default [] w [.turn runs, .turn replays]
      (.value (.ok .running)) [] ⟨heap, [], 1⟩ :=
    .serve rfl (.serve rfl (.serve rfl (.serve rfl (.tick hruns (.tick hreplays
      (.serve rfl .pure))))))
  have hsecond : (t.run []).Performs env default [] ⟨heap, [], 1⟩ [.turn replays, .turn replays]
      (.value (.ok .running)) [] ⟨heap, [], 1⟩ :=
    .serve rfl (.serve rfl (.tick hreplays (.tick hreplays (.serve rfl .pure))))
  have hcalls : Family.Calls env (Rests ⟨0⟩ (.custom code)) t w calls ⟨heap, [], 1⟩ :=
    .call (hrests w) hfirst (.call (hrests _) hsecond .none)
  obtain ⟨later, hexecutes⟩ :=
    (executions_law env ⟨0⟩ (.custom code) rfl w hfresh nofun calls ⟨heap, [], 1⟩).mp hcalls
  exact ⟨later, ⟨heap, [], 1⟩, hexecutes, rfl⟩

end Memorize

end TickTree
