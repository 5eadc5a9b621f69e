/-
# Ticks against nodes that are alike

A tick that acts in its calls does with its children nothing but tick and expand them,
and keeps them in its own cells. So against nodes that are alike it does the same, if
its cells hold nodes that are alike. What nodes that are may be is left open: it has to
go together with the likeness of worlds in which the tick runs (`Likeness.Admits`), and
to be respected by the records and flags that ticks put around their children.

When such a tick returns anything but running it keeps none of the children.

Key definitions: `CellKind.Pairs`, `Likeness.Admits`, `CellKind.Vacant`.
Key theorems: `Tick.alike_run`, `Tick.vacates`.
-/
import TickTree.Proofs.Alongside
import TickTree.Proofs.Memorizing
import TickTree.Proofs.Overriding

namespace TickTree

variable {I : Interface} {σ K : Type}

/-! ### Nodes in cells -/

/-- The cycles are the same, over children that are related. -/
structure Round.Pairs (N : Node I → Node I → Prop) (r r' : Round I) : Prop where
  remaining : List.Forall₂ N r.remaining r'.remaining
  status : r'.status = r.status
  error : r'.error = r.error

/-- The states are the same up to the nodes in them, which are related. -/
def CellKind.Pairs (N : Node I → Node I → Prop) :
    (kind : CellKind) → kind.State I → kind.State I → Prop
  | .execution, (open? : Option (List (Node I))), open?' =>
    Option.Rel (List.Forall₂ N) open? open?'
  | .round, (r : Round I), r' => r.Pairs N r'
  | .jobs, (pool : List (Node I)), pool' => List.Forall₂ N pool pool'
  | _, state, state' => state' = state

/-- There are no nodes in the state. -/
def CellKind.Vacant : (kind : CellKind) → kind.State I → Prop
  | .execution, (open? : Option (List (Node I))) => open? = none
  | .round, (r : Round I) => r.remaining = []
  | .jobs, (pool : List (Node I)) => pool = []
  | _, _ => True

theorem CellKind.Pairs.imp {N N' : Node I → Node I → Prop} {kind : CellKind}
    {state state' : kind.State I} (h : kind.Pairs N state state')
    (hN : ∀ n n', N n n' → N' n n') : kind.Pairs N' state state' := by
  cases kind with
  | execution =>
    cases h with
    | none => exact .none
    | some hnodes => exact .some (hnodes.imp hN)
  | round => exact ⟨h.remaining.imp hN, h.status, h.error⟩
  | jobs => exact List.Forall₂.imp hN h
  | record | flag | statuses | worker => exact h

/-- Where there are no nodes it does not matter how nodes are related. -/
theorem CellKind.Pairs.of_vacant {N N' : Node I → Node I → Prop} {kind : CellKind}
    {state state' : kind.State I} (h : kind.Pairs N state state') (hvacant : kind.Vacant state) :
    kind.Pairs N' state state' := by
  cases kind with
  | execution =>
    obtain rfl : state = (none : Option (List (Node I))) := hvacant
    generalize hstate : (none : Option (List (Node I))) = open? at h
    cases h with
    | some => cases hstate
    | none => exact .none
  | round =>
    obtain ⟨hremaining, hstatus, herror⟩ := h
    rw [show Round.remaining state = [] from hvacant] at hremaining
    refine ⟨?_, hstatus, herror⟩
    rw [show Round.remaining state = [] from hvacant, List.forall₂_nil_left_iff.mp hremaining]
    exact .nil
  | jobs =>
    obtain rfl : state = ([] : List (Node I)) := hvacant
    obtain rfl : state' = ([] : List (Node I)) := List.forall₂_nil_left_iff.mp h
    exact .nil
  | record | flag | statuses | worker => exact h

namespace Round.Pairs

variable {N : Node I → Node I → Prop} {r r' : Round I} {nodes nodes' : List (Node I)}

theorem isEmpty (h : List.Forall₂ N nodes nodes') : nodes'.isEmpty = nodes.isEmpty := by
  cases h with
  | nil | cons => rfl

theorem begin (h : r.Pairs N r') (hnodes : List.Forall₂ N nodes nodes') :
    (r.begin nodes).Pairs N (r'.begin nodes') := by
  unfold Round.begin isBetween
  rw [h.status, h.error]
  by_cases hbetween : (r.status.isNone && r.error.isNone) = true
  · rw [if_pos hbetween, if_pos hbetween]
    exact ⟨hnodes, rfl, rfl⟩
  · rw [if_neg hbetween, if_neg hbetween]
    exact h

theorem fail (h : r.Pairs N r') (e : TickError) : (r.fail e).Pairs N (r'.fail e) :=
  ⟨h.remaining, rfl, by rw [Round.fail, Round.fail, h.error]⟩

theorem receive (h : r.Pairs N r') {n n' : Node I} (hn : N n n') (result : TickResult) :
    (r.receive n result).Pairs N (r'.receive n' result) := by
  match result with
  | .error e => exact h.fail e
  | .ok .running => exact ⟨List.rel_append h.remaining (.cons hn .nil), h.status, h.error⟩
  | .ok .success => exact h
  | .ok .failure => exact ⟨h.remaining, rfl, h.error⟩

theorem take (h : r.Pairs N r') (hnodes : List.Forall₂ N nodes nodes') (report : Report) :
    (Round.take nodes r report).Pairs N (Round.take nodes' r' report) := by
  unfold Round.take
  by_cases hlt : report.position < nodes.length
  · have hlt' : report.position < nodes'.length := hnodes.length_eq ▸ hlt
    rw [List.getElem?_eq_getElem hlt, List.getElem?_eq_getElem hlt']
    exact h.receive (hnodes.get hlt hlt') report.result
  · have hle : nodes.length ≤ report.position := Nat.le_of_not_lt hlt
    rw [List.getElem?_eq_none hle, List.getElem?_eq_none (hnodes.length_eq ▸ hle)]
    exact h

theorem absorb (h : r.Pairs N r') (hnodes : List.Forall₂ N nodes nodes')
    (reports : List Report) : (r.absorb nodes reports).Pairs N (r'.absorb nodes' reports) := by
  have hfold : (reports.foldl (Round.take nodes) r).Pairs N
      (reports.foldl (Round.take nodes') r') := by
    induction reports generalizing r r' with
    | nil => exact h
    | cons report reports ih => exact ih (h.take hnodes report)
  unfold Round.absorb
  rw [← hnodes.length_eq]
  by_cases hlost : reports.length < nodes.length
  · rw [if_pos hlost, if_pos hlost]
    exact hfold.fail _
  · rw [if_neg hlost, if_neg hlost]
    exact hfold

theorem verdict (h : r.Pairs N r') : r'.verdict = r.verdict := by
  unfold Round.verdict
  rw [isEmpty h.remaining, h.status, h.error]

theorem next (h : r.Pairs N r') : r.next.Pairs N r'.next := by
  unfold Round.next
  rw [isEmpty h.remaining]
  split
  · exact ⟨.nil, rfl, rfl⟩
  · exact h

theorem ticking (h : r.Pairs N r') : (Fork.ticking r).Pairs N (Fork.ticking r') :=
  ⟨.nil, h.status, h.error⟩

end Round.Pairs

/-! ### Ticks side by side -/

/-- What a tick may ask for in worlds that are alike, with these locks for its cells:
that these hold nodes that are related, and that nodes which are related are expanded
alike and stay related in its records and flags. -/
structure Likeness.Admits (L : Likeness I σ K) (env : Environment I σ) (mine : Lock → Prop)
    (N : Node I → Node I → Prop) : Prop where
  acquire : ∀ {kind : CellKind} {s : Ref kind}, mine s.lock →
    L.Serves env L.rest (.acquire kind s) (.acquire kind s) fun k _ _ => k = L.rest
  release : ∀ {kind : CellKind} {s : Ref kind}, mine s.lock →
    L.Serves env L.rest (.release kind s) (.release kind s) fun k _ _ => k = L.rest
  read : ∀ {kind : CellKind} {s : Ref kind}, mine s.lock →
    L.Serves env L.rest (.read kind s) (.read kind s) fun k state state' =>
      k = L.rest ∧ kind.Pairs N state state'
  swap : ∀ {kind : CellKind} {s : Ref kind} {state state' : kind.State I}, mine s.lock →
    kind.Pairs N state state' →
    L.Serves env L.rest (.swap kind s state) (.swap kind s state') fun k before before' =>
      k = L.rest ∧ kind.Pairs N before before'
  record : L.Serves env L.rest (.alloc .record) (.alloc .record) fun k rec rec' =>
    k = L.rest ∧ rec' = rec ∧ ∀ n n', N n n' → N (.memorized rec n) (.memorized rec n')
  flagged : ∀ {flag : Ref .flag} {n n' : Node I}, mine flag.lock → N n n' →
    N (.flagged flag n) (.flagged flag n')
  expand : ∀ {n n' : Node I}, N n n' → n.expand.Alike L env N (fun k expansion expansion' =>
    k = L.rest ∧ expansion'.1.isSome = expansion.1.isSome ∧
      expansion'.2.length = expansion.2.length) L.rest n'.expand

section

variable {L : Likeness I σ K} {env : Environment I σ} {mine : Lock → Prop}
  {N : Node I → Node I → Prop} {nodes nodes' : List (Node I)}

theorem Routine.alike_runAt (h : L.Admits env mine N) {n : Nat} {node node' : Fin n → Node I}
    (hnode : ∀ i, N (node i) (node' i)) (code : Routine I n) :
    (code.runAt node).Alike L env N L.Ends L.rest (code.runAt node') := by
  induction code with
  | finish result => exact .pure ⟨rfl, rfl⟩
  | panic payload => exact .panic
  | tick child next ih => exact .tick (hnode child) ih
  | expand child next ih =>
    refine (h.expand (hnode child)).bind fun _ _ _ he => ?_
    obtain ⟨rfl, hsome, hlength⟩ := he
    rw [hsome, hlength]
    exact ih _ _
  | ask query next ih =>
    refine .both (L.serves_ask env _ query) fun _ _ _ he => ?_
    obtain ⟨rfl, rfl⟩ := he
    exact ih _

theorem Routine.alike_run (h : L.Admits env mine N) (code : (n : Nat) → Routine I n)
    (hnodes : List.Forall₂ N nodes nodes') :
    ((code nodes.length).run nodes).Alike L env N L.Ends L.rest
      ((code nodes'.length).run nodes') := by
  rw [run_eq_runAt, run_eq_runAt]
  -- The code is given a number of children, which is the same on both sides by a lemma only.
  have hget : ∀ (n : Nat) (hn : n = nodes.length) (node' : Fin n → Node I),
      (∀ i, N (nodes.get (i.cast hn)) (node' i)) →
      ((code nodes.length).runAt nodes.get).Alike L env N L.Ends L.rest
        ((code n).runAt node') := by
    rintro n rfl node' hnode'
    exact alike_runAt h hnode' _
  exact hget _ hnodes.length_eq.symm _ fun i =>
    hnodes.get (i.cast hnodes.length_eq.symm).isLt i.isLt

theorem Composite.alike_runFrom (kind : Composite) (hnodes : List.Forall₂ N nodes nodes') :
    ∀ index soFar, (kind.runFrom index soFar nodes).Alike L env N L.Ends L.rest
      (kind.runFrom index soFar nodes') := by
  induction hnodes with
  | nil => exact fun _ _ => .pure ⟨rfl, rfl⟩
  | cons hnode _ ih =>
    intro index soFar
    refine .tick hnode fun result => ?_
    cases result with
    | error e => exact .pure ⟨rfl, rfl⟩
    | ok s =>
      change Prog.Alike L env N L.Ends L.rest (if kind.goesPast s then _ else _)
        (if kind.goesPast s then _ else _)
      split
      · exact ih _ _
      · exact .pure ⟨rfl, rfl⟩

theorem Memorize.alike_snapshot (h : L.Admits env mine N) (hnodes : List.Forall₂ N nodes nodes') :
    (snapshot nodes).Alike L env N (fun k nodes nodes' => k = L.rest ∧ List.Forall₂ N nodes nodes')
      L.rest (snapshot nodes') := by
  induction hnodes with
  | nil => exact .pure ⟨rfl, .nil⟩
  | cons hnode _ ih =>
    refine .both h.record fun _ rec _ he => ?_
    obtain ⟨rfl, rfl, hmemorized⟩ := he
    refine ih.bind fun _ rest rest' he => ?_
    obtain ⟨rfl, hrest⟩ := he
    exact .pure ⟨rfl, .cons (hmemorized _ _ hnode) hrest⟩

theorem Memorize.alike_execution (h : L.Admits env mine N) {ref : Ref .execution}
    (hmine : mine ref.lock) (hnodes : List.Forall₂ N nodes nodes') :
    (execution ref nodes).Alike L env N
      (fun k nodes nodes' => k = L.rest ∧ List.Forall₂ N nodes nodes') L.rest
      (execution ref nodes') := by
  refine .both (h.read hmine) fun _ open? open?' he => ?_
  obtain ⟨rfl, hopen⟩ := he
  cases hopen with
  | some hunder => exact .pure ⟨rfl, hunder⟩
  | none =>
    refine (alike_snapshot h hnodes).bind fun _ nodes nodes' he => ?_
    obtain ⟨rfl, hnodes⟩ := he
    refine .both (h.swap hmine (.some hnodes)) fun _ _ _ he => ?_
    obtain ⟨rfl, -⟩ := he
    exact .pure ⟨rfl, hnodes⟩

theorem Memorize.alike_run (h : L.Admits env mine N) {ref : Ref .execution} (hmine : mine ref.lock)
    {inner : List (Node I) → Prog I TickResult} (hinner : ∀ {nodes nodes'},
      List.Forall₂ N nodes nodes' → (inner nodes).Alike L env N L.Ends L.rest (inner nodes'))
    (hnodes : List.Forall₂ N nodes nodes') :
    (run ref inner nodes).Alike L env N L.Ends L.rest (run ref inner nodes') := by
  refine .both (h.acquire hmine) fun _ _ _ he => ?_
  subst he
  refine (alike_execution h hmine hnodes).bind fun _ nodes nodes' he => ?_
  obtain ⟨rfl, hnodes⟩ := he
  refine (hinner hnodes).bind fun _ _ result he => ?_
  obtain ⟨rfl, rfl⟩ := he
  have hrest : (Prog.request (.release .execution ref) fun _ =>
      (Prog.pure result : Prog I TickResult)).Alike L env N L.Ends L.rest
      (Prog.request (.release .execution ref) fun _ => Prog.pure result) :=
    .both (h.release hmine) fun _ _ _ he => .pure ⟨he, rfl⟩
  change Prog.Alike L env N L.Ends L.rest (if !result.isRunning then _ else _)
    (if !result.isRunning then _ else _)
  split
  · refine .both (h.swap hmine .none) fun _ _ _ he => ?_
    obtain ⟨rfl, -⟩ := he
    exact hrest
  · exact hrest

theorem Fork.alike_run (h : L.Admits env mine N) {ref : Ref .round} (hmine : mine ref.lock)
    (hnodes : List.Forall₂ N nodes nodes') :
    (run ref nodes).Alike L env N L.Ends L.rest (run ref nodes') := by
  have hrest : ∀ {ended ended' : Round I}, ended.Pairs N ended' →
      (Prog.request (.swap .round ref ended.next) fun _ => .request (.release .round ref) fun _ =>
        (.pure ended.verdict : Prog I TickResult)).Alike L env N L.Ends L.rest
      (Prog.request (.swap .round ref ended'.next) fun _ => .request (.release .round ref) fun _ =>
        .pure ended'.verdict) := by
    intro ended ended' hended
    refine .both (h.swap hmine hended.next) fun _ _ _ he => ?_
    obtain ⟨rfl, -⟩ := he
    exact .both (h.release hmine) fun _ _ _ he => .pure ⟨he, hended.verdict⟩
  refine .both (h.acquire hmine) fun _ _ _ he => ?_
  subst he
  refine .both (h.read hmine) fun _ (before : Round I) (before' : Round I) he => ?_
  obtain ⟨rfl, hbefore⟩ := he
  have hcycle := Round.Pairs.begin hbefore hnodes
  refine .both (h.swap hmine hcycle.ticking) fun _ _ _ he => ?_
  obtain ⟨rfl, -⟩ := he
  change Prog.Alike L env N L.Ends L.rest
    (if (before.begin nodes).remaining.isEmpty then _ else _)
    (if (before'.begin nodes').remaining.isEmpty then _ else _)
  rw [Round.Pairs.isEmpty hcycle.remaining]
  split
  · exact hrest hcycle.ticking
  · exact .parallel hcycle.remaining fun reports =>
      hrest (hcycle.ticking.absorb hcycle.remaining reports)

theorem AnySuccess.alike_run (h : L.Admits env mine N) {flag : Ref .flag} (hmine : mine flag.lock)
    {inner : List (Node I) → Prog I TickResult} (hinner : ∀ {nodes nodes'},
      List.Forall₂ N nodes nodes' → (inner nodes).Alike L env N L.Ends L.rest (inner nodes'))
    (hnodes : List.Forall₂ N nodes nodes') :
    (run flag inner nodes).Alike L env N L.Ends L.rest (run flag inner nodes') := by
  have hflagged : List.Forall₂ N (nodes.map (.flagged flag)) (nodes'.map (.flagged flag)) := by
    rw [List.forall₂_map_left_iff, List.forall₂_map_right_iff]
    exact hnodes.imp fun _ _ => h.flagged hmine
  have hlower : ∀ {f : Bool → TickResult},
      (Prog.request (.swap .flag flag false) fun raised => .pure (f raised)).Alike L env N L.Ends
        L.rest (Prog.request (.swap .flag flag false) fun raised => .pure (f raised)) := by
    intro f
    refine .both (h.swap hmine (by rfl)) fun _ _ _ he => ?_
    obtain ⟨rfl, rfl⟩ := he
    exact .pure ⟨rfl, rfl⟩
  rw [run_eq_settle, run_eq_settle]
  refine (hinner hflagged).bind fun _ _ result he => ?_
  obtain ⟨rfl, rfl⟩ := he
  match result with
  | .ok .running => exact .pure ⟨rfl, rfl⟩
  | .ok .success | .ok .failure | .error e => exact hlower

/-- **A tick that acts in its calls does the same** against nodes that are alike. -/
theorem Tick.alike_run (h : L.Admits env mine N) : ∀ (t : Tick I), t.actsInCalls →
    (∀ lock, t.Keeps lock → mine lock) → ∀ {nodes nodes' : List (Node I)},
      List.Forall₂ N nodes nodes' → (t.run nodes).Alike L env N L.Ends L.rest (t.run nodes')
  | .const _, _, _, _, _, _ => .pure ⟨rfl, rfl⟩
  | .custom code, _, _, _, _, hnodes => Routine.alike_run h code hnodes
  | .composite kind, _, _, _, _, hnodes => kind.alike_runFrom hnodes 0 kind.initial
  | .fork _, _, hmine, _, _, hnodes =>
    Fork.alike_run h (hmine _ ⟨_, List.mem_singleton.mpr rfl, rfl⟩) hnodes
  | .not inner, ht, hmine, _, _, hnodes =>
    (alike_run h inner ht hmine hnodes).bind fun _ _ _ he => .pure ⟨he.1, congrArg _ he.2⟩
  | .exitOnFailure inner, ht, hmine, _, _, hnodes =>
    (alike_run h inner ht hmine hnodes).bind fun _ _ _ he => .pure ⟨he.1, congrArg _ he.2⟩
  | .memorize _ inner, ht, hmine, _, _, hnodes =>
    Memorize.alike_run h (hmine _ ⟨_, List.mem_cons_self, rfl⟩)
      (alike_run h inner ht fun lock hlock =>
        hmine lock (hlock.imp fun _ hcell => ⟨.tail _ hcell.1, hcell.2⟩)) hnodes
  | .any _ inner, ht, hmine, _, _, hnodes =>
    AnySuccess.alike_run h (hmine _ ⟨_, List.mem_cons_self, rfl⟩)
      (alike_run h inner ht fun lock hlock =>
        hmine lock (hlock.imp fun _ hcell => ⟨.tail _ hcell.1, hcell.2⟩)) hnodes
  | .ask _ _, ht, _, _, _, _ | .background _ _, ht, _, _, _, _ | .async _ _, ht, _, _, _, _
  | .recording _ _, ht, _, _, _, _ | .flagging _ _, ht, _, _, _, _
  | .gated _ _ _, ht, _, _, _, _ => nomatch ht
termination_by structural t => t

end

/-! ### What is kept at the end -/

section

variable {env : Environment I σ} {caller : Caller} {held held' : List Lock} {w w' : World I σ}
  {events : List (Event I)} {result : TickResult}

/-- What holds of a cell, and of what another is set to, holds of the cell then. -/
theorem Heap.get_set_of {P : (kind : CellKind) → kind.State I → Prop} {h : Heap I}
    {kind kind' : CellKind} {r : Ref kind} {s : Ref kind'} {state : kind.State I}
    (hr : P kind state) (hs : P kind' (h.get s)) : P kind' ((h.set r state).get s) := by
  by_cases hlock : r.lock = s.lock
  · obtain rfl : kind = kind' := congrArg Lock.kind hlock
    obtain rfl := Ref.eq_of_lock_eq hlock
    by_cases hmade : h.Made r
    · rwa [Heap.get_set hmade]
    · rwa [Heap.get_set_of_not_made hmade]
  · rwa [Heap.get_set_of_lock_ne hlock]

/-- A cell that was set to a state without nodes holds none, or else was never made. -/
theorem Heap.vacant_set {h : Heap I} {kind : CellKind} {r : Ref kind} {state : kind.State I}
    (hstate : kind.Vacant state) : kind.Vacant ((h.set r state).get r) := by
  by_cases hmade : h.Made r
  · rwa [Heap.get_set hmade]
  · rw [Heap.get_of_not_made (mt (Heap.made_set _).mp hmade)]
    cases kind with
    | execution | round | jobs => rfl
    | record | flag | statuses | worker => trivial

/-- A memorized tick ends an execution as the tick inside ends. -/
theorem Memorize.value_of_performs_run {ref : Ref .execution}
    {inner : List (Node I) → Prog I TickResult} {nodes : List (Node I)}
    (h : (run ref inner nodes).Performs env caller held w events (.value result) held' w') :
    ∃ under held₁ w₁ events₁ held₂ w₂,
      (inner under).Performs env caller held₁ w₁ events₁ (.value result) held₂ w₂ ∧
        w'.heap = settle ref result w₂.heap := by
  obtain ⟨-, h⟩ := Prog.Performs.acquire_iff.mp h
  rcases (Prog.Performs.bind_iff (p := execution ref nodes)).mp h with
    ⟨_, he, -⟩ | ⟨under, held₁, w₁, _, rest, -, -, h⟩
  · cases he
  rcases Prog.Performs.bind_iff.mp h with ⟨_, he, -⟩ | ⟨_, held₂, w₂, first, _, -, hinner, h⟩
  · cases he
  obtain ⟨-, he, -, rfl⟩ := performs_settle_iff.mp h
  cases he
  exact ⟨under, held₁, w₁, first, held₂, w₂, hinner, rfl⟩

theorem Fork.vacates {ref : Ref .round} {nodes : List (Node I)}
    (h : (run ref nodes).Performs env caller held w events (.value result) held' w')
    (hresult : result.isRunning = false) : CellKind.round.Vacant (w'.heap.get ref) := by
  obtain ⟨hfree, -⟩ := Prog.Performs.acquire_iff.mp h
  obtain ⟨ended, w₁, -, he, -, rfl⟩ := performs_run hfree rfl h
  cases he
  have hover : ended.remaining.isEmpty := by
    by_contra hgoes
    rw [Round.verdict, if_neg hgoes] at hresult
    cases hresult
  have hnext : ended.next.remaining = [] := congrArg Round.remaining (if_pos hover)
  exact Heap.vacant_set hnext

/-- A record is none of the cells that a tick keeps from call to call. -/
theorem Tick.record_not_mem_cells {I : Interface} {rec : Ref .record} :
    ∀ t : Tick I, ⟨_, rec⟩ ∉ t.cells
  | .fork _, hmem => nomatch List.mem_singleton.mp hmem
  | .memorize _ inner, hmem | .any _ inner, hmem =>
    (List.mem_cons.mp hmem).elim nofun inner.record_not_mem_cells
  | .not inner, hmem | .exitOnFailure inner, hmem => inner.record_not_mem_cells hmem
  | .const _, hmem | .custom _, hmem | .composite _, hmem | .ask _ _, hmem | .background _ _, hmem
  | .async _ _, hmem | .recording _ _, hmem | .flagging _ _, hmem | .gated _ _ _, hmem =>
    nomatch hmem
termination_by structural t => t

/-- **A tick that has returned anything but running keeps no nodes**, if it acts in its
calls. -/
theorem Tick.vacates : ∀ (t : Tick I), t.actsInCalls → ∀ {nodes : List (Node I)}
    {held held' : List Lock} {w w' : World I σ} {events : List (Event I)} {result : TickResult},
    (t.run nodes).Performs env caller held w events (.value result) held' w' →
    result.isRunning = false → ∀ cell ∈ t.cells, cell.1.Vacant (w'.heap.get cell.2)
  | .const _, _, _, _, _, _, _, _, _, _, _ | .custom _, _, _, _, _, _, _, _, _, _, _
  | .composite _, _, _, _, _, _, _, _, _, _, _ => fun _ hmem => absurd hmem List.not_mem_nil
  | .fork _, _, _, _, _, _, _, _, _, h, hresult =>
    List.forall_mem_singleton.mpr (Fork.vacates h hresult)
  | .not inner, ht, _, _, _, _, _, _, _, h, hresult => by
    rcases Prog.Performs.bind_iff.mp h with ⟨_, he, -⟩ | ⟨result, _, _, _, _, -, hinner, h⟩
    · cases he
    obtain ⟨-, he, -, rfl⟩ := Prog.Performs.pure_iff.mp h
    cases he
    exact vacates inner ht hinner (result.isRunning_invert ▸ hresult)
  | .exitOnFailure inner, ht, _, _, _, _, _, _, _, h, hresult => by
    rcases Prog.Performs.bind_iff.mp h with ⟨_, he, -⟩ | ⟨result, _, _, _, _, -, hinner, h⟩
    · cases he
    obtain ⟨-, he, -, rfl⟩ := Prog.Performs.pure_iff.mp h
    cases he
    exact vacates inner ht hinner (result.isRunning_exitOnFailure ▸ hresult)
  | .memorize _ inner, ht, _, _, _, _, _, _, _, h, hresult => by
    obtain ⟨_, _, _, _, _, w₂, hinner, hheap⟩ := Memorize.value_of_performs_run h
    have hvacant := vacates inner ht hinner hresult
    rw [hheap, Memorize.settle, if_neg (by simp [hresult])]
    exact List.forall_mem_cons.mpr ⟨Heap.vacant_set rfl, fun cell hmem =>
      Heap.get_set_of rfl (hvacant cell hmem)⟩
  | .any flag inner, ht, _, _, _, _, _, _, result, h, hresult => by
    obtain ⟨first, w₁, hinner, hfirst, rfl⟩ := AnySuccess.performs_run_iff.mp h
    cases first with
    | panic payload => cases hfirst
    | value before =>
      have hbefore : before.isRunning = false := by
        match before with
        | .ok .running =>
          cases hfirst
          cases hresult
        | .ok .success | .ok .failure | .error e => rfl
      have hvacant := vacates inner ht hinner hbefore
      refine List.forall_mem_cons.mpr ⟨trivial, fun cell hmem => ?_⟩
      unfold AnySuccess.lowered
      split
      · exact hvacant cell hmem
      · exact Heap.get_set_of (P := CellKind.Vacant) trivial (hvacant cell hmem)
  | .ask _ _, ht, _, _, _, _, _, _, _, _, _ | .background _ _, ht, _, _, _, _, _, _, _, _, _
  | .async _ _, ht, _, _, _, _, _, _, _, _, _ | .recording _ _, ht, _, _, _, _, _, _, _, _, _
  | .flagging _ _, ht, _, _, _, _, _, _, _, _, _
  | .gated _ _ _, ht, _, _, _, _, _, _, _, _, _ => nomatch ht
termination_by structural t => t

end

end TickTree
