/-
# Stateless trees as formulas

A tree of composites, each under any number of negations, keeps nothing between
calls. With a truth value for each of its leaves it is a Boolean formula: a sequence is
a conjunction, a selector a disjunction, and `all` a conjunction that reads every part.
The leaves are any nodes at all, and may keep what they like.

A tick of the root calls leaves one after another, depth first and from left to right,
until one answers running, an error, or nothing because it panics. What that one
answers is what the root answers, under the tags of the sequences and selectors that
lead to it. If there is no such leaf, the leaves called are those that a short-circuit
evaluation of the formula reads, and the root answers its value.

Key definitions: `Formula`, `Formula.leaves`, `Formula.value`, `Formula.reads`,
`Formula.layers`, `Formula.Calls`, `Formula.Tells`.
Key theorems: `Formula.tells`, `Formula.answers`, `Formula.evaluation_law`.
-/
import TickTree.Proofs.Among
import Mathlib.Data.List.Nodup
import Mathlib.Logic.Function.Iterate

namespace TickTree

variable {I : Interface} {σ : Type}

/-! ### Formulas -/

/-- A tree of composites, each under a number of negations, over any nodes. -/
inductive Formula (I : Interface) where
  | leaf (node : Node I)
  | branch (negations : Nat) (kind : Composite) (parts : List (Formula I))

/-- A tick under a number of negations. -/
def Tick.negated (tick : Tick I) : Nat → Tick I
  | 0 => tick
  | n + 1 => .not (tick.negated n)

namespace Composite

/-- The truth value of a composite over parts with these values. -/
def holds : Composite → List Bool → Bool
  | selector, bs => bs.any id
  | _, bs => bs.all id

/-- Does a part with this value decide the composite, whatever comes after it? -/
def decides : Composite → Bool → Bool
  | sequence, b => !b
  | selector, b => b
  | all, _ => false

/-- The tag of an error of part number `i`. -/
def tags : Composite → Nat → List (String × Nat)
  | sequence, i => [("Sequence", i)]
  | selector, i => [("Selector", i)]
  | all, _ => []

end Composite

namespace Formula

/-- A leaf where it stands in a tree: the indices of the parts that lead to it, and its
node. -/
structure Occurrence (I : Interface) where
  path : List Nat
  node : Node I

/-- The occurrence as seen from a branch that has the tree as part number `i`. -/
def Occurrence.under (i : Nat) (o : Occurrence I) : Occurrence I := { o with path := i :: o.path }

mutual

/-- A formula as a node. -/
def node : Formula I → Node I
  | leaf node => node
  | branch n kind parts => .of ((Tick.composite kind).negated n) (nodes parts)
termination_by structural f => f

/-- Formulas as nodes. -/
def nodes : List (Formula I) → List (Node I)
  | [] => []
  | f :: fs => f.node :: nodes fs
termination_by structural fs => fs

end

mutual

/-- The leaves of a formula, depth first and from left to right. -/
def leaves : Formula I → List (Occurrence I)
  | leaf node => [⟨[], node⟩]
  | branch _ _ parts => leavesFrom parts 0
termination_by structural f => f

/-- The leaves of the parts from number `i` on. -/
def leavesFrom : List (Formula I) → Nat → List (Occurrence I)
  | [], _ => []
  | f :: fs, i => f.leaves.map (.under i) ++ leavesFrom fs (i + 1)
termination_by structural fs => fs

end

mutual

/-- The value of a formula whose leaves have these values. -/
def value : Formula I → (List Nat → Bool) → Bool
  | leaf _, val => val []
  | branch n kind parts, val => Bool.not^[n] (kind.holds (valuesFrom parts val 0))
termination_by structural f => f

/-- The values of the parts from number `i` on. -/
def valuesFrom : List (Formula I) → (List Nat → Bool) → Nat → List Bool
  | [], _, _ => []
  | f :: fs, val, i => f.value (fun path => val (i :: path)) :: valuesFrom fs val (i + 1)
termination_by structural fs => fs

end

mutual

/-- The leaves that a short-circuit evaluation of a formula reads, in its order. -/
def reads : Formula I → (List Nat → Bool) → List (List Nat)
  | leaf _, _ => [[]]
  | branch _ kind parts, val => readsFrom parts kind val 0
termination_by structural f => f

/-- The leaves that it reads in the parts from number `i` on. -/
def readsFrom : List (Formula I) → Composite → (List Nat → Bool) → Nat → List (List Nat)
  | [], _, _, _ => []
  | f :: fs, kind, val, i =>
    (f.reads fun path => val (i :: path)).map (i :: ·) ++
      if kind.decides (f.value fun path => val (i :: path)) then [] else readsFrom fs kind val (i + 1)
termination_by structural fs => fs

end

mutual

/-- The tags that an error collects on its way up from the leaf at the end of a path,
outermost first: one for each sequence and selector on the way. -/
def layers : Formula I → List Nat → List (String × Nat)
  | leaf _, _ => []
  | branch _ kind parts, path => layersFrom parts kind 0 path
termination_by structural f => f

/-- The tags of a path into the parts from number `i` on. -/
def layersFrom : List (Formula I) → Composite → Nat → List Nat → List (String × Nat)
  | [], _, _, _ => []
  | _, _, _, [] => []
  | f :: fs, kind, i, j :: path =>
    if j = i then kind.tags i ++ f.layers path else layersFrom fs kind (i + 1) (j :: path)
termination_by structural fs => fs

end

/-- Induction over a formula, with the parts as members of their list. -/
@[induction_eliminator]
theorem induct {P : Formula I → Prop} (leaf : ∀ node, P (.leaf node))
    (branch : ∀ n kind fs, (∀ f ∈ fs, P f) → P (.branch n kind fs)) (f : Formula I) : P f :=
  @Formula.rec I P (fun fs => ∀ f ∈ fs, P f) leaf branch (fun _ hf => absurd hf List.not_mem_nil)
    (fun _ _ hf hfs _ hg => (List.mem_cons.mp hg).elim (fun he => he ▸ hf) (hfs _)) f

/-- The leaves of the parts from number `i` on stand under a part from number `i` on. -/
theorem mem_leavesFrom {fs : List (Formula I)} {i : Nat} {o : Occurrence I}
    (ho : o ∈ leavesFrom fs i) : ∃ j path, o.path = j :: path ∧ i ≤ j := by
  induction fs generalizing i with
  | nil => exact absurd ho List.not_mem_nil
  | cons f fs ih =>
    rcases List.mem_append.mp ho with ho | ho
    · obtain ⟨o, _, rfl⟩ := List.mem_map.mp ho
      exact ⟨i, o.path, rfl, Nat.le_refl i⟩
    · obtain ⟨j, path, hpath, hle⟩ := ih ho
      exact ⟨j, path, hpath, by omega⟩

/-- The leaves come in the order of their paths, so no two have the same path. -/
theorem leaves_sorted (f : Formula I) : (f.leaves.map Occurrence.path).Pairwise (· < ·) := by
  induction f with
  | leaf node => exact List.pairwise_singleton _ _
  | branch n kind fs ih =>
    show ((leavesFrom fs 0).map Occurrence.path).Pairwise (· < ·)
    generalize 0 = i
    induction fs generalizing i with
    | nil => exact .nil
    | cons f fs ihfs =>
      have hf := ih f List.mem_cons_self
      rw [leavesFrom, List.map_append, List.pairwise_append]
      refine ⟨?_, ihfs (fun g hg => ih g (List.mem_cons_of_mem f hg)) _, ?_⟩
      · rw [List.map_map, List.pairwise_map]
        rw [List.pairwise_map] at hf
        exact hf.imp fun hlt => List.Lex.cons hlt
      · intro p hp q hq
        obtain ⟨o, ho, rfl⟩ := List.mem_map.mp hp
        obtain ⟨o, _, rfl⟩ := List.mem_map.mp ho
        obtain ⟨o', ho', rfl⟩ := List.mem_map.mp hq
        obtain ⟨j, path, hpath, hle⟩ := mem_leavesFrom ho'
        rw [hpath]
        exact List.Lex.rel (by omega)

end Formula

/-! ### How calls end -/

/-- The status that tells a truth value. -/
def Status.ofBool : Bool → Status
  | true => success
  | false => failure

/-- The error under tags, outermost first. -/
def TickError.tagged (layers : List (String × Nat)) (e : TickError) : TickError :=
  layers.foldr (fun layer e => .child layer.1 layer.2 e) e

/-- Without its tags the error is what it was, and the tags are in front of its own. -/
theorem TickError.peel_tagged (layers : List (String × Nat)) (e : TickError) :
    (e.tagged layers).peel = (layers ++ e.peel.1, e.peel.2) := by
  induction layers with
  | nil => rfl
  | cons layer layers ih =>
    show (TickError.child layer.1 layer.2 (e.tagged layers)).peel = _
    rw [peel, ih]
    rfl

namespace Ending

/-- The call ends with this truth value. -/
def verdict (b : Bool) : Ending TickResult := .value (.ok (.ofBool b))

/-- The call ends with a truth value: not with running, an error or a panic. -/
def Settles (ending : Ending TickResult) : Prop := ∃ b, ending = verdict b

/-- The same end, with an error under tags. -/
def tagged (layers : List (String × Nat)) : Ending TickResult → Ending TickResult
  | .value (.error e) => .value (.error (e.tagged layers))
  | ending => ending

/-- The end of the same call under a number of negations. -/
def inverted (n : Nat) (ending : Ending TickResult) : Ending TickResult :=
  ending.map TickResult.invert^[n]

variable {ending : Ending TickResult} {b : Bool} {layers : List (String × Nat)}

@[simp] theorem tagged_nil : ending.tagged [] = ending := by
  rcases ending with (_ | _) | _ <;> rfl

theorem tagged_append (layers' : List (String × Nat)) :
    ending.tagged (layers ++ layers') = (ending.tagged layers').tagged layers := by
  rcases ending with (e | _) | _
  · show value (Except.error (e.tagged _)) = _
    rw [TickError.tagged, List.foldr_append]
    rfl
  · rfl
  · rfl

theorem tagged_eq_verdict : ending.tagged layers = verdict b ↔ ending = verdict b := by
  rcases ending with (_ | _) | _
  · exact ⟨nofun, nofun⟩
  · exact Iff.rfl
  · exact Iff.rfl

theorem settles_tagged : (ending.tagged layers).Settles ↔ ending.Settles :=
  exists_congr fun _ => tagged_eq_verdict

theorem verdict_injective : Function.Injective verdict := by
  rintro (_ | _) (_ | _) h
  · rfl
  · cases h
  · cases h
  · rfl

theorem inverted_succ (n : Nat) :
    ending.inverted (n + 1) = (ending.inverted n).map TickResult.invert := by
  cases ending with
  | value result => exact congrArg value (Function.iterate_succ_apply' ..)
  | panic => rfl

theorem inverted_verdict (n : Nat) : (verdict b).inverted n = verdict (Bool.not^[n] b) := by
  induction n with
  | zero => rfl
  | succ n ih =>
    rw [inverted_succ, ih, Function.iterate_succ_apply']
    cases Bool.not^[n] b <;> rfl

/-- Negations leave alone what is no truth value. -/
theorem inverted_of_not_settles (h : ¬ ending.Settles) (n : Nat) : ending.inverted n = ending := by
  induction n with
  | zero => cases ending <;> rfl
  | succ n ih =>
    rw [inverted_succ, ih]
    rcases ending with (_ | s) | _
    · rfl
    · cases s with
      | running => rfl
      | success => exact absurd ⟨true, rfl⟩ h
      | failure => exact absurd ⟨false, rfl⟩ h
    · rfl

end Ending

namespace Formula

/-- A call of a leaf, and how it ended. -/
structure Call (I : Interface) extends Occurrence I where
  ending : Ending TickResult

/-- The call as seen from a branch that has the tree as part number `i`. -/
def Call.under (i : Nat) (c : Call I) : Call I := { c with path := i :: c.path }

/-- The calls of leaves, one after another, with changes by others around them. -/
inductive Calls (env : Environment I σ) (others : Others I σ) (caller : Caller) :
    World I σ → List (Call I) → World I σ → Prop
  | none {w w'} : others.change w w' → Calls env others caller w [] w'
  | next {w w₀ w₁ w' c calls} : others.change w w₀ →
      c.node.Ticked env others caller w₀ c.ending w₁ → Calls env others caller w₁ calls w' →
      Calls env others caller w (c :: calls) w'

/-- The leaves that have ended with a truth value have the value that `val` gives them. -/
def Agrees (val : List Nat → Bool) (calls : List (Call I)) : Prop :=
  ∀ c ∈ calls, ∀ b, c.ending = .verdict b → val c.path = b

/-- What a tick of a formula that calls these leaves has to do with how it ends. -/
structure Tells (f : Formula I) (calls : List (Call I)) (ending : Ending TickResult) : Prop where
  /-- The calls are of leaves of the formula, in their order, no leaf twice. -/
  order : (calls.map Call.toOccurrence).Sublist f.leaves
  /-- A call after which there is another ends with a truth value. -/
  goesOn : calls.Pairwise fun c _ => c.ending.Settles
  /-- Anything else is the end of the tick, an error with the tags of its path. -/
  stops : ∀ c ∈ calls, ¬ c.ending.Settles → ending = c.ending.tagged (f.layers c.path)
  /-- The calls are the first that a short-circuit evaluation makes. -/
  follows : ∀ val, Agrees val calls → calls.map (·.path) <+: f.reads val
  /-- If all calls end with truth values, they are all that the evaluation makes, and the
  tick ends with its value. -/
  settles : (∀ c ∈ calls, c.ending.Settles) → ∀ val, Agrees val calls →
    ending = .verdict (f.value val) ∧ calls.map (·.path) = f.reads val

/-- The same of the parts from number `i` on, when the parts before have come to `acc`. -/
structure TellsFrom (kind : Composite) (acc : Bool) (i : Nat) (fs : List (Formula I))
    (calls : List (Call I)) (ending : Ending TickResult) : Prop where
  order : (calls.map Call.toOccurrence).Sublist (leavesFrom fs i)
  goesOn : calls.Pairwise fun c _ => c.ending.Settles
  stops : ∀ c ∈ calls, ¬ c.ending.Settles →
    ending = c.ending.tagged (layersFrom fs kind i c.path)
  follows : ∀ val, Agrees val calls → calls.map (·.path) <+: readsFrom fs kind val i
  settles : (∀ c ∈ calls, c.ending.Settles) → ∀ val, Agrees val calls →
    ending = .verdict (kind.holds (acc :: valuesFrom fs val i)) ∧
      calls.map (·.path) = readsFrom fs kind val i

variable {env : Environment I σ} {others : Others I σ} {caller : Caller} {w w₁ w' : World I σ}
  {calls calls' : List (Call I)} {ending first : Ending TickResult} {held : List Lock}
  {f : Formula I} {fs : List (Formula I)} {kind : Composite} {acc b : Bool} {i : Nat}

namespace Calls

theorem change (ho : others.change w w₁) (h : Calls env others caller w₁ calls w') :
    Calls env others caller w calls w' := by
  cases h with
  | none ho' => exact .none (others.trans ho ho')
  | next ho' hticked h => exact .next (others.trans ho ho') hticked h

theorem append (h : Calls env others caller w calls w₁)
    (h' : Calls env others caller w₁ calls' w') :
    Calls env others caller w (calls ++ calls') w' := by
  induction h with
  | none ho => exact h'.change ho
  | next ho hticked _ ih => exact .next ho hticked (ih h')

theorem trailing (h : Calls env others caller w calls w₁) (ho : others.change w₁ w') :
    Calls env others caller w calls w' := by
  have happend := h.append (.none ho)
  rwa [List.append_nil] at happend

theorem under (h : Calls env others caller w calls w') (i : Nat) :
    Calls env others caller w (calls.map (.under i)) w' := by
  induction h with
  | none ho => exact .none ho
  | next ho hticked _ ih => exact .next ho hticked ih

end Calls

/-! ### What the calls have to do with the end -/

theorem layersFrom_head (path : List Nat) :
    layersFrom (f :: fs) kind i (i :: path) = kind.tags i ++ f.layers path := by
  rw [layersFrom, if_pos rfl]

theorem layersFrom_tail {path : List Nat} {j : Nat} (hlt : i < j) :
    layersFrom (f :: fs) kind i (j :: path) = layersFrom fs kind (i + 1) (j :: path) := by
  rw [layersFrom, if_neg (by omega)]

theorem agrees_under {val : List Nat → Bool} :
    Agrees val (calls.map (.under i)) ↔ Agrees (fun path => val (i :: path)) calls := by
  constructor
  · exact fun h c hc b hb => h (c.under i) (List.mem_map_of_mem hc) b hb
  · intro h c hc b hb
    obtain ⟨c, hmem, rfl⟩ := List.mem_map.mp hc
    exact h c hmem b hb

theorem paths_under :
    (calls.map (Call.under i)).map (·.path) = (calls.map (·.path)).map (i :: ·) := by
  rw [List.map_map, List.map_map]
  rfl

theorem occurrences_under : (calls.map (Call.under i)).map Call.toOccurrence =
    (calls.map Call.toOccurrence).map (.under i) := by
  rw [List.map_map, List.map_map]
  rfl

/-- If a tick ends with a truth value, so did all calls of leaves. -/
theorem Tells.all_settle (h : Tells f calls (.verdict b)) : ∀ c ∈ calls, c.ending.Settles := by
  intro c hc
  by_contra hnot
  exact hnot ⟨b, Ending.tagged_eq_verdict.mp (h.stops c hc hnot).symm⟩

/-- A leaf is called once, and ends the tick. -/
theorem tells_leaf (node : Node I) (ending : Ending TickResult) :
    Tells (.leaf node) [⟨⟨[], node⟩, ending⟩] ending where
  order := .refl _
  goesOn := List.pairwise_singleton _ _
  stops := by
    intro c hc _
    obtain rfl := List.mem_singleton.mp hc
    exact Ending.tagged_nil.symm
  follows := fun _ _ => List.prefix_rfl
  settles := by
    intro hsettles val hval
    obtain ⟨b, hb⟩ := hsettles _ (List.mem_singleton.mpr rfl)
    have hvalue : val [] = b := hval _ (List.mem_singleton.mpr rfl) b hb
    refine ⟨hb.trans (congrArg Ending.verdict ?_), rfl⟩
    exact hvalue.symm

theorem tellsFrom_nil : TellsFrom kind acc i ([] : List (Formula I)) [] (.verdict acc) where
  order := .refl _
  goesOn := .nil
  stops := fun _ hc => absurd hc List.not_mem_nil
  follows := fun _ _ => List.prefix_rfl
  settles := by
    intro _ _ _
    refine ⟨congrArg Ending.verdict ?_, rfl⟩
    cases kind <;> cases acc <;> rfl

/-- The composite stops at part number `i`. -/
theorem Tells.stopsAt (h : Tells f calls first)
    (hstop : ∀ b, first = .verdict b → kind.decides b = true) :
    TellsFrom kind acc i (f :: fs) (calls.map (.under i)) (first.tagged (kind.tags i)) where
  order := by
    rw [occurrences_under]
    exact (h.order.map _).trans (List.sublist_append_left _ _)
  goesOn := List.pairwise_map.mpr h.goesOn
  stops := by
    intro c hc hnot
    obtain ⟨c, hmem, rfl⟩ := List.mem_map.mp hc
    show _ = c.ending.tagged (layersFrom (f :: fs) kind i (i :: c.path))
    rw [layersFrom_head, Ending.tagged_append, h.stops c hmem hnot]
  follows := by
    intro val hval
    rw [paths_under]
    exact ((h.follows _ (agrees_under.mp hval)).map _).trans (List.prefix_append _ _)
  settles := by
    intro hsettles val hval
    have hsettles' : ∀ c ∈ calls, c.ending.Settles := fun c hc =>
      hsettles (c.under i) (List.mem_map_of_mem hc)
    obtain ⟨hfirst, hpaths⟩ := h.settles hsettles' _ (agrees_under.mp hval)
    have hdecides := hstop _ hfirst
    refine ⟨?_, ?_⟩
    · rw [Ending.tagged_eq_verdict, hfirst, valuesFrom]
      congr 1
      generalize f.value _ = b at hdecides ⊢
      cases kind <;> cases b <;> cases acc <;> first | rfl | cases hdecides
    · rw [paths_under, hpaths, readsFrom, if_pos hdecides, List.append_nil]

/-- The composite goes on past part number `i`. -/
theorem Tells.goesPast (h : Tells f calls (.verdict b)) (hb : kind.decides b = false)
    (hrest : TellsFrom kind (kind.holds [acc, b]) (i + 1) fs calls' ending) :
    TellsFrom kind acc i (f :: fs) (calls.map (.under i) ++ calls') ending := by
  have hall := h.all_settle
  have hvalue : ∀ val, Agrees val (calls.map (.under i)) →
      b = f.value (fun path => val (i :: path)) ∧
        calls.map (·.path) = f.reads fun path => val (i :: path) := by
    intro val hval
    obtain ⟨hverdict, hpaths⟩ := h.settles hall _ (agrees_under.mp hval)
    exact ⟨Ending.verdict_injective hverdict, hpaths⟩
  have hreads : ∀ val, Agrees val (calls.map (.under i)) → readsFrom (f :: fs) kind val i =
      (calls.map (Call.under i)).map (·.path) ++ readsFrom fs kind val (i + 1) := by
    intro val hval
    obtain ⟨hb', hpaths⟩ := hvalue val hval
    rw [readsFrom, ← hb', if_neg (by simp [hb]), paths_under, hpaths]
  refine ⟨?_, ?_, ?_, ?_, ?_⟩
  · rw [List.map_append, occurrences_under]
    exact (h.order.map _).append hrest.order
  · refine List.pairwise_append.mpr ⟨List.pairwise_map.mpr h.goesOn, hrest.goesOn, ?_⟩
    intro c hc _ _
    obtain ⟨c, hmem, rfl⟩ := List.mem_map.mp hc
    exact hall c hmem
  · intro c hc hnot
    rcases List.mem_append.mp hc with hc | hc
    · obtain ⟨c, hmem, rfl⟩ := List.mem_map.mp hc
      exact absurd (hall c hmem) hnot
    · have hmem : c.toOccurrence ∈ leavesFrom fs (i + 1) :=
        hrest.order.subset (List.mem_map_of_mem hc)
      obtain ⟨j, path, hpath, hle⟩ := mem_leavesFrom hmem
      have hstops := hrest.stops c hc hnot
      rw [hpath] at hstops ⊢
      rw [hstops, layersFrom_tail (by omega)]
  · intro val hval
    obtain ⟨hhead, htail⟩ := List.forall_mem_append.mp hval
    rw [hreads val hhead, List.map_append, List.prefix_append_right_inj]
    exact hrest.follows val htail
  · intro hsettles val hval
    obtain ⟨hhead, htail⟩ := List.forall_mem_append.mp hval
    obtain ⟨hending, hpaths⟩ :=
      hrest.settles (List.forall_mem_append.mp hsettles).2 val htail
    refine ⟨?_, ?_⟩
    · rw [hending, valuesFrom, ← (hvalue val hhead).1]
      generalize valuesFrom fs val (i + 1) = bs
      congr 1
      cases kind <;> cases acc <;> cases b <;> rfl
    · rw [hreads val hhead, List.map_append, hpaths]

/-- A composite under negations, whose parts tell how it ends. -/
theorem TellsFrom.branch (n : Nat) (h : TellsFrom kind acc 0 fs calls ending)
    (hacc : ∀ bs, kind.holds (acc :: bs) = kind.holds bs) :
    Tells (.branch n kind fs) calls (ending.inverted n) where
  order := h.order
  goesOn := h.goesOn
  stops := by
    intro c hc hnot
    have hstops := h.stops c hc hnot
    have hkeeps : ¬ ending.Settles := fun hs => hnot (Ending.settles_tagged.mp (hstops ▸ hs))
    rw [Ending.inverted_of_not_settles hkeeps, hstops]
    rfl
  follows := h.follows
  settles := by
    intro hsettles val hval
    obtain ⟨hending, hpaths⟩ := h.settles hsettles val hval
    refine ⟨?_, hpaths⟩
    rw [hending, Ending.inverted_verdict, hacc]
    rfl

/-! ### Ticks -/

/-- How a composite goes on with the rest when part number `i` has answered. -/
def next (kind : Composite) (i : Nat) (soFar : Status) (rest : List (Node I)) :
    TickResult → Prog I TickResult
  | .error e => .pure (.error (kind.tag i e))
  | .ok s =>
    if kind.goesPast s then kind.runFrom (i + 1) (kind.answer soFar s) rest else .pure (.ok s)

theorem runFrom_cons (soFar : Status) (node : Node I) (rest : List (Node I)) :
    kind.runFrom i soFar (node :: rest) = .request (.tick node) (next kind i soFar rest) := by
  refine congrArg (Prog.request (.tick node)) (funext fun result => ?_)
  cases result <;> rfl

/-- It goes past a truth value that does not decide it. -/
theorem resume_next (hb : kind.decides b = false) (rest : List (Node I)) :
    (Ending.verdict b).resume (next kind i (.ofBool acc) rest) =
      kind.runFrom (i + 1) (.ofBool (kind.holds [acc, b])) rest := by
  have hpast : kind.goesPast (.ofBool b) = true := by
    cases kind <;> cases b <;> first | rfl | cases hb
  have hanswer : kind.answer (.ofBool acc) (.ofBool b) = .ofBool (kind.holds [acc, b]) := by
    cases kind <;> cases b <;> cases acc <;> first | rfl | cases hb
  show (if _ then _ else _) = _
  rw [if_pos hpast, hanswer]

/-- Anything else is the end, an error under the tag of the part. -/
theorem resume_next_of_stop (hstop : ∀ b, first = .verdict b → kind.decides b = true)
    (rest : List (Node I)) :
    first.resume (next kind i (.ofBool acc) rest) =
      (first.tagged (kind.tags i)).resume .pure := by
  rcases first with (e | s) | payload
  · cases kind <;> rfl
  · have hstays : kind.goesPast s = false := by
      cases s with
      | running => cases kind <;> rfl
      | success =>
        have hdecides := hstop true rfl
        cases kind <;> first | rfl | cases hdecides
      | failure =>
        have hdecides := hstop false rfl
        cases kind <;> first | rfl | cases hdecides
    show (if _ then _ else _) = _
    rw [if_neg (by rw [hstays]; exact Bool.false_ne_true)]
    rfl
  · rfl

theorem stops_of_not_goes (h : ¬ ∃ b, first = .verdict b ∧ kind.decides b = false) :
    ∀ b, first = .verdict b → kind.decides b = true := by
  intro b hb
  by_contra hdecides
  exact h ⟨b, hb, Bool.eq_false_iff.mpr hdecides⟩

/-- A program that is over ends as it ends. -/
theorem among_over :
    (first.resume Prog.pure).Among env others caller [] w ending held w' ↔
      ending = first ∧ held = [] ∧ others.change w w' := by
  cases first with
  | value result => exact Prog.Among.pure_iff
  | panic payload => exact Prog.Among.panic_iff

/-- A negation changes nothing but how the tick inside ends. -/
theorem among_negated (tick : Tick I) (nodes : List (Node I)) (n : Nat) :
    ((tick.negated n).run nodes).Among env others caller [] w ending held w' ↔
      ∃ first, (tick.run nodes).Among env others caller [] w first held w' ∧
        ending = first.inverted n := by
  induction n generalizing ending with
  | zero =>
    constructor
    · intro h
      refine ⟨ending, h, ?_⟩
      cases ending <;> rfl
    · rintro ⟨first, h, rfl⟩
      cases first <;> exact h
  | succ n ih =>
    have hnot : (tick.negated (n + 1)).run nodes =
        ((tick.negated n).run nodes).bind fun r => .pure r.invert := rfl
    rw [hnot, Prog.Among.map_iff]
    constructor
    · rintro ⟨inner, h, rfl⟩
      obtain ⟨first, hfirst, rfl⟩ := ih.mp h
      exact ⟨first, hfirst, (Ending.inverted_succ n).symm⟩
    · rintro ⟨first, h, rfl⟩
      exact ⟨first.inverted n, ih.mpr ⟨first, h, rfl⟩, Ending.inverted_succ n⟩

/-- What the parts tell of themselves, a composite over them tells of its run. -/
theorem tellsFrom
    (hparts : ∀ f ∈ fs, ∀ {w w' ending}, f.node.Ticked env others caller w ending w' →
      ∃ calls, Calls env others caller w calls w' ∧ f.Tells calls ending)
    (h : (kind.runFrom i (.ofBool acc) (nodes fs)).Among env others caller [] w ending held w') :
    held = [] ∧ ∃ calls, Calls env others caller w calls w' ∧
      TellsFrom kind acc i fs calls ending := by
  induction fs generalizing i acc w with
  | nil =>
    obtain ⟨rfl, rfl, ho⟩ := Prog.Among.pure_iff.mp h
    exact ⟨rfl, [], .none ho, tellsFrom_nil⟩
  | cons f fs ih =>
    rw [nodes, runFrom_cons] at h
    obtain ⟨w₀, first, w₁, ho, hticked, hnext⟩ := Prog.Among.tick_iff.mp h
    obtain ⟨calls, hcalls, htells⟩ := hparts f List.mem_cons_self hticked
    by_cases hgoes : ∃ b, first = .verdict b ∧ kind.decides b = false
    · obtain ⟨b, rfl, hb⟩ := hgoes
      rw [resume_next hb] at hnext
      obtain ⟨hheld, calls', hcalls', htells'⟩ :=
        ih (fun g hg => hparts g (List.mem_cons_of_mem f hg)) hnext
      exact ⟨hheld, _, ((hcalls.under i).append hcalls').change ho, htells.goesPast hb htells'⟩
    · have hstop := stops_of_not_goes hgoes
      rw [resume_next_of_stop hstop] at hnext
      obtain ⟨rfl, hheld, ho'⟩ := among_over.mp hnext
      exact ⟨hheld, _, ((hcalls.under i).trailing ho').change ho, htells.stopsAt hstop⟩

/-- The value of a composite over nothing. -/
def neutral : Composite → Bool
  | .selector => false
  | _ => true

theorem run_eq_runFrom : kind.run (nodes fs) = kind.runFrom 0 (.ofBool (neutral kind)) (nodes fs) := by
  cases kind <;> rfl

/-- A tick of a formula calls leaves, and they tell how it ends. -/
theorem tells (f : Formula I) {w w' : World I σ} {ending : Ending TickResult}
    (h : f.node.Ticked env others caller w ending w') :
    ∃ calls, Calls env others caller w calls w' ∧ f.Tells calls ending := by
  induction f generalizing w w' ending with
  | leaf node => exact ⟨_, .next (others.refl w) h (.none (others.refl w')), tells_leaf node ending⟩
  | branch n kind fs ih =>
    obtain ⟨held, w₁, h, rfl⟩ := h
    obtain ⟨first, hfirst, rfl⟩ := (among_negated (.composite kind) (nodes fs) n).mp h
    have hrun : (kind.run (nodes fs)).Among env others caller [] w first held w₁ := hfirst
    rw [run_eq_runFrom] at hrun
    obtain ⟨rfl, calls, hcalls, htells⟩ := tellsFrom ih hrun
    refine ⟨calls, w₁.unlock_nil.symm ▸ hcalls, htells.branch n fun bs => ?_⟩
    cases kind <;> rfl

/-! ### A tick ends if its leaves do -/

theorem exists_mem_leavesFrom {o : Occurrence I} (hf : f ∈ fs) (ho : o ∈ f.leaves) :
    ∃ j, o.under j ∈ leavesFrom fs i := by
  induction fs generalizing i with
  | nil => exact absurd hf List.not_mem_nil
  | cons g fs ih =>
    rcases List.mem_cons.mp hf with rfl | hf
    · exact ⟨i, List.mem_append_left _ (List.mem_map_of_mem ho)⟩
    · obtain ⟨j, hmem⟩ := ih (i := i + 1) hf
      exact ⟨j, List.mem_append_right _ hmem⟩

theorem exists_runFrom
    (hparts : ∀ f ∈ fs, ∀ w, ∃ ending w', f.node.Ticked env others caller w ending w') :
    ∀ i acc w, ∃ ending w',
      (kind.runFrom i (.ofBool acc) (nodes fs)).Among env others caller [] w ending [] w' := by
  induction fs with
  | nil => exact fun i acc w => ⟨.verdict acc, w, .pure (others.refl w)⟩
  | cons f fs ih =>
    intro i acc w
    have hrest := ih fun g hg => hparts g (List.mem_cons_of_mem f hg)
    obtain ⟨first, w₁, hticked⟩ := hparts f List.mem_cons_self w
    suffices hnext : ∃ ending w', (first.resume (next kind i (.ofBool acc) (nodes fs))).Among
        env others caller [] w₁ ending [] w' by
      obtain ⟨ending, w', hnext⟩ := hnext
      refine ⟨ending, w', ?_⟩
      rw [nodes, runFrom_cons]
      exact Prog.Among.tick_iff.mpr ⟨w, first, w₁, others.refl w, hticked, hnext⟩
    by_cases hgoes : ∃ b, first = .verdict b ∧ kind.decides b = false
    · obtain ⟨b, rfl, hb⟩ := hgoes
      rw [resume_next hb]
      exact hrest ..
    · rw [resume_next_of_stop (stops_of_not_goes hgoes)]
      exact ⟨_, w₁, among_over.mpr ⟨rfl, rfl, others.refl w₁⟩⟩

/-- If every call of a leaf ends, so does every tick of the formula. -/
theorem answers (f : Formula I)
    (hleaves : ∀ o ∈ f.leaves, ∀ w, ∃ ending w', o.node.Ticked env others caller w ending w')
    (w : World I σ) : ∃ ending w', f.node.Ticked env others caller w ending w' := by
  induction f generalizing w with
  | leaf node => exact hleaves ⟨[], node⟩ (List.mem_singleton.mpr rfl) w
  | branch n kind fs ih =>
    have hparts : ∀ f ∈ fs, ∀ w, ∃ ending w', f.node.Ticked env others caller w ending w' := by
      intro f hf
      apply ih f hf
      intro o ho
      obtain ⟨j, hmem⟩ := exists_mem_leavesFrom (i := 0) hf ho
      exact hleaves (o.under j) hmem
    obtain ⟨ending, w', hrun⟩ : ∃ ending w',
        (kind.runFrom 0 (.ofBool (neutral kind)) (nodes fs)).Among env others caller [] w ending [] w' :=
      exists_runFrom hparts 0 (neutral kind) w
    rw [← run_eq_runFrom] at hrun
    refine ⟨ending.inverted n, w'.unlock [], [], w', ?_, rfl⟩
    exact (among_negated (.composite kind) (nodes fs) n).mpr ⟨ending, hrun, rfl⟩

/-! ### The law -/

/-- Leaves called no more than once have truth values that agree with how they ended. -/
theorem exists_agrees (hnodup : (calls.map (·.path)).Nodup) : ∃ val, Agrees val calls := by
  classical
  refine ⟨fun path => decide (∃ c ∈ calls, c.path = path ∧ c.ending = .verdict true), ?_⟩
  intro c hc b hb
  cases b with
  | true => exact decide_eq_true ⟨c, hc, rfl, hb⟩
  | false =>
    refine decide_eq_false ?_
    rintro ⟨c', hc', hpath, htrue⟩
    obtain rfl := List.inj_on_of_nodup_map hnodup hc' hc hpath
    exact absurd (Ending.verdict_injective (hb.symm.trans htrue)) Bool.false_ne_true

theorem Tells.nodup (h : Tells f calls ending) : (calls.map (·.path)).Nodup := by
  have hnodup : (f.leaves.map Occurrence.path).Nodup := by
    refine f.leaves_sorted.imp ?_
    rintro p _ hlt rfl
    exact List.lt_irrefl p hlt
  have hsub := h.order.map Occurrence.path
  rw [List.map_map] at hsub
  exact hnodup.sublist hsub

/-- **A stateless tree evaluates its formula.** Whatever the leaves do, and among any
other threads:

* the leaves of the tree come in the order of their paths, depth first and from left to
  right, and no two have the same path;
* a tick of the root calls leaves one after another, and they tell how it ends
  (`Formula.Tells`): each is called at most once and in order; the first that answers
  running, an error, or nothing because it panics is the last, and the root ends as it
  does, an error under the tags of its path; and if there is no such leaf, the leaves
  called are those that the short-circuit evaluation of the formula reads, and the root
  answers its value;
* a tick of the root ends if the calls of the leaves do;
* the tags of a path are in front of the leaf's own, and below them is its error;
* a leaf without a tick answers the error for that. -/
theorem evaluation_law (env : Environment I σ) (others : Others I σ) (caller : Caller)
    (f : Formula I) :
    (f.leaves.map Occurrence.path).Pairwise (· < ·) ∧
    (∀ w ending w', f.node.Ticked env others caller w ending w' →
      ∃ calls, Calls env others caller w calls w' ∧ f.Tells calls ending ∧
        ∃ val, Agrees val calls) ∧
    ((∀ o ∈ f.leaves, ∀ w, ∃ ending w', o.node.Ticked env others caller w ending w') →
      ∀ w, ∃ ending w', f.node.Ticked env others caller w ending w') ∧
    (∀ layers e, (TickError.tagged layers e).peel = (layers ++ e.peel.1, e.peel.2)) ∧
    ∀ children w ending w', (Node.plain none children).Ticked env others caller w ending w' ↔
      ending = .value (.error .missingTick) ∧ others.change w w' := by
  refine ⟨f.leaves_sorted, ?_, f.answers, TickError.peel_tagged, ?_⟩
  · intro w ending w' h
    obtain ⟨calls, hcalls, htells⟩ := f.tells h
    exact ⟨calls, hcalls, htells, exists_agrees htells.nodup⟩
  · intro children w ending w'
    constructor
    · rintro ⟨held, w₁, h, rfl⟩
      obtain ⟨rfl, rfl, ho⟩ := Prog.Among.pure_iff.mp h
      exact ⟨rfl, w₁.unlock_nil.symm ▸ ho⟩
    · rintro ⟨rfl, ho⟩
      exact ⟨[], w', .pure ho, w'.unlock_nil.symm⟩

/-- An error of the innermost leaf passes a selector, an `all` and a negated sequence. -/
example (a : Node I) : (branch 1 .sequence [.leaf a, branch 0 .all [branch 0 .selector
    [.leaf a, .leaf a]]]).layers [1, 0, 1] = [("Sequence", 1), ("Selector", 1)] := rfl

end Formula

end TickTree
