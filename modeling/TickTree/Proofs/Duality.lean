/-
# De Morgan duality of sequence and selector

A selector does to its children what an inverted sequence does to the same children
with their ticks inverted: it visits the same ones in the same order, since it goes on
past a failure where the sequence goes on past a success, and it ends as the sequence
does. Running, errors and panics pass the inverters as they are. Only the name in the
label of a child error tells the two apart; the index in it and the error below it are
the same. The same holds with sequence and selector exchanged.

So in a tree of sequences, selectors, inverters and leaves an inverter at the root can
be pushed down to the leaves. It exchanges sequence and selector on its way and ends at
a leaf or at another inverter, with which it cancels. The leaves are expanded and ticked
as before, one after another, whatever they keep between calls.

A visit of a node is an expansion and the call of the tick that comes out of it. What a
call may do is an `Effect`: the visits it makes, how it ends, and what world it leaves.

Key definitions: `Visit`, `Effect`, `Node.effect`, `Node.Inverts`, `Junction`,
`Junction.Course`, `Effect.Matches`, `Circuit`, `Circuit.effect`, `Circuit.pushed`.
Key theorems: `Junction.describes`, `Junction.Course.mirrors`, `Circuit.describes`,
`Circuit.mirrors`, `de_morgan`.
-/
import TickTree.Proofs.Formulas
import TickTree.Proofs.Unwinding

namespace TickTree

variable {I : Interface} {σ : Type}

/-! ### Visits and effects -/

/-- A visit of a node: the indices that lead to it, the tick and the children that it has
expanded to, and how the call of the tick ended. Without a tick the call ends with the
error for that. -/
structure Visit (I : Interface) where
  path : List Nat
  tick : Option (Tick I)
  children : List (Node I)
  ending : Ending TickResult

/-- The visit as seen from a junction that has the visited tree as part number `i`. -/
def Visit.under (i : Nat) (v : Visit I) : Visit I := { v with path := i :: v.path }

/-- The visit of a node whose tick is wrapped in an inverter. -/
def Visit.inverted (v : Visit I) : Visit I :=
  { v with tick := v.tick.map .not, ending := v.ending.map TickResult.invert }

/-- What a call may do: from a world on, which visits it makes, in order, how it ends,
and the world after it. -/
abbrev Effect (I : Interface) (σ : Type) :=
  World I σ → List (Visit I) → Ending TickResult → World I σ → Prop

/-- The same call with its answer inverted. -/
def Effect.inverted (effect : Effect I σ) : Effect I σ := fun w visits ending w' =>
  ∃ first, effect w visits first w' ∧ ending = first.map TickResult.invert

/-- A tick of the node does what the effect says. -/
def Effect.Describes (env : Environment I σ) (others : Others I σ) (caller : Caller)
    (effect : Effect I σ) (node : Node I) : Prop :=
  ∀ w ending w', node.Ticked env others caller w ending w' ↔
    ∃ visits, effect w visits ending w'

namespace Node

/-- Calls what a node has expanded to. -/
def goOn : Option (Tick I) × List (Node I) → Prog I TickResult
  | (some tick, children) => tick.run children
  | (none, _) => .pure (.error .missingTick)

/-- The node expands to this tick and these children, and then they are called. -/
def Visited (env : Environment I σ) (others : Others I σ) (caller : Caller) (node : Node I)
    (w : World I σ) (tick : Option (Tick I)) (children : List (Node I))
    (ending : Ending TickResult) (w' : World I σ) : Prop :=
  ∃ held w₀ held' w₁,
    node.expand.Among env others caller [] w (.value (tick, children)) held w₀ ∧
    (goOn (tick, children)).Among env others caller held w₀ ending held' w₁ ∧
    w' = w₁.unlock held'

/-- A tick of a node is one visit of it, and ends as the visit does. -/
def effect (env : Environment I σ) (others : Others I σ) (caller : Caller) (node : Node I) :
    Effect I σ := fun w visits ending w' =>
  ∃ tick children, visits = [⟨[], tick, children, ending⟩] ∧
    node.Visited env others caller w tick children ending w'

variable {env : Environment I σ} {others : Others I σ} {caller : Caller} {node inverse : Node I}
  {effect : Effect I σ} {w w' : World I σ} {ending : Ending TickResult}

theorem describes_effect (node : Node I) :
    (node.effect env others caller).Describes env others caller node := by
  intro w ending w'
  constructor
  · rintro ⟨held', w₁, hcall, hw'⟩
    rcases Prog.Among.bind_iff.mp hcall with ⟨_, _, hpanic⟩ | ⟨⟨tick, children⟩, held, w₀, hx, hrun⟩
    · obtain ⟨_, he⟩ := node.all_calm_expand.returns hpanic
      cases he
    · exact ⟨_, tick, children, rfl, held, w₀, held', w₁, hx, hrun, hw'⟩
  · rintro ⟨_, tick, children, _, held, w₀, held', w₁, hx, hrun, hw'⟩
    exact ⟨held', w₁, hx.bind hrun, hw'⟩

/-- The second node expands as the first does, with the tick inverted. -/
def Inverts (node inverse : Node I) : Prop :=
  inverse.expand = node.expand.bind fun (tick, children) => .pure (tick.map .not, children)

theorem goOn_inverted (tick : Option (Tick I)) (children : List (Node I)) :
    goOn (tick.map .not, children) =
      (goOn (tick, children)).bind fun result => .pure result.invert := by
  cases tick <;> rfl

/-- What the second node does is to do what the first does, and to invert the answer. -/
theorem Inverts.effect_iff (h : node.Inverts inverse) {visits' : List (Visit I)} :
    inverse.effect env others caller w visits' ending w' ↔
      ∃ visits first, node.effect env others caller w visits first w' ∧
        visits' = visits.map .inverted ∧ ending = first.map TickResult.invert := by
  constructor
  · rintro ⟨_, children, rfl, held, w₀, held', w₁, hx, hrun, hw'⟩
    rw [h] at hx
    obtain ⟨(⟨tick, children⟩ | _), hexpand, he⟩ := Prog.Among.map_iff.mp hx
    · cases he
      rw [goOn_inverted] at hrun
      obtain ⟨first, hcall, rfl⟩ := Prog.Among.map_iff.mp hrun
      exact ⟨_, first, ⟨tick, children, rfl, held, w₀, held', w₁, hexpand, hcall, hw'⟩, rfl, rfl⟩
    · cases he
  · rintro ⟨_, first, ⟨tick, children, rfl, held, w₀, held', w₁, hx, hrun, hw'⟩, rfl, rfl⟩
    refine ⟨_, children, rfl, held, w₀, held', w₁, ?_, ?_, hw'⟩
    · rw [h]
      exact Prog.Among.map_iff.mpr ⟨_, hx, rfl⟩
    · rw [goOn_inverted]
      exact Prog.Among.map_iff.mpr ⟨first, hrun, rfl⟩

/-- So what describes the first node describes the second when it is inverted. -/
theorem Inverts.describes (h : node.Inverts inverse)
    (hnode : effect.Describes env others caller node) :
    effect.inverted.Describes env others caller inverse := by
  intro w ending w'
  rw [describes_effect inverse]
  constructor
  · rintro ⟨_, hinverse⟩
    obtain ⟨visits, first, hticked, -, rfl⟩ := h.effect_iff.mp hinverse
    have hfirst := (node.describes_effect w first w').mpr ⟨visits, hticked⟩
    obtain ⟨visits, heffect⟩ := (hnode w first w').mp hfirst
    exact ⟨visits, first, heffect, rfl⟩
  · rintro ⟨visits, first, heffect, rfl⟩
    have hfirst := (hnode w first w').mpr ⟨visits, heffect⟩
    obtain ⟨visits, hticked⟩ := (node.describes_effect w first w').mp hfirst
    exact ⟨_, h.effect_iff.mpr ⟨visits, first, hticked, rfl, rfl⟩⟩

end Node

/-- Code that is run on every expansion of a node, and makes its tick and its children. -/
abbrev Factory (I : Interface) := Recipe I (Option (Tick I) × List (Node I))

namespace Factory

/-- The node of a factory. -/
def node (factory : Factory I) : Node I :=
  .made (factory.bind fun (tick, children) => .yield (.plain tick children))

/-- The factory that inverts the ticks of another. -/
def inverted (factory : Factory I) : Factory I :=
  factory.bind fun (tick, children) => .yield (tick.map .not, children)

theorem inverts (factory : Factory I) : (node factory).Inverts (node (inverted factory)) := by
  show Node.expandMade _ = (Node.expandMade _).bind _
  induction factory with
  | yield expansion => rfl
  | ask query next ih => exact congrArg (Prog.request (.ask query)) (funext ih)
  | alloc kind next ih => exact congrArg (Prog.request (.alloc kind)) (funext ih)

end Factory

/-! ### Ends up to the errors in them -/

namespace Ending

variable {R R' : TickError → TickError → Prop} {a b : Ending TickResult}

/-- The ends are the same, but for errors that `R` relates. -/
inductive Upto (R : TickError → TickError → Prop) : Ending TickResult → Ending TickResult → Prop
  | same {ending} : (∀ e, ending ≠ .value (.error e)) → Upto R ending ending
  | error {e e'} : R e e' → Upto R (.value (.error e)) (.value (.error e'))

theorem Upto.refl (hR : ∀ e, R e e) (a : Ending TickResult) : Upto R a a := by
  by_cases h : ∃ e, a = .value (.error e)
  · obtain ⟨e, rfl⟩ := h
    exact .error (hR e)
  · exact .same fun e he => h ⟨e, he⟩

theorem Upto.mono (h : Upto R a b) (hR : ∀ e e', R e e' → R' e e') : Upto R' a b := by
  cases h with
  | same hne => exact .same hne
  | error he => exact .error (hR _ _ he)

theorem Upto.eq_verdict {v : Bool} (h : Upto R a b) : a = verdict v ↔ b = verdict v := by
  cases h with
  | same => exact Iff.rfl
  | error => exact ⟨nofun, nofun⟩

theorem invert_invert (a : Ending TickResult) :
    (a.map TickResult.invert).map TickResult.invert = a := by
  rcases a with (_ | s) | _
  · rfl
  · show value (Except.ok s.invert.invert) = _
    rw [Status.invert_invert]
  · rfl

theorem invert_eq_verdict {v : Bool} :
    a.map TickResult.invert = verdict (!v) ↔ a = verdict v := by
  have hv : (verdict v).map TickResult.invert = verdict (!v) := by cases v <;> rfl
  constructor
  · intro h
    rw [← invert_invert a, h, ← hv, invert_invert]
  · rintro rfl
    exact hv

theorem Upto.invert (h : Upto R a b) :
    (a.map TickResult.invert).Upto R (b.map TickResult.invert) := by
  cases h with
  | same hne =>
    rcases a with (e | _) | _
    · exact absurd rfl (hne e)
    · exact .same nofun
    · exact .same nofun
  | error he => exact .error he

theorem Upto.flip (h : Upto (flip R) a b) : b.Upto R a := by
  cases h with
  | same hne => exact .same hne
  | error he => exact .error he

/-- An inverter lets the labels of errors be. -/
theorem invert_tagged (layers : List (String × Nat)) :
    (a.tagged layers).map TickResult.invert = (a.map TickResult.invert).tagged layers := by
  rcases a with (_ | _) | _ <;> rfl

end Ending

/-! ### Junctions -/

/-- The composites that stop at a child: a sequence, and a selector. -/
inductive Junction where
  | sequence
  | selector
  deriving DecidableEq, Repr, Inhabited

namespace Junction

/-- The junction as a composite. -/
def kind : Junction → Composite
  | sequence => .sequence
  | selector => .selector

/-- The other junction. -/
def dual : Junction → Junction
  | sequence => selector
  | selector => sequence

/-- The truth value past which the junction goes on to the next child. -/
def passes : Junction → Bool
  | sequence => true
  | selector => false

@[simp] theorem dual_dual (j : Junction) : j.dual.dual = j := by cases j <;> rfl

@[simp] theorem passes_dual (j : Junction) : j.dual.passes = !j.passes := by cases j <;> rfl

/-- What a junction does with the parts from number `i` on, from what each part may do:
it goes on while they end with the truth value that it passes, and it ends with the
first that ends otherwise, an error under the label of that part. -/
inductive Course (others : Others I σ) (j : Junction) : Nat → List (Effect I σ) → Effect I σ
  | all {i w w'} : others.change w w' → Course others j i [] w [] (.verdict j.passes) w'
  | past {i part parts w w₀ w₁ w' visits visits' ending} : others.change w w₀ →
      part w₀ visits (.verdict j.passes) w₁ →
      Course others j (i + 1) parts w₁ visits' ending w' →
      Course others j i (part :: parts) w (visits.map (.under i) ++ visits') ending w'
  | stop {i part parts w w₀ w₁ w' visits first} : others.change w w₀ →
      part w₀ visits first w₁ → first ≠ .verdict j.passes → others.change w₁ w' →
      Course others j i (part :: parts) w (visits.map (.under i)) (first.tagged (j.kind.tags i)) w'

variable {env : Environment I σ} {others : Others I σ} {caller : Caller} {j : Junction}
  {nodes : List (Node I)} {parts : List (Effect I σ)} {i : Nat} {held : List Lock}
  {w w' : World I σ} {ending : Ending TickResult}

/-- Past the truth value that it passes the junction goes on with the next child. -/
theorem resume_past : (Ending.verdict j.passes).resume
      (Formula.next j.kind i (.ofBool j.passes) nodes) =
    j.kind.runFrom (i + 1) (.ofBool j.passes) nodes := by
  have hgoes : j.kind.decides j.passes = false := by cases j <;> rfl
  have hholds : j.kind.holds [j.passes, j.passes] = j.passes := by cases j <;> rfl
  rw [Formula.resume_next hgoes, hholds]

/-- Whatever else a child ends with, the junction ends with. -/
theorem resume_stop (h : ending ≠ .verdict j.passes) :
    ending.resume (Formula.next j.kind i (.ofBool j.passes) nodes) =
      (ending.tagged (j.kind.tags i)).resume .pure := by
  apply Formula.resume_next_of_stop
  rintro b rfl
  cases j <;> cases b <;> first | rfl | exact absurd rfl h

/-- The effects describe the nodes. -/
abbrev Describe (env : Environment I σ) (others : Others I σ) (caller : Caller) :
    List (Node I) → List (Effect I σ) → Prop :=
  List.Forall₂ fun node part => part.Describes env others caller node

/-- The run of a junction over nodes is its course over what they may do. -/
theorem among_iff (h : Describe env others caller nodes parts) :
    (j.kind.runFrom i (.ofBool j.passes) nodes).Among env others caller [] w ending held w' ↔
      held = [] ∧ ∃ visits, Course others j i parts w visits ending w' := by
  induction h generalizing i w with
  | nil =>
    refine Prog.Among.pure_iff.trans ⟨?_, ?_⟩
    · rintro ⟨rfl, rfl, ho⟩
      exact ⟨rfl, [], .all ho⟩
    · rintro ⟨rfl, visits, h⟩
      cases h with
      | all ho => exact ⟨rfl, rfl, ho⟩
  | @cons node part nodes parts hpart _ ih =>
    rw [Formula.runFrom_cons, Prog.Among.tick_iff]
    constructor
    · rintro ⟨w₀, first, w₁, ho, hticked, hnext⟩
      obtain ⟨visits, heffect⟩ := (hpart ..).mp hticked
      by_cases hfirst : first = .verdict j.passes
      · subst hfirst
        rw [resume_past] at hnext
        obtain ⟨hheld, visits', hcourse⟩ := ih.mp hnext
        exact ⟨hheld, _, .past ho heffect hcourse⟩
      · rw [resume_stop hfirst] at hnext
        obtain ⟨rfl, hheld, ho'⟩ := Formula.among_over.mp hnext
        exact ⟨hheld, _, .stop ho heffect hfirst ho'⟩
    · rintro ⟨hheld, visits, hcourse⟩
      cases hcourse with
      | past ho heffect hcourse =>
        refine ⟨_, _, _, ho, (hpart ..).mpr ⟨_, heffect⟩, ?_⟩
        rw [resume_past]
        exact ih.mpr ⟨hheld, _, hcourse⟩
      | stop ho heffect hfirst ho' =>
        refine ⟨_, _, _, ho, (hpart ..).mpr ⟨_, heffect⟩, ?_⟩
        rw [resume_stop hfirst]
        exact Formula.among_over.mpr ⟨rfl, hheld, ho'⟩

theorem describes (h : Describe env others caller nodes parts) :
    Effect.Describes env others caller (Course others j 0 parts)
      (Node.of (.composite j.kind) nodes) := by
  intro w ending w'
  have hrun : (Node.of (.composite j.kind) nodes).call =
      j.kind.runFrom 0 (.ofBool j.passes) nodes := by cases j <;> rfl
  constructor
  · rintro ⟨held, w₁, hcall, rfl⟩
    rw [hrun] at hcall
    obtain ⟨rfl, hcourse⟩ := (among_iff h).mp hcall
    rwa [w₁.unlock_nil]
  · intro hcourse
    refine ⟨[], w', ?_, w'.unlock_nil.symm⟩
    rw [hrun]
    exact (among_iff h).mpr ⟨rfl, hcourse⟩

end Junction

/-! ### Duality of junctions -/

/-- The second call may make the same visits as the first, and end in the inverse up to
errors that `R` relates. -/
def Effect.Leads (R : TickError → TickError → Prop) (a b : Effect I σ) : Prop :=
  ∀ ⦃w visits first w'⦄, a w visits first w' →
    ∃ ending, (first.map TickResult.invert).Upto R ending ∧ b w visits ending w'

/-- Each of the two calls may make the same visits as the other, and end in the inverse. -/
structure Effect.Mirrors (R : TickError → TickError → Prop) (a b : Effect I σ) : Prop where
  forth : a.Leads R b
  back : b.Leads (flip R) a

/-- The two calls may make the same visits, and end the same up to errors that `R`
relates. -/
structure Effect.Matches (R : TickError → TickError → Prop) (a b : Effect I σ) : Prop where
  forth : ∀ {w visits ending w'}, a w visits ending w' →
    ∃ ending', ending.Upto R ending' ∧ b w visits ending' w'
  back : ∀ {w visits ending' w'}, b w visits ending' w' →
    ∃ ending, ending.Upto R ending' ∧ a w visits ending w'

/-- The error of a part under the label of the junction, and one that `R` relates to it
under the label of the other, with the same index. -/
def Junction.Relabels (j : Junction) (R : Nat → TickError → TickError → Prop)
    (a b : TickError) : Prop :=
  ∃ i e e', R i e e' ∧ a = .child j.kind.label i e ∧ b = .child j.dual.kind.label i e'

namespace Effect

variable {R R' : TickError → TickError → Prop} {a b : Effect I σ}

theorem Leads.mono (h : a.Leads R b) (hR : ∀ e e', R e e' → R' e e') : a.Leads R' b := by
  intro w visits first w' ha
  obtain ⟨ending, hupto, hb⟩ := h ha
  exact ⟨ending, hupto.mono hR, hb⟩

theorem Mirrors.mono (h : a.Mirrors R b) (hR : ∀ e e', R e e' → R' e e') : a.Mirrors R' b :=
  ⟨h.forth.mono hR, h.back.mono fun e e' => hR e' e⟩

/-- A call mirrors its inverse, and is mirrored by it. -/
theorem mirrors_inverted (hR : ∀ e, R e e) (a : Effect I σ) :
    a.Mirrors R a.inverted ∧ a.inverted.Mirrors R a := by
  have hforth : ∀ {R : TickError → TickError → Prop}, (∀ e, R e e) → a.Leads R a.inverted :=
    fun hR _ _ first _ ha => ⟨_, .refl hR _, first, ha, rfl⟩
  have hback : ∀ {R : TickError → TickError → Prop}, (∀ e, R e e) → a.inverted.Leads R a := by
    rintro R hR _ _ _ _ ⟨first, ha, rfl⟩
    refine ⟨first, ?_, ha⟩
    rw [Ending.invert_invert]
    exact .refl hR first
  exact ⟨⟨hforth hR, hback hR⟩, ⟨hback hR, hforth hR⟩⟩

/-- What mirrors a call matches its inverse. -/
theorem Mirrors.matches (h : a.Mirrors R b) : a.inverted.Matches R b where
  forth := by
    rintro w visits _ w' ⟨first, ha, rfl⟩
    exact h.forth ha
  back := by
    intro w visits ending' w' hb
    obtain ⟨first, hupto, ha⟩ := h.back hb
    have hends := hupto.flip.invert
    rw [Ending.invert_invert] at hends
    exact ⟨_, hends, first, ha, rfl⟩

end Effect

namespace Junction

variable {others : Others I σ} {j : Junction} {R : Nat → TickError → TickError → Prop}

theorem upto_tagged {i : Nat} {a b : Ending TickResult} (h : a.Upto (R i) b) :
    (a.tagged (j.kind.tags i)).Upto (j.Relabels R) (b.tagged (j.dual.kind.tags i)) := by
  cases h with
  | same hne =>
    rcases a with (e | _) | _
    · exact absurd rfl (hne e)
    · exact .same nofun
    · exact .same nofun
  | error he => cases j <;> exact .error ⟨i, _, _, he, rfl, rfl⟩

/-- If each part of the dual does what the part of a junction does and ends in the inverse,
so does the dual: it goes on where the junction goes on, and stops where it stops. -/
theorem Course.leads {α : Type} {f g : α → Effect I σ} {xs : List α} {i : Nat}
    (h : ∀ k x, xs[k]? = some x → (f x).Leads (R (i + k)) (g x)) :
    Effect.Leads (j.Relabels R) (Course others j i (xs.map f))
      (Course others j.dual i (xs.map g)) := by
  intro w visits first w' hcourse
  have hpass : (Ending.verdict j.passes).map TickResult.invert = .verdict j.dual.passes := by
    rw [passes_dual]
    exact Ending.invert_eq_verdict.mpr rfl
  induction xs generalizing i w visits first with
  | nil =>
    cases hcourse with
    | all ho =>
      rw [hpass]
      exact ⟨_, .same nofun, .all ho⟩
  | cons x xs ih =>
    have hhead : (f x).Leads (R i) (g x) := h 0 x rfl
    cases hcourse with
    | past ho hpart hrest =>
      obtain ⟨ending, hupto, hpart'⟩ := hhead hpart
      obtain rfl := hupto.eq_verdict.mp hpass
      have htail : ∀ k y, xs[k]? = some y → (f y).Leads (R (i + 1 + k)) (g y) := by
        intro k y hy
        have hstep := h (k + 1) y hy
        rwa [show i + (k + 1) = i + 1 + k by omega] at hstep
      obtain ⟨ending, hupto', hrest'⟩ := ih htail hrest
      exact ⟨ending, hupto', .past ho hpart' hrest'⟩
    | stop ho hpart hne ho' =>
      obtain ⟨ending, hupto, hpart'⟩ := hhead hpart
      have hne' : ending ≠ .verdict j.dual.passes := by
        intro he
        have hfirst := hupto.eq_verdict.mpr he
        rw [passes_dual, Ending.invert_eq_verdict] at hfirst
        exact hne hfirst
      rw [Ending.invert_tagged]
      exact ⟨_, upto_tagged hupto, .stop ho hpart' hne' ho'⟩

theorem Course.mirrors {α : Type} {f g : α → Effect I σ} {xs : List α} {i : Nat}
    (h : ∀ k x, xs[k]? = some x → (f x).Mirrors (R (i + k)) (g x)) :
    Effect.Mirrors (j.Relabels R) (Course others j i (xs.map f))
      (Course others j.dual i (xs.map g)) where
  forth := Course.leads fun k x hx => (h k x hx).forth
  back := by
    have hback : Effect.Leads (j.dual.Relabels fun i => flip (R i))
        (Course others j.dual i (xs.map g)) (Course others j.dual.dual i (xs.map f)) :=
      Course.leads fun k x hx => (h k x hx).back
    rw [dual_dual] at hback
    refine hback.mono ?_
    rintro _ _ ⟨i, e, e', he, rfl, rfl⟩
    rw [dual_dual]
    exact ⟨i, e', e, he, rfl, rfl⟩

end Junction

/-! ### Circuits -/

/-- A tree of sequences, selectors and inverters over leaves, each the node of a factory. -/
inductive Circuit (I : Interface) where
  | leaf (factory : Factory I)
  | not (inner : Circuit I)
  | join (junction : Junction) (parts : List (Circuit I))

namespace Circuit

/-- Induction over a circuit, with the parts as members of their list. -/
@[induction_eliminator]
theorem induct {P : Circuit I → Prop} (leaf : ∀ factory, P (.leaf factory))
    (not : ∀ t, P t → P (.not t)) (join : ∀ j ts, (∀ t ∈ ts, P t) → P (.join j ts))
    (t : Circuit I) : P t :=
  @Circuit.rec I P (fun ts => ∀ t ∈ ts, P t) leaf not join (fun _ ht => absurd ht List.not_mem_nil)
    (fun _ _ ht hts _ hu => (List.mem_cons.mp hu).elim (fun he => he ▸ ht) (hts _)) t

mutual

/-- The factory of a circuit. An inverter wraps whatever tick the circuit inside has. -/
def factory : Circuit I → Factory I
  | leaf factory => factory
  | not t => t.factory.inverted
  | join j parts => .yield (some (.composite j.kind), nodes parts)
termination_by structural t => t

/-- Circuits as nodes. -/
def nodes : List (Circuit I) → List (Node I)
  | [] => []
  | t :: ts => t.factory.node :: nodes ts
termination_by structural ts => ts

end

/-- A circuit as a node. -/
def node (t : Circuit I) : Node I := t.factory.node

mutual

/-- What a tick of a circuit may do, with the visits of its leaves. A leaf under inverters
is visited as it is: its own tick is called, and the answer inverted after that. -/
def effect (env : Environment I σ) (others : Others I σ) (caller : Caller) :
    Circuit I → Effect I σ
  | leaf factory => factory.node.effect env others caller
  | not t => (t.effect env others caller).inverted
  | join j parts => Junction.Course others j 0 (effects env others caller parts)
termination_by structural t => t

/-- What ticks of circuits may do. -/
def effects (env : Environment I σ) (others : Others I σ) (caller : Caller) :
    List (Circuit I) → List (Effect I σ)
  | [] => []
  | t :: ts => t.effect env others caller :: effects env others caller ts
termination_by structural ts => ts

end

mutual

/-- The circuit under an inverter that has been pushed down to the leaves: it exchanges
sequence and selector on its way, and cancels with an inverter that it meets. -/
def pushed : Circuit I → Circuit I
  | leaf factory => not (leaf factory)
  | not t => t
  | join j parts => join j.dual (pushedAll parts)
termination_by structural t => t

/-- Circuits under inverters that have been pushed down. -/
def pushedAll : List (Circuit I) → List (Circuit I)
  | [] => []
  | t :: ts => t.pushed :: pushedAll ts
termination_by structural ts => ts

end

/-- How an error of an inverted circuit differs from that of the pushed one: in the labels
of the junctions that the inverter has passed on the way to the leaf, which have the names
exchanged, with the same indices, and in nothing below. -/
inductive Relabels : Circuit I → TickError → TickError → Prop
  | leaf {factory e} : Relabels (leaf factory) e e
  | not {t e} : Relabels (not t) e e
  | join {j : Junction} {parts : List (Circuit I)} {part i e e'} : parts[i]? = some part →
      Relabels part e e' →
      Relabels (join j parts) (.child j.kind.label i e) (.child j.dual.kind.label i e')

variable {env : Environment I σ} {others : Others I σ} {caller : Caller}

theorem effects_eq (ts : List (Circuit I)) :
    effects env others caller ts = ts.map (effect env others caller) := by
  induction ts with
  | nil => rfl
  | cons t ts ih => rw [effects, ih, List.map_cons]

theorem pushedAll_eq (ts : List (Circuit I)) : pushedAll ts = ts.map pushed := by
  induction ts with
  | nil => rfl
  | cons t ts ih => rw [pushedAll, ih, List.map_cons]

/-- Ticking a circuit is visiting its leaves. -/
theorem describes (t : Circuit I) :
    (t.effect env others caller).Describes env others caller t.node := by
  induction t with
  | leaf factory => exact factory.node.describes_effect
  | not t ih =>
    have hnot : t.node.Inverts (not t).node := t.factory.inverts
    exact hnot.describes ih
  | join j ts ih =>
    have hparts : Junction.Describe env others caller (nodes ts) (effects env others caller ts) := by
      induction ts with
      | nil => exact .nil
      | cons t ts ihts =>
        exact .cons (ih t List.mem_cons_self) (ihts fun u hu => ih u (List.mem_cons_of_mem t hu))
    exact Junction.describes hparts

/-- The errors of junctions whose parts have the errors of these circuits. -/
theorem relabels_of_junction {j : Junction} {ts : List (Circuit I)} {a b : TickError}
    (h : j.Relabels (fun i e e' => ∃ t, ts[i]? = some t ∧ t.Relabels e e') a b) :
    (join j ts).Relabels a b := by
  obtain ⟨i, e, e', ⟨t, ht, hpart⟩, rfl, rfl⟩ := h
  exact .join ht hpart

/-- The pushed circuit does what the circuit does and ends in the inverse. -/
theorem mirrors (t : Circuit I) :
    (t.effect env others caller).Mirrors t.Relabels (t.pushed.effect env others caller) := by
  induction t with
  | leaf factory => exact (Effect.mirrors_inverted (fun _ => .leaf) _).1
  | not t _ => exact (Effect.mirrors_inverted (fun _ => .not) _).2
  | join j ts ih =>
    show Effect.Mirrors _ (Junction.Course others j 0 (effects env others caller ts))
      (Junction.Course others j.dual 0 (effects env others caller (pushedAll ts)))
    rw [effects_eq, effects_eq, pushedAll_eq, List.map_map]
    refine Effect.Mirrors.mono (Junction.Course.mirrors ?_) fun _ _ => relabels_of_junction
    intro k t ht
    refine (ih t (List.mem_of_getElem? ht)).mono fun e e' he => ⟨t, ?_, he⟩
    rwa [Nat.zero_add]

/-- The inverter that is pushed down a sequence stops at the inverter below it. -/
example (a b : Factory I) :
    (join .sequence [.leaf a, .not (.join .selector [.leaf b])]).pushed =
      join .selector [.not (.leaf a), .join .selector [.leaf b]] := rfl

end Circuit

/-! ### The law -/

/-- What sequences, selectors and inverters have to do with each other. -/
structure Duality (env : Environment I σ) (others : Others I σ) (caller : Caller) : Prop where
  /-- A tick of a node is a visit of it. -/
  visit : ∀ node : Node I, (node.effect env others caller).Describes env others caller node
  /-- Every factory can be wrapped so that its ticks come out inverted, -/
  wraps : ∀ factory : Factory I, factory.node.Inverts factory.inverted.node
  /-- and so can a node that always expands to the same tick. -/
  wrapsPlain : ∀ (tick : Option (Tick I)) (children : List (Node I)),
    (Node.plain tick children).Inverts (.plain (tick.map .not) children)
  /-- A node wrapped so is visited by a visit of the node inside. -/
  wrapped : ∀ {node inverse : Node I}, node.Inverts inverse → ∀ w visits' ending w',
    inverse.effect env others caller w visits' ending w' ↔
      ∃ visits first, node.effect env others caller w visits first w' ∧
        visits' = visits.map .inverted ∧ ending = first.map TickResult.invert
  /-- A junction visits its children one after another. -/
  junction : ∀ (j : Junction) (children : List (Node I)),
    Effect.Describes env others caller
      (j.Course others 0 (children.map fun child => child.effect env others caller))
      (Node.of (.composite j.kind) children)
  /-- An inverted junction over wrapped children visits the children inside. -/
  inverted : ∀ (j : Junction) {children inverses : List (Node I)},
    List.Forall₂ Node.Inverts children inverses →
    Effect.Describes env others caller
      (Effect.inverted
        (j.Course others 0 (children.map fun child => (child.effect env others caller).inverted)))
      (Node.not (.composite j.kind) inverses)
  /-- It matches the other junction over the children, up to the label of a child error. -/
  dual : ∀ (j : Junction) (children : List (Node I)),
    Effect.Matches (j.Relabels fun _ => Eq)
      (Effect.inverted
        (j.Course others 0 (children.map fun child => (child.effect env others caller).inverted)))
      (j.dual.Course others 0 (children.map fun child => child.effect env others caller))
  /-- A circuit visits leaves one after another. -/
  circuit : ∀ t : Circuit I, (t.effect env others caller).Describes env others caller t.node
  /-- It matches under an inverter the circuit with the inverter pushed down. -/
  pushed : ∀ t : Circuit I,
    ((Circuit.not t).effect env others caller).Matches t.Relabels (t.pushed.effect env others caller)

/-- **Sequence and selector are dual under inversion**, over any children, whatever they keep
between calls, and among any other threads.

A node whose factory wraps its ticks in an inverter is visited by visiting the node
inside. Over children wrapped so, an inverted sequence makes the visits that a selector
makes over the children themselves, expansion by expansion and call by call; and each
ends as the other does, be it a status, an error or a panic, but for the name in the
label of a child error. So does an inverted selector what a sequence does.

In a tree of sequences, selectors, inverters and leaves, an inverter at the root and the
same inverter pushed down to the leaves make the same visits of leaves, in the same
order, and end alike up to the names in those labels. -/
theorem de_morgan (env : Environment I σ) (others : Others I σ) (caller : Caller) :
    Duality env others caller where
  visit := Node.describes_effect
  wraps := Factory.inverts
  wrapsPlain := fun _ _ => rfl
  wrapped := fun h _ _ _ _ => h.effect_iff
  junction := by
    intro j children
    refine Junction.describes (List.forall₂_map_right_iff.mpr ?_)
    exact List.forall₂_same.mpr fun node _ => node.describes_effect
  inverted := by
    intro j children inverses h
    have hwrap : (Node.of (.composite j.kind) inverses).Inverts
        (Node.not (.composite j.kind) inverses) := rfl
    refine hwrap.describes (Junction.describes (List.forall₂_map_right_iff.mpr ?_))
    exact h.flip.imp fun _ node hinverse =>
      Node.Inverts.describes hinverse node.describes_effect
  dual := by
    intro j children
    refine (Junction.Course.mirrors fun k child _ => ?_).matches
    exact (Effect.mirrors_inverted (fun _ => rfl) _).2
  circuit := Circuit.describes
  pushed := fun t => t.mirrors.matches

end TickTree
