/-
# Programs side by side

Two programs may do the same to whoever looks on while each of them reads and changes
cells that the other does not, or in another order: a record is read and filled on one
side only, a flag is raised early on one side and late on the other. Such programs are
put side by side request by request (`Prog.Alike`). A request on one side only has to be
served at once and must not be heard.

When two worlds are alike depends on what is being done to them (`Likeness`). Several
lanes may be under way at once, and the worlds may differ by what one of them has still
to do, so likeness is relative to what is known of each lane. What is known of a lane is
the business of that lane alone: no lane hears of another.

From the run of one of the two programs there follows a run of the other, lane by lane in
the same order. Everything here is the same with the sides changed (`Prog.Alike.flip`),
so one direction is enough.

Key definitions: `Likeness`, `Likeness.Serves`, `Likeness.Unseen`, `Prog.Alike`,
`Likeness.Likens`, `Node.bare`, `FamilyCall.bare`, `Family.Call`, `Family.Accompanies`.
Key theorems: `Prog.Alike.step`, `Prog.Alike.speaks`, `Interleaves.alongside`,
`Prog.Alike.performs`, `Family.same_calls`.
-/
import TickTree.Proofs.Marking

namespace TickTree

variable {I : Interface} {σ K α β γ δ : Type}

/-! ### What a lane does by itself -/

/-- The program goes on to this one, and says this meanwhile, while nothing else
happens. -/
inductive Prog.Goes (env : Environment I σ) (caller : Caller) :
    Prog I α → List Lock → World I σ → List (Said I) → Prog I α → List Lock → World I σ → Prop
  | refl {p : Prog I α} {held w} : Goes env caller p held w [] p held w
  | serve {r : Request I} {next : r.Reply → Prog I α} {q : Prog I α} {reply talk}
      {held held₁ held' : List Lock} {w w₁ w' : World I σ} :
      w.serve env caller held r = some (reply, held₁, w₁) →
      Goes env caller (next reply) held₁ w₁ talk q held' w' →
      Goes env caller (.request r next) held w (r.said reply ++ talk) q held' w'

section

variable {env : Environment I σ} {caller : Caller} {held held₁ held' : List Lock}
  {w w₁ w' : World I σ} {talk talk' : List (Said I)}

theorem Prog.Goes.speaks {p q : Prog I α} {ending : Ending α}
    (h : p.Goes env caller held w talk q held₁ w₁)
    (hq : q.Speaks env Eq caller held₁ w₁ talk' ending held' w') :
    p.Speaks env Eq caller held w (talk ++ talk') ending held' w' := by
  induction h with
  | refl => exact hq
  | serve hserve _ ih =>
    rw [List.append_assoc]
    exact .serve rfl hserve (ih hq)

/-- One of several lanes goes on for a while, and the others wait. -/
theorem Prog.Goes.interleaves {p q : Prog I TickResult} {before after : List (Lane I)}
    {position : Nat} {beats : List (Beat I)} {reports : List Report}
    (h : p.Goes env caller held w talk q held' w₁)
    (hq : Interleaves env (before ++ ⟨caller, position, q, held'⟩ :: after) w₁ beats reports w') :
    Interleaves env (before ++ ⟨caller, position, p, held⟩ :: after) w
      (talk.map (.said position) ++ beats) reports w' := by
  induction h with
  | refl => exact hq
  | serve hserve _ ih =>
    rw [List.map_append, List.append_assoc]
    exact .serve rfl hserve (ih hq)

end

/-! ### Likeness of worlds -/

/-- When two worlds are alike, given what is known of the lanes that are under way in
them. Of a lane at rest there is nothing to know. -/
structure Likeness (I : Interface) (σ K : Type) where
  Alike : List K → World I σ → World I σ → Prop
  rest : K
  rests : ∀ {ks w w'}, Alike (rest :: ks) w w' ↔ Alike ks w w'
  perm : ∀ {ks ks' w w'}, ks.Perm ks' → Alike ks w w' → Alike ks' w w'
  outside : ∀ {ks w w'}, Alike ks w w' → w'.outside = w.outside
  leave : ∀ {ks w w'}, Alike ks w w' → ∀ (held : List Lock) (outside : σ),
    Alike ks { w.unlock held with outside } { w'.unlock held with outside }

namespace Likeness

/-- The same with the sides changed. -/
def flip (L : Likeness I σ K) : Likeness I σ K where
  Alike ks w w' := L.Alike ks w' w
  rest := L.rest
  rests := L.rests
  perm := L.perm
  outside h := (L.outside h).symm
  leave h := L.leave h

variable (L : Likeness I σ K)

/-- The two requests are served in worlds that are alike, or both have to wait. The same
is heard of both, and the worlds stay alike, with this known of the lane. -/
def Serves (env : Environment I σ) (k : K) (r r' : Request I)
    (P : K → r.Reply → r'.Reply → Prop) : Prop :=
  r.isServed ∧ r'.isServed ∧ ∀ caller held {ks w w'}, L.Alike (k :: ks) w w' →
    Option.Rel (fun x x' => x'.2.1 = x.2.1 ∧ r'.said x'.1 = r.said x.1 ∧
        ∃ k', P k' x.1 x'.1 ∧ L.Alike (k' :: ks) x.2.2 x'.2.2)
      (w.serve env caller held r) (w'.serve env caller held r')

/-- The request is served at once in the first of two worlds that are alike, and is not
heard. The worlds stay alike, with this known of the lane. -/
def Unseen (env : Environment I σ) (k : K) (r : Request I) (P : K → r.Reply → Prop) : Prop :=
  r.isServed ∧ ∀ caller held {ks w w'}, L.Alike (k :: ks) w w' →
    ∃ x w₁ k', w.serve env caller held r = some (x, held, w₁) ∧ r.said x = [] ∧ P k' x ∧
      L.Alike (k' :: ks) w₁ w'

variable {L} {env : Environment I σ} {k : K} {r r' : Request I}
  {P : K → r.Reply → r'.Reply → Prop}

theorem Serves.flip (h : L.Serves env k r r' P) :
    L.flip.Serves env k r' r fun k' x' x => P k' x x' := by
  obtain ⟨hr, hr', hserves⟩ := h
  refine ⟨hr', hr, fun caller held {ks w w'} hw => ?_⟩
  have hrel := hserves caller held hw
  generalize w'.serve env caller held r = served at hrel ⊢
  generalize w.serve env caller held r' = served' at hrel ⊢
  cases hrel with
  | none => exact .none
  | some h =>
    obtain ⟨hheld, hsaid, k', hP, hw'⟩ := h
    exact .some ⟨hheld.symm, hsaid.symm, k', hP, hw'⟩

theorem Serves.imp {P' : K → r.Reply → r'.Reply → Prop} (h : L.Serves env k r r' P)
    (hP : ∀ k x x', P k x x' → P' k x x') : L.Serves env k r r' P' := by
  refine ⟨h.1, h.2.1, fun caller held {ks w w'} hw => ?_⟩
  have hrel := h.2.2 caller held hw
  generalize w.serve env caller held r = served at hrel ⊢
  generalize w'.serve env caller held r' = served' at hrel ⊢
  cases hrel with
  | none => exact .none
  | some h =>
    obtain ⟨hheld, hsaid, k', hreply, hw'⟩ := h
    exact .some ⟨hheld, hsaid, k', hP _ _ _ hreply, hw'⟩

/-- What is served in the first world is served in the second. -/
theorem Serves.serve (h : L.Serves env k r r' P) {caller : Caller} {held held₁ : List Lock}
    {ks : List K} {w w₁ w' : World I σ} {x : r.Reply} (hw : L.Alike (k :: ks) w w')
    (hserve : w.serve env caller held r = some (x, held₁, w₁)) :
    ∃ x' w₁' k', w'.serve env caller held r' = some (x', held₁, w₁') ∧ r'.said x' = r.said x ∧
      P k' x x' ∧ L.Alike (k' :: ks) w₁ w₁' := by
  have hrel := h.2.2 caller held hw
  rw [hserve] at hrel
  generalize hserve' : w'.serve env caller held r' = served' at hrel
  cases hrel with
  | @some _ y h =>
    obtain ⟨x', held', w₁'⟩ := y
    obtain ⟨rfl, hsaid, k', hP, hw₁⟩ := h
    exact ⟨x', w₁', k', rfl, hsaid, hP, hw₁⟩

/-- A question is put on both sides, and gets the same answer. -/
theorem serves_ask (L : Likeness I σ K) (env : Environment I σ) (k : K) (query : I.Query) :
    L.Serves env k (.ask query) (.ask query) fun k' x x' => k' = k ∧ x' = x := by
  refine ⟨rfl, rfl, fun caller held {ks w w'} hw => ?_⟩
  have hserve : ∀ w : World I σ, w.serve env caller held (.ask query) =
      (env.answer caller query w.outside).map fun x => (x.1, held, { w with outside := x.2 }) :=
    fun _ => rfl
  rw [hserve, hserve, L.outside hw]
  cases env.answer caller query w.outside with
  | none => exact .none
  | some x =>
    have hleave := L.leave hw [] x.2
    rw [World.unlock_nil, World.unlock_nil] at hleave
    exact .some ⟨rfl, rfl, k, ⟨rfl, rfl⟩, hleave⟩

/-- A lane has come to its end with this value on both sides. -/
def Ends (L : Likeness I σ K) (k : K) (a b : α) : Prop := k = L.rest ∧ b = a

end Likeness

/-! ### Programs side by side -/

/-- The two programs do the same in worlds that are alike, if this is known of the lane in
which they run, and end with values that are related so. Nodes that one of them ticks are
related to those that the other ticks. -/
inductive Prog.Alike (L : Likeness I σ K) (env : Environment I σ) (N : Node I → Node I → Prop)
    (R : K → α → β → Prop) : K → Prog I α → Prog I β → Prop
  | pure {k a b} : R k a b → Alike L env N R k (.pure a) (.pure b)
  | both {k} {r r' : Request I} {P next next'} : L.Serves env k r r' P →
      (∀ k' x x', P k' x x' → Alike L env N R k' (next x) (next' x')) →
      Alike L env N R k (.request r next) (.request r' next')
  | left {k} {r : Request I} {P next q} : L.Unseen env k r P →
      (∀ k' x, P k' x → Alike L env N R k' (next x) q) → Alike L env N R k (.request r next) q
  | right {k} {r : Request I} {P p next} : L.flip.Unseen env k r P →
      (∀ k' x, P k' x → Alike L env N R k' p (next x)) → Alike L env N R k p (.request r next)
  | forget {k k' p q} : (∀ {ks w w'}, L.Alike (k :: ks) w w' → L.Alike (k' :: ks) w w') →
      Alike L env N R k' p q → Alike L env N R k p q
  | tick {n n' : Node I} {next next'} : N n n' →
      (∀ result, Alike L env N R L.rest (next result) (next' result)) →
      Alike L env N R L.rest (.request (.tick n) next) (.request (.tick n') next')
  | parallel {ns ns' : List (Node I)} {next next'} : List.Forall₂ N ns ns' →
      (∀ reports, Alike L env N R L.rest (next reports) (next' reports)) →
      Alike L env N R L.rest (.request (.parallel ns) next) (.request (.parallel ns') next')
  | panic {payload : Payload} {next next'} :
      Alike L env N R L.rest (.request (.panic payload) next) (.request (.panic payload) next')

/-- Nodes of which the calls are alike, which begin and end at rest. A lane ticks no
nodes. -/
def Likeness.Likens (L : Likeness I σ K) (env : Environment I σ) (n n' : Node I) : Prop :=
  n.call.Alike L env (fun _ _ => False) L.Ends L.rest n'.call

namespace Prog.Alike

variable {L : Likeness I σ K} {env : Environment I σ} {N : Node I → Node I → Prop} {k : K}
  {ks : List K} {caller : Caller} {held held₁ held' : List Lock} {w w₁ w' : World I σ}
  {talk : List (Said I)}

theorem bind {R : K → α → β → Prop} {R' : K → γ → δ → Prop} {p : Prog I α} {q : Prog I β}
    {f : α → Prog I γ} {g : β → Prog I δ} (h : p.Alike L env N R k q)
    (hf : ∀ k a b, R k a b → (f a).Alike L env N R' k (g b)) :
    (p.bind f).Alike L env N R' k (q.bind g) := by
  induction h with
  | pure hab => exact hf _ _ _ hab
  | both hr _ ih => exact .both hr ih
  | left hr _ ih => exact .left hr ih
  | right hr _ ih => exact .right hr ih
  | forget hk _ ih => exact .forget hk ih
  | tick hn _ ih => exact .tick hn ih
  | parallel hn _ ih => exact .parallel hn ih
  | panic => exact .panic

/-- The same with the sides changed. -/
theorem flip {N' : Node I → Node I → Prop} {R : K → α → β → Prop} {R' : K → β → α → Prop}
    {p : Prog I α} {q : Prog I β} (h : p.Alike L env N R k q) (hN : ∀ n n', N n n' → N' n' n)
    (hR : ∀ k a b, R k a b → R' k b a) : q.Alike L.flip env N' R' k p := by
  induction h with
  | pure hab => exact .pure (hR _ _ _ hab)
  | both hr _ ih => exact .both hr.flip fun k' x' x hP => ih k' x x' hP
  | left hr _ ih => exact .right hr ih
  | right hr _ ih => exact .left hr ih
  | forget hk _ ih => exact .forget hk ih
  | tick hn _ ih => exact .tick (hN _ _ hn) ih
  | parallel hns _ ih => exact .parallel (hns.flip.imp fun n' n hn => hN n n' hn) ih
  | panic => exact .panic

/-- A lane with the sides changed. -/
theorem flip_lane {p q : Prog I α} (h : p.Alike L env (fun _ _ => False) L.Ends k q) :
    q.Alike L.flip env (fun _ _ => False) L.flip.Ends k p :=
  h.flip (fun _ _ => nofun) fun _ _ _ hab => ⟨hab.1, hab.2.symm⟩

/-- **One request of a lane.** The other lane gets as far as that takes it, and says the
same. -/
theorem step {R : K → α → β → Prop} {p : Prog I α} {q : Prog I β} {r : Request I}
    {next : r.Reply → Prog I α} {x : r.Reply} (h : p.Alike L env N R k q)
    (hp : p = .request r next) (hw : L.Alike (k :: ks) w w')
    (hserve : w.serve env caller held r = some (x, held₁, w₁)) :
    ∃ k' q' w₁', q.Goes env caller held w' (r.said x) q' held₁ w₁' ∧
      (next x).Alike L env N R k' q' ∧ L.Alike (k' :: ks) w₁ w₁' := by
  induction h generalizing w' with
  | pure => cases hp
  | @both _ _ r' P _ next' hr hnext _ =>
    cases hp
    obtain ⟨x', w₁', k', hserve', hsaid, hP, hw₁⟩ := hr.serve hw hserve
    have hgoes : (Prog.request r' next').Goes env caller held w' (r'.said x' ++ []) (next' x') held₁
      w₁' := .serve hserve' .refl
    rw [List.append_nil, hsaid] at hgoes
    exact ⟨k', _, w₁', hgoes, hnext k' x x' hP, hw₁⟩
  | left hr hnext _ =>
    cases hp
    obtain ⟨_, _, k', hserve', hsaid, hP, hw₁⟩ := hr.2 caller held hw
    cases hserve.symm.trans hserve'
    exact ⟨k', _, w', hsaid ▸ .refl, hnext k' x hP, hw₁⟩
  | @right _ r' P _ _ hr _ ih =>
    obtain ⟨x', w₁', k', hserve', hsaid, hP, hw₁⟩ := hr.2 caller held hw
    obtain ⟨k'', q', w₂', hgoes, hnext, hw₂⟩ := ih k' x' hP hp hw₁
    have hgoes := Prog.Goes.serve hserve' hgoes
    rw [hsaid, List.nil_append] at hgoes
    exact ⟨k'', q', w₂', hgoes, hnext, hw₂⟩
  | forget hk _ ih => exact ih hp (hk hw)
  | tick | parallel | panic =>
    cases hp
    cases hserve

/-- The end of a lane: the other comes to the same end. -/
theorem ends {p q : Prog I α} (h : p.Alike L env N L.Ends k q) (ending : Ending α)
    (hp : p = ending.resume .pure) (hw : L.Alike (k :: ks) w w') :
    ∃ w₁', q.Goes env caller held w' [] (ending.resume .pure) held w₁' ∧ L.Alike ks w w₁' := by
  have hnot : ∀ {r : Request I} {next : r.Reply → Prog I α}, r.isServed →
      Prog.request r next ≠ ending.resume .pure := by
    intro r next hr he
    cases ending with
    | value a => cases he
    | panic payload =>
      cases he
      cases hr
  induction h generalizing w' with
  | pure hab =>
    obtain ⟨rfl, rfl⟩ := hab
    exact ⟨w', hp ▸ .refl, L.rests.mp hw⟩
  | both hr => exact absurd hp (hnot hr.1)
  | left hr => exact absurd hp (hnot hr.1)
  | right hr _ ih =>
    obtain ⟨x', w₁', k', hserve', hsaid, hP, hw₁⟩ := hr.2 caller held hw
    obtain ⟨w₂', hgoes, hw₂⟩ := ih k' x' hP hp hw₁
    have hgoes := Prog.Goes.serve hserve' hgoes
    rw [hsaid, List.nil_append] at hgoes
    exact ⟨w₂', hgoes, hw₂⟩
  | forget hk _ ih => exact ih hp (hk hw)
  | tick | parallel =>
    cases ending with
    | value a => cases hp
    | panic payload => cases hp
  | panic =>
    refine ⟨w', ?_, L.rests.mp hw⟩
    rw [← hp, Prog.request_panic, Prog.request_panic]
    exact .refl

/-- **A turn**: what one program says the other says, and the worlds are left alike. -/
theorem speaks {p q : Prog I α} {ending : Ending α} (h : p.Alike L env N L.Ends k q)
    (hw : L.Alike (k :: ks) w w') (hp : p.Speaks env Eq caller held w talk ending held' w₁) :
    ∃ w₁', q.Speaks env Eq caller held w' talk ending held' w₁' ∧ L.Alike ks w₁ w₁' := by
  induction hp generalizing k q w' with
  | pure ho =>
    subst ho
    obtain ⟨w₁', hgoes, hw₁⟩ := h.ends (.value _) rfl hw
    exact ⟨w₁', hgoes.speaks (.pure rfl), hw₁⟩
  | serve ho hserve _ ih =>
    subst ho
    obtain ⟨k', q', w₁', hgoes, hnext, hw₁⟩ := h.step rfl hw hserve
    obtain ⟨w₂', hspeaks, hw₂⟩ := ih hnext hw₁
    exact ⟨w₂', hgoes.speaks hspeaks, hw₂⟩
  | @panic payload next _ _ _ ho =>
    subst ho
    obtain ⟨w₁', hgoes, hw₁⟩ := h.ends (.panic payload) (Prog.request_panic _ _) hw
    exact ⟨w₁', hgoes.speaks (.panic rfl), hw₁⟩

end Prog.Alike

/-! ### Rounds side by side -/

/-- A lane, the lane on the other side, and what is known of the two. -/
structure LanePair (I : Interface) (K : Type) where
  caller : Caller
  position : Nat
  held : List Lock
  knows : K
  prog : Prog I TickResult
  twin : Prog I TickResult

namespace LanePair

/-- The lane on this side. -/
def left (s : LanePair I K) : Lane I := ⟨s.caller, s.position, s.prog, s.held⟩

/-- The lane on the other side. -/
def right (s : LanePair I K) : Lane I := ⟨s.caller, s.position, s.twin, s.held⟩

/-- The two lanes do the same. -/
def Linked (L : Likeness I σ K) (env : Environment I σ) (s : LanePair I K) : Prop :=
  s.prog.Alike L env (fun _ _ => False) L.Ends s.knows s.twin

end LanePair

section

variable {L : Likeness I σ K} {env : Environment I σ} {w w₁ w' : World I σ}
  {beats : List (Beat I)} {reports : List Report}

/-- **A round**: lanes can go on as those on the other side, in the same order. -/
theorem Interleaves.alongside {ls : List (Lane I)} (h : Interleaves env ls w beats reports w₁) :
    ∀ {w' : World I σ} (pairs : List (LanePair I K)), pairs.map LanePair.left = ls →
      (∀ s ∈ pairs, s.Linked L env) → L.Alike (pairs.map (·.knows)) w w' →
      ∃ w₁', Interleaves env (pairs.map LanePair.right) w' beats reports w₁' ∧
        L.Alike [] w₁ w₁' := by
  have hmiddle : ∀ {pre post : List (LanePair I K)} {s : LanePair I K} {w w' : World I σ},
      L.Alike ((pre ++ s :: post).map (·.knows)) w w' ↔
        L.Alike (s.knows :: (pre ++ post).map (·.knows)) w w' := by
    intro pre post s w w'
    have hperm := (@List.perm_middle _ s pre post).map (·.knows)
    exact ⟨L.perm hperm, L.perm hperm.symm⟩
  induction h with
  | none =>
    rintro w' pairs hls - hw
    obtain rfl := List.map_eq_nil_iff.mp hls
    exact ⟨w', .none, hw⟩
  | @serve before after lane r next x beats reports held w w₁ w₂ hprog hserve _ ih =>
    rintro w' pairs hls hlinked hw
    obtain ⟨pre, ⟨caller, position, held₀, k, prog, twin⟩, post, rfl, rfl, rfl, rfl⟩ :=
      map_eq_middle hls
    obtain ⟨halike, hrest⟩ := forall_mem_middle.mp hlinked
    obtain ⟨k', q', w₁', hgoes, hnext, hw₁⟩ := Prog.Alike.step halike hprog (hmiddle.mp hw) hserve
    let s : LanePair I K := ⟨caller, position, held, k', next x, q'⟩
    obtain ⟨w₂', hround, hw₂⟩ := ih (pre ++ s :: post) List.map_append
      (forall_mem_middle.mpr ⟨hnext, hrest⟩) (hmiddle.mpr hw₁)
    rw [List.map_append, List.map_cons] at hround ⊢
    exact ⟨w₂', hgoes.interleaves hround, hw₂⟩
  | @ends before after lane ending beats reports w w₂ hprog _ ih =>
    rintro w' pairs hls hlinked hw
    obtain ⟨pre, ⟨caller, position, held, k, prog, twin⟩, post, rfl, rfl, rfl, rfl⟩ :=
      map_eq_middle hls
    obtain ⟨halike, hrest⟩ := forall_mem_middle.mp hlinked
    obtain ⟨w₁', hgoes, hw₁⟩ := Prog.Alike.ends halike ending hprog (hmiddle.mp hw)
    have hleave := L.leave hw₁ held (env.ended caller ending.outcome w.outside)
    obtain ⟨w₂', hround, hw₂⟩ := ih (pre ++ post) List.map_append hrest hleave
    rw [List.map_append] at hround
    rw [List.map_append, List.map_cons]
    rw [← L.outside hw₁] at hround
    have hlast : Interleaves env (pre.map LanePair.right ++
        ⟨caller, position, ending.resume .pure, held⟩ :: post.map LanePair.right) w₁'
          (.ended position ending :: beats) _ w₂' := .ends rfl hround
    exact ⟨w₂', hgoes.interleaves hlast, hw₂⟩

/-- A round of nodes, one for each of these things, with this known of each at first. -/
theorem Likeness.interleaves (left right : γ → Node I) (knows : γ → K) {us : List γ}
    (hus : ∀ u ∈ us, (left u).call.Alike L env (fun _ _ => False) L.Ends (knows u) (right u).call)
    {callers : Nat → Caller} (hw : L.Alike (us.map knows) w w')
    (h : Interleaves env (lanes callers (us.map left)) w beats reports w₁) :
    ∃ w₁', Interleaves env (lanes callers (us.map right)) w' beats reports w₁' ∧
      L.Alike [] w₁ w₁' := by
  let pairs : List (LanePair I K) := us.mapIdx fun p u =>
    ⟨callers p, p, [], knows u, (left u).call, (right u).call⟩
  have hlefts : pairs.map LanePair.left = lanes callers (us.map left) :=
    List.ext_getElem (by simp [pairs, lanes]) fun p hp hp' => by
      simp [pairs, lanes, LanePair.left]
  have hrights : pairs.map LanePair.right = lanes callers (us.map right) :=
    List.ext_getElem (by simp [pairs, lanes]) fun p hp hp' => by
      simp [pairs, lanes, LanePair.right]
  have hknows : pairs.map (·.knows) = us.map knows :=
    List.ext_getElem (by simp [pairs]) fun p hp hp' => by simp [pairs]
  have hlinked : ∀ s ∈ pairs, s.Linked L env := by
    intro s hs
    obtain ⟨p, hp, rfl⟩ := List.mem_mapIdx.mp hs
    exact hus _ (List.getElem_mem hp)
  obtain ⟨w₁', hround, hw₁⟩ := h.alongside pairs hlefts hlinked (hknows.symm ▸ hw)
  exact ⟨w₁', hrights ▸ hround, hw₁⟩

/-- Any number of lanes at rest. -/
theorem Likeness.alike_replicate {ks : List K} (hks : ∀ k ∈ ks, k = L.rest) :
    L.Alike ks w w' ↔ L.Alike [] w w' := by
  induction ks with
  | nil => rfl
  | cons k ks ih =>
    obtain ⟨rfl, hrest⟩ := List.forall_mem_cons.mp hks
    exact L.rests.trans (ih hrest)

end

/-! ### What is seen of nodes without what they are wrapped in -/

/-- The node inside records and marks. -/
def Node.bare : Node I → Node I
  | memorized _ node => node.bare
  | flagged _ node => node.bare
  | node => node
termination_by structural node => node

/-- What is seen, of bare nodes. -/
def Event.bare : Event I → Event I
  | .said entry => .said entry
  | .turn taken => .turn { taken with node := taken.node.bare }
  | .round nodes beats => .round (nodes.map Node.bare) beats

section

variable {L : Likeness I σ K} {env : Environment I σ} {k : K} {caller : Caller}
  {held held' : List Lock} {w w₁ w' : World I σ} {events : List (Event I)}

/-- A turn of a node, and of the other. -/
theorem Likeness.Likens.takes {n n' : Node I} (h : L.Likens env n n') (hw : L.Alike [] w w')
    {talk : List (Said I)} {ending : Ending TickResult}
    (htakes : Turn.Takes env caller ⟨n, talk, ending⟩ w w₁) :
    ∃ w₁', Turn.Takes env caller ⟨n', talk, ending⟩ w' w₁' ∧ L.Alike [] w₁ w₁' := by
  obtain ⟨held, w₂, hspeaks, rfl⟩ := htakes
  obtain ⟨⟨heap', locked', outside'⟩, hspeaks', hw₂⟩ := h.speaks (L.rests.mpr hw) hspeaks
  obtain rfl : outside' = w₂.outside := L.outside hw₂
  exact ⟨_, ⟨held, _, hspeaks', rfl⟩, L.leave hw₂ held w₂.outside⟩

/-- A round of nodes, and of the others. -/
theorem Likeness.round {N : Node I → Node I → Prop} {ns ns' : List (Node I)}
    (hns : List.Forall₂ N ns ns') (hN : ∀ n n', N n n' → n'.bare = n.bare ∧ L.Likens env n n')
    (hw : L.Alike [] w w') {callers : Nat → Caller} {beats : List (Beat I)} {reports : List Report}
    (hround : Interleaves env (lanes callers ns) w beats reports w₁) :
    ns'.map Node.bare = ns.map Node.bare ∧
      ∃ w₁', Interleaves env (lanes callers ns') w' beats reports w₁' ∧ L.Alike [] w₁ w₁' := by
  have hbare : ns'.map Node.bare = ns.map Node.bare := by
    rw [← List.forall₂_eq_eq_eq, List.forall₂_map_left_iff, List.forall₂_map_right_iff]
    exact hns.flip.imp fun n' n hn => (hN n n' hn).1
  have hlikens : ∀ pair ∈ ns.zip ns', L.Likens env pair.1 pair.2 := fun pair hmem =>
    (hN _ _ ((List.forall₂_iff_zip.mp hns).2 hmem)).2
  have hrest : ∀ k ∈ (ns.zip ns').map fun _ => L.rest, k = L.rest := by
    intro k hk
    obtain ⟨_, -, rfl⟩ := List.mem_map.mp hk
    rfl
  rw [← List.map_fst_zip (Nat.le_of_eq hns.length_eq)] at hround
  obtain ⟨w₁', hround', hw₁⟩ := Likeness.interleaves Prod.fst Prod.snd
    (fun _ => L.rest) hlikens ((Likeness.alike_replicate hrest).mpr hw) hround
  rw [List.map_snd_zip (Nat.le_of_eq hns.length_eq.symm)] at hround'
  exact ⟨hbare, w₁', hround', hw₁⟩

theorem map_bare_said (talk : List (Said I)) (events : List (Event I)) :
    (talk.map Event.said ++ events).map Event.bare =
      talk.map Event.said ++ events.map Event.bare := by
  rw [List.map_append, List.map_map]
  rfl

/-- **What one program does** the other does, to the same bare nodes. -/
theorem Prog.Alike.performs {N : Node I → Node I → Prop} {p q : Prog I α} {ending : Ending α}
    (h : p.Alike L env N L.Ends k q)
    (hN : ∀ n n', N n n' → n'.bare = n.bare ∧ L.Likens env n n') (hw : L.Alike [k] w w')
    (hp : p.Performs env caller held w events ending held' w₁) :
    ∃ events' w₁', q.Performs env caller held w' events' ending held' w₁' ∧
      events'.map Event.bare = events.map Event.bare ∧ L.Alike [] w₁ w₁' := by
  induction h generalizing held w w' events with
  | pure hab =>
    obtain ⟨rfl, rfl⟩ := hab
    obtain ⟨rfl, rfl, rfl, rfl⟩ := Prog.Performs.pure_iff.mp hp
    exact ⟨[], w', .pure, rfl, L.rests.mp hw⟩
  | both hr _ ih =>
    cases hp with
    | serve hserve hnext =>
      obtain ⟨x', w₁', k', hserve', hsaid, hP, hw₁⟩ := hr.serve hw hserve
      obtain ⟨events', w₂', hq, hbare, hw₂⟩ := ih k' _ x' hP hw₁ hnext
      refine ⟨_, w₂', .serve hserve' hq, ?_, hw₂⟩
      rw [map_bare_said, map_bare_said, hbare, hsaid]
    | tick | tickPanic | parallel | panic => cases hr.1
  | left hr _ ih =>
    obtain ⟨x, w₁, k', hserve, hsaid, hP, hw₁⟩ := hr.2 caller held hw
    obtain ⟨events, rfl, hnext⟩ := (Prog.Performs.serve_iff hserve).mp hp
    rw [hsaid]
    exact ih k' x hP hw₁ hnext
  | @right _ r' _ _ next' hr _ ih =>
    obtain ⟨x', w₁', k', hserve', hsaid, hP, hw₁⟩ := hr.2 caller held hw
    obtain ⟨events', w₂', hq, hbare, hw₂⟩ := ih k' x' hP hw₁ hp
    have hright : (Prog.request r' next').Performs env caller held w'
        ((r'.said x').map .said ++ events') ending held' w₂' := .serve hserve' hq
    rw [hsaid] at hright
    exact ⟨events', w₂', hright, hbare, hw₂⟩
  | forget hk _ ih => exact ih (hk hw) hp
  | tick hn _ ih =>
    obtain ⟨hbare, hlikens⟩ := hN _ _ hn
    cases hp with
    | serve hserve => cases hserve
    | tick htakes hnext =>
      obtain ⟨w₁', htakes', hw₁⟩ := hlikens.takes (L.rests.mp hw) htakes
      obtain ⟨events', w₂', hq, hevents, hw₂⟩ := ih _ (L.rests.mpr hw₁) hnext
      refine ⟨_, w₂', .tick htakes' hq, ?_, hw₂⟩
      rw [List.map_cons, List.map_cons, hevents, Event.bare, Event.bare, hbare]
    | tickPanic htakes =>
      obtain ⟨w₁', htakes', hw₁⟩ := hlikens.takes (L.rests.mp hw) htakes
      refine ⟨_, w₁', .tickPanic htakes', ?_, hw₁⟩
      rw [List.map_singleton, List.map_singleton, Event.bare, Event.bare, hbare]
  | parallel hns _ ih =>
    cases hp with
    | serve hserve => cases hserve
    | parallel hround hnext =>
      obtain ⟨hbare, w₁', hround', hw₁⟩ := Likeness.round hns hN (L.rests.mp hw) hround
      obtain ⟨events', w₂', hq, hevents, hw₂⟩ := ih _ (L.rests.mpr hw₁) hnext
      refine ⟨_, w₂', .parallel hround' hq, ?_, hw₂⟩
      rw [List.map_cons, List.map_cons, hevents, Event.bare, Event.bare, hbare]
  | panic =>
    cases hp with
    | serve hserve => cases hserve
    | panic => exact ⟨[], w', .panic, rfl, L.rests.mp hw⟩

end

/-! ### Call after call -/

section

variable {J : Interface} {C T : Type}

/-- What is seen of a call, of bare nodes. -/
def FamilyCall.bare (call : FamilyCall J C T) : FamilyCall J C T :=
  { call with events := call.events.map Event.bare }

/-- A call of the tick: what is seen of it, how it ends, and the world when its locks have
been given back. -/
def Family.Call (env : Environment (Family J C T) σ) (caller : Caller) (t : Tick (Family J C T))
    (children : List C) (w : World (Family J C T) σ) (events : List (Event (Family J C T)))
    (ending : Ending TickResult) (w' : World (Family J C T) σ) : Prop :=
  ∃ held w₁, (t.run (children.map node)).Performs env caller [] w events ending held w₁ ∧
    w' = w₁.unlock held

/-- Whatever is done with the one tick can be done with the other. Worlds that are alike
can rest in the same way, and of each call of the one there is a call of the other, with the
same result and the same events of bare nodes. -/
structure Family.Accompanies (env : Environment (Family J C T) σ)
    (rests : World (Family J C T) σ → World (Family J C T) σ → Prop) (t : Tick (Family J C T))
    (rests' : World (Family J C T) σ → World (Family J C T) σ → Prop) (t' : Tick (Family J C T))
    (alike : World (Family J C T) σ → World (Family J C T) σ → Prop) : Prop where
  rest : ∀ {w w₀ w'}, alike w w' → rests w w₀ → ∃ w₀', rests' w' w₀' ∧ alike w₀ w₀'
  call : ∀ {caller children w w' events ending w₁}, alike w w' →
    Call env caller t children w events ending w₁ →
    ∃ events' w₁', Call env caller t' children w' events' ending w₁' ∧
      events'.map Event.bare = events.map Event.bare ∧ alike w₁ w₁'

section

variable {env : Environment (Family J C T) σ}
  {rests rests' : World (Family J C T) σ → World (Family J C T) σ → Prop}
  {t t' : Tick (Family J C T)} {alike : World (Family J C T) σ → World (Family J C T) σ → Prop}
  {w w' : World (Family J C T) σ}

/-- **Calls side by side**: whatever calls there are of the one tick there are also of the
other. -/
theorem Family.Accompanies.calls (h : Accompanies env rests t rests' t' alike)
    {calls : List (FamilyCall J C T)} {w₁ : World (Family J C T) σ}
    (hcalls : Calls env rests t w calls w₁) (hw : alike w w') :
    ∃ calls' w₁', Calls env rests' t' w' calls' w₁' ∧
      calls'.map FamilyCall.bare = calls.map FamilyCall.bare ∧ alike w₁ w₁' := by
  induction hcalls generalizing w' with
  | none => exact ⟨[], w', .none, rfl, hw⟩
  | @call w w₀ w₁ w₂ call calls caller held hrest hperforms _ ih =>
    obtain ⟨w₀', hrest', hw₀⟩ := h.rest hw hrest
    obtain ⟨events', _, ⟨held', w₁', hperforms', rfl⟩, hevents, hw₁⟩ :=
      h.call hw₀ ⟨held, w₁, hperforms, rfl⟩
    obtain ⟨calls', w₂', hcalls, hbare, hw₂⟩ := ih hw₁
    refine ⟨⟨call.children, events', call.ending⟩ :: calls', w₂',
      .call hrest' hperforms' hcalls, ?_, hw₂⟩
    rw [List.map_cons, List.map_cons, hbare, FamilyCall.bare, FamilyCall.bare, hevents]

/-- Ticks that accompany each other have the same calls. -/
theorem Family.same_calls (alike : World (Family J C T) σ → World (Family J C T) σ → Prop)
    (h : Accompanies env rests t rests' t' alike)
    (h' : Accompanies env rests' t' rests t fun w' w => alike w w')
    (houtside : ∀ {w w'}, alike w w' → w'.outside = w.outside) (hw : alike w w') :
    (∀ calls w₁, Calls env rests t w calls w₁ → ∃ calls' w₁', Calls env rests' t' w' calls' w₁' ∧
      calls'.map FamilyCall.bare = calls.map FamilyCall.bare ∧ w₁'.outside = w₁.outside) ∧
    ∀ calls' w₁', Calls env rests' t' w' calls' w₁' → ∃ calls w₁, Calls env rests t w calls w₁ ∧
      calls'.map FamilyCall.bare = calls.map FamilyCall.bare ∧ w₁'.outside = w₁.outside := by
  constructor
  · intro calls w₁ hcalls
    obtain ⟨calls', w₁', hcalls', hbare, hw₁⟩ := h.calls hcalls hw
    exact ⟨calls', w₁', hcalls', hbare, houtside hw₁⟩
  · intro calls' w₁' hcalls'
    obtain ⟨calls, w₁, hcalls, hbare, hw₁⟩ := h'.calls hcalls' hw
    exact ⟨calls, w₁, hcalls, hbare.symm, houtside hw₁⟩

end

end

end TickTree
