/-
# Forks inside forks are one fork

A tree of forks, ticked again and again, behaves as one fork over its leaves. Each
call plays a round of a load (`ForkTree.callsPlay`), and the load knows nothing of
the tree but its leaves. So two trees with the same leaves, ticked from the same
state of the leaves, agree call by call, in whatever orders the reports arrive
(`Plays.agree`); and whatever the orders, the next call comes to its end
(`goes_of_poised`).

For the end of a call, the children due are ticked one after another. A tick of a
tree changes nothing outside it (`ForkTree.Confined`), so every child finds what
it left, and that is one of the ways in which the threads of a round can go.

Key definitions: `ForkTree.flat`, `ForkTree.Fresh`, `ForkTree.Calls`, `Call.Agree`.
Key theorems: `ForkTree.goes_of_poised`, `ForkTree.Plays.agree`,
`ForkTree.flattens`.
-/
import TickTree.Proofs.ForkTrees

namespace TickTree

namespace ForkTree

variable {L : Type} {w w₁ w' v v' : World (LeafCalls L) (L → Nat)} {t s : ForkTree L}
  {f : Load L}

/-! ### Ticks change nothing outside their tree -/

/-- Only forks and leaves of the tree are changed. -/
def Confined (t : ForkTree L) (w w' : World (LeafCalls L) (L → Nat)) : Prop :=
  Untouched (· ∉ t.rounds) (· ∉ t.leaves) w w'

/-- Two trees have no fork and no leaf in common. -/
def Disjoint (t s : ForkTree L) : Prop := t.rounds.Disjoint s.rounds ∧ t.leaves.Disjoint s.leaves

theorem Confined.spares (h : t.Confined w w') (hdisjoint : s.Disjoint t) : s.Spares w w' :=
  Untouched.mono h (fun _ hr => hdisjoint.1 hr) fun _ hl => hdisjoint.2 hl

/-- What happens to the cell of a fork happens inside its tree. -/
theorem Confined.of_inside {r : Ref .round} {ts : List (ForkTree L)}
    (h : World.Inside r w w') : (fork r ts).Confined w w' := by
  refine ⟨fun r' hr' => h.spares fun he => hr' ?_, fun l _ => congrFun h.outside l⟩
  obtain ⟨index⟩ := r
  obtain ⟨index'⟩ := r'
  cases he
  rw [rounds_fork]
  exact List.mem_cons_self

theorem Confined.trans (h : t.Confined w v) (h' : t.Confined v w') : t.Confined w w' :=
  Untouched.trans h h'

section Goes

variable [DecidableEq L] {play : L → Nat → TickResult}
  {order : List (Node (LeafCalls L)) → List Report → List Report} {d : Nat}

/-- A tick from later on is a tick from now, if the tree is left alone until then. -/
theorem ticked_of_spares {caller : Caller} {ending : Ending TickResult} (hspares : t.Spares w v)
    (h : t.node.Ticked (env play) (others play order d t) caller v ending w') :
    t.node.Ticked (env play) (others play order d t) caller w ending w' := by
  obtain ⟨held, w₁, hcall, rfl⟩ := h
  exact ⟨held, w₁, hcall.change hspares, rfl⟩

/-- The tree can be ticked, whatever the reports of its forks are ordered by, and
that changes nothing outside it. -/
def Goes (play : L → Nat → TickResult)
    (order : List (Node (LeafCalls L)) → List Report → List Report) (d : Nat) (t : ForkTree L)
    (w : World (LeafCalls L) (L → Nat)) : Prop :=
  ∀ caller, ∃ result w',
    t.node.Ticked (env play) (others play order d t) caller w (.value result) w' ∧ t.Confined w w'

/-- Trees that have nothing in common can be ticked one after another. -/
theorem exists_turns (us : List (ForkTree L)) (hdisjoint : us.Pairwise Disjoint)
    (hgoes : ∀ u ∈ us, ∀ v, u.Spares w v → u.Goes play order d v) (caller : Caller) :
    ∃ (endings : Nat → Ending TickResult) (w' : World (LeafCalls L) (L → Nat)),
      Untouched (fun r => ∀ u ∈ us, r ∉ u.rounds) (fun l => ∀ u ∈ us, l ∉ u.leaves) w w' ∧
      ∀ (p : Nat) (u : ForkTree L), us[p]? = some u → ∃ w₁,
        u.node.Ticked (env play) (others play order d u) caller w (endings p) w₁ ∧
        u.Spares w₁ w' := by
  induction us generalizing w with
  | nil => exact ⟨fun _ => .value (.ok .running), w, .refl _ _ w, fun _ _ hp => by cases hp⟩
  | cons u us ih =>
    obtain ⟨hu, hus⟩ := List.pairwise_cons.mp hdisjoint
    obtain ⟨result, w₁, hticked, hconfined⟩ :=
      hgoes u List.mem_cons_self w (.refl _ _ w) caller
    have hspares : ∀ s ∈ us, s.Spares w w₁ := fun s hs =>
      hconfined.spares ⟨(hu s hs).1.symm, (hu s hs).2.symm⟩
    obtain ⟨endings, w', huntouched, hturns⟩ := ih hus fun s hs v hv =>
      hgoes s (List.mem_cons_of_mem u hs) v ((hspares s hs).trans hv)
    refine ⟨fun p => p.casesOn (.value result) endings, w', ?_, fun p s hp => ?_⟩
    · refine Untouched.trans
        (hconfined.mono (fun r hr => hr u List.mem_cons_self) fun l hl => hl u List.mem_cons_self)
        (huntouched.mono ?_ ?_)
      · exact fun r hr s hs => hr s (List.mem_cons_of_mem u hs)
      · exact fun l hl s hs => hl s (List.mem_cons_of_mem u hs)
    · cases p with
      | zero =>
        cases hp
        refine ⟨w₁, hticked, huntouched.mono (fun r hr s hs => ?_) fun l hl s hs => ?_⟩
        · exact (hu s hs).1 hr
        · exact (hu s hs).2 hl
      | succ p =>
        obtain ⟨w₂, hticked, hafter⟩ := hturns p s hp
        exact ⟨w₂, ticked_of_spares (hspares s (List.mem_of_getElem? hp)) hticked, hafter⟩

/-- The children due at a fork can be ticked in parallel. -/
theorem exists_joined {r : Ref .round} {ts : List (ForkTree L)} {numbers : List Nat}
    (hrounds : (ts.flatMap rounds).Nodup) (hleaves : (ts.flatMap leaves).Nodup)
    (hdistinct : numbers.Nodup)
    (hgoes : ∀ u ∈ ts, ∀ v, u.Spares w v → u.Goes play order d v) :
    ∃ arrived w', joins play order (d + 1) (fork r ts) w (Fork.pick (ts.map node) numbers) arrived
        w' ∧ (fork r ts).Confined w w' := by
  let us := numbers.filterMap (ts[·]?)
  have hus : Fork.pick (ts.map node) numbers = us.map node := by
    rw [List.map_filterMap]
    exact List.filterMap_congr fun i _ => List.getElem?_map
  have hmem : ∀ u ∈ us, u ∈ ts := by
    intro u hu
    obtain ⟨i, -, hi⟩ := List.mem_filterMap.mp hu
    exact List.mem_of_getElem? hi
  have hpair : us.Pairwise Disjoint := by
    refine List.pairwise_filterMap.mpr (hdistinct.imp fun hne u hu s hs => ⟨?_, ?_⟩)
    · exact fun _ => disjoint_of_nodup hrounds hu hs hne
    · exact fun _ => disjoint_of_nodup hleaves hu hs hne
  obtain ⟨endings, w', huntouched, hturns⟩ :=
    exists_turns us hpair (fun u hu => hgoes u (hmem u hu)) default
  refine ⟨_, w', ⟨us, endings, hus, rfl, ?_, fun p u hp => ⟨default, hturns p u hp⟩⟩, ?_⟩
  · exact huntouched.mono (fun r hr => hr.2) fun l hl => hl.2
  · refine huntouched.mono (fun r' hr' u hu hmem' => hr' ?_) fun l hl u hu hmem' => hl ?_
    · rw [rounds_fork]
      exact List.mem_cons_of_mem r (List.mem_flatMap.mpr ⟨u, hmem u hu, hmem'⟩)
    · rw [leaves_fork]
      exact List.mem_flatMap.mpr ⟨u, hmem u hu, hmem'⟩

theorem goes_leaf (l : L) : (leaf l).Goes play order d w := by
  intro caller
  have hticked : (leaf l).node.Ticked (env play) (others play order d (leaf l)) caller w
      (.value (play l (w.outside l)))
      { w with outside := Function.update w.outside l (w.outside l + 1) } := by
    refine ⟨[], _, ?_, (World.unlock_nil _).symm⟩
    exact .serve (Untouched.refl _ _ w) rfl (.pure (Untouched.refl _ _ _))
  refine ⟨_, _, hticked, fun r _ => ⟨id, rfl, Iff.rfl⟩, fun l' hl' => ?_⟩
  exact Function.update_of_ne (fun he => hl' (List.mem_singleton.mpr he)) _ _

/-- **A tree that is poised can be ticked**, whatever the reports of its forks are
ordered by. -/
theorem goes_of_poised (h : Poised t f w) (hrounds : t.rounds.Nodup) (hleaves : t.leaves.Nodup)
    (hheight : t.height ≤ d) : t.Goes play order d w := by
  induction t generalizing f w d with
  | leaf l => exact goes_leaf l
  | fork r ts ih =>
    cases h with
    | @fork _ _ _ numbers errors failed loads hmade hfree hcell hdistinct hlt hchildren hwhole =>
    intro caller
    obtain ⟨d, rfl⟩ : ∃ d', d = d' + 1 := ⟨d - 1, by rw [height] at hheight; omega⟩
    rw [height, Nat.add_le_add_iff_right] at hheight
    rw [rounds_fork, List.nodup_cons] at hrounds
    obtain ⟨hown, hrounds⟩ := hrounds
    rw [leaves_fork] at hleaves
    have hgoes : ∀ u ∈ ts, ∀ v, u.Spares w v → u.Goes play order d v := by
      intro u hu v hv
      obtain ⟨i, hi⟩ := List.getElem?_of_mem hu
      exact ih u hu ((hchildren i u hi).spares hv) ((List.nodup_flatMap.mp hrounds).1 u hu)
        ((List.nodup_flatMap.mp hleaves).1 u hu) ((height_le_heightOf hu).trans hheight)
    generalize hcycle : Fork.underWay (ts.map node) numbers errors failed = cycle at hcell
    let w₁ : World (LeafCalls L) (L → Nat) :=
      ⟨w.heap.set r (Fork.ticking cycle), r.lock :: w.locked, w.outside⟩
    have hbefore : World.Inside r w w₁ := .trans (.acquire w) (.swap (w.hold r.lock) _)
    obtain ⟨ended, w₂, hround, hconfined⟩ : ∃ ended w₂,
        (if cycle.remaining = [] then ended = Fork.ticking cycle ∧ w₂ = w₁
          else ∃ arrived, joins play order (d + 1) (fork r ts) w₁ cycle.remaining arrived w₂ ∧
            ended = (Fork.ticking cycle).absorb cycle.remaining arrived) ∧
        (fork r ts).Confined w₁ w₂ := by
      by_cases hnone : cycle.remaining = []
      · refine ⟨Fork.ticking cycle, w₁, ?_, .refl _ _ w₁⟩
        rw [if_pos hnone]
        exact ⟨rfl, rfl⟩
      · obtain ⟨arrived, w₂, hjoin, hconfined⟩ :=
          @exists_joined L w₁ _ play order d r ts numbers hrounds hleaves hdistinct
            fun u hu v hv => hgoes u hu v ((Spares.of_inside hown hu hbefore).trans hv)
        refine ⟨(Fork.ticking cycle).absorb cycle.remaining arrived, w₂, ?_, hconfined⟩
        rw [if_neg hnone]
        subst hcycle
        exact ⟨arrived, hjoin, rfl⟩
    have hcall : (Fork.run r (ts.map node)).Among (env play)
        (others play order (d + 1) (fork r ts)) caller [] w (.value ended.verdict) [] _ :=
      .of_evaluates ((Fork.run_iff hfree hcell).mpr ⟨ended, w₂, hround, rfl, rfl, rfl⟩)
    rw [← nodes_eq] at hcall
    refine ⟨_, _, ⟨_, _, hcall, (World.unlock_nil _).symm⟩, ?_⟩
    exact ((Confined.of_inside hbefore).trans hconfined).trans
      (.of_inside (.trans (.swap w₂ _) (.release _)))

end Goes

/-! ### Trees with the same leaves -/

/-- The forks of the tree are made and between two cycles, and no tick is in them. -/
def Fresh (t : ForkTree L) (w : World (LeafCalls L) (L → Nat)) : Prop := ∀ r ∈ t.rounds, w.Fresh r

/-- A fresh tree is poised to begin a cycle over all of its leaves. -/
theorem poised_of_fresh (h : t.Fresh w) : Poised t t.whole w := by
  induction t with
  | leaf l => exact .leaf
  | fork r ts ih =>
    rw [Fresh, rounds_fork, List.forall_mem_cons] at h
    obtain ⟨hr, hts⟩ := h
    refine poised_between hr.made hr.unlocked hr.fresh fun s hs => ih s hs fun r' hr' => ?_
    exact hts r' (List.mem_flatMap.mpr ⟨s, hs, hr'⟩)

/-- A call of the root: how it ends, and how often each leaf has been ticked before
and after it. -/
structure Call (L : Type) where
  ending : Ending TickResult
  before : L → Nat
  after : L → Nat

/-- Both calls end, both running, both with the same status, or both with an error
of the same items; and both tick the same leaves, each once. -/
structure Call.Agree (leaves : List L) (c c' : Call L) : Prop where
  result : ∃ r r', c.ending = .value r ∧ c'.ending = .value r' ∧ Load.Alike r r'
  ticked : ∀ l ∈ leaves, (c.after l = c.before l ∧ c'.after l = c'.before l) ∨
    (c.after l = c.before l + 1 ∧ c'.after l = c'.before l + 1)

/-- One fork over the leaves. -/
def flat (r : Ref .round) (leaves : List L) : ForkTree L := .fork r (leaves.map .leaf)

theorem leaves_flat (r : Ref .round) (ls : List L) : (flat r ls).leaves = ls := by
  rw [flat, leaves_fork, List.flatMap_map]
  exact List.flatMap_singleton' ls

theorem rounds_flat (r : Ref .round) (ls : List L) : (flat r ls).rounds = [r] := by
  rw [flat, rounds_fork, List.flatMap_map]
  exact congrArg (r :: ·) (List.flatMap_eq_nil_iff.mpr fun _ _ => rfl)

theorem height_flat (r : Ref .round) (ls : List L) : (flat r ls).height ≤ 1 := by
  have hleaves : heightOf (ls.map leaf) = 0 := by
    induction ls with
    | nil => rfl
    | cons l ls ih => rw [List.map_cons, heightOf, ih, height, Nat.max_self]
  rw [flat, height, hleaves]

section Calls

variable [DecidableEq L]

/-- Calls of the root, one after another. In each the reports arrive in orders of
its own, at every fork and in every round. -/
inductive Calls (play : L → Nat → TickResult) (t : ForkTree L) :
    World (LeafCalls L) (L → Nat) → List (Call L) → World (LeafCalls L) (L → Nat) → Prop
  | nil {u} : Calls play t u [] u
  | cons {order : List (Node (LeafCalls L)) → List Report → List Report}
      {d caller ending u u₁ calls u'} :
      (∀ nodes reports, (order nodes reports).Perm reports) →
      t.node.Ticked (env play) (others play order d t) caller u ending u₁ →
      Calls play t u₁ calls u' → Calls play t u (⟨ending, u.outside, u₁.outside⟩ :: calls) u'

variable {play : L → Nat → TickResult} {calls calls' : List (Call L)}

/-- After any calls the tree is poised again. -/
theorem Calls.poised (h : Calls play t w calls w') (hrounds : t.rounds.Nodup)
    (hleaves : t.leaves.Nodup) (hpoised : Poised t f w) : ∃ f', Poised t f' w' := by
  induction h generalizing f with
  | nil => exact ⟨f, hpoised⟩
  | cons horder hticked _ ih =>
    obtain ⟨r, -, hplays⟩ := callsPlay horder _ hpoised hrounds hleaves hticked
    exact ih hplays.poised

/-- Two trees with the same leaves and the same load agree from now on. -/
theorem Calls.agree (h : Calls play t w calls w') (hrounds : t.rounds.Nodup)
    (hleaves : t.leaves.Nodup) (hrounds' : s.rounds.Nodup) (hsame : t.leaves.Perm s.leaves)
    (h' : Calls play s v calls' v') (hlength : calls.length = calls'.length)
    (hpoised : Poised t f w) (hpoised' : Poised s f v)
    (hcounts : ∀ l ∈ t.leaves, w.outside l = v.outside l) :
    List.Forall₂ (Call.Agree t.leaves) calls calls' := by
  induction h generalizing f v calls' with
  | nil =>
    obtain rfl := List.length_eq_zero_iff.mp hlength.symm
    exact .nil
  | @cons _ _ _ _ w w₁ _ _ horder hticked _ ih =>
    cases h' with
    | nil => cases hlength
    | @cons _ _ _ _ v v₁ _ _ horder' hticked' h' =>
    obtain ⟨r, rfl, hplays⟩ := callsPlay horder _ hpoised hrounds hleaves hticked
    obtain ⟨r', rfl, hplays'⟩ :=
      callsPlay horder' _ hpoised' hrounds' (hsame.nodup hleaves) hticked'
    have hstep : f.step (answer play w) = f.step (answer play v) := by
      refine Load.step_congr fun l hl => ?_
      rw [answer, answer, hcounts l (hpoised.mem_leaves hl)]
    have hcounts₁ : ∀ l ∈ t.leaves, w₁.outside l = v₁.outside l := by
      intro l hl
      rw [hplays.counts l hl, hplays'.counts l (hsame.mem_iff.mp hl), hcounts l hl]
    obtain ⟨hresult, hnext, hcount⟩ := hplays
    obtain ⟨hresult', hnext', hcount'⟩ := hplays'
    rw [hstep] at hresult hnext
    rw [Multiset.coe_eq_coe.mpr hsame] at hnext
    refine .cons ⟨⟨r, r', rfl, rfl, hresult.alike hresult'⟩, fun l hl => ?_⟩
      (ih h' (Nat.succ.inj hlength) hnext hnext' hcounts₁)
    have hl' := hcount' l (hsame.mem_iff.mp hl)
    have hl := hcount l hl
    by_cases hdue : l ∈ f.due
    · rw [if_pos hdue] at hl hl'
      exact .inr ⟨hl, hl'⟩
    · rw [if_neg hdue] at hl hl'
      exact .inl ⟨hl, hl'⟩

/-- **Forks inside forks are one fork.** The forks of a tree are fresh, and each
stands at one place; the leaves, each at one place too, answer from their own
counts of ticks. Call by call, in whatever orders the reports arrive, the tree
agrees with one fork over the same leaves, and with itself; and whatever the
orders, the next call comes to its end. -/
theorem flattens (play : L → Nat → TickResult) (t : ForkTree L) (r : Ref .round) {ls : List L}
    (hrounds : t.rounds.Nodup) (hleaves : t.leaves.Nodup) (hls : t.leaves.Perm ls)
    (htree : t.Fresh w) (hflat : v.Fresh r)
    (hcounts : ∀ l ∈ t.leaves, w.outside l = v.outside l) :
    (∀ calls w₁ calls' v₁, Calls play t w calls w₁ → Calls play (flat r ls) v calls' v₁ →
      calls.length = calls'.length → List.Forall₂ (Call.Agree t.leaves) calls calls') ∧
    (∀ calls w₁ calls' w₂, Calls play t w calls w₁ → Calls play t w calls' w₂ →
      calls.length = calls'.length → List.Forall₂ (Call.Agree t.leaves) calls calls') ∧
    ∀ (order : List (Node (LeafCalls L)) → List Report → List Report) (d : Nat) (caller : Caller),
      (∀ calls w₁, Calls play t w calls w₁ → t.height ≤ d → ∃ result w₂,
        t.node.Ticked (env play) (others play order d t) caller w₁ (.value result) w₂) ∧
      ∀ calls v₁, Calls play (flat r ls) v calls v₁ → 1 ≤ d → ∃ result v₂,
        (flat r ls).node.Ticked (env play) (others play order d (flat r ls)) caller v₁
          (.value result) v₂ := by
  have hperm : t.leaves.Perm (flat r ls).leaves := by rwa [leaves_flat]
  have hrounds' : (flat r ls).rounds.Nodup := by
    rw [rounds_flat]
    exact List.nodup_singleton r
  have hpoised := poised_of_fresh htree
  have hpoised' : Poised (flat r ls) (flat r ls).whole v := by
    refine poised_of_fresh fun r' hr' => ?_
    rw [rounds_flat] at hr'
    rwa [List.mem_singleton.mp hr']
  have hwhole : (flat r ls).whole = t.whole :=
    congrArg Load.whole (Multiset.coe_eq_coe.mpr hperm.symm)
  rw [hwhole] at hpoised'
  refine ⟨fun calls w₁ calls' v₁ h h' hlength => ?_, fun calls w₁ calls' w₂ h h' hlength => ?_,
    fun order d caller => ⟨fun calls w₁ h hheight => ?_, fun calls v₁ h hheight => ?_⟩⟩
  · exact h.agree hrounds hleaves hrounds' hperm h' hlength hpoised hpoised' hcounts
  · exact h.agree hrounds hleaves hrounds (.refl _) h' hlength hpoised hpoised fun _ _ => rfl
  · obtain ⟨f, hpoised⟩ := h.poised hrounds hleaves hpoised
    obtain ⟨result, w₂, hticked, -⟩ := goes_of_poised hpoised hrounds hleaves hheight caller
    exact ⟨result, w₂, hticked⟩
  · obtain ⟨f, hpoised⟩ := h.poised hrounds' (hperm.nodup hleaves) hpoised'
    obtain ⟨result, v₂, hticked, -⟩ := goes_of_poised hpoised hrounds' (hperm.nodup hleaves)
      ((height_flat r ls).trans hheight) caller
    exact ⟨result, v₂, hticked⟩

end Calls

/-- A fork stands between two leaves that report backwards, and its own two leaves
report backwards too; another is empty. One fork over the leaves, in another order,
makes the same two calls: one leaf goes on after the first, another fails in it. -/
theorem flattens_backwards :
    let play : Nat → Nat → TickResult := fun l n =>
      if l = 1 then (if n = 0 then .ok .running else .error .missingTick)
      else .ok (if l = 2 then .failure else .success)
    let t : ForkTree Nat := fork ⟨0⟩ [leaf 0, fork ⟨1⟩ [leaf 1, leaf 2], leaf 3, fork ⟨2⟩ []]
    let made (n : Nat) : Heap (LeafCalls Nat) := Nat.repeat (fun h => (h.alloc .round).2) n .empty
    ∃ calls w₁ calls' v₁, Calls play t ⟨made 3, [], fun _ => 0⟩ calls w₁ ∧
      Calls play (flat ⟨0⟩ [2, 1, 0, 3]) ⟨made 1, [], fun _ => 0⟩ calls' v₁ ∧
      calls.length = 2 ∧ calls'.length = 2 ∧
      List.Forall₂ (Call.Agree [0, 1, 2, 3]) calls calls' := by
  intro play t made
  let w : World (LeafCalls Nat) (Nat → Nat) := ⟨made 3, [], fun _ => 0⟩
  let v : World (LeafCalls Nat) (Nat → Nat) := ⟨made 1, [], fun _ => 0⟩
  have htree : t.Fresh w := by
    intro r hr
    have hrounds : r = ⟨0⟩ ∨ r = ⟨1⟩ ∨ r = ⟨2⟩ := by simpa [t, rounds, roundsOf] using hr
    rcases hrounds with rfl | rfl | rfl
    · exact ⟨(by decide : 0 < 3), List.not_mem_nil, rfl⟩
    · exact ⟨(by decide : 1 < 3), List.not_mem_nil, rfl⟩
    · exact ⟨(by decide : 2 < 3), List.not_mem_nil, rfl⟩
  have hflat : v.Fresh (⟨0⟩ : Ref .round) := ⟨Nat.zero_lt_one, List.not_mem_nil, rfl⟩
  have hbackwards : ∀ (nodes : List (Node (LeafCalls Nat))) (reports : List Report),
      ((fun _ => List.reverse) nodes reports).Perm reports := fun _ => List.reverse_perm
  obtain ⟨hagree, -, hgoes⟩ := @flattens Nat w v _ play t ⟨0⟩ [2, 1, 0, 3] (by decide)
    (by decide) (by decide) htree hflat fun _ _ => rfl
  obtain ⟨hgoes, hgoes'⟩ := hgoes (fun _ => List.reverse) 2 default
  obtain ⟨r₁, w₁, hfirst⟩ := hgoes _ _ .nil (by decide)
  obtain ⟨r₂, w₂, hsecond⟩ := hgoes _ _ (.cons hbackwards hfirst .nil) (by decide)
  obtain ⟨r₁', v₁, hfirst'⟩ := hgoes' _ _ .nil (by decide)
  obtain ⟨r₂', v₂, hsecond'⟩ := hgoes' _ _ (.cons hbackwards hfirst' .nil) (by decide)
  have hcalls := Calls.cons hbackwards hfirst (.cons hbackwards hsecond .nil)
  have hcalls' := Calls.cons hbackwards hfirst' (.cons hbackwards hsecond' .nil)
  exact ⟨_, _, _, _, hcalls, hcalls', rfl, rfl, hagree _ _ _ _ hcalls hcalls' rfl⟩

end ForkTree

end TickTree
