/-
# Managers of managers

A manager may be a member of another, so managers and the members that they have
taken form trees (`Hierarchy`, `Stands`). Where a manager is done, so are all
members below it, at any depth, and each of them was asked to stop. Its error is a
list of those of its members, and the error of a member that is a manager is again
such a list; unfolded down to the leaves (`Unfolds`), the error of a manager that is
done comes down to those of the leaves below it, each as often as the leaf stands
in the tree. So a search through the error finds each of them.

What a manager does about its own members is known from its books (`Books`). These
ask that the members keep the error that they show once they are done, which is
asked here of the leaves alone: managers do so by themselves. The rest is an
induction over the tree (`Stands.closed`).

Key definitions: `Hierarchy`, `Hierarchy.Stands`, `Hierarchy.Unfolds`,
`Hierarchy.Closed`.
Key theorems: `Books.complete`, `Hierarchy.Unfolds.any`, `Hierarchy.Stands.closed`,
`Hierarchy.closes_bottom_up`.
-/
import TickTree.Proofs.Searching
import TickTree.Proofs.Shutdown
import Mathlib.Data.List.Perm.Subperm

namespace TickTree

/-! ### Members that keep their error -/

/-- A member from outside stays one. -/
theorem Member.Change.outsider_of_outsider {s : System} {x : Nat} {a : Action} {o : Outsider}
    {member' : Member} (h : Change s x a (.outsider o) member') : ∃ o', member' = .outsider o' := by
  cases h with
  | kept | asked | settled => exact ⟨_, rfl⟩

namespace System

variable {s s' : System} {a : Action} {x : Nat} {o : Outsider}

theorem outsider?_eq_some : s.outsider? x = some o ↔ s.members[x]? = some (.outsider o) := by
  refine ⟨members_of_outsider?, fun h => ?_⟩
  simp only [outsider?, h]

theorem outsider_step (h : s.step a = some s') (hx : s.outsider? x = some o) :
    ∃ o', s'.outsider? x = some o' := by
  obtain ⟨member', hx', hchange⟩ := step_member h (members_of_outsider? hx)
  obtain ⟨o', rfl⟩ := hchange.outsider_of_outsider
  exact ⟨o', outsider?_eq_some.mpr hx'⟩

/-- Only members from outside settle. -/
theorem outsider_of_settle {as : List Action} {error : Option RunError} {μ : Moment}
    (h : empty.run as = some s) (hμ : μ ∈ history as) (ha : μ.action = .settle x error) :
    ∃ o, s.outsider? x = some o := by
  have := run_induction
    (fun H s => ∀ μ ∈ H, ∀ x error, μ.action = .settle x error → ∃ o, s.outsider? x = some o)
    (fun {H s a s'} ih h μ hμ x error ha => by
      rcases List.mem_append.mp hμ with hμ | hμ
      · obtain ⟨o, ho⟩ := ih μ hμ x error ha
        exact outsider_step h ho
      · obtain rfl := List.mem_singleton.mp hμ
        obtain rfl : a = .settle x error := ha
        obtain ⟨o, ho, -⟩ := Option.bind_eq_some_iff.mp h
        exact outsider_step h ho)
    (fun μ hμ => absurd hμ List.not_mem_nil) h
  exact this μ hμ x error ha

end System

/-- A manager keeps the error that it shows once it is done. -/
theorem keepsError_of_manager {as : List Action} {s : System} {x : Nat}
    (h : System.empty.run as = some s) (hx : (s.manager? x).isSome) :
    KeepsError (history as) x := by
  intro μ hμ e ha
  obtain ⟨o, ho⟩ := System.outsider_of_settle h hμ ha
  simp [System.manager?, System.members_of_outsider? ho] at hx

/-! ### One manager -/

theorem Moment.asks_of_stopped {m k x : Nat} {μ : Moment} (h : μ.stopped m k = some x) :
    μ.asks x := by
  obtain ⟨s, a⟩ := μ
  obtain ⟨rfl, hstops⟩ := stopped_cases h
  simpa [asks] using hstops

theorem Manager.shownError_eq_none {M : Manager} : M.shownError = none ↔ M.errors = [] := by
  cases h : M.errors <;> simp [shownError, h]

/-- What is known of a manager that is done. -/
theorem Books.complete {m : Nat} {H : List Moment} {s : System} {M : Manager} (hB : Books m H s)
    (hM : s.manager? m = some M) (hd : M.isDone) :
    (∀ x ∈ takenBy m H, s.isDone x ∧ ∃ ν ∈ H, ν.asks x) ∧
      M.errors.Perm ((takenBy m H).filterMap s.error) := by
  have hL := hB.ledger M hM
  obtain ⟨hphase, hfinished⟩ := hB.sound m _ (System.members_of_manager? hM)
  have hall := hfinished (hphase hd)
  have htaken := hL.taken
  rw [hL.mailbox (.inr (hphase hd)), List.append_nil] at htaken
  constructor
  · intro x hx
    rw [htaken] at hx
    obtain ⟨w, hw, rfl⟩ := List.mem_map.mp hx
    refine ⟨hL.done w hw (by simp [Watcher.sawEnd, hall w hw]), ?_⟩
    obtain ⟨k, hk⟩ := List.mem_iff_getElem?.mp hw
    have hstopped : w.member ∈ stoppedBy m k H := by
      simp [hL.stopped, hk, hall w hw, Option.filter]
    obtain ⟨ν, hν, hstop⟩ := List.mem_filterMap.mp hstopped
    exact ⟨ν, hν, Moment.asks_of_stopped hstop⟩
  · rw [htaken, List.filterMap_map]
    refine hL.errors.trans (.of_eq (List.filterMap_congr fun w hw => ?_))
    simp [System.readBy, Watcher.hasRead, hall w hw]

/-! ### Hierarchies -/

/-- A member, with those below it if it is a manager. -/
inductive Hierarchy where
  | leaf (member : Nat)
  | managed (manager : Nat) (members : List Hierarchy)

namespace Hierarchy

/-- The member at the top. -/
def top : Hierarchy → Nat
  | leaf x => x
  | managed m _ => m

mutual

/-- The hierarchies strictly below the top. -/
def under : Hierarchy → List Hierarchy
  | leaf _ => []
  | managed _ members => nodesOf members
termination_by structural t => t

/-- The hierarchies in some hierarchies, each before those below it. -/
def nodesOf : List Hierarchy → List Hierarchy
  | [] => []
  | t :: ts => t :: (t.under ++ nodesOf ts)
termination_by structural ts => ts

end

/-- The hierarchies in a hierarchy: itself, and those below. -/
def nodes (t : Hierarchy) : List Hierarchy := t :: t.under

/-- The member, if it is a leaf. -/
def leaf? : Hierarchy → Option Nat
  | leaf x => some x
  | managed _ _ => none

/-- The leaves of a hierarchy. -/
def leaves (t : Hierarchy) : List Nat := t.nodes.filterMap leaf?

/-- The errors that the leaves show, with the leaves. -/
def errors (s : System) (t : Hierarchy) : List (Nat × RunError) :=
  t.leaves.filterMap fun x => (s.error x).map (x, ·)

section
variable {s : System} {m x : Nat} {ts : List Hierarchy} {t u : Hierarchy}

theorem self_mem_nodes (t : Hierarchy) : t ∈ t.nodes := List.mem_cons_self

theorem under_managed (m : Nat) (ts : List Hierarchy) : (managed m ts).under = ts.flatMap nodes := by
  show nodesOf ts = ts.flatMap nodes
  induction ts with
  | nil => rfl
  | cons t ts ih => rw [nodesOf, ih, List.flatMap_cons, nodes, List.cons_append]

theorem mem_under_managed : u ∈ (managed m ts).under ↔ ∃ t ∈ ts, u ∈ t.nodes := by
  rw [under_managed, List.mem_flatMap]

theorem mem_nodes_managed (ht : t ∈ ts) (hu : u ∈ t.nodes) : u ∈ (managed m ts).nodes :=
  List.mem_cons_of_mem _ (mem_under_managed.mpr ⟨t, ht, hu⟩)

theorem leaves_managed (m : Nat) (ts : List Hierarchy) :
    (managed m ts).leaves = ts.flatMap leaves := by
  show ((managed m ts) :: (managed m ts).under).filterMap leaf? = _
  rw [under_managed, List.filterMap_cons_none rfl, List.filterMap_flatMap]
  rfl

theorem errors_managed (s : System) (m : Nat) (ts : List Hierarchy) :
    (managed m ts).errors s = ts.flatMap (errors s) := by
  rw [errors, leaves_managed, List.filterMap_flatMap]
  rfl

theorem errors_leaf (s : System) (x : Nat) :
    (leaf x).errors s = ((s.error x).map (x, ·)).toList := by
  cases h : s.error x <;> simp [errors, leaves, nodes, under, leaf?, h]

theorem mem_errors {e : RunError} : (x, e) ∈ t.errors s ↔ x ∈ t.leaves ∧ s.error x = some e := by
  simp only [errors, List.mem_filterMap, Option.map_eq_some_iff, Prod.mk.injEq]
  constructor
  · rintro ⟨y, hy, e', he, rfl, rfl⟩
    exact ⟨hy, he⟩
  · rintro ⟨hx, he⟩
    exact ⟨x, hx, e, he, rfl, rfl⟩

theorem errors_eq_nil : t.errors s = [] ↔ ∀ x ∈ t.leaves, s.error x = none := by
  simp [errors]

end

/-- After the moments `H`, the managers of the hierarchy have taken the members that
stand below them, and its leaves are no managers. -/
inductive Stands (H : List Moment) (s : System) : Hierarchy → Prop
  | leaf {x} : s.manager? x = none → Stands H s (.leaf x)
  | managed {m ts} : (s.manager? m).isSome → takenBy m H = ts.map top → (∀ t ∈ ts, Stands H s t) →
      Stands H s (.managed m ts)

/-- An error in the list of a manager: whose it is, and the errors of leaves that it
comes down to. -/
structure Part where
  source : Hierarchy
  error : RunError
  found : List (Nat × RunError)

/-- The error of a hierarchy comes down to these errors of leaves: that of a manager
is a list of errors of some of its members, and they come down to them. -/
inductive Unfolds : Hierarchy → RunError → List (Nat × RunError) → Prop
  | leaf {x e} : Unfolds (.leaf x) e [(x, e)]
  | managed {m ts} (parts : List Part) : (parts.map (·.source)).Subperm ts →
      (∀ part ∈ parts, Unfolds part.source part.error part.found) →
      Unfolds (.managed m ts) (.combined (parts.map (·.error))) (parts.flatMap (·.found))

/-- What is found by unfolding an error, a search through the error finds. -/
theorem Unfolds.any {t : Hierarchy} {e : RunError} {found : List (Nat × RunError)}
    (h : Unfolds t e found) {p : RunError → Bool} {x : Nat} {e' : RunError}
    (hfound : (x, e') ∈ found) (hp : p e') : e.any p := by
  induction h with
  | leaf =>
    cases List.mem_singleton.mp hfound
    exact RunError.any_self hp
  | managed parts _ _ ih =>
    obtain ⟨part, hpart, hmem⟩ := List.mem_flatMap.mp hfound
    rw [RunError.any, RunError.anyOf_eq_any, Bool.or_eq_true]
    exact .inr (List.any_eq_true.mpr ⟨part.error, List.mem_map_of_mem hpart, ih part hpart hmem⟩)

namespace Stands

variable {H : List Moment} {s : System} {t : Hierarchy}

/-- The books of all managers are in order, if the leaves keep their errors. -/
theorem books {as : List Action} (h : System.empty.run as = some s)
    (hst : Stands (history as) s t) (keeps : ∀ x ∈ t.leaves, KeepsError (history as) x) :
    ∀ m ts, .managed m ts ∈ t.nodes → Books m (history as) s := by
  induction hst with
  | leaf => exact fun m ts hm => nomatch List.mem_singleton.mp hm
  | @managed m ts hM htaken hall ih =>
    rw [leaves_managed] at keeps
    have hkeeps : ∀ t ∈ ts, ∀ x ∈ t.leaves, KeepsError (history as) x := fun t ht x hx =>
      keeps x (List.mem_flatMap.mpr ⟨t, ht, hx⟩)
    intro m' ts' hm
    rcases List.mem_cons.mp hm with heq | hm
    · cases heq
      refine Books.run h fun x hx => ?_
      rw [htaken] at hx
      obtain ⟨t, ht, rfl⟩ := List.mem_map.mp hx
      cases hall t ht with
      | leaf => exact hkeeps _ ht _ List.mem_cons_self
      | managed hM' => exact keepsError_of_manager h hM'
    · obtain ⟨t, ht, hm⟩ := mem_under_managed.mp hm
      exact ih t ht (hkeeps t ht) m' ts' hm

/-- Below a manager that is done, all are done and were asked to stop. -/
theorem done_below (hst : Stands H s t) (hB : ∀ m ts, .managed m ts ∈ t.nodes → Books m H s)
    (hd : s.isDone t.top) : ∀ u ∈ t.under, s.isDone u.top ∧ ∃ ν ∈ H, ν.asks u.top := by
  induction hst with
  | leaf => exact fun u hu => absurd hu List.not_mem_nil
  | @managed m ts hM htaken hall ih =>
    intro u hu
    obtain ⟨M, hM⟩ := Option.isSome_iff_exists.mp hM
    have hdone : M.isDone := (System.isDone_of_getElem? (System.members_of_manager? hM)).symm.trans hd
    obtain ⟨hmembers, -⟩ := (hB m ts (self_mem_nodes _)).complete hM hdone
    obtain ⟨t, ht, hu⟩ := mem_under_managed.mp hu
    have htop := hmembers t.top (by rw [htaken]; exact List.mem_map_of_mem ht)
    rcases List.mem_cons.mp hu with rfl | hu
    · exact htop
    · exact ih t ht (fun m' ts' h => hB m' ts' (mem_nodes_managed ht h)) htop.1 u hu

end Stands

/-! ### The errors of a hierarchy -/

/-- The error of the top tells those of the leaves. -/
structure Tells (s : System) (t : Hierarchy) : Prop where
  none_iff : s.error t.top = none ↔ ∀ x ∈ t.leaves, s.error x = none
  unfolds : ∀ e, s.error t.top = some e →
    ∃ found, Unfolds t e found ∧ found.Perm (t.errors s)

/-- The members that show an error, with the error. -/
def failed (s : System) (ts : List Hierarchy) : List (Hierarchy × RunError) :=
  ts.filterMap fun t => (s.error t.top).map (t, ·)

section
variable {s : System} {ts : List Hierarchy} {t : Hierarchy} {e : RunError}

theorem mem_failed : (t, e) ∈ failed s ts ↔ t ∈ ts ∧ s.error t.top = some e := by
  simp only [failed, List.mem_filterMap, Option.map_eq_some_iff, Prod.mk.injEq]
  constructor
  · rintro ⟨u, hu, e', he, rfl, rfl⟩
    exact ⟨hu, he⟩
  · rintro ⟨ht, he⟩
    exact ⟨t, ht, e, he, rfl, rfl⟩

theorem map_snd_failed (s : System) (ts : List Hierarchy) :
    (failed s ts).map (·.2) = (ts.map top).filterMap s.error := by
  simp only [failed, List.map_filterMap, List.filterMap_map]
  refine List.filterMap_congr fun t _ => ?_
  cases h : s.error t.top <;> simp [h]

theorem map_fst_failed_sublist (s : System) (ts : List Hierarchy) :
    ((failed s ts).map (·.1)).Sublist ts := by
  induction ts with
  | nil => exact .slnil
  | cons t ts ih =>
    unfold failed at ih ⊢
    cases he : s.error t.top with
    | none => simpa [he] using ih.cons t
    | some e => simpa [he] using ih

/-- Members that show no error have nothing to tell. -/
theorem flatMap_failed (h : ∀ t ∈ ts, Tells s t) :
    (failed s ts).flatMap (fun part => part.1.errors s) = ts.flatMap (errors s) := by
  induction ts with
  | nil => rfl
  | cons t ts ih =>
    obtain ⟨ht, hts⟩ := List.forall_mem_cons.mp h
    have ih := ih hts
    unfold failed at ih ⊢
    cases he : s.error t.top with
    | none =>
      have hnone := errors_eq_nil.mpr (ht.none_iff.mp he)
      simpa [he, hnone] using ih
    | some e => simpa [he] using ih

/-- Errors that each come down to errors of leaves do so together. -/
theorem exists_parts {shown : List (Hierarchy × RunError)}
    (h : ∀ part ∈ shown, ∃ found, Unfolds part.1 part.2 found ∧ found.Perm (part.1.errors s)) :
    ∃ parts : List Part, parts.map (·.source) = shown.map (·.1) ∧
      parts.map (·.error) = shown.map (·.2) ∧
      (∀ part ∈ parts, Unfolds part.source part.error part.found) ∧
      (parts.flatMap (·.found)).Perm (shown.flatMap fun part => part.1.errors s) := by
  induction shown with
  | nil => exact ⟨[], rfl, rfl, fun part hpart => absurd hpart List.not_mem_nil, .nil⟩
  | cons part shown ih =>
    obtain ⟨⟨found, hunfolds, hperm⟩, hrest⟩ := List.forall_mem_cons.mp h
    obtain ⟨parts, hsources, herrors, hall, hperms⟩ := ih hrest
    refine ⟨⟨part.1, part.2, found⟩ :: parts, ?_, ?_, ?_, hperm.append hperms⟩
    · rw [List.map_cons, List.map_cons, hsources]
    · rw [List.map_cons, List.map_cons, herrors]
    · exact List.forall_mem_cons.mpr ⟨hunfolds, hall⟩

end

theorem tells_leaf (s : System) (x : Nat) : Tells s (leaf x) where
  none_iff := by simp [top, leaves, nodes, under, leaf?]
  unfolds := fun e he => by
    refine ⟨_, .leaf, .of_eq ?_⟩
    rw [errors_leaf, show s.error x = some e from he]
    rfl

/-- A manager tells the errors of its members, if its errors are those that they
show. -/
theorem tells_managed {s : System} {m : Nat} {M : Manager} {ts : List Hierarchy}
    (hM : s.manager? m = some M) (herrors : M.errors.Perm ((ts.map top).filterMap s.error))
    (h : ∀ t ∈ ts, Tells s t) : Tells s (managed m ts) := by
  have hshown : s.error m = M.shownError := System.error_of_getElem? (System.members_of_manager? hM)
  constructor
  · have hnone : M.errors = [] ↔ ∀ t ∈ ts, s.error t.top = none := by
      rw [← List.length_eq_zero_iff, herrors.length_eq, List.length_eq_zero_iff]
      simp
    calc s.error m = none ↔ M.errors = [] := by rw [hshown, Manager.shownError_eq_none]
      _ ↔ ∀ t ∈ ts, ∀ x ∈ t.leaves, s.error x = none :=
          hnone.trans (forall₂_congr fun t ht => (h t ht).none_iff)
      _ ↔ ∀ x ∈ (managed m ts).leaves, s.error x = none := by
          rw [leaves_managed]
          simp only [List.mem_flatMap]
          exact ⟨fun hall x ⟨t, ht, hx⟩ => hall t ht x hx, fun hall t ht x hx => hall x ⟨t, ht, hx⟩⟩
  · intro e he
    obtain rfl : e = .combined M.errors := by
      rw [show s.error (managed m ts).top = M.shownError from hshown, Manager.shownError] at he
      split at he
      · cases he
      · exact (Option.some.inj he).symm
    -- the errors recorded are those shown, in the order in which they came
    rw [← map_snd_failed] at herrors
    obtain ⟨shown, horder, hperm⟩ : ∃ shown : List (Hierarchy × RunError),
        M.errors = shown.map (·.2) ∧ shown.Perm (failed s ts) :=
      (congrFun₂ (List.eq_map_comp_perm Prod.snd) M.errors (failed s ts)).mpr herrors
    have hall : ∀ part ∈ shown, ∃ found, Unfolds part.1 part.2 found ∧
        found.Perm (part.1.errors s) := by
      rintro ⟨t, e⟩ hpart
      obtain ⟨ht, he⟩ := mem_failed.mp (hperm.mem_iff.mp hpart)
      exact (h t ht).unfolds e he
    obtain ⟨parts, hsources, hparts, hunfolds, hfound⟩ := exists_parts hall
    refine ⟨parts.flatMap (·.found), ?_, ?_⟩
    · rw [horder, ← hparts]
      refine .managed parts ?_ hunfolds
      rw [hsources]
      exact ⟨_, (hperm.map _).symm, map_fst_failed_sublist s ts⟩
    · rw [errors_managed, ← flatMap_failed h]
      exact hfound.trans (hperm.flatMap_right _)

/-- What is so of a hierarchy whose top is done, after the moments `H`. -/
structure Closed (H : List Moment) (s : System) (t : Hierarchy) : Prop where
  /-- All below are done, and were asked to stop. -/
  below : ∀ u ∈ t.under, s.isDone u.top ∧ ∃ ν ∈ H, ν.asks u.top
  /-- The error of the top comes down to those of the leaves. -/
  tells : Tells s t
  /-- Each of them is found in it. -/
  finds : ∀ x ∈ t.leaves, ∀ e, s.error x = some e → ∀ p : RunError → Bool, p e →
    ∃ e', s.error t.top = some e' ∧ e'.any p

theorem Tells.finds {s : System} {t : Hierarchy} {x : Nat} {e : RunError} (h : Tells s t)
    (hx : x ∈ t.leaves) (he : s.error x = some e) {p : RunError → Bool} (hp : p e) :
    ∃ e', s.error t.top = some e' ∧ e'.any p := by
  cases htop : s.error t.top with
  | none => cases (h.none_iff.mp htop x hx).symm.trans he
  | some e' =>
    obtain ⟨found, hunfolds, hperm⟩ := h.unfolds e' htop
    exact ⟨e', rfl, hunfolds.any (hperm.mem_iff.mpr (mem_errors.mpr ⟨hx, he⟩)) hp⟩

namespace Stands

variable {H : List Moment} {s : System} {t : Hierarchy}

/-- The error of a manager that is done tells those of the leaves. -/
theorem tells (hst : Stands H s t) (hB : ∀ m ts, .managed m ts ∈ t.nodes → Books m H s)
    (hd : s.isDone t.top) : Tells s t := by
  induction hst with
  | leaf => exact tells_leaf s _
  | @managed m ts hM htaken hall ih =>
    obtain ⟨M, hM⟩ := Option.isSome_iff_exists.mp hM
    have hdone : M.isDone := (System.isDone_of_getElem? (System.members_of_manager? hM)).symm.trans hd
    obtain ⟨hmembers, herrors⟩ := (hB m ts (self_mem_nodes _)).complete hM hdone
    rw [htaken] at hmembers herrors
    refine tells_managed hM herrors fun t ht => ?_
    exact ih t ht (fun m' ts' h => hB m' ts' (mem_nodes_managed ht h))
      (hmembers t.top (List.mem_map_of_mem ht)).1

theorem closed_top (hst : Stands H s t) (hB : ∀ m ts, .managed m ts ∈ t.nodes → Books m H s)
    (hd : s.isDone t.top) : Closed H s t :=
  ⟨hst.done_below hB hd, hst.tells hB hd, fun _ hx _ he _ hp => (hst.tells hB hd).finds hx he hp⟩

/-- **Every hierarchy whose top is done is closed.** -/
theorem closed (hst : Stands H s t) (hB : ∀ m ts, .managed m ts ∈ t.nodes → Books m H s) :
    ∀ u ∈ t.nodes, s.isDone u.top → Closed H s u := by
  induction hst with
  | leaf hx =>
    intro u hu hd
    obtain rfl := List.mem_singleton.mp hu
    exact closed_top (.leaf hx) hB hd
  | managed hM htaken hall ih =>
    intro u hu hd
    rcases List.mem_cons.mp hu with rfl | hu
    · exact closed_top (.managed hM htaken hall) hB hd
    · obtain ⟨t, ht, hu⟩ := mem_under_managed.mp hu
      exact ih t ht (fun m ts h => hB m ts (mem_nodes_managed ht h)) u hu hd

end Stands

/-- **Managers shut down from the bottom up, and lose no error.** Let a system run in
any order of actions, and let managers and members stand in a tree, of any depth,
where the leaves keep their final error. Where a manager in it is done, all below
are done and were asked to stop; the manager shows no error iff no leaf below does;
and its error, unfolded down the tree, comes down to those of the leaves, each as
often as the leaf stands there, so that a search finds each. At any time, a watcher
of a manager asks a member to stop that is not done only if the manager was asked to
stop before, or has recorded the error of a member. -/
theorem closes_bottom_up {as : List Action} {s : System} {tree : Hierarchy}
    (h : System.empty.run as = some s) (stands : Stands (history as) s tree)
    (keeps : ∀ x ∈ tree.leaves, KeepsError (history as) x) :
    (∀ t ∈ tree.nodes, s.isDone t.top → Closed (history as) s t) ∧
      ∀ m ts, managed m ts ∈ tree.nodes → Throughout (Prompted m) (history as) := by
  have hB := stands.books h keeps
  exact ⟨stands.closed hB, fun m ts hm => (hB m ts hm).prompted⟩

/-- A manager runs another, which runs a member that fails, and beside it a member
that does not; so the inner manager stops and shows the error, and the outer one
after it. -/
def nestedFailure : List Action :=
  [.newManager, .newManager, .newOutsider, .newOutsider, .offer 1 2, .post 0, .offer 0 1, .post 0,
    .offer 0 3, .post 0, .supervise 1, .supervise 0, .supervise 0, .settle 2 (some .cancelled),
    .watch 1 0, .watch 1 0, .watch 1 0, .supervise 1, .supervise 1, .supervise 1,
    .watch 0 0, .watch 0 0, .watch 0 0, .supervise 0, .supervise 0, .watch 0 1, .settle 3 none,
    .watch 0 1, .watch 0 1, .supervise 0]

theorem closes_bottom_up_nestedFailure : ∃ s, System.empty.run nestedFailure = some s ∧
    Stands (history nestedFailure) s (.managed 0 [.managed 1 [.leaf 2], .leaf 3]) ∧
    (∀ x ∈ (managed 0 [.managed 1 [.leaf 2], .leaf 3]).leaves,
      KeepsError (history nestedFailure) x) ∧
    s.isDone 0 ∧ s.error 0 = some (.combined [.combined [.cancelled]]) ∧
    Closed (history nestedFailure) s (.managed 0 [.managed 1 [.leaf 2], .leaf 3]) ∧
    Throughout (Prompted 1) (history nestedFailure) := by
  let s := (System.empty.run nestedFailure).getD .empty
  have hs : System.empty.run nestedFailure = some s := rfl
  have stands : Stands (history nestedFailure) s (.managed 0 [.managed 1 [.leaf 2], .leaf 3]) := by
    refine .managed rfl rfl (List.forall_mem_cons.mpr ⟨?_, List.forall_mem_singleton.mpr (.leaf rfl)⟩)
    exact .managed rfl rfl (List.forall_mem_singleton.mpr (.leaf rfl))
  have keeps : ∀ x ∈ (managed 0 [.managed 1 [.leaf 2], .leaf 3]).leaves,
      KeepsError (history nestedFailure) x := fun x _ => keepsError_of_settled_once rfl x
  have law := closes_bottom_up hs stands keeps
  exact ⟨s, hs, stands, keeps, rfl, rfl, law.1 _ (self_mem_nodes _) rfl,
    law.2 1 [.leaf 2] (by simp [nodes, under, nodesOf])⟩

end Hierarchy

end TickTree
