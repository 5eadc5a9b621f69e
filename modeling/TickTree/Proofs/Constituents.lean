/-
# What joined errors are made of

A joined error has parts, which may be joined errors again. Put into a list in the place
of the whole, as long as one in the list is joined (`Dissolves`), they come down to its
items. Errors are joined one after the other, and the two sides of `join` are not alike:
the error collected so far gives its parts to the new one, and the next error becomes a
single part of it, joined or not. So errors joined in a row have the parts of the first,
and then the others as they are (`joinAll_cons`).

The items of the whole are those of the errors, in order, and its text is made of theirs
(`joined_in_order`); only the text of a joined error without parts is lost, if that comes
first. But of flat errors the whole is flat only if no joined one follows the first
(`flat_iff_joined_first`), and so it depends on the order in which they arrive.

Key definitions: `TickError.parts`, `TickError.isFlat`, `TickError.Splice`,
`TickError.Dissolves`.
Key theorems: `TickError.joinAll_cons`, `TickError.dissolves_iff`,
`TickError.text_joinAll`, `TickError.joined_in_order`, `TickError.flat_iff_joined_first`.
-/
import TickTree.TickError
import Mathlib.Data.List.Basic
import Mathlib.Data.List.Induction
import Mathlib.Logic.Relation

namespace TickTree
namespace TickError

open Relation (ReflTransGen)

variable {e x first : TickError} {errors rest l l' : List TickError}

/-! ### Parts and items -/

/-- Is this a joined error? -/
def isJoined : TickError → Bool
  | joined _ => true
  | _ => false

/-- The errors that an error joins, or itself if it is not a joined one. -/
def parts : TickError → List TickError
  | joined errors => errors
  | e => [e]

/-- Is no joined error directly inside a joined one? -/
def isFlat : TickError → Bool
  | joined errors => errors.all (!·.isJoined)
  | _ => true

/-- What holds of an error that is not joined, and of a joined one if it holds of its
parts, holds of every error. -/
theorem joined_induction {P : TickError → Prop} (single : ∀ e, e.isJoined = false → P e)
    (whole : ∀ errors, (∀ e ∈ errors, P e) → P (joined errors)) : ∀ e, P e
  | joined errors => whole errors fun e _ => joined_induction single whole e
  | missingTick => single _ rfl
  | child _ _ _ => single _ rfl
  | message _ => single _ rfl
  | foreign _ => single _ rfl
  | wrapped _ => single _ rfl

@[simp] theorem parts_joined (errors : List TickError) : (joined errors).parts = errors := rfl

theorem parts_of_not_joined (h : e.isJoined = false) : e.parts = [e] := by
  cases e with
  | joined => cases h
  | _ => rfl

theorem items_of_not_joined (h : e.isJoined = false) : e.items = [e] := by
  cases e with
  | joined => cases h
  | _ => rfl

theorem items_joined (errors : List TickError) : (joined errors).items = errors.flatMap items :=
  itemsOf_eq_flatMap errors

theorem eq_joined_parts (h : e.isJoined) : e = joined e.parts := by
  cases e with
  | joined => rfl
  | _ => cases h

/-- The items of an error are those of its parts. -/
theorem flatMap_items_parts (e : TickError) : e.parts.flatMap items = e.items := by
  by_cases h : e.isJoined
  · rw [eq_joined_parts h, items_joined, parts_joined]
  · rw [parts_of_not_joined (by simpa using h), List.flatMap_singleton]

/-- No item is joined. -/
theorem isJoined_of_mem_items (e : TickError) : ∀ x ∈ e.items, x.isJoined = false := by
  induction e using joined_induction with
  | single e h =>
    intro x hx
    rw [items_of_not_joined h] at hx
    rwa [List.mem_singleton.mp hx]
  | whole errors ih =>
    intro x hx
    rw [items_joined] at hx
    obtain ⟨e, he, hx⟩ := List.mem_flatMap.mp hx
    exact ih e he x hx

/-- Errors that are not joined are their own items. -/
theorem flatMap_items_of_not_joined (h : ∀ x ∈ l, x.isJoined = false) : l.flatMap items = l :=
  calc l.flatMap items = l.flatMap fun x => [x] :=
        List.flatMap_congr fun x hx => items_of_not_joined (h x hx)
    _ = l := List.flatMap_singleton' l

/-! ### Taking joined errors apart -/

/-- A joined error in a list gives its place to its parts. -/
inductive Splice : List TickError → List TickError → Prop
  | mk (before errors after : List TickError) :
      Splice (before ++ joined errors :: after) (before ++ errors ++ after)

/-- Taken apart as long as one of them is joined, the errors come down to `l`. -/
def Dissolves (errors l : List TickError) : Prop :=
  ReflTransGen Splice errors l ∧ ∀ x ∈ l, x.isJoined = false

theorem Splice.between (h : Splice l l') (before after : List TickError) :
    Splice (before ++ l ++ after) (before ++ l' ++ after) := by
  obtain ⟨front, errors, back⟩ := h
  simpa only [List.append_assoc, List.cons_append] using
    Splice.mk (before ++ front) errors (back ++ after)

/-- Taking one apart leaves the items as they are. -/
theorem Splice.items_eq (h : Splice l l') : l.flatMap items = l'.flatMap items := by
  obtain ⟨before, errors, after⟩ := h
  simp only [List.flatMap_append, List.flatMap_cons, items_joined, List.append_assoc]

theorem splices_append {k k' : List TickError} (h : ReflTransGen Splice l l')
    (h' : ReflTransGen Splice k k') : ReflTransGen Splice (l ++ k) (l' ++ k') := by
  have hleft : ReflTransGen Splice (l ++ k) (l' ++ k) :=
    h.lift (· ++ k) fun _ _ hs => hs.between [] k
  have hright : ReflTransGen Splice (l' ++ k) (l' ++ k') :=
    h'.lift (l' ++ ·) fun _ _ hs => by simpa using hs.between l' []
  exact hleft.trans hright

theorem splices_flatMap (h : ∀ e ∈ errors, ReflTransGen Splice [e] e.items) :
    ReflTransGen Splice errors (errors.flatMap items) := by
  induction errors with
  | nil => exact .refl
  | cons e errors ih =>
    obtain ⟨he, hrest⟩ := List.forall_mem_cons.mp h
    exact splices_append he (ih hrest)

/-- An error comes down to its items. -/
theorem splices_items (e : TickError) : ReflTransGen Splice [e] e.items := by
  induction e using joined_induction with
  | single e h => rw [items_of_not_joined h]
  | whole errors ih =>
    have hfirst : Splice [joined errors] errors := by simpa using Splice.mk [] errors []
    rw [items_joined]
    exact .head hfirst (splices_flatMap ih)

/-- **Errors come down to their items and to nothing else**, in whatever order they are
taken apart. -/
theorem dissolves_iff : Dissolves errors l ↔ l = errors.flatMap items := by
  constructor
  · rintro ⟨hsplices, hsingle⟩
    have hitems : errors.flatMap items = l.flatMap items := by
      clear hsingle
      induction hsplices with
      | refl => rfl
      | tail _ hs ih => exact ih.trans hs.items_eq
    rw [hitems, flatMap_items_of_not_joined hsingle]
  · rintro rfl
    refine ⟨splices_flatMap fun e _ => splices_items e, fun x hx => ?_⟩
    obtain ⟨e, -, hx⟩ := List.mem_flatMap.mp hx
    exact isJoined_of_mem_items e x hx

/-! ### Errors joined in a row -/

theorem joinAll_snoc (errors : List TickError) (e : TickError) :
    joinAll (errors ++ [e]) = some (join (joinAll errors) e) := by
  simp [joinAll]

theorem join_some (first e : TickError) : join (some first) e = joined (first.parts ++ [e]) := by
  cases first <;> rfl

/-- **Only the first of the errors gives its parts**; the others become parts themselves. -/
theorem joinAll_cons (first : TickError) (rest : List TickError) :
    joinAll (first :: rest) =
      some (if rest = [] then first else joined (first.parts ++ rest)) := by
  induction rest using List.reverseRecOn with
  | nil => rfl
  | append_singleton rest e ih =>
    rw [← List.cons_append, joinAll_snoc, ih, join_some]
    by_cases hrest : rest = []
    · simp [hrest]
    · rw [if_neg hrest, if_neg (by simp), parts_joined, List.append_assoc]

theorem joinAll_eq_none : joinAll errors = none ↔ errors = [] := by
  cases errors with
  | nil => simp [joinAll]
  | cons first rest => simp [joinAll_cons]

/-- The parts of errors joined in a row. -/
theorem parts_joinAll (h : joinAll (first :: rest) = some e) : e.parts = first.parts ++ rest := by
  rw [joinAll_cons, Option.some.injEq] at h
  by_cases hrest : rest = []
  · rw [← h, if_pos hrest, hrest, List.append_nil]
  · rw [← h, if_neg hrest, parts_joined]

/-- The items of errors joined in a row. -/
theorem items_joinAll (errors : List TickError) :
    (joinAll errors).elim [] items = errors.flatMap items := by
  cases errors with
  | nil => rfl
  | cons first rest =>
    obtain ⟨e, he⟩ : ∃ e, joinAll (first :: rest) = some e := ⟨_, joinAll_cons first rest⟩
    calc (joinAll (first :: rest)).elim [] items = e.parts.flatMap items := by
          rw [he, Option.elim_some, flatMap_items_parts]
      _ = first.parts.flatMap items ++ rest.flatMap items := by
          rw [parts_joinAll he, List.flatMap_append]
      _ = (first :: rest).flatMap items := by rw [flatMap_items_parts, List.flatMap_cons]

/-- The text of an error is made of those of its parts. -/
theorem text_eq_parts (e : TickError) : e.text = " | ".intercalate (e.parts.map text) := by
  by_cases h : e.isJoined
  · rw [eq_joined_parts h, text, texts_eq_map, parts_joined]
  · rw [parts_of_not_joined (by simpa using h), List.map_singleton, String.intercalate_singleton]

/-- The text of errors joined in a row, unless the first is a joined error without
parts. -/
theorem text_joinAll (h : joinAll (first :: rest) = some e) (hfirst : first.parts ≠ []) :
    e.text = " | ".intercalate ((first :: rest).map text) := by
  rw [text_eq_parts e, parts_joinAll h, List.map_append, List.map_cons]
  by_cases hrest : rest = []
  · rw [hrest, List.map_nil, List.append_nil, ← text_eq_parts, String.intercalate_singleton]
  · have hparts : first.parts.map text ≠ [] := by simpa using hfirst
    have htexts : rest.map text ≠ [] := by simpa using hrest
    rw [String.intercalate_append_of_ne_nil hparts htexts, ← text_eq_parts,
      String.intercalate_cons_of_ne_nil htexts]

/-- **Joining keeps every item and every text, in order.** Let errors be joined in a row,
the first of them not a joined error without parts. Then there is an error that joins
them. Its items are those of the errors, one error after the other: what the errors come
down to when joined ones are taken apart, in place, until none is left. Its text is made
of theirs; and if there is only one, it is that one. -/
theorem joined_in_order (hne : errors ≠ []) (hfirst : errors.head? ≠ some (joined [])) :
    ∃ e, joinAll errors = some e ∧ e.items = errors.flatMap items ∧
      (∀ l, Dissolves errors l ↔ l = e.items) ∧
      e.text = " | ".intercalate (errors.map text) ∧ ∀ only, errors = [only] → e = only := by
  obtain ⟨first, rest, rfl⟩ := List.exists_cons_of_ne_nil hne
  obtain ⟨e, he⟩ : ∃ e, joinAll (first :: rest) = some e := ⟨_, joinAll_cons first rest⟩
  have hitems : e.items = (first :: rest).flatMap items := by
    simpa [he] using items_joinAll (first :: rest)
  have hparts : first.parts ≠ [] := by
    cases first with
    | joined errors => simpa using hfirst
    | _ => exact List.cons_ne_nil _ _
  refine ⟨e, he, hitems, fun l => ?_, text_joinAll he hparts, fun only honly => ?_⟩
  · rw [dissolves_iff, hitems]
  · rw [honly] at he
    exact (Option.some.inj he).symm

/-- A joined error inside a joined one, an error that a composite has tagged, and a joined
error without parts. -/
def nestedErrors : List TickError :=
  [joined [message "a", joined [message "b"]], child "Sequence" 1 (joined [message "c"]), joined []]

theorem joined_in_order_nested : nestedErrors ≠ [] ∧ nestedErrors.head? ≠ some (joined []) ∧
    ∃ e, joinAll nestedErrors = some e ∧
      e.items = [message "a", message "b", child "Sequence" 1 (joined [message "c"])] ∧
      Dissolves nestedErrors e.items ∧
      e.text = "a | b | Sequence encountered error with child at index 1: c | " := by
  have hne : nestedErrors ≠ [] := List.cons_ne_nil _ _
  have hfirst : nestedErrors.head? ≠ some (joined []) := by simp [nestedErrors]
  obtain ⟨e, he, hitems, hdissolves, htext, -⟩ := joined_in_order hne hfirst
  exact ⟨hne, hfirst, e, he, hitems, (hdissolves _).mpr rfl, htext⟩

/-! ### Flat errors -/

theorem isFlat_joined : (joined errors).isFlat ↔ ∀ e ∈ errors, e.isJoined = false := by
  simp [isFlat]

/-- No part of a flat error is joined. -/
theorem isJoined_of_mem_parts (h : e.isFlat) : ∀ x ∈ e.parts, x.isJoined = false := by
  by_cases hj : e.isJoined
  · rw [eq_joined_parts hj, isFlat_joined] at h
    exact h
  · have hj : e.isJoined = false := by simpa using hj
    rw [parts_of_not_joined hj, List.forall_mem_singleton]
    exact hj

theorem flatMap_parts_of_not_joined (h : ∀ x ∈ l, x.isJoined = false) : l.flatMap parts = l :=
  calc l.flatMap parts = l.flatMap fun x => [x] :=
        List.flatMap_congr fun x hx => parts_of_not_joined (h x hx)
    _ = l := List.flatMap_singleton' l

/-- Flat errors joined in a row make a flat error iff no joined one follows the first. -/
theorem isFlat_joinAll_iff (h : joinAll (first :: rest) = some e) (hfirst : first.isFlat) :
    e.isFlat ↔ ∀ later ∈ rest, later.isJoined = false := by
  by_cases hrest : rest = []
  · subst hrest
    obtain rfl : first = e := Option.some.inj h
    simpa using hfirst
  · rw [joinAll_cons, if_neg hrest, Option.some.injEq] at h
    rw [← h, isFlat_joined, List.forall_mem_append]
    exact and_iff_right (isJoined_of_mem_parts hfirst)

/-- Any of several errors comes after another in some order of them. -/
theorem exists_order_late (he : e ∈ first :: rest) (hrest : rest ≠ []) :
    ∃ y ys, (y :: ys).Perm (first :: rest) ∧ e ∈ ys := by
  rcases List.mem_cons.mp he with rfl | hmem
  · obtain ⟨y, ys, rfl⟩ := List.exists_cons_of_ne_nil hrest
    exact ⟨y, e :: ys, .swap e y ys, List.mem_cons_self⟩
  · exact ⟨first, rest, .refl _, hmem⟩

/-- An error is flat and made of the parts of these errors, in order. -/
def Flattens (errors : List TickError) (e : TickError) : Prop :=
  e.isFlat ∧ e.parts = errors.flatMap parts

/-- Flat errors joined in a row are flattened iff no joined one follows the first. -/
theorem flattens_iff (h : joinAll (first :: rest) = some e) (hfirst : first.isFlat) :
    Flattens (first :: rest) e ↔ ∀ later ∈ rest, later.isJoined = false := by
  rw [Flattens, isFlat_joinAll_iff h hfirst, and_iff_left_iff_imp]
  intro hrest
  rw [parts_joinAll h, List.flatMap_cons, flatMap_parts_of_not_joined hrest]

/-- In every order are flat errors flattened iff there is only one, or none is joined. -/
theorem flattens_in_every_order_iff (hflat : ∀ e ∈ first :: rest, e.isFlat) :
    (∀ order e, order.Perm (first :: rest) → joinAll order = some e → Flattens order e) ↔
      rest = [] ∨ ∀ e ∈ first :: rest, e.isJoined = false := by
  constructor
  · intro h
    by_contra hcon
    obtain ⟨hrest, hjoined⟩ := not_or.mp hcon
    push Not at hjoined
    obtain ⟨x, hx, hj⟩ := hjoined
    obtain ⟨y, ys, horder, hlate⟩ := exists_order_late hx hrest
    have hy : y.isFlat := hflat y (horder.mem_iff.mp List.mem_cons_self)
    have he := joinAll_cons y ys
    exact hj ((flattens_iff he hy).mp (h _ _ horder he) x hlate)
  · rintro hsingle order e horder he
    cases order with
    | nil => exact absurd horder.symm (List.not_perm_cons_nil)
    | cons y ys =>
      have hy : y.isFlat := hflat y (horder.mem_iff.mp List.mem_cons_self)
      refine (flattens_iff he hy).mpr fun later hlater => ?_
      rcases hsingle with rfl | hnone
      · rw [List.perm_singleton] at horder
        cases horder
        exact absurd hlater List.not_mem_nil
      · exact hnone later (horder.mem_iff.mp (List.mem_cons_of_mem y hlater))

/-- **Only the first error is flattened.** Let flat errors be joined in a row. There is an
error that joins them, and it has the parts of the first, followed by the others as they
are. So it is flat and made of the parts of all, in order, iff no joined error follows the
first; and whatever the order in which they arrive, iff there is only one, or none of them
is joined. -/
theorem flat_iff_joined_first (hflat : ∀ e ∈ first :: rest, e.isFlat) :
    ∃ e, joinAll (first :: rest) = some e ∧ e.parts = first.parts ++ rest ∧
      (Flattens (first :: rest) e ↔ ∀ later ∈ rest, later.isJoined = false) ∧
      ((∀ order e, order.Perm (first :: rest) → joinAll order = some e → Flattens order e) ↔
        rest = [] ∨ ∀ e ∈ first :: rest, e.isJoined = false) := by
  have he := joinAll_cons first rest
  exact ⟨_, he, parts_joinAll he, flattens_iff he (hflat first List.mem_cons_self),
    flattens_in_every_order_iff hflat⟩

theorem flat_iff_joined_first_inner :
    (∀ e ∈ [joined [message "b", message "c"], message "a"], e.isFlat) ∧
      ∃ e, joinAll [joined [message "b", message "c"], message "a"] = some e ∧
        e.parts = [message "b", message "c", message "a"] ∧
        Flattens [joined [message "b", message "c"], message "a"] e ∧
        ¬ ∀ order e, order.Perm [joined [message "b", message "c"], message "a"] →
          joinAll order = some e → Flattens order e := by
  have hflat : ∀ e ∈ [joined [message "b", message "c"], message "a"], e.isFlat := by
    simp [isFlat, isJoined]
  obtain ⟨e, he, hparts, hfirst, horders⟩ := flat_iff_joined_first hflat
  refine ⟨hflat, e, he, hparts, hfirst.mpr ?_, fun h => ?_⟩
  · exact List.forall_mem_singleton.mpr rfl
  · simpa [isJoined] using horders.mp h

/-- An error that comes before a joined one takes it as it is. -/
theorem not_flattens_joined_late :
    (∀ e ∈ [message "a", joined [message "b", message "c"]], e.isFlat) ∧
      joinAll [message "a", joined [message "b", message "c"]] =
        some (joined [message "a", joined [message "b", message "c"]]) ∧
      ¬ Flattens [message "a", joined [message "b", message "c"]]
        (joined [message "a", joined [message "b", message "c"]]) := by
  refine ⟨by simp [isFlat, isJoined], rfl, fun h => ?_⟩
  simpa [isFlat, isJoined] using h.1

end TickError
end TickTree
