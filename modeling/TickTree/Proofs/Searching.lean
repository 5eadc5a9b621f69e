/-
# Searching through aggregates

Two searches walk the errors of a run. `any` offers to its predicate the error itself and
all that it aggregates (`any_iff`): combined lists and the causes of refusals count, at
any depth. `anyTick` looks at the tick errors among them, and of each offers the items
(`mem_items_iff`): of a joined error those that it comes down to, but never the joined
error itself, nor a joined one inside it.

So `anyTick` may miss what a tick error as a whole shows, its text for instance
(`anyTick_misses_joined`). It finds all that is there iff its predicate does not hold of
joined errors alone (`anyTick_complete_iff`), as when it holds of a joined error only with
one of the errors joined.

Key definitions: `RunError.Within`, `TickError.Within`, `RunError.Carries`.
Key theorems: `RunError.any_iff`, `TickError.mem_items_iff`, `RunError.anyTick_iff`,
`RunError.anyTick_complete_iff`.
-/
import TickTree.RunError
import TickTree.Proofs.Constituents

namespace TickTree

namespace TickError

/-- Is `x` the error, or one that it joins, at any depth? -/
inductive Within (x : TickError) : TickError → Prop
  | self : Within x x
  | joined {e errors} : e ∈ errors → Within x e → Within x (joined errors)

/-- **The items are the errors within that are not joined themselves.** -/
theorem mem_items_iff {x e : TickError} : x ∈ e.items ↔ x.Within e ∧ x.isJoined = false := by
  constructor
  · intro hx
    refine ⟨?_, isJoined_of_mem_items e x hx⟩
    induction e using joined_induction with
    | single e h =>
      rw [items_of_not_joined h, List.mem_singleton] at hx
      exact hx ▸ .self
    | whole errors ih =>
      rw [items_joined] at hx
      obtain ⟨e, he, hx⟩ := List.mem_flatMap.mp hx
      exact .joined he (ih e he hx)
  · rintro ⟨hwithin, hx⟩
    induction hwithin with
    | self =>
      rw [items_of_not_joined hx]
      exact List.mem_singleton.mpr rfl
    | joined he _ ih =>
      rw [items_joined]
      exact List.mem_flatMap.mpr ⟨_, he, ih⟩

/-- A predicate that holds of a joined error only with one of the errors joined holds of
an item, if of anything within. -/
theorem exists_item {p : TickError → Bool} (hp : ∀ errors, p (joined errors) → ∃ e ∈ errors, p e)
    (e : TickError) : p e → ∃ x, x.Within e ∧ x.isJoined = false ∧ p x := by
  induction e using joined_induction with
  | single e h => exact fun he => ⟨e, .self, h, he⟩
  | whole errors ih =>
    intro he
    obtain ⟨e, hmem, he⟩ := hp errors he
    obtain ⟨x, hx, hitem⟩ := ih e hmem he
    exact ⟨x, .joined hmem hx, hitem⟩

theorem Within.trans {x y e : TickError} (hx : x.Within y) (hy : y.Within e) : x.Within e := by
  induction hy with
  | self => exact hx
  | joined he _ ih => exact .joined he ih

end TickError

namespace RunError

variable {p : TickError → Bool} {r x : RunError}

/-- Is `x` the error, or one that it aggregates, in a combined list or as the cause of a
refusal, at any depth? -/
inductive Within (x : RunError) : RunError → Prop
  | self : Within x x
  | combined {r errors} : r ∈ errors → Within x r → Within x (combined errors)
  | stopped {cause} : Within x cause → Within x (managerStopped (some cause))

theorem exists_within_of_any {q : RunError → Bool} : ∀ r : RunError, r.any q → ∃ x, Within x r ∧ q x
  | tick _, h | cancelled, h | panicked _, h | managerStopped none, h => ⟨_, .self, h⟩
  | managerStopped (some cause), h => by
    rcases Bool.or_eq_true_iff.mp h with h | h
    · exact ⟨_, .self, h⟩
    · obtain ⟨x, hx, hq⟩ := exists_within_of_any cause h
      exact ⟨x, .stopped hx, hq⟩
  | combined errors, h => by
    rcases Bool.or_eq_true_iff.mp h with h | h
    · exact ⟨_, .self, h⟩
    · rw [anyOf_eq_any] at h
      obtain ⟨r, hr, h⟩ := List.any_eq_true.mp h
      obtain ⟨x, hx, hq⟩ := exists_within_of_any r h
      exact ⟨x, .combined hr hx, hq⟩

theorem any_self {q : RunError → Bool} (h : q r) : r.any q := by
  cases r with
  | managerStopped cause => cases cause <;> simp [any, h]
  | _ => simp [any, h]

theorem Within.any {q : RunError → Bool} (h : Within x r) (hq : q x) : r.any q := by
  induction h with
  | self => exact any_self hq
  | combined hr _ ih =>
    rw [RunError.any, anyOf_eq_any, Bool.or_eq_true]
    exact .inr (List.any_eq_true.mpr ⟨_, hr, ih⟩)
  | stopped _ ih => rw [RunError.any, ih, Bool.or_true]

/-- **A search finds what holds of the error or of one that it aggregates.** -/
theorem any_iff {q : RunError → Bool} : r.any q ↔ ∃ x, Within x r ∧ q x :=
  ⟨exists_within_of_any r, fun ⟨_, hx, hq⟩ => hx.any hq⟩

/-- Does `p` hold of something within a tick error that is the error or one that it
aggregates? -/
def Carries (p : TickError → Bool) (r : RunError) : Prop :=
  ∃ e, Within (tick e) r ∧ ∃ x, x.Within e ∧ p x

/-- What `any` finds among the tick errors is carried. -/
theorem carries_of_any (h : r.any fun | tick e => p e | _ => false) : Carries p r := by
  obtain ⟨x, hx, hp⟩ := any_iff.mp h
  cases x with
  | tick e => exact ⟨e, hx, e, .self, hp⟩
  | _ => cases hp

/-- **The search through tick errors finds what is carried by errors that are not
joined.** -/
theorem anyTick_iff : r.anyTick p ↔ Carries (fun x => p x && !x.isJoined) r := by
  unfold anyTick Carries
  rw [any_iff]
  constructor
  · rintro ⟨x, hx, hfound⟩
    cases x with
    | tick e =>
      obtain ⟨item, hitem, hp⟩ := List.any_eq_true.mp hfound
      obtain ⟨hwithin, hsingle⟩ := TickError.mem_items_iff.mp hitem
      exact ⟨e, hx, item, hwithin, by simp [hp, hsingle]⟩
    | _ => cases hfound
  · rintro ⟨e, hx, item, hwithin, hp⟩
    obtain ⟨hp, hsingle⟩ := Bool.and_eq_true_iff.mp hp
    refine ⟨tick e, hx, List.any_eq_true.mpr ⟨item, ?_, hp⟩⟩
    exact TickError.mem_items_iff.mpr ⟨hwithin, by simpa using hsingle⟩

theorem Carries.mono {q : TickError → Bool} (h : Carries q r) (himp : ∀ x, q x → p x) :
    Carries p r := by
  obtain ⟨e, he, x, hx, hq⟩ := h
  exact ⟨e, he, x, hx, himp x hq⟩

/-- What is carried is carried by a joined error, or by one that is not. -/
theorem carries_iff : Carries p r ↔
    Carries (fun x => p x && x.isJoined) r ∨ Carries (fun x => p x && !x.isJoined) r := by
  constructor
  · rintro ⟨e, he, x, hx, hp⟩
    by_cases hj : x.isJoined
    · exact .inl ⟨e, he, x, hx, by simp [hp, hj]⟩
    · exact .inr ⟨e, he, x, hx, by simp [hp, hj]⟩
  · rintro (h | h)
    · exact h.mono fun x hx => (Bool.and_eq_true_iff.mp hx).1
    · exact h.mono fun x hx => (Bool.and_eq_true_iff.mp hx).1

/-- What is carried is carried by an error that is not joined, if the predicate holds of a
joined error only with one of the errors joined. -/
theorem Carries.single (hp : ∀ errors, p (.joined errors) → ∃ e ∈ errors, p e)
    (h : Carries p r) : Carries (fun x => p x && !x.isJoined) r := by
  obtain ⟨e, he, x, hx, hpx⟩ := h
  obtain ⟨item, hitem, hsingle, hpi⟩ := TickError.exists_item hp x hpx
  exact ⟨e, he, item, hitem.trans hx, by simp [hpi, hsingle]⟩

/-- **The search through tick errors never looks at a joined error as a whole.** It finds
what is carried by errors that are not joined. So it finds all that is carried iff what a
joined error carries, one that is not joined carries too; always, if the predicate holds
of a joined error only with one of the errors joined. What a search through the errors of
the run finds among the tick errors is carried. -/
theorem anyTick_complete_iff (p : TickError → Bool) (r : RunError) :
    (r.anyTick p ↔ Carries (fun x => p x && !x.isJoined) r) ∧
      ((r.anyTick p ↔ Carries p r) ↔
        (Carries (fun x => p x && x.isJoined) r → Carries (fun x => p x && !x.isJoined) r)) ∧
      ((∀ errors, p (.joined errors) → ∃ e ∈ errors, p e) → (r.anyTick p ↔ Carries p r)) ∧
      (r.any (fun | tick e => p e | _ => false) → Carries p r) := by
  refine ⟨anyTick_iff, ?_, fun hp => ?_, carries_of_any⟩
  · rw [anyTick_iff]
    constructor
    · exact fun h hjoined => h.mpr (carries_iff.mpr (.inl hjoined))
    · intro h
      exact ⟨fun hsingle => carries_iff.mpr (.inr hsingle), fun hc => (carries_iff.mp hc).elim h id⟩
  · rw [anyTick_iff]
    exact ⟨fun h => carries_iff.mpr (.inr h), Carries.single hp⟩

/-- The error of a ticker under which two children of a fork failed. -/
def bothFailed : RunError := tick (.joined [.message "e1", .message "e2"])

/-- The text of the joined error is found in the error of the run, and not in its tick
errors; and so is its being joined. -/
theorem anyTick_misses_joined :
    (bothFailed.any fun | tick e => e.text == "e1 | e2" | _ => false) ∧
      Carries (fun e => e.text == "e1 | e2") bothFailed ∧
      bothFailed.anyTick (fun e => e.text == "e1 | e2") = false ∧
      Carries TickError.isJoined bothFailed ∧ bothFailed.anyTick TickError.isJoined = false := by
  have htext : bothFailed.any fun | tick e => e.text == "e1 | e2" | _ => false := by rfl
  have hjoined : bothFailed.any fun | tick e => e.isJoined | _ => false := rfl
  exact ⟨htext, carries_of_any htext, by rfl, carries_of_any hjoined, rfl⟩

end RunError
end TickTree
