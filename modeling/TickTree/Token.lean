/-
# Cancellation tokens

Tokens form a forest: a token is made on its own or as the child of another.
Cancelling a token cancels it and its descendants for good, and nothing else;
so a child of a cancelled token is cancelled from the start.

A token keeps the list of its ancestors and whether it was itself cancelled; it
counts as cancelled if it or one of its ancestors was.

Key definitions: `Tokens`, `Tokens.child`, `Tokens.cancel`,
`Tokens.isCancelled`.
Key theorems: `Tokens.isCancelled_cancel`, `Tokens.isCancelled_child`.
-/

namespace TickTree

/-- A token: its ancestors, nearest first, and whether it was itself
cancelled. -/
structure Token where
  ancestors : List Nat
  cancelled : Bool
  deriving DecidableEq, Repr, Inhabited

/-- The tokens made so far; a token is named by its place. -/
structure Tokens where
  entries : Array Token

namespace Tokens

/-- No tokens. -/
def empty : Tokens := ⟨#[]⟩

/-- The token and its ancestors. -/
def lineage (ts : Tokens) (t : Nat) : List Nat :=
  match ts.entries[t]? with
  | some token => t :: token.ancestors
  | none => [t]

/-- Was the token itself cancelled? -/
def flagged (ts : Tokens) (t : Nat) : Bool :=
  match ts.entries[t]? with
  | some token => token.cancelled
  | none => false

/-- Is the token cancelled, by itself or through an ancestor? -/
def isCancelled (ts : Tokens) (t : Nat) : Bool := (ts.lineage t).any ts.flagged

/-- A token on its own. -/
def root (ts : Tokens) : Nat × Tokens := (ts.entries.size, ⟨ts.entries.push ⟨[], false⟩⟩)

/-- A token under `parent`. -/
def child (ts : Tokens) (parent : Nat) : Nat × Tokens :=
  (ts.entries.size, ⟨ts.entries.push ⟨ts.lineage parent, false⟩⟩)

/-- A token under `parent` if there is one, else on its own. -/
def under (ts : Tokens) : Option Nat → Nat × Tokens
  | some parent => ts.child parent
  | none => ts.root

/-- Cancels a token and, with it, its descendants. -/
def cancel (ts : Tokens) (t : Nat) : Tokens :=
  ⟨ts.entries.modify t fun token => { token with cancelled := true }⟩

/-- Has the token been made? -/
def Made (ts : Tokens) (t : Nat) : Prop := t < ts.entries.size

theorem lineage_cancel (ts : Tokens) (t u : Nat) : (ts.cancel t).lineage u = ts.lineage u := by
  simp only [lineage, cancel, Array.getElem?_modify]
  by_cases h : t = u
  · subst h
    cases ts.entries[t]? <;> simp
  · simp [h]

theorem flagged_cancel (ts : Tokens) {t : Nat} (made : ts.Made t) (u : Nat) :
    (ts.cancel t).flagged u = (ts.flagged u || u == t) := by
  simp only [flagged, cancel, Array.getElem?_modify]
  by_cases h : t = u
  · subst h
    simp [show t < ts.entries.size from made]
  · have : ¬ u = t := fun e => h e.symm
    cases hu : ts.entries[u]? <;> simp [h, this]

/-- A token is cancelled after `t` was iff it was before or descends from `t`. -/
theorem isCancelled_cancel (ts : Tokens) {t : Nat} (made : ts.Made t) (u : Nat) :
    (ts.cancel t).isCancelled u = (ts.isCancelled u || (ts.lineage u).contains t) := by
  simp only [isCancelled, lineage_cancel]
  induction ts.lineage u with
  | nil => rfl
  | cons a as ih =>
    have : (a == t) = (t == a) := BEq.comm
    simp only [List.any_cons, List.contains_cons, ih, flagged_cancel ts made, this]
    cases ts.flagged a <;> cases as.any ts.flagged <;> cases t == a <;> rfl

/-- A new token is cancelled from the start iff the one above it is. -/
theorem isCancelled_child (ts : Tokens) (parent : Nat) :
    (ts.child parent).2.isCancelled (ts.child parent).1 = ts.isCancelled parent := by
  have flagged_eq : (ts.child parent).2.flagged = ts.flagged := by
    funext u
    by_cases h : u = ts.entries.size
    · simp [flagged, child, h]
    · simp [flagged, child, Array.getElem?_push, h]
  have lineage_eq : (ts.child parent).2.lineage (ts.child parent).1 =
      (ts.child parent).1 :: ts.lineage parent := by
    simp [lineage, child]
  rw [isCancelled, lineage_eq, flagged_eq, List.any_cons]
  simp [child, flagged, isCancelled]

end Tokens
end TickTree
