/-
# Marks inside records and around them

A child of an execution may have a mark inside its record or around it. If the mark is
inside, a result that is replayed does not raise the flag; if it is around, it does. But
whenever a success is replayed the flag is up already: it was raised when the child
succeeded, and is not lowered before the execution is over. So for a tick that ticks its
children in its own calls the two are the same.

In a round a success is noted at different times in the two, and others may see the
record before the flag. So what a turn still owes is kept track of (`Debt`): the flag is
up or owed on both sides, or on neither (`Abreast`).

Key definitions: `AnySuccess.Debt`, `AnySuccess.Twins`, `AnySuccess.Abreast`,
`AnySuccess.abreast`.
Key theorems: `AnySuccess.alike_call`, `AnySuccess.alike_replay`, `AnySuccess.Twins.expand`,
`AnySuccess.admits`.
-/
import TickTree.Proofs.AlikeTicks

namespace TickTree

variable {J : Interface} {C T σ : Type}

/-- The heaps differ in this cell only. -/
structure Heap.SameBut {I : Interface} {kind : CellKind} (s : Ref kind) (h h' : Heap I) :
    Prop where
  size : ∀ kind, (h'.table kind).size = (h.table kind).size
  cell : ∀ {kind : CellKind} {r : Ref kind}, r.lock ≠ s.lock → h'.get r = h.get r

theorem Heap.SameBut.refl {I : Interface} {kind : CellKind} {s : Ref kind} (h : Heap I) :
    h.SameBut s h :=
  ⟨fun _ => rfl, fun _ => rfl⟩

theorem Heap.SameBut.set {I : Interface} {kind : CellKind} {s : Ref kind} (h : Heap I)
    (state : kind.State I) : h.SameBut s (h.set s state) :=
  ⟨fun _ => Heap.size_set _ _ _, fun hne => Heap.get_set_of_lock_ne (fun he => hne he.symm) _ _⟩

namespace AnySuccess

/-! ### Children with marks inside and around -/

/-- What is known of a turn of a child: whether a success has come of it, and whether the
flag has still to be raised for it on either side. -/
structure Debt where
  success : Bool
  left : Bool
  right : Bool

namespace Debt

/-- Nothing is known. -/
def none : Debt := ⟨false, false, false⟩

/-- The flag has been raised if it was owed. -/
def paid (success : Bool) : Debt := ⟨success, false, false⟩

/-- A success, and the flag is owed on both sides. -/
def due : Debt := ⟨true, true, true⟩

/-- Both sides have come to the same, and owe nothing. -/
def Ends {α : Type} (debt : Debt) (a b : α) : Prop := debt = .none ∧ b = a

end Debt

/-- A child with one of these records and a mark: the mark is inside the record on one
side and around it on the other. It may be wrapped further on both. -/
inductive Twins (flag : Ref .flag) (recs : List (Ref .record)) :
    Node (Family J C T) → Node (Family J C T) → Prop
  | child {rec} {c : C} : rec ∈ recs →
      Twins flag recs (.memorized rec (.flagged flag (Family.node c)))
        (.flagged flag (.memorized rec (Family.node c)))
  | memorized {rec : Ref .record} {n n'} : rec ∉ recs → Twins flag recs n n' →
      Twins flag recs (.memorized rec n) (.memorized rec n')
  | flagged {other : Ref .flag} {n n'} : other ≠ flag → Twins flag recs n n' →
      Twins flag recs (.flagged other n) (.flagged other n')

theorem Twins.bare {flag : Ref .flag} {recs : List (Ref .record)} {n n' : Node (Family J C T)}
    (h : Twins flag recs n n') : n'.bare = n.bare := by
  induction h with
  | child => rfl
  | memorized _ _ ih | flagged _ _ ih => exact ih

/-- What a cell holds on the two sides: nodes differ in cells with one of these locks
only. -/
structure Kept (mine : Lock → Prop) (N : Node (Family J C T) → Node (Family J C T) → Prop)
    {kind : CellKind} (s : Ref kind) (state state' : kind.State (Family J C T)) : Prop where
  pairs : mine s.lock → kind.Pairs N state state'
  same : ¬ mine s.lock → state' = state

/-- Records hold no nodes. -/
theorem Kept.record {mine : Lock → Prop} {N : Node (Family J C T) → Node (Family J C T) → Prop}
    {rec : Ref .record} {state state' : Option TickResult} (h : Kept mine N rec state state') :
    state' = state := by
  by_cases hmine : mine rec.lock
  · exact h.pairs hmine
  · exact h.same hmine

/-- The children of an execution with marks inside their records. -/
def marksInside (flag : Ref .flag) (us : List (Ref .record × C)) : List (Node (Family J C T)) :=
  us.map fun u => .memorized u.1 (.flagged flag (Family.node u.2))

/-- The records of the execution that is open. -/
def recordsOf (open? : Option (List (Ref .record × C))) : List (Ref .record) :=
  (open?.getD []).map Prod.fst

/-- The two worlds differ in where the children of the execution that is open have their
marks, in its own cell and in the cells with these locks. The flag is up in both, or owed,
if a success is recorded or known of. -/
structure Abreast (flag : Ref .flag) (exec : Ref .execution) (mine : Lock → Prop)
    (open? : Option (List (Ref .record × C))) (debts : List Debt)
    (w w' : World (Family J C T) σ) : Prop where
  outside : w'.outside = w.outside
  locked : w'.locked = w.locked
  size : ∀ kind, (w'.heap.table kind).size = (w.heap.table kind).size
  madeFlag : w.heap.Made flag
  madeExec : w.heap.Made exec
  madeRecs : ∀ rec ∈ recordsOf open?, w.heap.Made rec
  inside : w.heap.get exec = open?.map (marksInside flag)
  around : w'.heap.get exec = open?.map (List.map Memorize.wrapper)
  cell : ∀ {kind : CellKind} {s : Ref kind}, s.lock ≠ flag.lock → s.lock ≠ exec.lock →
    Kept mine (Twins flag (recordsOf open?)) s (w.heap.get s) (w'.heap.get s)
  up : ((w'.heap.get flag : Bool) || debts.any (·.right)) =
    ((w.heap.get flag : Bool) || debts.any (·.left))
  known : ((∃ rec ∈ recordsOf open?,
      w.heap.get rec = (some (.ok .success) : Option TickResult)) ∨ ∃ debt ∈ debts, debt.success) →
    ((w.heap.get flag : Bool) || debts.any (·.left)) = true

namespace Abreast

variable {flag : Ref .flag} {exec : Ref .execution} {mine : Lock → Prop}
  {open? : Option (List (Ref .record × C))} {debt : Debt} {debts : List Debt}
  {w w' : World (Family J C T) σ}

theorem made_iff (h : Abreast flag exec mine open? debts w w') {kind : CellKind} (s : Ref kind) :
    w'.heap.Made s ↔ w.heap.Made s := by
  unfold Heap.Made
  rw [h.size]

/-- When no turn is under way the flags are the same. -/
theorem flags (h : Abreast flag exec mine open? [] w w') :
    w'.heap.get flag = w.heap.get flag :=
  (Bool.or_false _).symm.trans (h.up.trans (Bool.or_false _))

/-- Nothing depends on the locks that are taken, or on the world outside, if they stay the
same. -/
theorem change (h : Abreast flag exec mine open? debts w w') {locked locked' : List Lock}
    {outside outside' : σ} (hlocked : locked' = locked) (houtside : outside' = outside) :
    Abreast flag exec mine open? debts { w with locked, outside }
      { w' with locked := locked', outside := outside' } :=
  ⟨houtside, hlocked, h.size, h.madeFlag, h.madeExec, h.madeRecs, h.inside, h.around, h.cell,
    h.up, h.known⟩

theorem unlock (h : Abreast flag exec mine open? debts w w') (held : List Lock) :
    Abreast flag exec mine open? debts (w.unlock held) (w'.unlock held) :=
  h.change (by rw [h.locked]) h.outside

/-- Turns that owe the same and know no more. -/
theorem of_debts {debts' : List Debt} (h : Abreast flag exec mine open? debts w w')
    (hleft : debts'.any (·.left) = debts.any (·.left))
    (hright : debts'.any (·.right) = debts.any (·.right))
    (hknown : (∃ debt ∈ debts', debt.success) → ∃ debt ∈ debts, debt.success) :
    Abreast flag exec mine open? debts' w w' := by
  refine ⟨h.outside, h.locked, h.size, h.madeFlag, h.madeExec, h.madeRecs, h.inside, h.around,
    h.cell, ?_, fun hsuccess => ?_⟩
  · rw [hleft, hright]
    exact h.up
  · rw [hleft]
    exact h.known (hsuccess.imp_right hknown)

/-- A cell is set on both sides. -/
theorem set (h : Abreast flag exec mine open? debts w w') {kind : CellKind} {s : Ref kind}
    {state state' : kind.State (Family J C T)} (hflag : s.lock ≠ flag.lock)
    (hexec : s.lock ≠ exec.lock) (hstate : Kept mine (Twins flag (recordsOf open?)) s state state')
    (hrec : ∀ rec ∈ recordsOf open?,
      (w.heap.set s state).get rec = (some (.ok .success) : Option TickResult) →
      w.heap.get rec = (some (.ok .success) : Option TickResult) ∨
        ((w.heap.get flag : Bool) || debts.any (·.left)) = true) :
    Abreast flag exec mine open? debts { w with heap := w.heap.set s state }
      { w' with heap := w'.heap.set s state' } := by
  have hget : ∀ {kind' : CellKind} {r : Ref kind'} (h : Heap (Family J C T)) (state),
      s.lock ≠ r.lock → (h.set s state).get r = h.get r :=
    fun h state hne => Heap.get_set_of_lock_ne hne h state
  refine ⟨h.outside, h.locked, fun kind' => ?_, (Heap.made_set _).mpr h.madeFlag,
    (Heap.made_set _).mpr h.madeExec, fun rec hmem => (Heap.made_set _).mpr (h.madeRecs rec hmem),
    (hget _ _ hexec).trans h.inside, (hget _ _ hexec).trans h.around,
    fun {kind' r} hrflag hrexec => ?_, ?_, fun hsuccess => ?_⟩
  · exact (Heap.size_set _ _ _).trans ((h.size kind').trans (Heap.size_set _ _ _).symm)
  · change Kept mine _ r ((w.heap.set s state).get r) ((w'.heap.set s state').get r)
    by_cases hsame : s.lock = r.lock
    · obtain rfl : kind = kind' := congrArg Lock.kind hsame
      obtain rfl := Ref.eq_of_lock_eq hsame
      by_cases hmade : w.heap.Made s
      · rw [Heap.get_set hmade, Heap.get_set ((h.made_iff s).mpr hmade)]
        exact hstate
      · rw [Heap.get_set_of_not_made hmade, Heap.get_set_of_not_made (mt (h.made_iff s).mp hmade)]
        exact h.cell hrflag hrexec
    · rw [hget _ _ hsame, hget _ _ hsame]
      exact h.cell hrflag hrexec
  · rw [hget _ _ hflag, hget _ _ hflag]
    exact h.up
  · rw [hget _ _ hflag]
    rcases hsuccess with ⟨rec, hmem, hget⟩ | hdebt
    · exact (hrec rec hmem hget).elim (fun hget => h.known (.inl ⟨rec, hmem, hget⟩)) id
    · exact h.known (.inr hdebt)

/-- A record is made on both sides. It is none of those of the execution. -/
theorem alloc (h : Abreast flag exec mine open? debts w w') :
    (w'.heap.alloc .record).1 = (w.heap.alloc .record).1 ∧
      (w.heap.alloc .record).1 ∉ recordsOf open? ∧
      Abreast flag exec mine open? debts { w with heap := (w.heap.alloc .record).2 }
        { w' with heap := (w'.heap.alloc .record).2 } := by
  refine ⟨congrArg Ref.mk (h.size .record), fun hmem => ?_, h.outside, h.locked, fun kind => ?_,
    Heap.made_alloc_of_made h.madeFlag _, Heap.made_alloc_of_made h.madeExec _,
    fun rec hmem => Heap.made_alloc_of_made (h.madeRecs rec hmem) _,
    (Heap.get_alloc _ _ _).trans h.inside, (Heap.get_alloc _ _ _).trans h.around,
    fun {kind s} hflag hexec => ?_, ?_, fun hsuccess => ?_⟩
  · exact Nat.lt_irrefl _ (h.madeRecs _ hmem)
  · by_cases hkind : CellKind.record = kind
    · subst hkind
      simp [Heap.alloc, h.size]
    · simp [Heap.alloc, hkind, h.size]
  · change Kept mine _ s ((w.heap.alloc .record).2.get s) ((w'.heap.alloc .record).2.get s)
    rw [Heap.get_alloc, Heap.get_alloc]
    exact h.cell hflag hexec
  · rw [Heap.get_alloc, Heap.get_alloc]
    exact h.up
  · rw [Heap.get_alloc]
    rcases hsuccess with ⟨rec, hmem, hget⟩ | hdebt
    · rw [Heap.get_alloc] at hget
      exact h.known (.inl ⟨rec, hmem, hget⟩)
    · exact h.known (.inr hdebt)

/-- The flags are set, and the turns owe what is right then. -/
theorem reflag (h : Abreast flag exec mine open? debts w w') {heap heap' : Heap (Family J C T)}
    {debts' : List Debt} (hheap : w.heap.SameBut flag heap) (hheap' : w'.heap.SameBut flag heap')
    (hleft : ((heap.get flag : Bool) || debts'.any (·.left)) = true)
    (hright : ((heap'.get flag : Bool) || debts'.any (·.right)) = true) :
    Abreast flag exec mine open? debts' { w with heap } { w' with heap := heap' } := by
  have hexec := Ref.lock_ne (by decide) exec flag
  have hmade : ∀ {kind : CellKind} {s : Ref kind}, w.heap.Made s → heap.Made s := by
    unfold Heap.Made
    intro kind s hs
    rwa [hheap.size]
  refine ⟨h.outside, h.locked, fun kind => ?_, hmade h.madeFlag, hmade h.madeExec,
    fun rec hmem => hmade (h.madeRecs rec hmem), (hheap.cell hexec).trans h.inside,
    (hheap'.cell hexec).trans h.around, fun {kind s} hsflag hsexec => ?_, hright.trans hleft.symm,
    fun _ => hleft⟩
  · exact (hheap'.size kind).trans ((h.size kind).trans (hheap.size kind).symm)
  · change Kept mine _ s (heap.get s) (heap'.get s)
    rw [hheap.cell hsflag, hheap'.cell hsflag]
    exact h.cell hsflag hsexec

/-- The flag is raised on the one side, for a success that is known of. -/
theorem raise_left {left right : Bool}
    (h : Abreast flag exec mine open? (⟨true, left, right⟩ :: debts) w w') :
    Abreast flag exec mine open? (⟨true, false, right⟩ :: debts)
      { w with heap := w.heap.set flag true } w' := by
  have hraised := h.known (.inr ⟨_, List.mem_cons_self, rfl⟩)
  refine h.reflag (.set _ _) (.refl _) ?_ (h.up.trans hraised)
  exact congrArg (fun raised : Bool => raised || _) (Heap.get_set h.madeFlag true)

/-- And on the other side. -/
theorem raise_right {left right : Bool}
    (h : Abreast flag exec mine open? (⟨true, left, right⟩ :: debts) w w') :
    Abreast flag exec mine open? (⟨true, left, false⟩ :: debts) w
      { w' with heap := w'.heap.set flag true } := by
  have hraised := h.known (.inr ⟨_, List.mem_cons_self, rfl⟩)
  refine h.reflag (.refl _) (.set _ _) hraised ?_
  exact congrArg (fun raised : Bool => raised || _)
    (Heap.get_set ((h.made_iff flag).mpr h.madeFlag) true)

end Abreast

/-- The two orders, as long as this execution is open or none is. -/
def abreast (flag : Ref .flag) (exec : Ref .execution) (mine : Lock → Prop)
    (open? : Option (List (Ref .record × C))) : Likeness (Family J C T) σ Debt where
  Alike := Abreast flag exec mine open?
  rest := .none
  rests := by
    refine ⟨fun h => h.of_debts rfl rfl fun ⟨debt, hmem, hdebt⟩ => ⟨debt, .tail _ hmem, hdebt⟩,
      fun h => h.of_debts rfl rfl fun ⟨debt, hmem, hdebt⟩ => ?_⟩
    rcases List.mem_cons.mp hmem with rfl | hmem
    · cases hdebt
    · exact ⟨debt, hmem, hdebt⟩
  perm hperm h := h.of_debts hperm.symm.any_eq hperm.symm.any_eq fun ⟨debt, hmem, hdebt⟩ =>
    ⟨debt, hperm.mem_iff.mpr hmem, hdebt⟩
  outside := Abreast.outside
  leave h held _ := (h.unlock held).change (h.unlock held).locked rfl

/-! ### Requests -/

section

variable {flag : Ref .flag} {exec : Ref .execution} {mine : Lock → Prop}
  {open? : Option (List (Ref .record × C))} {env : Environment (Family J C T) σ} {debt : Debt}
  {kind : CellKind} {s : Ref kind}

theorem serves_read (hflag : s.lock ≠ flag.lock) (hexec : s.lock ≠ exec.lock) :
    (abreast flag exec mine open?).Serves env debt (.read kind s) (.read kind s)
      fun debt' state state' => debt' = debt ∧
        Kept mine (Twins flag (recordsOf open?)) s state state' :=
  ⟨rfl, rfl, fun _ _ _ _ _ hw => .some ⟨rfl, rfl, debt, ⟨rfl, hw.cell hflag hexec⟩, hw⟩⟩

theorem serves_swap {state state' : kind.State (Family J C T)} (hflag : s.lock ≠ flag.lock)
    (hexec : s.lock ≠ exec.lock) (hother : ∀ rec ∈ recordsOf open?, s.lock ≠ rec.lock)
    (hstate : Kept mine (Twins flag (recordsOf open?)) s state state') :
    (abreast flag exec mine open?).Serves env debt (.swap kind s state) (.swap kind s state')
      fun debt' before before' =>
        debt' = debt ∧ Kept mine (Twins flag (recordsOf open?)) s before before' := by
  refine ⟨rfl, rfl, fun _ _ _ _ _ hw => .some ⟨rfl, rfl, debt, ⟨rfl, hw.cell hflag hexec⟩, ?_⟩⟩
  refine hw.set hflag hexec hstate fun rec hmem hget => .inl ?_
  rwa [Heap.get_set_of_lock_ne (hother rec hmem)] at hget

theorem serves_acquire :
    (abreast flag exec mine open?).Serves env debt (.acquire kind s) (.acquire kind s)
      fun debt' _ _ => debt' = debt := by
  refine ⟨rfl, rfl, fun caller held {debts w w'} hw => ?_⟩
  by_cases hfree : s.lock ∈ w.locked
  · have hserve : ∀ w : World (Family J C T) σ, s.lock ∈ w.locked →
        w.serve env caller held (.acquire kind s) = none := by
      intro w hmem
      simp [World.serve, hmem]
    rw [hserve w hfree, hserve w' (Abreast.locked hw ▸ hfree)]
    exact .none
  · rw [World.serve_acquire_hold hfree, World.serve_acquire_hold (Abreast.locked hw ▸ hfree)]
    exact .some ⟨rfl, rfl, debt, rfl, Abreast.change hw (congrArg _ hw.locked) hw.outside⟩

theorem serves_release :
    (abreast flag exec mine open?).Serves env debt (.release kind s) (.release kind s)
      fun debt' _ _ => debt' = debt :=
  ⟨rfl, rfl, fun _ _ _ _ _ hw => .some ⟨rfl, rfl, debt, rfl, Abreast.unlock hw [s.lock]⟩⟩

theorem serves_alloc :
    (abreast flag exec mine open?).Serves env debt (.alloc .record) (.alloc .record)
      fun debt' rec rec' => debt' = debt ∧ rec' = rec ∧ rec ∉ recordsOf open? := by
  refine ⟨rfl, rfl, fun caller held {debts w w'} hw => ?_⟩
  obtain ⟨hrec, hnew, halloc⟩ := Abreast.alloc hw
  exact .some ⟨rfl, rfl, debt, ⟨rfl, hrec, hnew⟩, halloc⟩

/-- Success is recorded. -/
def isSuccess : Option TickResult → Bool
  | some (.ok .success) => true
  | _ => false

/-- Who reads that a child has succeeded knows that. -/
theorem serves_recorded {rec : Ref .record} (hmem : rec ∈ recordsOf open?) :
    (abreast flag exec mine open?).Serves env .none (.read .record rec) (.read .record rec)
      fun debt recorded recorded' => recorded' = recorded ∧ debt = .paid (isSuccess recorded) := by
  have hflag := Ref.lock_ne (by decide) rec flag
  have hexec := Ref.lock_ne (by decide) rec exec
  refine ⟨rfl, rfl, fun caller held {debts w w'} hw => .some ⟨rfl, rfl, _, ⟨?_, rfl⟩, ?_⟩⟩
  · exact (Abreast.cell hw hflag hexec).record
  · change Abreast flag exec mine open? (.paid (isSuccess (w.heap.get rec)) :: debts) w w'
    generalize hget : (w.heap.get rec : Option TickResult) = recorded
    match recorded with
    | some (.ok .success) =>
      have hraised := Abreast.known hw (.inl ⟨rec, hmem, hget⟩)
      exact Abreast.reflag hw (.refl _) (.refl _) hraised (hw.up.trans hraised)
    | none | some (.ok .running) | some (.ok .failure) | some (.error e) => exact hw

/-- A child is recorded: a success only if it is known of. -/
theorem serves_fill {rec : Ref .record} {result : TickResult}
    (hsuccess : result = .ok .success → debt.success) :
    (abreast flag exec mine open?).Serves env debt (.swap .record rec (some result))
      (.swap .record rec (some result)) fun debt' _ _ => debt' = debt := by
  have hflag := Ref.lock_ne (by decide) rec flag
  have hexec := Ref.lock_ne (by decide) rec exec
  refine ⟨rfl, rfl, fun caller held {debts w w'} hw => .some ⟨rfl, rfl, debt, rfl, ?_⟩⟩
  refine Abreast.set hw hflag hexec ⟨fun _ => rfl, fun _ => rfl⟩ fun rec' hmem hget => ?_
  by_cases hsame : rec = rec'
  · subst hsame
    have hresult := (Heap.get_set (hw.madeRecs rec hmem) _).symm.trans hget
    injection hresult with hresult
    exact .inr (hw.known (.inr ⟨debt, List.mem_cons_self, hsuccess hresult⟩))
  · exact .inl ((Heap.get_set_ne hsame _).symm.trans hget)

theorem unseen_raise_left {left right : Bool} :
    (abreast flag exec mine open?).Unseen env ⟨true, left, right⟩ (.swap .flag flag true)
      fun debt _ => debt = ⟨true, false, right⟩ :=
  ⟨rfl, fun _ _ _ _ _ hw => ⟨_, _, _, rfl, rfl, rfl, Abreast.raise_left hw⟩⟩

theorem unseen_raise_right {left right : Bool} :
    (abreast flag exec mine open?).flip.Unseen env ⟨true, left, right⟩ (.swap .flag flag true)
      fun debt _ => debt = ⟨true, left, false⟩ :=
  ⟨rfl, fun _ _ _ _ _ hw => ⟨_, _, _, rfl, rfl, rfl, Abreast.raise_right hw⟩⟩

end

/-! ### Turns -/

/-- What two nodes expand to: no ticks, or ticks that do the same from then on. -/
inductive Unfolds (L : Likeness (Family J C T) σ Debt) (env : Environment (Family J C T) σ) :
    Debt → Option (Tick (Family J C T)) × List (Node (Family J C T)) →
      Option (Tick (Family J C T)) × List (Node (Family J C T)) → Prop
  | none {children} : Unfolds L env .none (none, children) (none, children)
  | some {success : Bool} {t t' : Tick (Family J C T)} {children} :
      (t.run children).Alike L env (fun _ _ => False) L.Ends (.paid success) (t'.run children) →
      Unfolds L env (.paid success) (some t, children) (some t', children)

section

variable {flag : Ref .flag} {exec : Ref .execution} {mine : Lock → Prop}
  {open? : Option (List (Ref .record × C))} {env : Environment (Family J C T) σ}
  {N : Node (Family J C T) → Node (Family J C T) → Prop}

/-- What has come of a turn that owes nothing does not matter any more. -/
theorem alike_of_paid {α β : Type} {R : Debt → α → β → Prop} {success : Bool}
    {p : Prog (Family J C T) α} {q : Prog (Family J C T) β}
    (h : p.Alike (abreast flag exec mine open?) env N R .none q) :
    p.Alike (abreast flag exec mine open?) env N R (.paid success) q :=
  have hpaid : ∀ {debts} {w w' : World (Family J C T) σ},
      Abreast flag exec mine open? (.paid success :: debts) w w' →
      Abreast flag exec mine open? (.none :: debts) w w' := by
    refine fun hw => hw.of_debts rfl rfl fun ⟨debt, hmem, hdebt⟩ => ?_
    rcases List.mem_cons.mp hmem with rfl | hmem
    · cases hdebt
    · exact ⟨debt, .tail _ hmem, hdebt⟩
  .forget hpaid h

/-- A success puts both sides into debt. -/
theorem alike_of_due {α β : Type} {R : Debt → α → β → Prop} {p : Prog (Family J C T) α}
    {q : Prog (Family J C T) β} (h : p.Alike (abreast flag exec mine open?) env N R .due q) :
    p.Alike (abreast flag exec mine open?) env N R .none q :=
  .forget (fun hw => Abreast.reflag hw (.refl _) (.refl _) (Bool.or_true _) (Bool.or_true _)) h

/-- **A turn of a child**: the flag is raised and the result recorded on the one side, and
on the other the other way round. -/
theorem alike_call {rec : Ref .record} (c : C) (t : T) :
    (Memorize.record rec (note flag (Family.call c t))).Alike (abreast flag exec mine open?) env N
      Debt.Ends .none
      (note flag (Memorize.record rec (Family.call c t))) := by
  refine .both (Likeness.serves_ask _ env _ _) fun _ _ (outcome : Outcome) he => ?_
  obtain ⟨rfl, rfl⟩ := he
  match outcome with
  | .panicked payload => exact .panic
  | .returned (.ok .running) => exact .pure ⟨rfl, rfl⟩
  | .returned (.ok .failure) | .returned (.error e) =>
    exact .both (serves_fill nofun) fun _ _ _ he => .pure ⟨he, rfl⟩
  | .returned (.ok .success) =>
    refine alike_of_due (.left unseen_raise_left fun _ _ he => ?_)
    subst he
    refine .both (serves_fill fun _ => rfl) fun _ _ _ he => ?_
    subst he
    refine .right unseen_raise_right fun _ _ he => ?_
    subst he
    exact alike_of_paid (.pure ⟨rfl, rfl⟩)

/-- A result that is replayed does not raise the flag on the one side. On the other it
does, but if it is success the flag is up. -/
theorem alike_replay (result : TickResult) :
    (Prog.pure result : Prog (Family J C T) TickResult).Alike (abreast flag exec mine open?) env N
      Debt.Ends (.paid (isSuccess (some result)))
      (note flag (.pure result)) := by
  match result with
  | .ok .success =>
    refine .right unseen_raise_right fun _ _ he => ?_
    subst he
    exact alike_of_paid (.pure ⟨rfl, rfl⟩)
  | .ok .running | .ok .failure | .error e => exact .pure ⟨rfl, rfl⟩

theorem unfolds_child {rec : Ref .record} (hmem : rec ∈ recordsOf open?) (c : C) :
    (Node.memorized rec (.flagged flag (Family.node c))).expand.Alike
      (abreast flag exec mine open?) env N (Unfolds (abreast flag exec mine open?) env) .none
      (Node.flagged flag (.memorized rec (Family.node c))).expand := by
  refine .both (Likeness.serves_ask _ env _ _) fun _ _ (reply : Option T × Nat) he => ?_
  obtain ⟨rfl, rfl⟩ := he
  obtain ⟨t?, n⟩ := reply
  have hcall : ∀ t : T, (Tick.run (.recording rec (.flagging flag (Family.tick c t)))
        (List.replicate n (.plain none []))).Alike (abreast flag exec mine open?) env
        (fun _ _ => False) Debt.Ends .none
        (Tick.run (.flagging flag (.recording rec (Family.tick c t)))
          (List.replicate n (.plain none []))) := by
    intro t
    change Prog.Alike _ env _ _ _ (Memorize.record rec (note flag ((Family.tick c t).run _)))
      (note flag (Memorize.record rec ((Family.tick c t).run _)))
    rw [Family.run_tick]
    exact alike_call c t
  cases t? with
  | none =>
    refine .both (serves_recorded hmem) fun _ _ (recorded : Option TickResult) he => ?_
    obtain ⟨rfl, rfl⟩ := he
    cases recorded with
    | none => exact .pure .none
    | some result => exact .pure (.some (alike_replay result))
  | some t =>
    refine .both (serves_recorded hmem) fun _ _ (recorded : Option TickResult) he => ?_
    obtain ⟨rfl, rfl⟩ := he
    cases recorded with
    | none => exact .pure (.some (hcall t))
    | some result => exact .pure (.some (alike_replay result))

/-- What a record or a flag of its own does for a tick is the same on both sides. -/
theorem alike_record {other : Ref .record} (hother : other ∉ recordsOf open?)
    {debt : Debt} {p q : Prog (Family J C T) TickResult}
    (h : p.Alike (abreast flag exec mine open?) env N Debt.Ends debt q) :
    (Memorize.record other p).Alike (abreast flag exec mine open?) env N Debt.Ends debt
      (Memorize.record other q) := by
  refine h.bind fun _ _ result he => ?_
  obtain ⟨rfl, rfl⟩ := he
  change Prog.Alike _ _ _ _ _ (if !result.isRunning then _ else _)
    (if !result.isRunning then _ else _)
  split
  · have hne : ∀ rec ∈ recordsOf open?, other.lock ≠ rec.lock :=
      fun rec hmem he => hother (Ref.eq_of_lock_eq he ▸ hmem)
    exact .both (serves_swap (Ref.lock_ne (by decide) other flag)
      (Ref.lock_ne (by decide) other exec) hne ⟨fun _ => rfl, fun _ => rfl⟩)
      fun _ _ _ he => .pure ⟨he.1, rfl⟩
  · exact .pure ⟨rfl, rfl⟩

theorem alike_note {other : Ref .flag} (hother : other ≠ flag) {debt : Debt}
    {p q : Prog (Family J C T) TickResult}
    (h : p.Alike (abreast flag exec mine open?) env N Debt.Ends debt q) :
    (note other p).Alike (abreast flag exec mine open?) env N Debt.Ends debt (note other q) := by
  refine h.bind fun _ _ result he => ?_
  obtain ⟨rfl, rfl⟩ := he
  have hne : other.lock ≠ flag.lock := fun he => hother (Ref.eq_of_lock_eq he)
  have hraise : ∀ {debt : Debt} {p : Prog (Family J C T) TickResult},
      p.Alike (abreast flag exec mine open?) env N Debt.Ends debt p →
      (Prog.request (.swap .flag other true) fun _ => p).Alike (abreast flag exec mine open?) env N
        Debt.Ends debt (Prog.request (.swap .flag other true) fun _ => p) := by
    intro debt p hp
    refine .both (serves_swap hne (Ref.lock_ne (by decide) other exec)
      (fun rec _ => Ref.lock_ne (by decide) other rec) ⟨fun _ => rfl, fun _ => rfl⟩)
      fun _ _ _ he => ?_
    obtain ⟨rfl, -⟩ := he
    exact hp
  match result with
  | .ok .success => exact hraise (.pure ⟨rfl, rfl⟩)
  | .ok .running | .ok .failure | .error e => exact .pure ⟨rfl, rfl⟩

/-- **Twins are expanded alike**, whatever they are wrapped in. -/
theorem Twins.expand {n n' : Node (Family J C T)} (h : Twins flag (recordsOf open?) n n') :
    n.expand.Alike (abreast flag exec mine open?) env N (Unfolds (abreast flag exec mine open?) env)
      .none n'.expand := by
  induction h with
  | child hmem => exact unfolds_child hmem _
  | @memorized other n n' hother _ ih =>
    refine ih.bind fun debt expansion expansion' he => ?_
    refine .both (serves_read (Ref.lock_ne (by decide) other flag)
      (Ref.lock_ne (by decide) other exec)) fun _ _ (recorded : Option TickResult) hr => ?_
    obtain ⟨rfl, hr⟩ := hr
    obtain rfl := hr.record
    cases recorded with
    | some result =>
      have hconst : ∀ {success : Bool}, (Prog.pure result : Prog (Family J C T) TickResult).Alike
          (abreast flag exec mine open?) env (fun _ _ => False) Debt.Ends (.paid success)
          (.pure result) := alike_of_paid (.pure ⟨rfl, rfl⟩)
      cases he with
      | none | some => exact .pure (.some hconst)
    | none =>
      cases he with
      | none => exact .pure .none
      | some hrun => exact .pure (.some (alike_record hother hrun))
  | flagged hother _ ih =>
    refine ih.bind fun debt expansion expansion' he => ?_
    cases he with
    | none => exact .pure .none
    | some hrun => exact .pure (.some (alike_note hother hrun))

/-- **A turn of twins.** -/
theorem Twins.likens {n n' : Node (Family J C T)} (h : Twins flag (recordsOf open?) n n') :
    (abreast flag exec mine open?).Likens env n n' := by
  refine h.expand.bind fun debt expansion expansion' he => ?_
  cases he with
  | none => exact .pure ⟨rfl, rfl⟩
  | some hrun => exact hrun

/-- What a tick may ask for that has cells of its own, beside the flag and the execution. -/
theorem admits (hflag : ¬ mine flag.lock) (hexec : ¬ mine exec.lock)
    (hrecord : ∀ rec : Ref .record, ¬ mine rec.lock) :
    (abreast flag exec mine open?).Admits env mine (Twins flag (recordsOf open?)) where
  acquire _ := serves_acquire
  release _ := serves_release
  read hmine := (serves_read (fun he => hflag (he ▸ hmine)) (fun he => hexec (he ▸ hmine))).imp
    fun _ _ _ he => ⟨he.1, he.2.pairs hmine⟩
  swap hmine hstate := (serves_swap (fun he => hflag (he ▸ hmine)) (fun he => hexec (he ▸ hmine))
    (fun rec _ he => hrecord rec (he ▸ hmine)) ⟨fun _ => hstate, fun hnot => absurd hmine hnot⟩).imp
    fun _ _ _ he => ⟨he.1, he.2.pairs hmine⟩
  record := serves_alloc.imp fun _ _ _ he => ⟨he.1, he.2.1, fun _ _ => .memorized he.2.2⟩
  flagged hmine hn := .flagged (fun he => hflag (he ▸ hmine)) hn
  expand {n n'} hn := by
    rw [← Prog.bind_pure n.expand, ← Prog.bind_pure n'.expand]
    refine hn.expand.bind fun debt expansion expansion' he => ?_
    cases he with
    | none => exact .pure ⟨rfl, rfl, rfl⟩
    | some => exact alike_of_paid (.pure ⟨rfl, rfl, rfl⟩)

end

end AnySuccess

end TickTree
