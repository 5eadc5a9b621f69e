/-
# The chain of sources

An error may have a source, which may have one again, and so on to the end (`Traces`).
What it has as its source depends on its outermost layer. Under the tag of a composite it
is the error that was tagged. A tick error that travelled as a foreign one shows through:
the source is that of the error inside, and not the error inside itself. It is the same
where the error of a run is a tick error. So the links of a chain are the errors that tags
were put on, one for each tag, and after them what caused the error inside all layers, if
that is a foreign one (`Layers`). Of foreign errors it is assumed that their causes come
to an end (`Foreign.causes`); the layers of the tree put a finite chain before these.

Wrappers change no text and no link, wherever they stand (`text_bare`, `chain_bare`). A tag
puts its text in front of the text of what it tags. So the text of an error ends in the text
of each error under one of its tags (`Under.text_eq`), and these are its links
(`mem_chain_iff`).

Key definitions: `TickError.Traces`, `TickError.Layers`, `TickError.Under`, `TickError.bare`.
Key theorems: `TickError.traces_iff`, `TickError.layers_iff`, `TickError.mem_chain_iff`,
`TickError.Under.text_eq`, `TickError.chain_bare`, `TickError.chain_follows_tags`.
-/
import TickTree.RunError
import Mathlib.Logic.Function.Iterate

namespace TickTree
namespace TickError

variable {e x : TickError} {l : List Link}

/-! ### Following the sources -/

/-- From the first link to its source, from there to the source of that, and so on, the way
goes through these links and comes to an end. -/
inductive Traces : Option Link → List Link → Prop
  | ended : Traces none []
  | went {link l} : Traces link.source l → Traces (some link) (link :: l)

theorem traces_none : Traces none l ↔ l = [] := by
  constructor
  · rintro ⟨⟩
    rfl
  · rintro rfl
    exact .ended

/-- The way through a link goes on as the way from its source. -/
theorem traces_some {link : Link} {rest : List Link}
    (hrest : ∀ l, Traces link.source l ↔ l = rest) : Traces (some link) l ↔ l = link :: rest := by
  constructor
  · intro h
    cases h with
    | went h => rw [(hrest _).mp h]
  · rintro rfl
    exact .went ((hrest rest).mpr rfl)

/-- From the nearest cause of a foreign error the way goes through all of them. -/
theorem traces_outside (causes : List String) :
    ∀ l, Traces (Link.outside causes).head? l ↔ l = Link.outside causes := by
  induction causes with
  | nil => exact fun _ => traces_none
  | cons text causes ih => exact fun _ => traces_some ih

/-- **The way through the sources of an error is its chain**, and comes to an end. -/
theorem traces_iff : ∀ (e : TickError) l, Traces e.source l ↔ l = e.chain
  | missingTick, _ | message _, _ | joined _, _ => traces_none
  | foreign error, l => traces_outside error.causes l
  | wrapped inner, l => traces_iff inner l
  | child _ _ source, _ => traces_some (traces_iff source)

/-! ### Layers -/

/-- The links that an error has for its layers, from the outside in: for a tag the error
under it, for a wrapper none, and for what is inside them all, if it is a foreign error,
its causes. -/
inductive Layers : TickError → List Link → Prop
  | missingTick : Layers missingTick []
  | message {text} : Layers (message text) []
  | joined {errors} : Layers (joined errors) []
  | foreign {error} : Layers (foreign error) (Link.outside error.causes)
  | wrapped {e : TickError} {l : List Link} : Layers e l → Layers (wrapped e) l
  | child {tick index} {e : TickError} {l : List Link} : Layers e l →
      Layers (child tick index e) (.tick e :: l)

theorem layers_chain : ∀ e, Layers e e.chain
  | missingTick => .missingTick
  | message _ => .message
  | joined _ => .joined
  | foreign _ => .foreign
  | wrapped inner => .wrapped (layers_chain inner)
  | child _ _ source => .child (layers_chain source)

/-- The chain of an error is what it has for its layers. -/
theorem layers_iff : Layers e l ↔ l = e.chain := by
  constructor
  · intro h
    induction h with
    | missingTick | message | joined | foreign => rfl
    | wrapped _ ih => exact ih
    | child _ ih => rw [ih, chain]
  · rintro rfl
    exact layers_chain e

/-- Is `x` under one of the tags of an error? Wrappers are looked through. -/
inductive Under (x : TickError) : TickError → Prop
  | here {tick index} : Under x (child tick index x)
  | child {tick index} {e : TickError} : Under x e → Under x (child tick index e)
  | wrapped {e : TickError} : Under x e → Under x (wrapped e)

theorem not_tick_mem_outside (causes : List String) : .tick x ∉ Link.outside causes := by
  induction causes with
  | nil => exact List.not_mem_nil
  | cons text causes ih => simpa [Link.outside] using ih

/-- **The tick errors in the chain of an error are those under its tags.** -/
theorem mem_chain_iff : .tick x ∈ e.chain ↔ Under x e := by
  constructor
  · intro h
    have hlayers := layers_chain e
    generalize e.chain = l at h hlayers
    induction hlayers with
    | missingTick | message | joined => cases h
    | foreign => exact absurd h (not_tick_mem_outside _)
    | wrapped _ ih => exact .wrapped (ih h)
    | child _ ih =>
      rcases List.mem_cons.mp h with heq | h
      · cases heq
        exact .here
      · exact .child (ih h)
  · intro h
    induction h with
    | here => exact List.mem_cons_self
    | child _ ih => exact List.mem_cons_of_mem _ ih
    | wrapped _ ih => exact ih

/-- The text that a tag puts in front. -/
def tagText (tick : String) (index : Nat) : String :=
  tick ++ " encountered error with child at index " ++ toString index ++ ": "

theorem text_child (tick : String) (index : Nat) (e : TickError) :
    (child tick index e).text = tagText tick index ++ e.text := rfl

/-- **The text of an error ends in the text of what is under one of its tags.** -/
theorem Under.text_eq (h : Under x e) : ∃ front, e.text = front ++ x.text := by
  induction h with
  | here => exact ⟨_, text_child _ _ _⟩
  | @child tick index e _ ih =>
    obtain ⟨front, hfront⟩ := ih
    exact ⟨tagText tick index ++ front, by rw [text_child, hfront, String.append_assoc]⟩
  | wrapped _ ih => exact ih

/-! ### Wrappers -/

mutual

/-- The error with its wrappers taken off, wherever they stand. -/
def bare : TickError → TickError
  | missingTick => missingTick
  | child tick index source => child tick index source.bare
  | message text => message text
  | foreign error => foreign error
  | wrapped inner => inner.bare
  | joined errors => joined (bareOf errors)
termination_by structural e => e

/-- The errors with their wrappers taken off. -/
def bareOf : List TickError → List TickError
  | [] => []
  | e :: es => e.bare :: bareOf es
termination_by structural es => es

end

theorem bareOf_eq_map (es : List TickError) : bareOf es = es.map bare := by
  induction es with
  | nil => rfl
  | cons e es ih => rw [bareOf, ih, List.map_cons]

/-- The link with the wrappers taken off the error that it is. -/
def Link.bare : Link → Link
  | tick error => .tick error.bare
  | foreign text causes => .foreign text causes

/-- Wrappers do not show in a text. -/
theorem text_bare : ∀ e : TickError, e.bare.text = e.text
  | missingTick | message _ | foreign _ => rfl
  | wrapped inner => text_bare inner
  | child tick index source => by rw [bare, text_child, text_child, text_bare source]
  | joined errors => by
    have htexts : (errors.map bare).map text = errors.map text := by
      rw [List.map_map]
      exact List.map_congr_left fun e _ => text_bare e
    rw [bare, text, text, texts_eq_map, texts_eq_map, bareOf_eq_map, htexts]

theorem map_bare_outside (causes : List String) :
    (Link.outside causes).map Link.bare = Link.outside causes := by
  induction causes with
  | nil => rfl
  | cons text causes ih => rw [Link.outside, List.map_cons, ih, Link.bare]

/-- **Wrappers do not show in a chain**, except that those on a link stay on it. -/
theorem chain_bare : ∀ e : TickError, e.bare.chain = e.chain.map Link.bare
  | missingTick | message _ | joined _ => rfl
  | foreign error => (map_bare_outside error.causes).symm
  | wrapped inner => chain_bare inner
  | child tick index source => by
    rw [bare, chain, chain, List.map_cons, chain_bare source, Link.bare]

theorem text_iterate_wrapped (n : Nat) (e : TickError) : (wrapped^[n] e).text = e.text := by
  induction n with
  | zero => rfl
  | succ n ih => rw [Function.iterate_succ_apply', text, ih]

theorem chain_iterate_wrapped (n : Nat) (e : TickError) : (wrapped^[n] e).chain = e.chain := by
  induction n with
  | zero => rfl
  | succ n ih => rw [Function.iterate_succ_apply', chain, ih]

/-! ### The whole chain -/

/-- **The links of an error are what its tags were put on.** The way through the sources of
an error comes to an end, and goes through exactly the links that the error has for its
layers, from the outside in: one for each tag, none for a wrapper, and the causes of a
foreign error inside them all. However many wrappers are put around the error, its text and
its chain stay as they are, also where a ticker ends with it; and taken off wherever they
stand, they leave texts and links as they were, but for the wrappers on those. The tick
errors in the chain are those under the tags, and the text of the error ends in the text
of each. -/
theorem chain_follows_tags (e : TickError) :
    (∀ l, Traces e.source l ↔ l = e.chain) ∧ (∀ l, Layers e l ↔ l = e.chain) ∧
      (∀ n, (wrapped^[n] e).text = e.text ∧ (wrapped^[n] e).chain = e.chain ∧
        (RunError.tick (wrapped^[n] e)).text = e.text ∧
        (RunError.tick (wrapped^[n] e)).chain = e.chain ∧
        ∀ l, Traces (RunError.tick (wrapped^[n] e)).source l ↔ l = e.chain) ∧
      (e.bare.text = e.text ∧ e.bare.chain = e.chain.map Link.bare) ∧
      ∀ x, (.tick x ∈ e.chain ↔ Under x e) ∧ (Under x e → ∃ front, e.text = front ++ x.text) := by
  refine ⟨traces_iff e, fun l => layers_iff, fun n => ?_, ⟨text_bare e, chain_bare e⟩,
    fun x => ⟨mem_chain_iff, Under.text_eq⟩⟩
  have htext := text_iterate_wrapped n e
  have hchain := chain_iterate_wrapped n e
  refine ⟨htext, hchain, htext, hchain, fun l => ?_⟩
  rw [← hchain]
  exact traces_iff _ l

/-- Tags and wrappers in turn, around a foreign error with a cause of its own. -/
example :
    (child "Sequence" 1 (wrapped (child "All" 0 (wrapped
      (foreign { kind := .named "A", text := "disk full", causes := ["quota"] }))))).chain.map
        Link.text =
      ["All encountered error with child at index 0: disk full", "disk full", "quota"] := by
  rfl

end TickError
end TickTree
