/-
# Errors of a tick

A tick ends with an error when it cannot answer a status at all. An error is a
value: composites tag it with the child it came from, wrappers hand the same
error back more than once, and a fork joins the errors of several children.

`join` appends to the error collected so far: an earlier joined error takes the
next one as a further part, anything else becomes the first of two parts. The
part appended is kept as it is, joined or not.

Key definitions: `TickError`, `TickError.message`, `TickError.source`,
`TickError.chain`, `TickError.join`, `TickError.items`, `TickError.peel`.
-/
import TickTree.Status

namespace TickTree

/-- What an error from outside the tree is known as. -/
inductive ForeignKind where
  /-- An error of the code that uses the tree, under its own type name. -/
  | named (name : String)
  /-- No timer service is current where one is needed. -/
  | noReactor
  /-- The tree answered failure under a ticker that ends on failures. -/
  | exitOnFailure
  deriving DecidableEq, Repr, Inhabited

/-- An error that did not arise in the tree: its kind, its text, and the texts
of the errors that caused it, nearest first. That these come to an end is
assumed of such errors: none is among its own causes. -/
structure Foreign where
  kind : ForeignKind
  text : String
  causes : List String := []
  deriving DecidableEq, Repr, Inhabited

/-- The error of a tick. -/
inductive TickError where
  /-- The node expanded to no tick. -/
  | missingTick
  /-- A composite met the error `source` at its child number `index`. -/
  | child (tick : String) (index : Nat) (source : TickError)
  /-- An error that is only a text. -/
  | message (text : String)
  /-- An error from outside the tree. -/
  | foreign (error : Foreign)
  /-- A tick error that travelled through the tree as a foreign one. -/
  | wrapped (inner : TickError)
  /-- The errors of several children, in the order they were seen. -/
  | joined (errors : List TickError)
  deriving Repr, Inhabited

/-- The answer of one tick: a status, or the error that kept it from one. -/
abbrev TickResult := Except TickError Status

namespace TickError

mutual

/-- The text shown for an error. -/
def text : TickError → String
  | missingTick => "cannot tick a node with a nil tick"
  | child tick index source =>
      tick ++ " encountered error with child at index " ++ toString index ++ ": " ++ source.text
  | message text => text
  | foreign error => error.text
  | wrapped inner => inner.text
  | joined errors => " | ".intercalate (texts errors)
termination_by structural e => e

/-- The texts shown for the parts of a joined error. -/
def texts : List TickError → List String
  | [] => []
  | e :: es => e.text :: texts es
termination_by structural es => es

end

theorem texts_eq_map (es : List TickError) : texts es = es.map text := by
  induction es with
  | nil => rfl
  | cons e es ih => rw [texts, ih, List.map_cons]

/-- A link of a chain of causes: a tick error, or an error from outside the
tree, its text and the texts of the errors that caused it, nearest first. -/
inductive Link where
  | tick (error : TickError)
  | foreign (text : String) (causes : List String)
  deriving Repr, Inhabited

/-- The text shown for a link. -/
def Link.text : Link → String
  | tick error => error.text
  | foreign text _ => text

/-- The links of a foreign error that errors with these texts caused. -/
def Link.outside : List String → List Link
  | [] => []
  | text :: causes => foreign text causes :: outside causes

/-- The nearest cause of an error, if it has one. A tagged error has the error
it tags, a foreign error one of its own, and a wrapped error shows through. -/
def source : TickError → Option Link
  | missingTick | message _ | joined _ => none
  | child _ _ source => some (.tick source)
  | foreign error => (Link.outside error.causes).head?
  | wrapped inner => inner.source
termination_by structural e => e

/-- The nearest cause of the error that a link is. -/
def Link.source : Link → Option Link
  | tick error => error.source
  | foreign _ causes => (outside causes).head?

/-- The causes of an error, nearest first: its source, the source of that, and
so on. -/
def chain : TickError → List Link
  | missingTick | message _ | joined _ => []
  | child _ _ source => .tick source :: source.chain
  | foreign error => Link.outside error.causes
  | wrapped inner => inner.chain
termination_by structural e => e

/-- Appends `next` to the error collected so far. -/
def join : Option TickError → TickError → TickError
  | none, next => next
  | some (joined errors), next => joined (errors ++ [next])
  | some first, next => joined [first, next]

/-- Collects errors in order, from none. -/
def joinAll (errors : List TickError) : Option TickError :=
  errors.foldl (fun collected next => some (join collected next)) none

mutual

/-- The errors that a joined error is made of, at any depth; any other error is
its own only item. -/
def items : TickError → List TickError
  | joined errors => itemsOf errors
  | missingTick => [missingTick]
  | child tick index source => [child tick index source]
  | message text => [message text]
  | foreign error => [foreign error]
  | wrapped inner => [wrapped inner]
termination_by structural e => e

/-- The items of several errors, one after the other. -/
def itemsOf : List TickError → List TickError
  | [] => []
  | e :: es => e.items ++ itemsOf es
termination_by structural es => es

end

theorem itemsOf_eq_flatMap (es : List TickError) : itemsOf es = es.flatMap items := by
  induction es with
  | nil => rfl
  | cons e es ih => rw [itemsOf, ih, List.flatMap_cons]

/-- The tags of an error, outermost first, and the error they were put on. -/
def peel : TickError → List (String × Nat) × TickError
  | child tick index source => ((tick, index) :: source.peel.1, source.peel.2)
  | missingTick => ([], missingTick)
  | message text => ([], message text)
  | foreign error => ([], foreign error)
  | wrapped inner => ([], wrapped inner)
  | joined errors => ([], joined errors)
termination_by structural e => e

/-- Is this itself a foreign error of the given kind? -/
def isForeign (kind : ForeignKind) : TickError → Bool
  | foreign error => error.kind == kind
  | _ => false

/-- Is this itself a wrapped tick error? -/
def isWrapped : TickError → Bool
  | wrapped _ => true
  | _ => false

/-- A fork's child ended its thread without an answer. -/
def forkChildLost : TickError := message "fork child exited without reporting"

/-- The worker of an asynchronous tick ended without an answer. -/
def workerLost : TickError := message "async tick exited without a result"

/-- A context that must expire was opened where no timer service is current. -/
def expiryNeedsRuntime : TickError := message "tick context expiry needs a tokio runtime"

/-- A tick bound to a context ran before the context had a scope. -/
def contextNotOpen : TickError := message "tick context used before init"

/-- The text of the complaint that no timer service is current. -/
def noReactorText : String :=
  "there is no reactor running, must be called from the context of a Tokio 1.x runtime"

/-- A wait for a scope was made where no timer service is current. -/
def noReactor : TickError := foreign { kind := .noReactor, text := noReactorText }

/-- The stop signal of a ticker that ends on failures; no ticker shows it. -/
def exitOnFailure : TickError :=
  foreign { kind := .exitOnFailure, text := "ticker exit on failure" }

end TickError
end TickTree
