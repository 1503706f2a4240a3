import TypedScript.Error
import TypedScript.Tree.Cursor

/-! # Walks

A walk reads part of a syntax tree by moving a cursor, and may fail. A walk into the children of a
node comes back to the node, also when it fails.
-/

namespace TypedScript

namespace Cursor

/-- Moves right past trivia, at most `n` times. Without a meaningful sibling it ends on the last
one. -/
def seek : Nat → Cursor → Bool × Cursor
  | 0, c => (false, c)
  | n + 1, c =>
    match c.nextSibling? with
    | none => (false, c)
    | some c => if c.focus.isTrivia then seek n c else (true, c)

/-- Moves to the next sibling that is no trivia, and tells whether there is one. -/
def nextMeaningful (c : Cursor) : Bool × Cursor := c.seek c.following

end Cursor

abbrev Walk := EStateM (Located ParseError) Cursor

namespace Walk

def kind : Walk String := return (← get).kind

def text : Walk String := return (← get).text

def span : Walk Span := return (← get).span

def fail {α : Type} (e : ParseError) (span : Span) : Walk α := throw ⟨e, span⟩

def unexpected {α : Type} (context : String) : Walk α := do
  let c ← get
  fail (.unexpectedNode context c.kind c.text) c.span

def expect (kind context : String) : Walk Unit := do
  if (← Walk.kind) = kind then pure () else unexpected context

def tryAdvance : Walk Bool := fun c => .ok c.nextMeaningful.1 c.nextMeaningful.2

def advance (context expected : String) : Walk Unit := do
  if ← tryAdvance then pure () else fail (.missingNode context expected) (← span)

/-- Goes back up after a walk among the children, whichever way it ended. -/
def leave {α : Type} :
    EStateM.Result (Located ParseError) Cursor α → EStateM.Result (Located ParseError) Cursor α
  | .ok a c => .ok a (c.move .parent)
  | .error e c => .error e (c.move .parent)

/-- Runs a walk from the first child, which has to exist. -/
def within {α : Type} (context : String) (w : Walk α) : Walk α := fun c =>
  match c.firstChild? with
  | none => .error ⟨.missingNode context "child node", c.span⟩ c
  | some inner => leave (w inner)

/-- Runs a walk on the focus and its following siblings, at most `n` nodes, leaving out trivia. -/
def foldFrom {β : Type} (f : β → Walk β) : Nat → β → Walk β
  | 0, b => pure b
  | n + 1, b => do
    let b ← if (← get).focus.isTrivia then pure b else f b
    match (← get).nextSibling? with
    | none => pure b
    | some c => do set c; foldFrom f n b

/-- Runs a walk on every child that is no trivia. -/
def fold {β : Type} (f : β → Walk β) (b : β) : Walk β := fun c =>
  match c.firstChild? with
  | none => .ok b c
  | some inner => leave (foldFrom f c.focus.children.length b inner)

def collect {α : Type} (w : Walk (Option α)) : Walk (List α) := do
  let found ← fold (fun acc => do return (← w).toList ++ acc) []
  return found.reverse

end Walk

end TypedScript
