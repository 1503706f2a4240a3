import TypedScript.Tree

/-! # Cursors

A cursor is a place in a syntax tree, reached from the root by going down, right and up.
-/

namespace TypedScript

structure Cursor where
  source : String
  /-- The nodes above the focus, the nearest first, each with the index of the child taken. -/
  trail : List (Node × Nat)
  focus : Node
  deriving Repr

namespace Cursor

def ofTree (t : Tree) : Cursor := ⟨t.source, [], t.root⟩

def firstChild? (c : Cursor) : Option Cursor :=
  c.focus.children.head?.map fun n => { c with trail := (c.focus, 0) :: c.trail, focus := n }

def nextSibling? (c : Cursor) : Option Cursor :=
  match c.trail with
  | [] => none
  | (above, i) :: trail =>
    above.children[i + 1]?.map fun n => { c with trail := (above, i + 1) :: trail, focus := n }

def parent? (c : Cursor) : Option Cursor :=
  match c.trail with
  | [] => none
  | (above, _) :: trail => some { c with trail := trail, focus := above }

inductive Move
  | child | next | parent
  deriving DecidableEq, Repr

def move? (c : Cursor) : Move → Option Cursor
  | .child => c.firstChild?
  | .next => c.nextSibling?
  | .parent => c.parent?

/-- A move that is not possible leaves the cursor where it is. -/
def move (c : Cursor) (m : Move) : Cursor := (c.move? m).getD c

def path (c : Cursor) : List Nat := (c.trail.map (·.2)).reverse

/-- The nodes that lead from the root to the focus, both included. -/
def ancestors (c : Cursor) : List Node := (c.focus :: c.trail.map (·.1)).reverse

/-- How many siblings stand after the focus. -/
def following (c : Cursor) : Nat :=
  match c.trail with
  | [] => 0
  | (above, i) :: _ => above.children.length - (i + 1)

def kind (c : Cursor) : String := c.focus.kind

def text (c : Cursor) : String := c.focus.text c.source

def span (c : Cursor) : Span := c.focus.span c.source

end Cursor

end TypedScript
