import TypedScript.Tree.Cursor

/-! # Cursors that keep two stacks

The nodes from the root down to the current one stand on one stack, and the child indices that lead
there on another. A move tells whether it was made. -/

namespace TypedScript

structure StackCursor where
  source : String
  /-- The current node on top, the root at the bottom. -/
  ancestors : List Node
  /-- The child index of each ancestor but the root within its parent. -/
  indices : List Nat
  deriving Repr

namespace StackCursor

def ofTree (t : Tree) : StackCursor := ⟨t.source, [t.root], []⟩

def firstChild (c : StackCursor) : Bool × StackCursor :=
  match c.ancestors.head?.bind (·.children.head?) with
  | some child =>
    (true, { c with ancestors := child :: c.ancestors, indices := 0 :: c.indices })
  | none => (false, c)

def nextSibling (c : StackCursor) : Bool × StackCursor :=
  match c.indices, c.ancestors with
  | index :: indices, _ :: parent :: above =>
    match parent.children[index + 1]? with
    | some sibling =>
      (true,
        { c with ancestors := sibling :: parent :: above, indices := (index + 1) :: indices })
    | none => (false, c)
  | _, _ => (false, c)

def parent (c : StackCursor) : Bool × StackCursor :=
  if c.indices.isEmpty then (false, c)
  else (true, { c with ancestors := c.ancestors.tail, indices := c.indices.tail })

def move (c : StackCursor) : Cursor.Move → Bool × StackCursor
  | .child => c.firstChild
  | .next => c.nextSibling
  | .parent => c.parent

def run (c : StackCursor) : List Cursor.Move → List Bool × StackCursor
  | [] => ([], c)
  | m :: ms => ((c.move m).1 :: ((c.move m).2.run ms).1, ((c.move m).2.run ms).2)

def path (c : StackCursor) : List Nat := c.indices.reverse

end StackCursor

end TypedScript
