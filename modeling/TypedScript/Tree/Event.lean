import TypedScript.Error
import TypedScript.Tree

/-! # Trees from events

Nodes are started and finished around tokens, and the source text is put together from the tokens.
-/

namespace TypedScript

inductive Event
  | start (kind : String)
  | finish
  | token (kind text : String)
  | lineBreak
  deriving DecidableEq, Repr

/-- A node that is not finished yet. It starts at its first token, and its children are listed
newest first. -/
structure OpenNode where
  kind : String
  start : Option Nat
  children : List Node
  deriving Repr

/-- A tree in the making: the text so far, the open nodes, innermost first, and the latest node that
was completed outside all others. -/
structure Assembly where
  source : String
  pending : List OpenNode
  root : Option Node
  deriving Repr

namespace Assembly

def empty : Assembly := ⟨"", [], none⟩

def attach (a : Assembly) (n : Node) : Assembly :=
  match a.pending with
  | [] => { a with root := some n }
  | p :: ps => { a with pending := { p with children := n :: p.children } :: ps }

/-- A token is set off by a blank unless it starts a line. -/
def separated (source : String) : String :=
  match source.toList.getLast? with
  | none => source
  | some c => if c = '\n' then source else source ++ " "

def step (a : Assembly) : Event → Assembly
  | .start kind => { a with pending := ⟨kind, none, []⟩ :: a.pending }
  | .lineBreak => { a with source := a.source ++ "\n" }
  | .token kind text =>
    let before := separated a.source
    let source := before ++ text
    let start := before.utf8ByteSize
    let pending := a.pending.map fun p => { p with start := some (p.start.getD start) }
    attach { a with source, pending } ⟨kind, start, source.utf8ByteSize, []⟩
  | .finish =>
    match a.pending with
    | [] => a
    | p :: ps =>
      let stop := a.source.utf8ByteSize
      attach { a with pending := ps } ⟨p.kind, p.start.getD stop, stop, p.children.reverse⟩

/-- The finished tree. All nodes have to be finished, and there has to be one. -/
def finish (a : Assembly) : Except (Located ParseError) Tree :=
  let stop := a.source.utf8ByteSize
  let span := Span.ofOffsets a.source stop stop
  match a.pending, a.root with
  | p :: _, _ => .error ⟨.unsupported s!"syntax tree node '{p.kind}' was never finished", span⟩
  | [], none => .error ⟨.missingNode "syntax tree" "root node", span⟩
  | [], some root => .ok ⟨a.source, root⟩

end Assembly

namespace Tree

def ofEvents (es : List Event) : Except (Located ParseError) Tree :=
  (es.foldl Assembly.step Assembly.empty).finish

end Tree

end TypedScript
