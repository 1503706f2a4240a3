import TypedScript.Span
import TypedScript.Text

/-! # Syntax trees

Nodes with a kind and a byte range, over the source text they describe.
-/

namespace TypedScript

structure Node where
  kind : String
  start : Nat
  stop : Nat
  children : List Node
  deriving Repr

namespace Node

mutual
/-- The number of nodes on the longest way down. -/
def height : Node → Nat
  | ⟨_, _, _, children⟩ => heights children + 1

def heights : List Node → Nat
  | [] => 0
  | n :: ns => max n.height (heights ns)
end

/-- Kinds that carry no meaning. -/
def triviaKinds : List String := ["Comment", "newline", "indent", "dedent", ";"]

def isTrivia (n : Node) : Bool := triviaKinds.contains n.kind

/-- The text of the node's range; empty when the range is no range of the source. -/
def text (source : String) (n : Node) : String := (Text.slice? source n.start n.stop).getD ""

def span (source : String) (n : Node) : Span := Span.ofOffsets source n.start n.stop

end Node

structure Tree where
  source : String
  root : Node
  deriving Repr

end TypedScript
