import TypedScript.Ty

/-! # Operators

Their symbols, and the types they ask of their operands.
-/

namespace TypedScript

inductive UnaryOp
  | not
  | neg
  deriving DecidableEq, Repr

namespace UnaryOp

def symbol : UnaryOp → String
  | .not => "not"
  | .neg => "-"

def all : List UnaryOp := [.not, .neg]

def ofSymbol? (s : String) : Option UnaryOp := all.find? (·.symbol == s)

/-- The operand type and the result type. -/
def signature : UnaryOp → Ty × Ty
  | .not => (.bool, .bool)
  | .neg => (.int, .int)

end UnaryOp

inductive BinaryOp
  | add | sub | mul | floorDiv | mod
  | less | lessEqual | greater | greaterEqual
  | equal | notEqual
  | is
  deriving DecidableEq, Repr

inductive OperandRule
  /-- Both operands have the type `operand`. -/
  | uniform (operand result : Ty)
  /-- Both operands have one type, whichever it is. -/
  | sameType (result : Ty)
  deriving DecidableEq, Repr

namespace BinaryOp

def symbol : BinaryOp → String
  | .add => "+"
  | .sub => "-"
  | .mul => "*"
  | .floorDiv => "//"
  | .mod => "%"
  | .less => "<"
  | .lessEqual => "<="
  | .greater => ">"
  | .greaterEqual => ">="
  | .equal => "=="
  | .notEqual => "!="
  | .is => "is"

def all : List BinaryOp :=
  [.add, .sub, .mul, .floorDiv, .mod, .less, .lessEqual, .greater, .greaterEqual, .equal,
    .notEqual, .is]

def ofSymbol? (s : String) : Option BinaryOp := all.find? (·.symbol == s)

def rule : BinaryOp → OperandRule
  | .add | .sub | .mul | .floorDiv | .mod => .uniform .int .int
  | .less | .lessEqual | .greater | .greaterEqual => .uniform .int .bool
  | .is => .uniform .none .bool
  | .equal | .notEqual => .sameType .bool

end BinaryOp

end TypedScript
