import TypedScript.Operator
import TypedScript.Span

/-! # Faults

Everything that can go wrong, stage by stage, and how each fault reads.
-/

namespace TypedScript

inductive ParseError
  | unexpectedNode (context kind text : String)
  | missingNode (context expected : String)
  | invalidNumber (text : String)
  | unknownOperator (op : String)
  | unsupported (reason : String)
  deriving DecidableEq, Repr

namespace ParseError

def message : ParseError → String
  | .unexpectedNode context kind text =>
    s!"could not parse {context}: unexpected {kind} '{text}'"
  | .missingNode context expected => s!"could not parse {context}: missing {expected}"
  | .invalidNumber text => s!"invalid integer literal '{text}'"
  | .unknownOperator op => s!"unsupported operator '{op}'"
  | .unsupported reason => reason

end ParseError

/-- What a name that is defined twice stands for. -/
inductive DefinitionKind
  | globalVariable | function | cls | field | method | localVariable
  deriving DecidableEq, Repr

namespace DefinitionKind

def text : DefinitionKind → String
  | .globalVariable => "global variable"
  | .function => "function"
  | .cls => "class"
  | .field => "field"
  | .method => "method"
  | .localVariable => "local variable"

end DefinitionKind

inductive TypeError
  | undefinedName (name : String)
  | unknownFunction (name : String)
  | unknownClass (name : String)
  | unknownField (className field : String)
  | unknownMethod (className method : String)
  | duplicateDefinition (kind : DefinitionKind) (name : String)
  | mismatch (context : String) (expected actual : Ty)
  | unsupportedOperand (op : String) (expected actual : Ty)
  | operandMismatch (op : BinaryOp) (left right : Ty)
  | notAnObject (actual : Ty)
  | argumentCount (callee : String) (expected actual : Nat)
  | argumentType (callee : String) (index : Nat) (expected actual : Ty)
  | conditionNotBool (construct : String) (actual : Ty)
  | returnOutsideFunction
  | missingReturn (function : String) (expected : Ty)
  | missingSelf (className method : String)
  | invalidConstructor (className : String) (actual : Ty)
  | constructorArguments (className : String) (count : Nat)
  | selfOutsideClass
  | printArity (count : Nat)
  | nestedDefinition (name : String)
  | symbolCollision (name symbol : String)
  deriving DecidableEq, Repr

namespace TypeError

def message : TypeError → String
  | .undefinedName name => s!"undefined name '{name}'"
  | .unknownFunction name => s!"unknown function '{name}'"
  | .unknownClass name => s!"unknown class '{name}'"
  | .unknownField c field => s!"class '{c}' has no field '{field}'"
  | .unknownMethod c method => s!"class '{c}' has no method '{method}'"
  | .duplicateDefinition kind name => s!"duplicate {kind.text} '{name}'"
  | .mismatch context expected actual =>
    s!"type mismatch in {context}: expected {expected.text}, found {actual.text}"
  | .unsupportedOperand op expected actual =>
    s!"unsupported operand type for '{op}': expected {expected.text}, found {actual.text}"
  | .operandMismatch op left right =>
    s!"operands of '{op.symbol}' must have the same type, found {left.text} and {right.text}"
  | .notAnObject actual => s!"expected an object, found {actual.text}"
  | .argumentCount callee expected actual =>
    s!"'{callee}' expects {expected} argument(s), found {actual}"
  | .argumentType callee index expected actual =>
    s!"argument {index} of '{callee}': expected {expected.text}, found {actual.text}"
  | .conditionNotBool construct actual =>
    s!"{construct} condition must be bool, found {actual.text}"
  | .returnOutsideFunction => "'return' outside of a function"
  | .missingReturn function expected =>
    s!"'{function}' must return a value of type {expected.text}"
  | .missingSelf c method =>
    s!"method '{method}' of class '{c}' must take 'self' as its first parameter"
  | .invalidConstructor c actual =>
    s!"constructor of '{c}' must return {c}, declared {actual.text}"
  | .constructorArguments c count => s!"constructing '{c}' takes no arguments, found {count}"
  | .selfOutsideClass => "'self' used outside of a method"
  | .printArity count => s!"print expects exactly 1 argument, found {count}"
  | .nestedDefinition name => s!"nested definition of '{name}' is not supported"
  | .symbolCollision name symbol =>
    s!"'{name}' would be emitted as '${symbol}', which is already taken"

end TypeError

/-- Shapes of a typed program for which no code can be given. -/
inductive LoweringError
  | missingType
  | unsupportedPrint (ty : Ty)
  | receiverNotObject (actual : Ty)
  | unknownLayout (className : String)
  | unknownField (className field : String)
  | unsupported (what : String)
  deriving DecidableEq, Repr

namespace LoweringError

def message : LoweringError → String
  | .missingType => "expression has not been type checked"
  | .unsupportedPrint ty => s!"cannot print a value of type {ty.text}"
  | .receiverNotObject actual => s!"expected an object receiver, found {actual.text}"
  | .unknownLayout c => s!"no layout for class '{c}'"
  | .unknownField c field => s!"class '{c}' has no field '{field}' in its layout"
  | .unsupported what => s!"no lowering for {what}"

end LoweringError

inductive Trap
  | outOfBounds (address size : Nat)
  | outOfMemory (heapPointer : Word) (limit : Nat)
  | divisionByZero
  | integerOverflow
  | callStackExhausted (depth : Nat)
  | unknownFunction (name : String)
  | unknownGlobal (name : String)
  | unknownLocal (name function : String)
  | stackUnderflow (function : String)
  | missingExport (name : String)
  | invalidBranch (depth : Nat)
  | host (reason : String)
  deriving DecidableEq, Repr

namespace Trap

def message : Trap → String
  | .outOfBounds address size =>
    s!"out of bounds memory access at address {address} (memory size {size})"
  | .outOfMemory heapPointer limit =>
    s!"out of memory: heap pointer {heapPointer.text} exceeds memory size {limit}"
  | .divisionByZero => "integer divide by zero"
  | .integerOverflow => "integer overflow"
  | .callStackExhausted depth => s!"call stack exhausted at depth {depth}"
  | .unknownFunction name => s!"call to unknown function '{name}'"
  | .unknownGlobal name => s!"access to unknown global '{name}'"
  | .unknownLocal name function => s!"access to unknown local '{name}' in '{function}'"
  | .stackUnderflow function => s!"value stack underflow in '{function}'"
  | .missingExport name => s!"module does not export '{name}'"
  | .invalidBranch depth => s!"branch depth {depth} escapes its function"
  | .host reason => s!"host error: {reason}"

end Trap

/-- The fault that stopped the way from tree to result. -/
inductive Error
  | parse (e : Located ParseError)
  | typing (e : Located TypeError)
  | lowering (e : Located LoweringError)
  | trap (t : Trap)
  deriving DecidableEq, Repr

namespace Error

def span? : Error → Option Span
  | .parse e => some e.span
  | .typing e => some e.span
  | .lowering e => some e.span
  | .trap _ => none

/-- What happened, without the place. -/
def cause : Error → String
  | .parse e => e.fault.message
  | .typing e => e.fault.message
  | .lowering e => e.fault.message
  | .trap t => t.message

def message (e : Error) : String :=
  match e.span? with
  | some span => s!"at {span.text}: {e.cause}"
  | none => e.cause

end Error

end TypedScript
