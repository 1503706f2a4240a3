import TypedScript.Operator
import TypedScript.Span

/-! # Expressions -/

namespace TypedScript

/-- Where an expression stands, and its type once it has been checked. -/
structure Note where
  span : Span
  ty : Option Ty
  deriving DecidableEq, Repr

/-- A name as an expression; two of them are reserved. -/
inductive Name
  | self
  | none
  | plain (ident : String)
  deriving DecidableEq, Repr

namespace Name

def ofIdent (ident : String) : Name :=
  if ident = receiverName then .self
  else if ident = "none" ∨ ident = "None" then .none
  else .plain ident

def text : Name → String
  | .self => receiverName
  | .none => "None"
  | .plain ident => ident

end Name

inductive Builtin1
  | abs
  deriving DecidableEq, Repr

inductive Builtin2
  | max | min | pow
  deriving DecidableEq, Repr

namespace Builtin1

def name : Builtin1 → String
  | .abs => "abs"

def ofName? (s : String) : Option Builtin1 := [Builtin1.abs].find? (·.name == s)

end Builtin1

namespace Builtin2

def name : Builtin2 → String
  | .max => "max"
  | .min => "min"
  | .pow => "pow"

def ofName? (s : String) : Option Builtin2 := [Builtin2.max, .min, .pow].find? (·.name == s)

end Builtin2

inductive Expr
  | literal (note : Note) (value : Literal)
  | name (note : Note) (name : Name)
  | unary (note : Note) (op : UnaryOp) (operand : Expr)
  | binary (note : Note) (op : BinaryOp) (left right : Expr)
  | call (note : Note) (callee : String) (args : List Expr)
  | builtin1 (note : Note) (fn : Builtin1) (arg : Expr)
  | builtin2 (note : Note) (fn : Builtin2) (left right : Expr)
  | construct (note : Note) (className : String)
  | field (note : Note) (object : Expr) (field : String)
  | method (note : Note) (object : Expr) (method : String) (args : List Expr)
  | print (note : Note) (args : List Expr)
  deriving Repr

namespace Expr

def note : Expr → Note
  | literal n _ | name n _ | unary n _ _ | binary n _ _ _ | call n _ _ | builtin1 n _ _
  | builtin2 n _ _ _ | construct n _ | field n _ _ | method n _ _ _ | print n _ => n

def span (e : Expr) : Span := e.note.span

def ty? (e : Expr) : Option Ty := e.note.ty

end Expr

end TypedScript
