import TypedScript.Program.Expr

/-! # Statements

Statements, and the definitions that hold them.
-/

namespace TypedScript

/-- A variable declared with a literal: a global variable or a field. -/
structure VarDef where
  name : String
  ty : Ty
  value : Literal
  span : Span
  deriving DecidableEq, Repr

/-- A variable declared with an expression, in the order of the statements. -/
structure Declaration where
  name : String
  ty : Ty
  value : Expr
  span : Span
  deriving Repr

structure Param where
  name : String
  ty : Ty
  span : Span
  deriving DecidableEq, Repr

/-- A function or a method over statements of type `σ`. -/
structure FuncOf (σ : Type) where
  name : String
  params : List Param
  ret : Ty
  body : List σ
  span : Span
  deriving Repr

structure ClassOf (σ : Type) where
  name : String
  fields : List VarDef
  methods : List (FuncOf σ)
  span : Span
  deriving Repr

inductive Target
  | name (ident : String)
  | field (object : Expr) (field : String)
  deriving Repr

inductive Stmt
  | assign (span : Span) (target : Target) (value : Expr)
  | branch (span : Span) (condition : Expr) (body : List Stmt)
      (elseIf : Option (Expr × List Stmt)) (otherwise : Option (List Stmt))
  | loop (span : Span) (condition : Expr) (body : List Stmt)
  | pass (span : Span)
  | ret (span : Span) (value : Expr)
  | expr (value : Expr)
  | declare (declaration : Declaration)
  | func (definition : FuncOf Stmt)
  | cls (definition : ClassOf Stmt)
  deriving Repr

abbrev FuncDef := FuncOf Stmt

abbrev ClassDef := ClassOf Stmt

namespace Stmt

mutual
/-- The variables that a statement declares, at any depth of its branches and loops. -/
def declarations : Stmt → List Declaration
  | declare d => [d]
  | branch _ _ body elseIf otherwise =>
    bodyDeclarations body ++ elseIfDeclarations elseIf ++ otherwiseDeclarations otherwise
  | loop _ _ body => bodyDeclarations body
  | assign .. | pass _ | ret .. | expr _ | func _ | cls _ => []

def bodyDeclarations : List Stmt → List Declaration
  | [] => []
  | s :: ss => s.declarations ++ bodyDeclarations ss

def elseIfDeclarations : Option (Expr × List Stmt) → List Declaration
  | none => []
  | some (_, body) => bodyDeclarations body

def otherwiseDeclarations : Option (List Stmt) → List Declaration
  | none => []
  | some body => bodyDeclarations body
end

end Stmt

namespace FuncOf

/-- The local variables of a function, its parameters apart. -/
def declarations (f : FuncDef) : List Declaration := Stmt.bodyDeclarations f.body

end FuncOf

end TypedScript
