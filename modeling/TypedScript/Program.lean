import TypedScript.Program.Stmt

/-! # Programs -/

namespace TypedScript

structure Program where
  vars : List VarDef
  funcs : List FuncDef
  classes : List ClassDef
  stmts : List Stmt
  /-- The type of the program's value, once it has been checked. -/
  ty : Option Ty
  deriving Repr

namespace Program

/-- Whether the program has a value: its last statement is a bare expression. -/
def endsWithExpr (p : Program) : Bool :=
  match p.stmts.getLast? with
  | some (.expr _) => true
  | _ => false

end Program

end TypedScript
