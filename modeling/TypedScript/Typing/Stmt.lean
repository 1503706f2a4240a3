import TypedScript.Program.Stmt
import TypedScript.Typing.Expr

/-! # Typing of statements

Checking a statement gives the statement with its types filled in and the scope after it.
-/

namespace TypedScript

/-- A value that flows into a slot has to be accepted by it. -/
def requireAccepts (slot actual : Ty) (context : String) (span : Span) : Checked Unit :=
  if slot.accepts actual then .ok () else reject (.mismatch context slot actual) span

namespace Expr

def checkCondition (s : Scope) (construct : String) (e : Expr) : Checked Expr := do
  let e ← check s e
  if e.1 = .bool then return e.2
  else reject (.conditionNotBool construct e.1) e.2.span

end Expr

namespace Target

def check (s : Scope) (actual : Ty) (span : Span) : Target → Checked Target
  | .name ident => do
    let slot ← s.lookup ident span
    requireAccepts slot actual s!"assignment to '{ident}'" span
    return .name ident
  | .field object f => do
    let object ← object.check s
    let c ← Expr.classOf object
    let slot ← s.fieldType c f span
    requireAccepts slot actual s!"assignment to field '{c}.{f}'" span
    return .field object.2 f

end Target

namespace Declaration

/-- A declared object variable may be given an object of any class. -/
def check (s : Scope) (d : Declaration) : Checked (Scope × Declaration) := do
  s.classes.validate d.ty d.span
  let value ← d.value.check s
  if d.ty.accepts value.1 || (d.ty.isObject && value.1.isObject) then
    return (← s.declare d.name d.ty d.span, { d with value := value.2 })
  else reject (.mismatch s!"declaration of '{d.name}'" d.ty value.1) d.span

end Declaration

namespace Stmt

def checkReturn (s : Scope) (span : Span) (value : Expr) : Checked (Scope × Stmt) :=
  match s.function with
  | none => reject .returnOutsideFunction span
  | some f => do
    let value ← value.check s
    requireAccepts f.ret value.1 s!"return from '{f.name}'" span
    return ({ s with function := some { f with returned := true } }, .ret span value.2)

mutual
def check (s : Scope) : Stmt → Checked (Scope × Stmt)
  | assign span target value => do
    let value ← value.check s
    let target ← target.check s value.1 span
    return (s, .assign span target value.2)
  | branch span condition body elseIf otherwise => do
    let condition ← condition.checkCondition s "if"
    let (s, body) ← checkBody s body
    let (s, elseIf) ← checkElseIf s elseIf
    let (s, otherwise) ← checkOtherwise s otherwise
    return (s, .branch span condition body elseIf otherwise)
  | loop span condition body => do
    let condition ← condition.checkCondition s "while"
    let (s, body) ← checkBody s body
    return (s, .loop span condition body)
  | pass span => .ok (s, .pass span)
  | ret span value => checkReturn s span value
  | expr value => do
    let value ← value.check s
    return (s, .expr value.2)
  | declare d => do
    let (s, d) ← d.check s
    return (s, .declare d)
  | func f => reject (.nestedDefinition f.name) f.span
  | cls c => reject (.nestedDefinition c.name) c.span

def checkBody (s : Scope) : List Stmt → Checked (Scope × List Stmt)
  | [] => .ok (s, [])
  | stmt :: rest => do
    let (s, stmt) ← check s stmt
    let (s, rest) ← checkBody s rest
    return (s, stmt :: rest)

def checkElseIf (s : Scope) : Option (Expr × List Stmt) →
    Checked (Scope × Option (Expr × List Stmt))
  | none => .ok (s, none)
  | some (condition, body) => do
    let condition ← condition.checkCondition s "elif"
    let (s, body) ← checkBody s body
    return (s, some (condition, body))

def checkOtherwise (s : Scope) : Option (List Stmt) → Checked (Scope × Option (List Stmt))
  | none => .ok (s, none)
  | some body => do
    let (s, body) ← checkBody s body
    return (s, some body)
end

end Stmt

end TypedScript
