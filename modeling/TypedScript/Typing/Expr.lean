import TypedScript.Program.Expr
import TypedScript.Typing.Env

/-! # Typing of expressions

Checking an expression gives its type and the expression with every type filled in. The call of a
class becomes a construction.
-/

namespace TypedScript

namespace Scope

def receiver? (s : Scope) : Option String := s.function.bind (·.className)

def nameType (s : Scope) (span : Span) : Name → Checked Ty
  | .self =>
    match s.receiver? with
    | some c => .ok (.object c)
    | none => reject .selfOutsideClass span
  | .none => .ok .none
  | .plain ident => s.lookup ident span

def fieldType (s : Scope) (className field : String) (span : Span) : Checked Ty := do
  match (← s.classes.get className span).field? field with
  | some f => .ok f.ty
  | none => reject (.unknownField className field) span

def methodSignature (s : Scope) (className method : String) (span : Span) : Checked Signature := do
  match (← s.classes.get className span).method? method with
  | some sig => .ok sig
  | none => reject (.unknownMethod className method) span

def funcSignature (s : Scope) (name : String) (span : Span) : Checked Signature :=
  match s.globals.funcs.find? name with
  | some sig => .ok sig
  | none => reject (.unknownFunction name) span

/-- A class can be constructed if its constructor takes nothing but the receiver. -/
def constructType (s : Scope) (className : String) (span : Span) : Checked Ty := do
  let c ← s.classes.get className span
  let extra := match c.constructor? with
    | some sig => sig.params.length - 1
    | none => 0
  if extra = 0 then .ok (.object className)
  else reject (.constructorArguments className extra) span

end Scope

namespace UnaryOp

def check (op : UnaryOp) (operand : Ty × Expr) : Checked Ty :=
  if operand.1 = op.signature.1 then .ok op.signature.2
  else reject (.unsupportedOperand op.symbol op.signature.1 operand.1) operand.2.span

end UnaryOp

namespace BinaryOp

def check (op : BinaryOp) (left right : Ty × Expr) (span : Span) : Checked Ty :=
  match op.rule with
  | .uniform operand result =>
    if left.1 ≠ operand then
      reject (.unsupportedOperand op.symbol operand left.1) left.2.span
    else if right.1 ≠ operand then
      reject (.unsupportedOperand op.symbol operand right.1) right.2.span
    else .ok result
  | .sameType result =>
    if left.1 = right.1 then .ok result
    else reject (.operandMismatch op left.1 right.1) span

end BinaryOp

namespace Expr

def classOf (object : Ty × Expr) : Checked String :=
  match object.1 with
  | .object c => .ok c
  | actual => reject (.notAnObject actual) object.2.span

/-- An argument has to have exactly the type of its parameter. -/
def argument (callee : String) (index : Nat) (expected : Ty) (arg : Ty × Expr) : Checked Expr :=
  if arg.1 = expected then .ok arg.2
  else reject (.argumentType callee index expected arg.1) arg.2.span

def countArguments (callee : String) (params : List Ty) (args : List Expr) (span : Span) :
    Checked Unit :=
  if args.length = params.length then .ok ()
  else reject (.argumentCount callee params.length args.length) span

def typed (n : Note) (ty : Ty) (mk : Note → Expr) : Ty × Expr := (ty, mk { n with ty := some ty })

mutual
def check (s : Scope) : Expr → Checked (Ty × Expr)
  | literal n l => .ok (typed n l.ty (literal · l))
  | name n x => do
    let ty ← s.nameType n.span x
    return typed n ty (name · x)
  | unary n op e => do
    let e ← check s e
    let ty ← op.check e
    return typed n ty (unary · op e.2)
  | binary n op l r => do
    let l ← check s l
    let r ← check s r
    let ty ← op.check l r n.span
    return typed n ty (binary · op l.2 r.2)
  | call n callee args =>
    if s.classes.contains callee then
      if args.isEmpty then do
        let ty ← s.constructType callee n.span
        return typed n ty (construct · callee)
      else reject (.constructorArguments callee args.length) n.span
    else do
      let sig ← s.funcSignature callee n.span
      countArguments callee sig.params args n.span
      let args ← checkArgs s callee 0 sig.params args
      return typed n sig.ret (call · callee args)
  | builtin1 n fn e => do
    let e ← argument fn.name 0 .int (← check s e)
    return typed n .int (builtin1 · fn e)
  | builtin2 n fn l r => do
    let l ← argument fn.name 0 .int (← check s l)
    let r ← argument fn.name 1 .int (← check s r)
    return typed n .int (builtin2 · fn l r)
  | construct n c => do
    let ty ← s.constructType c n.span
    return typed n ty (construct · c)
  | field n object f => do
    let object ← check s object
    let ty ← s.fieldType (← classOf object) f n.span
    return typed n ty (field · object.2 f)
  | method n object m args => do
    let object ← check s object
    let c ← classOf object
    let sig ← s.methodSignature c m n.span
    let callee := c ++ "." ++ m
    countArguments callee (sig.params.drop 1) args n.span
    let args ← checkArgs s callee 0 (sig.params.drop 1) args
    return typed n sig.ret (method · object.2 m args)
  | print n [e] => do
    let e ← check s e
    return typed n e.1 (print · [e.2])
  | print n args => reject (.printArity args.length) n.span

/-- Checks arguments against as many parameters, counting from `index`. -/
def checkArgs (s : Scope) (callee : String) : Nat → List Ty → List Expr → Checked (List Expr)
  | index, ty :: tys, e :: es => do
    let e ← argument callee index ty (← check s e)
    let es ← checkArgs s callee (index + 1) tys es
    return e :: es
  | _, _, _ => return []
end

end Expr

end TypedScript
