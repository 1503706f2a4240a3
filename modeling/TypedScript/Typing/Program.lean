import TypedScript.Program
import TypedScript.Symbol
import TypedScript.Typing.Stmt

/-! # Typing of programs

Classes are registered first, then functions, then global variables; so definitions may refer to
each other in any order. After that the bodies are checked, and last the statements.
-/

namespace TypedScript

namespace VarDef

/-- The literal of a declaration has to be accepted by the declared type. -/
def check (d : VarDef) (context : String) : Checked Unit :=
  requireAccepts d.ty d.value.ty context d.span

end VarDef

/-- What the definitions of a program add up to. The symbols are the names that are taken among the
functions of the emitted module. -/
structure Registry where
  globals : Globals
  classes : Classes
  symbols : List String
  deriving DecidableEq, Repr

namespace Registry

def empty : Registry := ⟨Globals.empty, [], Symbol.hostFunctions⟩

/-- Takes a symbol that has to be free. -/
def reserve (r : Registry) (name symbol : String) (span : Span) : Checked Registry :=
  if r.symbols.contains symbol then reject (.symbolCollision name symbol) span
  else .ok { r with symbols := symbol :: r.symbols }

def declareClass (r : Registry) (c : ClassDef) : Checked Registry :=
  return { r with classes := ← r.classes.declare c.name c.span }

def addField (c : ClassDef) (r : Registry) (d : VarDef) : Checked Registry := do
  r.classes.validate d.ty d.span
  d.check s!"field '{d.name}'"
  return { r with classes := ← r.classes.addField c.name ⟨d.name, d.ty, d.value⟩ d.span }

/-- The signature of a method. Its first parameter is the receiver, and a constructor returns its
class. -/
def methodSignature (r : Registry) (c : ClassDef) (m : FuncDef) : Checked Signature :=
  match m.params with
  | [] => reject (.missingSelf c.name m.name) m.span
  | receiver :: params =>
    if receiver.name ≠ receiverName then reject (.missingSelf c.name m.name) m.span
    else if m.name = constructorName ∧ m.ret ≠ .object c.name then
      reject (.invalidConstructor c.name m.ret) m.span
    else do
      params.forM fun p => r.classes.validate p.ty p.span
      r.classes.validate m.ret m.span
      return ⟨.object c.name :: params.map (·.ty), m.ret⟩

def addMethod (c : ClassDef) (r : Registry) (m : FuncDef) : Checked Registry := do
  let sig ← r.methodSignature c m
  let classes ← r.classes.addMethod c.name m.name sig m.span
  reserve { r with classes } m.name (Symbol.method c.name m.name) m.span

def addMembers (r : Registry) (c : ClassDef) : Checked Registry := do
  let r ← c.fields.foldlM (addField c) r
  c.methods.foldlM (addMethod c) r

def addFunc (r : Registry) (f : FuncDef) : Checked Registry := do
  f.params.forM fun p => r.classes.validate p.ty p.span
  r.classes.validate f.ret f.span
  let globals ← r.globals.declareFunc f.name ⟨f.params.map (·.ty), f.ret⟩ f.span
  reserve { r with globals } f.name f.name f.span

def addVar (r : Registry) (d : VarDef) : Checked Registry := do
  r.classes.validate d.ty d.span
  d.check s!"declaration of '{d.name}'"
  return { r with globals := ← r.globals.declareVar d.name d.ty d.span }

def ofProgram (p : Program) : Checked Registry := do
  let r ← p.classes.foldlM declareClass empty
  let r ← p.classes.foldlM addMembers r
  let r ← p.funcs.foldlM addFunc r
  p.vars.foldlM addVar r

def topLevel (r : Registry) : Scope := ⟨r.globals, r.classes, [], none⟩

end Registry

namespace FuncOf

/-- The type of a parameter inside the body; the receiver of a method has the type of its class. -/
def paramType (className : Option String) (p : Param) : Ty :=
  match className with
  | some c => if p.name = receiverName then .object c else p.ty
  | none => p.ty

def paramLocals (f : FuncDef) (className : Option String) : Checked Locals :=
  f.params.foldlM (fun ls p => Locals.declare ls p.name (paramType className p) p.span) []

/-- A constructor gives its object back without a `return`. -/
def mayFallOff (f : FuncDef) (className : Option String) : Bool :=
  f.ret == .none || (className.isSome && f.name == constructorName)

def check (r : Registry) (className : Option String) (f : FuncDef) : Checked FuncDef := do
  let locals ← f.paramLocals className
  let scope : Scope := ⟨r.globals, r.classes, locals, some ⟨f.name, className, f.ret, false⟩⟩
  let (scope, body) ← Stmt.checkBody scope f.body
  if f.mayFallOff className || scope.function.any (·.returned) then return { f with body }
  else reject (.missingReturn f.name f.ret) f.span

end FuncOf

namespace ClassOf

def check (r : Registry) (c : ClassDef) : Checked ClassDef :=
  return { c with methods := ← c.methods.mapM (FuncOf.check r (some c.name)) }

end ClassOf

namespace Program

/-- The type of the last statement, if it is a bare expression. -/
def valueType (stmts : List Stmt) : Ty :=
  match stmts.getLast? with
  | some (.expr e) => e.ty?.getD .none
  | _ => .none

def check (p : Program) : Checked Program := do
  let r ← Registry.ofProgram p
  let funcs ← p.funcs.mapM (FuncOf.check r none)
  let classes ← p.classes.mapM (ClassOf.check r)
  let (_, stmts) ← Stmt.checkBody r.topLevel p.stmts
  return { p with funcs, classes, stmts, ty := some (valueType stmts) }

end Program

end TypedScript
