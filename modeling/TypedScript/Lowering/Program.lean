import TypedScript.Lowering.Stmt
import TypedScript.Program.Parts

/-! # Code of programs

The functions of a module stand in a fixed order: built-ins, functions, methods class by class, and
last the entry, which sets the global variables and runs the statements.
-/

namespace TypedScript

structure Options where
  /-- The size of the imported memory, in pages. -/
  memoryPages : Nat := 100
  /-- The first address that an object may have. -/
  heapBase : Word := 4
  /-- What a global object variable holds at first. -/
  objectSentinel : Word := -8
  entryExport : String := "_start"
  importOrigin : String := "imports"
  deriving DecidableEq, Repr

namespace Options

def imports (o : Options) : List Import :=
  ⟨o.importOrigin, Symbol.memory, .memory o.memoryPages⟩ ::
    Symbol.hostFunctions.map fun name => ⟨o.importOrigin, name, .func⟩

def initial (o : Options) (ty : Ty) : Word := if ty.isObject then o.objectSentinel else 0

end Options

namespace FuncOf

def slots (f : FuncDef) : List String := f.params.map (·.name) ++ f.declarations.map (·.name)

/-- A body that runs to its end gives zero back, and a constructor its receiver. -/
def lower (layouts : Layouts) (className : Option String) (f : FuncDef) : Lowered Func := do
  let body ← Stmt.lowerBody ⟨layouts, f.slots⟩ f.body
  let isConstructor := className.isSome && f.name == constructorName
  let ending := if isConstructor then [.localGet receiverName, .ret] else []
  return {
    name := match className with
      | some c => Symbol.method c f.name
      | none => f.name
    exportName := none
    params := f.params.map (·.name)
    hasResult := true
    locals := Symbol.scratch :: f.declarations.map (·.name)
    body := body ++ ending ++ [.const 0] }

end FuncOf

namespace ClassOf

def lower (layouts : Layouts) (c : ClassDef) : Lowered (List Func) :=
  c.methods.mapM (FuncOf.lower layouts (some c.name))

end ClassOf

namespace VarDef

/-- `None` is not stored: a variable holds it from the start. -/
def lower (d : VarDef) : List Instr :=
  if d.value = .none then [] else [.const d.value.word, .globalSet d.name]

end VarDef

namespace Expr

def builtin? : Expr → Option Builtin
  | builtin1 _ fn _ => some fn.builtin
  | builtin2 _ fn _ _ => some fn.builtin
  | _ => none

end Expr

namespace Program

def uses (p : Program) (b : Builtin) : Bool := p.parts.any fun e => e.builtin? == some b

/-- The heap pointer and the global variables, those declared among the statements last. -/
def globals (p : Program) (o : Options) : List Global :=
  ⟨Symbol.heapPointer, o.heapBase⟩ ::
    (p.vars.map (fun d => ⟨d.name, o.initial d.ty⟩) ++
      (Stmt.bodyDeclarations p.stmts).map fun d => ⟨d.name, o.initial d.ty⟩)

def lowerEntry (p : Program) (layouts : Layouts) (o : Options) : Lowered Func := do
  let body ← Stmt.lowerBody ⟨layouts, []⟩ p.stmts
  let value := if p.endsWithExpr then [.localGet Symbol.scratch] else []
  return {
    name := Symbol.entry
    exportName := some o.entryExport
    params := []
    hasResult := p.endsWithExpr
    locals := [Symbol.scratch]
    body := p.vars.flatMap (·.lower) ++ body ++ value }

def lower (p : Program) (o : Options) : Lowered Module := do
  let layouts := Layouts.ofClasses p.classes
  let funcs ← p.funcs.mapM (FuncOf.lower layouts none)
  let methods ← p.classes.mapM (ClassOf.lower layouts)
  let entry ← p.lowerEntry layouts o
  return {
    imports := o.imports
    globals := p.globals o
    functions := Builtin.funcs p.uses ++ funcs ++ methods.flatten ++ [entry] }

end Program

end TypedScript
