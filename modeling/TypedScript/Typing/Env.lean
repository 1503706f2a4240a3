import TypedScript.Bindings
import TypedScript.Error

/-! # Environments

What is known of the names of a program while it is checked.
-/

namespace TypedScript

abbrev Checked := Except (Located TypeError)

def reject {α : Type} (e : TypeError) (span : Span) : Checked α := .error ⟨e, span⟩

/-- The types of the parameters, for a method the receiver first, and of the result. -/
structure Signature where
  params : List Ty
  ret : Ty
  deriving DecidableEq, Repr

structure Globals where
  vars : Bindings Ty
  funcs : Bindings Signature
  deriving DecidableEq, Repr

namespace Globals

def empty : Globals := ⟨[], []⟩

def declareVar (g : Globals) (name : String) (ty : Ty) (span : Span) : Checked Globals :=
  if g.vars.contains name then reject (.duplicateDefinition .globalVariable name) span
  else .ok { g with vars := g.vars.insert name ty }

def declareFunc (g : Globals) (name : String) (sig : Signature) (span : Span) : Checked Globals :=
  if g.funcs.contains name then reject (.duplicateDefinition .function name) span
  else .ok { g with funcs := g.funcs.insert name sig }

end Globals

structure Field where
  name : String
  ty : Ty
  default : Literal
  deriving DecidableEq, Repr

/-- The members of a class in the order of their declaration. -/
structure ClassInfo where
  fields : List Field
  methods : List (String × Signature)
  deriving DecidableEq, Repr

namespace ClassInfo

def empty : ClassInfo := ⟨[], []⟩

def field? (c : ClassInfo) (name : String) : Option Field := c.fields.find? (·.name == name)

def method? (c : ClassInfo) (name : String) : Option Signature := c.methods.lookup name

def constructor? (c : ClassInfo) : Option Signature := c.method? constructorName

end ClassInfo

abbrev Classes := Bindings ClassInfo

namespace Classes

def declare (cs : Classes) (name : String) (span : Span) : Checked Classes :=
  if Bindings.contains cs name then reject (.duplicateDefinition .cls name) span
  else .ok (Bindings.insert cs name ClassInfo.empty)

def get (cs : Classes) (name : String) (span : Span) : Checked ClassInfo :=
  match Bindings.find? cs name with
  | some c => .ok c
  | none => reject (.unknownClass name) span

def addField (cs : Classes) (className : String) (field : Field) (span : Span) :
    Checked Classes := do
  let c ← cs.get className span
  if (c.field? field.name).isSome then reject (.duplicateDefinition .field field.name) span
  else return Bindings.insert cs className { c with fields := c.fields ++ [field] }

def addMethod (cs : Classes) (className name : String) (sig : Signature) (span : Span) :
    Checked Classes := do
  let c ← cs.get className span
  if (c.method? name).isSome then reject (.duplicateDefinition .method name) span
  else return Bindings.insert cs className { c with methods := c.methods ++ [(name, sig)] }

/-- The class that a type names, if it names one, has to be known. -/
def validate (cs : Classes) (ty : Ty) (span : Span) : Checked Unit :=
  match ty with
  | .object c => if Bindings.contains cs c then .ok () else reject (.unknownClass c) span
  | _ => .ok ()

end Classes

/-- The parameters and local variables of a body. Scopes are flat: a variable is visible from its
declaration to the end of the body. -/
abbrev Locals := Bindings Ty

namespace Locals

def declare (ls : Locals) (name : String) (ty : Ty) (span : Span) : Checked Locals :=
  if Bindings.contains ls name then reject (.duplicateDefinition .localVariable name) span
  else .ok (Bindings.insert ls name ty)

end Locals

structure FuncScope where
  name : String
  className : Option String
  ret : Ty
  /-- Whether a `return` has been met, on whatever branch. -/
  returned : Bool
  deriving DecidableEq, Repr

/-- What is in scope at a statement; at top level there is no function. -/
structure Scope where
  globals : Globals
  classes : Classes
  locals : Locals
  function : Option FuncScope
  deriving DecidableEq, Repr

namespace Scope

/-- Local variables come before global ones. -/
def lookup (s : Scope) (name : String) (span : Span) : Checked Ty :=
  match s.locals.find? name with
  | some ty => .ok ty
  | none =>
    match s.globals.vars.find? name with
    | some ty => .ok ty
    | none => reject (.undefinedName name) span

/-- Declares a local variable inside a body and a global one at top level. -/
def declare (s : Scope) (name : String) (ty : Ty) (span : Span) : Checked Scope :=
  match s.function with
  | some _ => return { s with locals := ← Locals.declare s.locals name ty span }
  | none => return { s with globals := ← s.globals.declareVar name ty span }

end Scope

end TypedScript
