import TypedScript.Bindings
import TypedScript.Error
import TypedScript.Program.Stmt

/-! # Layouts

An object is a run of words in memory, one for each field in the order of declaration.
-/

namespace TypedScript

def wordSize : Nat := 4

structure FieldSlot where
  name : String
  index : Nat
  default : Literal
  deriving DecidableEq, Repr

namespace FieldSlot

/-- The distance in bytes from the address of the object. -/
def offset (f : FieldSlot) : Nat := f.index * wordSize

end FieldSlot

structure ClassLayout where
  name : String
  fields : List FieldSlot
  hasConstructor : Bool
  deriving DecidableEq, Repr

namespace ClassLayout

def ofClass (c : ClassDef) : ClassLayout where
  name := c.name
  fields := c.fields.mapIdx fun i d => ⟨d.name, i, d.value⟩
  hasConstructor := c.methods.any (·.name == constructorName)

def field? (l : ClassLayout) (name : String) : Option FieldSlot := l.fields.find? (·.name == name)

def size (l : ClassLayout) : Nat := l.fields.length * wordSize

end ClassLayout

abbrev Lowered := Except (Located LoweringError)

def refuse {α : Type} (e : LoweringError) (span : Span) : Lowered α := .error ⟨e, span⟩

abbrev Layouts := Bindings ClassLayout

namespace Layouts

def ofClasses (cs : List ClassDef) : Layouts :=
  Bindings.ofList (cs.map fun c => (c.name, ClassLayout.ofClass c))

def get (ls : Layouts) (className : String) (span : Span) : Lowered ClassLayout :=
  match Bindings.find? ls className with
  | some l => .ok l
  | none => refuse (.unknownLayout className) span

def field (ls : Layouts) (className field : String) (span : Span) : Lowered FieldSlot := do
  match (← ls.get className span).field? field with
  | some f => .ok f
  | none => refuse (.unknownField className field) span

end Layouts

end TypedScript
