import TypedScript.Word

/-! # Static types and literals -/

namespace TypedScript

/-- The method that sets up a new object. -/
def constructorName : String := "__init__"

/-- The parameter that receives the object a method is called on. -/
def receiverName : String := "self"

inductive Ty
  | int
  | bool
  | none
  | object (className : String)
  deriving DecidableEq, Repr

namespace Ty

/-- A written type; a name that is no primitive type names a class. -/
def ofName (name : String) : Ty :=
  if name = "int" then .int
  else if name = "bool" then .bool
  else if name = "None" ∨ name = "none" then .none
  else .object name

def className? : Ty → Option String
  | .object c => some c
  | _ => Option.none

def isObject (t : Ty) : Bool := t.className?.isSome

/-- A slot holds values of its own type, and an object slot may also hold `None`. -/
def accepts (slot actual : Ty) : Bool := slot == actual || (slot.isObject && actual == .none)

def text : Ty → String
  | .int => "int"
  | .bool => "bool"
  | .none => "None"
  | .object c => c

end Ty

inductive Literal
  | number (n : Word)
  | bool (b : Bool)
  | none
  deriving DecidableEq, Repr

namespace Literal

def ty : Literal → Ty
  | .number _ => .int
  | .bool _ => .bool
  | .none => .none

def word : Literal → Word
  | .number n => n
  | .bool b => Word.ofBool b
  | .none => 0

def text : Literal → String
  | .number n => n.text
  | .bool true => "True"
  | .bool false => "False"
  | .none => "None"

end Literal

end TypedScript
