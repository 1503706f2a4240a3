/-! # Bindings

Names bound to values. A name is bound at most once: a new binding takes the place of the old one.
-/

namespace TypedScript

abbrev Bindings (α : Type) := List (String × α)

namespace Bindings

variable {α : Type}

def find? (b : Bindings α) (name : String) : Option α := List.lookup name b

def contains (b : Bindings α) (name : String) : Bool := (b.find? name).isSome

def insert (b : Bindings α) (name : String) (a : α) : Bindings α :=
  (name, a) :: b.filter (·.1 != name)

/-- The later of two bindings of one name counts. -/
def ofList (entries : List (String × α)) : Bindings α :=
  entries.foldl (fun b e => insert b e.1 e.2) []

end Bindings

end TypedScript
