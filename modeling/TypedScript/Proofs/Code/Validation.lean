import TypedScript.Symbol
import TypedScript.Code.Module
import Mathlib.Data.List.Basic

/-! # Validation of code

Code is validated without being run, dead code included. Validation follows the height of the stack
above the base of the innermost open body, and it knows of every open body how many values a branch
to it has to leave. -/

namespace TypedScript

/-- The height after `takes` values have been taken and `leaves` have been left. -/
def heightAfter (takes leaves height : Nat) : Option Nat :=
  if takes ≤ height then some (height - takes + leaves) else none

theorem heightAfter_of_eq {takes leaves height rest : Nat} (h : height = rest + takes) :
    heightAfter takes leaves height = some (rest + leaves) := by
  subst h
  simp [heightAfter]

theorem heightAfter_eq_some {takes leaves before after : Nat} :
    heightAfter takes leaves before = some after ↔
      takes ≤ before ∧ after = before - takes + leaves := by
  simp [heightAfter, eq_comm]

/-- Values may be left over where control does not go on; code behind starts from the base again. -/
def heightAtExit (takes height : Nat) : Option Nat := if takes ≤ height then some 0 else none

namespace Func

def results (f : Func) : Nat := if f.hasResult then 1 else 0

end Func

namespace Module

def importsHost (m : Module) (name : String) : Bool :=
  Symbol.hostFunctions.contains name && m.importsFunc name

/-- The number of operands that a call takes and of values that it leaves. Other than an import, a
name is called only if it is the name of one function. -/
def arity? (m : Module) (name : String) : Option (Nat × Nat) :=
  if m.importsHost name then some (1, 1)
  else
    match m.functions.filter (·.name == name) with
    | [f] => some (f.params.length, f.results)
    | _ => none

/-- What can be called is an import, or it is the name of one function. -/
theorem arity_cases {m : Module} {name : String} {a : Nat × Nat} (h : m.arity? name = some a) :
    (m.importsHost name = true ∧ a = (1, 1)) ∨
      (m.importsHost name = false ∧ ∃ f, m.functions.filter (·.name == name) = [f] ∧
        a = (f.params.length, f.results)) := by
  rw [arity?] at h
  split at h
  · next himport => exact .inl ⟨himport, (Option.some.inj h).symm⟩
  · next himport =>
    split at h
    · next f hf => exact .inr ⟨by simpa using himport, f, hf, (Option.some.inj h).symm⟩
    · cases h

end Module

namespace Instr

mutual
/-- The height after an instruction, if the instruction is valid at the given height. -/
def height? (m : Module) (f : Func) (labels : List Nat) : Instr → Nat → Option Nat
  | const _, h => heightAfter 0 1 h
  | localGet name, h => if f.hasSlot name then heightAfter 0 1 h else none
  | localSet name, h => if f.hasSlot name then heightAfter 1 0 h else none
  | globalGet name, h => if (m.global? name).isSome then heightAfter 0 1 h else none
  | globalSet name, h => if (m.global? name).isSome then heightAfter 1 0 h else none
  | call name, h => (m.arity? name).bind fun a => heightAfter a.1 a.2 h
  | numeric _, h => heightAfter 2 1 h
  | eqz, h => heightAfter 1 1 h
  | load, h => heightAfter 1 1 h
  | store, h => heightAfter 2 0 h
  | ite body otherwise, h =>
    if bodyHeight? m f (0 :: labels) body 0 = some 0 ∧
        bodyHeight? m f (0 :: labels) otherwise 0 = some 0 then heightAfter 1 0 h
    else none
  | block body, h => if bodyHeight? m f (0 :: labels) body 0 = some 0 then some h else none
  | loop body, h => if bodyHeight? m f (0 :: labels) body 0 = some 0 then some h else none
  | br depth, h => labels[depth]?.bind fun n => heightAtExit n h
  | brIf depth, h => labels[depth]?.bind fun n => if n + 1 ≤ h then some (h - 1) else none
  | ret, h => heightAtExit f.results h
  | nop, h => some h

def bodyHeight? (m : Module) (f : Func) (labels : List Nat) : List Instr → Nat → Option Nat
  | [], h => some h
  | i :: is, h => (height? m f labels i h).bind (bodyHeight? m f labels is)
end

mutual
def calls : Instr → List String
  | call name => [name]
  | ite body otherwise => bodyCalls body ++ bodyCalls otherwise
  | block body | loop body => bodyCalls body
  | const _ | localGet _ | localSet _ | globalGet _ | globalSet _ | numeric _ | eqz | load | store
  | br _ | brIf _ | ret | nop => []

def bodyCalls : List Instr → List String
  | [] => []
  | i :: is => calls i ++ bodyCalls is
end

@[simp] theorem bodyCalls_nil : bodyCalls [] = [] := by
  simp [bodyCalls]

@[simp] theorem bodyCalls_cons {i : Instr} {is : List Instr} :
    bodyCalls (i :: is) = i.calls ++ bodyCalls is := by
  simp [bodyCalls]

@[simp] theorem bodyCalls_append {code rest : List Instr} :
    bodyCalls (code ++ rest) = bodyCalls code ++ bodyCalls rest := by
  induction code with
  | nil => simp
  | cons i is ih => simp [ih]

variable {m : Module} {f : Func} {labels : List Nat} {h : Nat}

@[simp] theorem bodyHeight?_nil : bodyHeight? m f labels [] h = some h := by
  simp [bodyHeight?]

@[simp] theorem bodyHeight?_cons {i : Instr} {is : List Instr} :
    bodyHeight? m f labels (i :: is) h =
      (height? m f labels i h).bind (bodyHeight? m f labels is) := by
  simp [bodyHeight?]

@[simp] theorem bodyHeight?_append {code rest : List Instr} :
    bodyHeight? m f labels (code ++ rest) h =
      (bodyHeight? m f labels code h).bind (bodyHeight? m f labels rest) := by
  induction code generalizing h with
  | nil => simp
  | cons i is ih =>
    rw [List.cons_append, bodyHeight?_cons, bodyHeight?_cons, Option.bind_assoc]
    exact congrArg _ (funext fun _ => ih)

/-- Pieces of code that each leave the height as it was do so together. -/
theorem bodyHeight?_flatMap {α : Type} {g : α → List Instr} {xs : List α}
    (hg : ∀ x ∈ xs, bodyHeight? m f labels (g x) h = some h) :
    bodyHeight? m f labels (xs.flatMap g) h = some h := by
  induction xs with
  | nil => simp
  | cons x rest ih =>
    rw [List.flatMap_cons, bodyHeight?_append, hg x List.mem_cons_self]
    exact ih fun y hy => hg y (List.mem_cons_of_mem x hy)

mutual
/-- What is called in valid code can be called. -/
theorem arity_of_mem_calls {labels : List Nat} {h h' : Nat} {x : String} (i : Instr)
    (hi : height? m f labels i h = some h') (hx : x ∈ i.calls) : (m.arity? x).isSome = true := by
  match i with
  | call name =>
    obtain rfl : x = name := by simpa [calls] using hx
    cases ha : m.arity? x with
    | none => simp [height?, ha] at hi
    | some a => rfl
  | ite body otherwise =>
    simp only [height?, Option.ite_none_right_eq_some] at hi
    rcases List.mem_append.mp (by simpa [calls] using hx) with hx | hx
    · exact arity_of_mem_bodyCalls body hi.1.1 hx
    · exact arity_of_mem_bodyCalls otherwise hi.1.2 hx
  | block body =>
    simp only [height?, Option.ite_none_right_eq_some] at hi
    exact arity_of_mem_bodyCalls body hi.1 (by simpa [calls] using hx)
  | loop body =>
    simp only [height?, Option.ite_none_right_eq_some] at hi
    exact arity_of_mem_bodyCalls body hi.1 (by simpa [calls] using hx)
  | const _ | localGet _ | localSet _ | globalGet _ | globalSet _ | numeric _ | eqz | load | store
  | br _ | brIf _ | ret | nop => simp [calls] at hx

theorem arity_of_mem_bodyCalls {labels : List Nat} {h h' : Nat} {x : String} (code : List Instr)
    (hc : bodyHeight? m f labels code h = some h') (hx : x ∈ bodyCalls code) :
    (m.arity? x).isSome = true := by
  match code with
  | [] => simp at hx
  | i :: is =>
    obtain ⟨h₁, hi, his⟩ := Option.bind_eq_some_iff.mp (bodyHeight?_cons ▸ hc)
    rcases List.mem_append.mp (by simpa using hx) with hx | hx
    · exact arity_of_mem_calls i hi hx
    · exact arity_of_mem_bodyCalls is his hx
end

end Instr

/-- The function's body is valid and ends with its results on the stack. -/
def Func.Valid (m : Module) (f : Func) : Prop :=
  Instr.bodyHeight? m f [f.results] f.body 0 = some f.results

def Module.Valid (m : Module) : Prop := ∀ f ∈ m.functions, f.Valid m

instance (m : Module) (f : Func) : Decidable (f.Valid m) := inferInstanceAs (Decidable (_ = _))

instance (m : Module) : Decidable m.Valid := inferInstanceAs (Decidable (∀ f ∈ m.functions, _))

end TypedScript
