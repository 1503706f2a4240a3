import TypedScript.Lowering.Expr

/-! # Code of statements -/

namespace TypedScript

/-- Stores a value under a name. A value without code is not stored. An object that is constructed
here is handed to its constructor, and what that gives back is stored instead. -/
def Site.storeName (s : Site) (ident : String) (value : Expr) : Lowered (List Instr) := do
  let code ← value.lower s
  if code.isEmpty then return []
  let stored := code ++ [s.set ident]
  match value with
  | .construct n c =>
    if (← s.layouts.get c n.span).hasConstructor then
      return stored ++ [s.get ident, .call (Symbol.method c constructorName), s.set ident]
    else return stored
  | _ => return stored

namespace Target

def lower (s : Site) (span : Span) (value : Expr) : Target → Lowered (List Instr)
  | .name ident => s.storeName ident value
  | .field object f => do
    let c ← object.receiverClass
    let slot ← s.layouts.field c f span
    let object ← object.lowerValue s
    let value ← value.lowerValue s
    return Expr.fieldAddress object slot ++ value ++ [.store]

end Target

namespace Stmt

mutual
def lower (s : Site) : Stmt → Lowered (List Instr)
  | assign span target value => target.lower s span value
  | declare d => s.storeName d.name d.value
  | branch _ condition body elseIf otherwise => do
    let body ← lowerBody s body
    let otherwise ← lowerOtherwise s otherwise
    let otherwise ← lowerElseIf s elseIf otherwise
    let condition ← condition.lowerValue s
    return condition ++ [.ite body otherwise]
  | loop _ condition body => do
    let condition ← condition.lowerValue s
    let body ← lowerBody s body
    return [.block [.loop (condition ++ [.eqz, .brIf 1] ++ body ++ [.br 0])]]
  | pass _ => .ok [.nop]
  | ret _ value => return (← value.lowerValue s) ++ [.ret]
  | expr value => return (← value.lowerValue s) ++ [.localSet Symbol.scratch]
  | func f => refuse (.unsupported s!"nested function '{f.name}'") f.span
  | cls c => refuse (.unsupported s!"nested class '{c.name}'") c.span

def lowerBody (s : Site) : List Stmt → Lowered (List Instr)
  | [] => .ok []
  | stmt :: rest => do
    let stmt ← lower s stmt
    let rest ← lowerBody s rest
    return stmt ++ rest

/-- The second arm of a branch, in front of the code of the last one. -/
def lowerElseIf (s : Site) : Option (Expr × List Stmt) → List Instr → Lowered (List Instr)
  | none, otherwise => .ok otherwise
  | some (condition, body), otherwise => do
    let condition ← condition.lowerValue s
    let body ← lowerBody s body
    return condition ++ [.ite body otherwise]

def lowerOtherwise (s : Site) : Option (List Stmt) → Lowered (List Instr)
  | none => .ok []
  | some body => lowerBody s body
end

end Stmt

end TypedScript
