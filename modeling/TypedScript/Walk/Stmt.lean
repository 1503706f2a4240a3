import TypedScript.Program.Stmt
import TypedScript.Walk.Expr

/-! # Reading statements and definitions -/

namespace TypedScript

/-- An assignment before it is known whether it declares its target. -/
structure Assignment where
  target : Target
  ty : Option Ty
  value : Expr
  span : Span
  deriving Repr

namespace Assignment

/-- The literal that an expression stands for: a literal, `None`, or a negated number. -/
def literal? : Expr → Option Literal
  | .literal _ l => some l
  | .name _ .none => some .none
  | .unary _ .neg (.literal _ (.number n)) => n.neg?.map .number
  | _ => none

/-- Reads an annotated name with a literal value as a declaration. -/
def varDef? (a : Assignment) : Option VarDef :=
  match a.target, a.ty with
  | .name name, some ty => (literal? a.value).map fun value => ⟨name, ty, value, a.span⟩
  | _, _ => none

def stmt (a : Assignment) : Stmt :=
  match a.target, a.ty with
  | .name name, some ty => .declare ⟨name, ty, a.value, a.span⟩
  | target, _ => .assign a.span target a.value

end Assignment

namespace Walk

def typeName : Nat → Walk Ty
  | 0 => unexpected "type annotation"
  | n + 1 => do
    if [":", "->"].contains (← kind) || (← get).focus.isTrivia then
      advance "type annotation" "type name"
      typeName n
    else if ["VariableName", "None"].contains (← kind) then
      return Ty.ofName (← text)
    else unexpected "type annotation"

def typeDef : Walk Ty := do
  let count := (← get).focus.children.length
  within "type annotation" (typeName count)

/-- A parameter, and whether its type was written. -/
abbrev ParamEntry := Param × Bool

/-- Reads one child of a parameter list, given the entries before it, latest first. -/
def paramEntry (className : Option String) (entries : List ParamEntry) :
    Walk (List ParamEntry) := do
  match ← kind with
  | "(" | ")" | "," => return entries
  | "VariableName" =>
    let name ← text
    let ty := match className with
      | some c => if name = receiverName then Ty.object c else .none
      | none => .none
    return (⟨name, ty, ← span⟩, false) :: entries
  | "TypeDef" =>
    let ty ← typeDef
    match entries with
    | (p, _) :: rest => return ({ p with ty }, true) :: rest
    | [] => unexpected "parameter list"
  | _ => unexpected "parameter list"

/-- Every parameter has to be annotated, except the receiver of a method. -/
def lacksType (className : Option String) (e : ParamEntry) : Bool :=
  !e.2 && !(className.isSome && e.1.name == receiverName)

def params (className : Option String) : Walk (List Param) := do
  let entries := (← fold (paramEntry className) []).reverse
  match entries.find? (lacksType className) with
  | some (p, _) => fail (.missingNode "parameter list" "parameter type annotation") p.span
  | none => return entries.map (·.1)

def body (stmt : Walk Stmt) : Walk (List Stmt) :=
  collect do
    if (← kind) = ":" then return none else return some (← stmt)

/-- A function, or a method of the class that is named. -/
def funcDef (stmt : Walk Stmt) (className : Option String) : Walk FuncDef := do
  let span ← span
  within "function definition" do
    expect "def" "function definition"
    advance "function definition" "function name"
    expect "VariableName" "function definition"
    let name ← text
    advance "function definition" "parameter list"
    expect "ParamList" "function definition"
    let params ← params className
    advance "function definition" "body"
    let ret ←
      if (← kind) = "TypeDef" then
        let ret ← typeDef
        advance "function definition" "body"
        pure ret
      else pure Ty.none
    expect "Body" "function definition"
    return { name, params, ret, body := ← body stmt, span }

/-- `target [: type] = value` and nothing more. -/
def assignment (expr : Walk Expr) : Walk Assignment := do
  let span ← span
  within "assignment" do
    let target ←
      match ← kind with
      | "VariableName" => pure (Target.name (← text))
      | "MemberExpression" =>
        let (object, field) ← member expr
        pure (Target.field object field)
      | _ => unexpected "assignment"
    advance "assignment" "value"
    let ty ←
      if (← kind) = "TypeDef" then
        let ty ← typeDef
        advance "assignment" "value"
        pure (some ty)
      else pure none
    if ["AssignOp", "="].contains (← kind) then advance "assignment" "value"
    let value ← expr
    if ← tryAdvance then
      fail (.unsupported "chained assignment is not supported") (← Walk.span)
    else return { target, ty, value, span }

/-- There is no inheritance: the only base class is `object`. -/
def baseClass : Walk Unit := do
  if isBracket (← kind) then return
  let name ← text
  if (← kind) = "VariableName" ∧ name = "object" then return
  fail (.unsupported s!"inheritance from '{name}' is not supported") (← span)

abbrev ClassMember := VarDef ⊕ FuncDef

def classMember (stmt : Walk Stmt) (expr : Walk Expr) (className : String) :
    Walk (Option ClassMember) := do
  match ← kind with
  | ":" | "PassStatement" => return none
  | "FunctionDefinition" => return some (.inr (← funcDef stmt (some className)))
  | "AssignStatement" =>
    let a ← assignment expr
    match a.varDef? with
    | some field => return some (.inl field)
    | none =>
      fail (.unsupported "class fields must be declared with a type and a literal value") a.span
  | _ => unexpected "class definition"

def classDef (stmt : Walk Stmt) (expr : Walk Expr) : Walk ClassDef := do
  let span ← span
  within "class definition" do
    expect "class" "class definition"
    advance "class definition" "class name"
    expect "VariableName" "class definition"
    let name ← text
    advance "class definition" "body"
    if (← kind) = "ArgList" then
      fold (fun _ => baseClass) ()
      advance "class definition" "body"
    expect "Body" "class definition"
    let members ← collect (classMember stmt expr name)
    return {
      name
      fields := members.filterMap Sum.getLeft?
      methods := members.filterMap Sum.getRight?
      span }

/-- The arms after the first one: at most one `elif`, then at most one `else`. -/
def arms (stmt : Walk Stmt) (expr : Walk Expr) :
    Nat → Option (Expr × List Stmt) → Option (List Stmt) →
      Walk (Option (Expr × List Stmt) × Option (List Stmt))
  | 0, elseIf, otherwise => return (elseIf, otherwise)
  | n + 1, elseIf, otherwise => do
    if ← tryAdvance then
      match ← kind with
      | "elif" =>
        if elseIf.isSome || otherwise.isSome then
          fail (.unsupported "only one 'elif' arm is supported") (← span)
        else
          advance "if statement" "elif condition"
          let condition ← expr
          advance "if statement" "elif body"
          expect "Body" "if statement"
          let body ← body stmt
          arms stmt expr n (some (condition, body)) otherwise
      | "else" =>
        if otherwise.isSome then unexpected "if statement"
        else
          advance "if statement" "else body"
          expect "Body" "if statement"
          let body ← body stmt
          arms stmt expr n elseIf (some body)
      | _ => unexpected "if statement"
    else return (elseIf, otherwise)

def branch (stmt : Walk Stmt) (expr : Walk Expr) : Walk Stmt := do
  let span ← span
  let count := (← get).focus.children.length
  within "if statement" do
    expect "if" "if statement"
    advance "if statement" "condition"
    let condition ← expr
    advance "if statement" "body"
    expect "Body" "if statement"
    let body ← body stmt
    let (elseIf, otherwise) ← arms stmt expr count none none
    return .branch span condition body elseIf otherwise

def loop (stmt : Walk Stmt) (expr : Walk Expr) : Walk Stmt := do
  let span ← span
  within "while statement" do
    expect "while" "while statement"
    advance "while statement" "condition"
    let condition ← expr
    advance "while statement" "body"
    expect "Body" "while statement"
    return .loop span condition (← body stmt)

/-- A `return` without a value returns `None`. -/
def ret (expr : Walk Expr) : Walk Stmt := do
  let note ← note
  within "return statement" do
    expect "return" "return statement"
    if ← tryAdvance then return .ret note.span (← expr)
    else return .ret note.span (.literal note .none)

/-- Reads a statement whose nodes nest at most `n` deep. -/
def stmt : Nat → Walk Stmt
  | 0 => unexpected "statement"
  | n + 1 => do
    match ← kind with
    | "AssignStatement" => return (← assignment (expr n)).stmt
    | "IfStatement" => branch (stmt n) (expr n)
    | "WhileStatement" => loop (stmt n) (expr n)
    | "PassStatement" => return .pass (← span)
    | "ReturnStatement" => ret (expr n)
    | "ExpressionStatement" => return .expr (← within "expression statement" (expr n))
    | "FunctionDefinition" => return .func (← funcDef (stmt n) none)
    | "ClassDefinition" => return .cls (← classDef (stmt n) (expr n))
    | _ => unexpected "statement"

end Walk

end TypedScript
