import TypedScript.Program.Expr
import TypedScript.Walk

/-! # Reading expressions

Each kind of expression node has its own walk, given the walk for the expressions inside it.
-/

namespace TypedScript.Walk

/-- The note of an expression that has not been checked. -/
def note : Walk Note := return ⟨← span, none⟩

def isBracket (kind : String) : Bool := ["(", ")", ","].contains kind

def number : Walk Expr := do
  let note ← note
  match Word.ofText? (← text) with
  | some n => return .literal note (.number n)
  | none => fail (.invalidNumber (← text)) note.span

def boolean : Walk Expr := do
  let note ← note
  match ← text with
  | "True" => return .literal note (.bool true)
  | "False" => return .literal note (.bool false)
  | _ => unexpected "boolean literal"

def unary (expr : Walk Expr) : Walk Expr := do
  let note ← note
  within "unary expression" do
    let symbol ← text
    match UnaryOp.ofSymbol? symbol with
    | none => fail (.unknownOperator symbol) (← span)
    | some op =>
      advance "unary expression" "operand"
      return .unary note op (← expr)

/-- An operator of two words, such as `is not`, stands as two nodes and is refused. -/
def binary (expr : Walk Expr) : Walk Expr := do
  let note ← note
  within "binary expression" do
    let left ← expr
    advance "binary expression" "operator"
    let opSpan ← span
    let symbol ← text
    advance "binary expression" "right operand"
    if ["not", "in"].contains (← kind) then
      let second ← text
      fail (.unsupported s!"operator '{symbol} {second}' is not supported") opSpan
    else
      match BinaryOp.ofSymbol? symbol with
      | none => fail (.unknownOperator symbol) opSpan
      | some op => return .binary note op left (← expr)

def parenthesized (expr : Walk Expr) : Walk Expr :=
  within "parenthesized expression" do
    expect "(" "parenthesized expression"
    advance "parenthesized expression" "expression"
    expr

def arguments (expr : Walk Expr) : Walk (List Expr) := do
  expect "ArgList" "argument list"
  collect do
    if isBracket (← kind) then return none else return some (← expr)

def member (expr : Walk Expr) : Walk (Expr × String) :=
  within "member expression" do
    let object ← expr
    advance "member expression" "'.'"
    expect "." "member expression"
    advance "member expression" "property name"
    expect "PropertyName" "member expression"
    return (object, ← text)

/-- The call of a name. Some names are built in and take a fixed number of arguments. -/
def callOf (note : Note) (name : String) (args : List Expr) : Except ParseError Expr :=
  let wrongCount (n : Nat) : Except ParseError Expr :=
    .error (.unsupported s!"{name}() takes {n} argument(s), found {args.length}")
  if name = "print" then .ok (.print note args)
  else match Builtin1.ofName? name, Builtin2.ofName? name, args with
    | some fn, _, [arg] => .ok (.builtin1 note fn arg)
    | some _, _, _ => wrongCount 1
    | none, some fn, [left, right] => .ok (.builtin2 note fn left right)
    | none, some _, _ => wrongCount 2
    | none, none, args => .ok (.call note name args)

def call (expr : Walk Expr) : Walk Expr := do
  let note ← note
  within "call expression" do
    match ← kind with
    | "VariableName" =>
      let name ← text
      advance "call expression" "argument list"
      match callOf note name (← arguments expr) with
      | .ok e => return e
      | .error e => fail e note.span
    | "MemberExpression" =>
      let (object, method) ← member expr
      advance "call expression" "argument list"
      return .method note object method (← arguments expr)
    | _ => unexpected "call expression"

/-- Reads an expression whose nodes nest at most `n` deep. -/
def expr : Nat → Walk Expr
  | 0 => unexpected "expression"
  | n + 1 => do
    match ← kind with
    | "Number" => number
    | "Boolean" => boolean
    | "None" => return .literal (← note) .none
    | "VariableName" => return .name (← note) (Name.ofIdent (← text))
    | "UnaryExpression" => unary (expr n)
    | "BinaryExpression" => binary (expr n)
    | "ParenthesizedExpression" => parenthesized (expr n)
    | "CallExpression" => call (expr n)
    | "MemberExpression" =>
      let note ← note
      let (object, field) ← member (expr n)
      return .field note object field
    | _ => unexpected "expression"

end TypedScript.Walk
