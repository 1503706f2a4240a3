import TypedScript.Code.Builtin
import TypedScript.Layout
import TypedScript.Symbol

/-! # Code of expressions

The code of an expression leaves its value on the stack, except that `None` has no code of its own.
-/

namespace TypedScript

/-- Where code is given: the layouts of the classes, and the names that are local variables; all
other names are global. -/
structure Site where
  layouts : Layouts
  locals : List String
  deriving Repr

namespace Site

def get (s : Site) (name : String) : Instr :=
  if s.locals.contains name then .localGet name else .globalGet name

def set (s : Site) (name : String) : Instr :=
  if s.locals.contains name then .localSet name else .globalSet name

end Site

namespace ClassLayout

/-- Writes the default of a field into the object at the heap pointer. -/
def initField (f : FieldSlot) : List Instr :=
  [.globalGet Symbol.heapPointer, .const (Int32.ofNat f.offset), .numeric .add,
    .const f.default.word, .store]

/-- Takes the object's room off the heap and leaves its address on the stack. -/
def allocate (l : ClassLayout) : List Instr :=
  l.fields.flatMap initField ++
    [.globalGet Symbol.heapPointer, .globalGet Symbol.heapPointer, .const (Int32.ofNat l.size),
      .numeric .add, .globalSet Symbol.heapPointer]

end ClassLayout

/-- Code whose value is used; where there is no code the value is zero. -/
def orZero (code : List Instr) : List Instr := if code.isEmpty then [.const 0] else code

namespace Expr

def checkedType (e : Expr) : Lowered Ty :=
  match e.ty? with
  | some ty => .ok ty
  | none => refuse .missingType e.span

def receiverClass (object : Expr) : Lowered String := do
  match ← object.checkedType with
  | .object c => .ok c
  | actual => refuse (.receiverNotObject actual) object.span

def printer (ty : Ty) (span : Span) : Lowered String :=
  match ty with
  | .int => .ok Symbol.printNum
  | .bool => .ok Symbol.printBool
  | .none => .ok Symbol.printNone
  | .object c => refuse (.unsupportedPrint (.object c)) span

def fieldAddress (object : List Instr) (f : FieldSlot) : List Instr :=
  object ++ [.const (Int32.ofNat f.offset), .numeric .add]

mutual
def lower (s : Site) : Expr → Lowered (List Instr)
  | literal _ .none | name _ .none => .ok []
  | literal _ l => .ok [.const l.word]
  | name _ .self => .ok [s.get receiverName]
  | name _ (.plain ident) => .ok [s.get ident]
  | unary _ .not e => return orZero (← lower s e) ++ [.call Symbol.notOperator]
  | unary _ .neg e => return [.const 0] ++ orZero (← lower s e) ++ [.numeric .sub]
  | binary _ op l r => do
    let l ← lower s l
    let r ← lower s r
    return orZero l ++ orZero r ++ [.numeric op.numeric]
  | call _ callee args => return (← lowerArgs s args) ++ [.call callee]
  | builtin1 _ fn e => return orZero (← lower s e) ++ [.call fn.builtin.symbol]
  | builtin2 _ fn l r => do
    let l ← lower s l
    let r ← lower s r
    return orZero l ++ orZero r ++ [.call fn.builtin.symbol]
  | construct n c => return (← s.layouts.get c n.span).allocate
  | field n object f => do
    let c ← object.receiverClass
    let slot ← s.layouts.field c f n.span
    return fieldAddress (orZero (← lower s object)) slot ++ [.load]
  | method _ object m args => do
    let c ← object.receiverClass
    let object ← lower s object
    let args ← lowerArgs s args
    return orZero object ++ args ++ [.call (Symbol.method c m)]
  | print n [e] => do
    let target ← printer (← e.checkedType) n.span
    return orZero (← lower s e) ++ [.call target]
  | print n args => refuse (.unsupported s!"print with {args.length} arguments") n.span

def lowerArgs (s : Site) : List Expr → Lowered (List Instr)
  | [] => .ok []
  | e :: es => do
    let e ← lower s e
    let es ← lowerArgs s es
    return orZero e ++ es
end

/-- The code of an expression whose value is used. -/
def lowerValue (s : Site) (e : Expr) : Lowered (List Instr) := return orZero (← e.lower s)

end Expr

end TypedScript
