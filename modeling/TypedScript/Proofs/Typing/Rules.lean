import TypedScript.Proofs.Typing.Elaborated
import Mathlib.Data.List.Forall2

/-! # The typing rules

When a program is well typed, said without saying how to find out. What a name stands for depends
on the body that it occurs in and on the variables that are declared before it there. -/

namespace TypedScript

namespace Ty

/-- A slot of the first type may be given a value of the second. -/
inductive Takes : Ty → Ty → Prop
  | same {ty} : Takes ty ty
  | none {c} : Takes (.object c) .none

/-- A declared variable may moreover be given an object of any class. -/
inductive Receives : Ty → Ty → Prop
  | taken {slot actual} (h : Takes slot actual) : Receives slot actual
  | object {c c'} : Receives (.object c) (.object c')

/-- If the type names a class, it is a class of the program. -/
def Known (p : Program) (ty : Ty) : Prop := ∀ c, ty = .object c → c ∈ p.classes.map (·.name)

end Ty

inductive Literal.HasType : Literal → Ty → Prop
  | number {n} : HasType (.number n) .int
  | bool {b} : HasType (.bool b) .bool
  | none : HasType .none .none

/-- Statements that have their variables in common: those of a function, of a method of a class, or
those of the program itself. -/
inductive Body
  | main
  | func (f : FuncDef)
  | method (c : ClassDef) (m : FuncDef)

namespace Body

/-- The first parameter of a method is the receiver, which has the type of its class. -/
def params : Body → List (String × Ty)
  | main => []
  | func f => f.params.map fun q => (q.name, q.ty)
  | method c m => (receiverName, .object c.name) :: m.params.tail.map fun q => (q.name, q.ty)

def receiver? : Body → Option String
  | method c _ => some c.name
  | main | func _ => none

/-- The type that a `return` has to give. -/
def result? : Body → Option Ty
  | main => none
  | func f | method _ f => some f.ret

end Body

/-- What a plain name stands for behind the declarations `before` of its body: a parameter, else a
variable declared there, else a global variable. -/
inductive Denotes (p : Program) (b : Body) (before : List Declaration) (x : String) : Ty → Prop
  | param {ty} (h : (x, ty) ∈ b.params) : Denotes p b before x ty
  | declared {d} (h : d ∈ before) (hx : d.name = x) (hp : x ∉ b.params.map (·.1)) :
      Denotes p b before x d.ty
  | global {d} (h : d ∈ p.vars) (hx : d.name = x) (hp : x ∉ b.params.map (·.1))
      (hb : x ∉ before.map (·.name)) : Denotes p b before x d.ty

/-- The class can be constructed: its constructor, if it has one, takes the receiver alone. -/
def Program.Constructs (p : Program) (x : String) : Prop :=
  ∃ c ∈ p.classes, c.name = x ∧ ∀ m ∈ c.methods, m.name = constructorName → m.params.tail = []

inductive Expr.HasType (p : Program) (b : Body) (before : List Declaration) : Expr → Ty → Prop
  | literal {n l ty} (h : l.HasType ty) : HasType p b before (.literal n l) ty
  | none {n} : HasType p b before (.name n .none) .none
  | self {n c} (h : b.receiver? = some c) : HasType p b before (.name n .self) (.object c)
  | plain {n x ty} (h : Denotes p b before x ty) : HasType p b before (.name n (.plain x)) ty
  | not {n e} (he : HasType p b before e .bool) : HasType p b before (.unary n .not e) .bool
  | neg {n e} (he : HasType p b before e .int) : HasType p b before (.unary n .neg e) .int
  | arithmetic {n op l r} (hop : op ∈ [.add, .sub, .mul, .floorDiv, .mod])
      (hl : HasType p b before l .int) (hr : HasType p b before r .int) :
      HasType p b before (.binary n op l r) .int
  | comparison {n op l r} (hop : op ∈ [.less, .lessEqual, .greater, .greaterEqual])
      (hl : HasType p b before l .int) (hr : HasType p b before r .int) :
      HasType p b before (.binary n op l r) .bool
  | equality {n op l r ty} (hop : op ∈ [.equal, .notEqual])
      (hl : HasType p b before l ty) (hr : HasType p b before r ty) :
      HasType p b before (.binary n op l r) .bool
  | is {n l r} (hl : HasType p b before l .none) (hr : HasType p b before r .none) :
      HasType p b before (.binary n .is l r) .bool
  | call {n f args} (hf : f ∈ p.funcs) (hc : f.name ∉ p.classes.map (·.name))
      (hargs : List.Forall₂ (HasType p b before) args (f.params.map (·.ty))) :
      HasType p b before (.call n f.name args) f.ret
  /-- A call that names a class is a construction. -/
  | constructCall {n c} (h : p.Constructs c) : HasType p b before (.call n c []) (.object c)
  | construct {n c} (h : p.Constructs c) : HasType p b before (.construct n c) (.object c)
  | builtin1 {n fn e} (he : HasType p b before e .int) :
      HasType p b before (.builtin1 n fn e) .int
  | builtin2 {n fn l r} (hl : HasType p b before l .int) (hr : HasType p b before r .int) :
      HasType p b before (.builtin2 n fn l r) .int
  | field {n object c d} (hc : c ∈ p.classes) (hd : d ∈ c.fields)
      (ho : HasType p b before object (.object c.name)) :
      HasType p b before (.field n object d.name) d.ty
  | method {n object c m args} (hc : c ∈ p.classes) (hm : m ∈ c.methods)
      (ho : HasType p b before object (.object c.name))
      (hargs : List.Forall₂ (HasType p b before) args (m.params.tail.map (·.ty))) :
      HasType p b before (.method n object m.name args) m.ret
  | print {n e ty} (he : HasType p b before e ty) : HasType p b before (.print n [e]) ty

namespace Stmt

open TypedScript.Expr (HasType)

mutual
/-- No rule lets a definition stand among statements. -/
inductive Typed (p : Program) (b : Body) : List Declaration → Stmt → Prop
  | assignName {before span x value slot ty} (hx : Denotes p b before x slot)
      (hv : HasType p b before value ty) (h : slot.Takes ty) :
      Typed p b before (.assign span (.name x) value)
  | assignField {before span object c d value ty} (hc : c ∈ p.classes) (hd : d ∈ c.fields)
      (ho : HasType p b before object (.object c.name)) (hv : HasType p b before value ty)
      (h : d.ty.Takes ty) : Typed p b before (.assign span (.field object d.name) value)
  | branch {before span condition body elseIf otherwise}
      (hc : HasType p b before condition .bool) (hb : BodyTyped p b before body)
      (he : ElseIfTyped p b (before ++ bodyDeclarations body) elseIf)
      (ho : OtherwiseTyped p b
        (before ++ bodyDeclarations body ++ elseIfDeclarations elseIf) otherwise) :
      Typed p b before (.branch span condition body elseIf otherwise)
  | loop {before span condition body} (hc : HasType p b before condition .bool)
      (hb : BodyTyped p b before body) : Typed p b before (.loop span condition body)
  | pass {before span} : Typed p b before (.pass span)
  | ret {before span value result ty} (hr : b.result? = some result)
      (hv : HasType p b before value ty) (h : result.Takes ty) :
      Typed p b before (.ret span value)
  | expr {before value ty} (hv : HasType p b before value ty) : Typed p b before (.expr value)
  | declare {before d ty} (hk : d.ty.Known p) (hv : HasType p b before d.value ty)
      (h : d.ty.Receives ty) : Typed p b before (.declare d)

/-- Each statement sees what the statements before it declare, at whatever depth. -/
inductive BodyTyped (p : Program) (b : Body) : List Declaration → List Stmt → Prop
  | nil {before} : BodyTyped p b before []
  | cons {before s ss} (hs : Typed p b before s)
      (hss : BodyTyped p b (before ++ s.declarations) ss) :
      BodyTyped p b before (s :: ss)

inductive ElseIfTyped (p : Program) (b : Body) :
    List Declaration → Option (Expr × List Stmt) → Prop
  | none {before} : ElseIfTyped p b before none
  | some {before condition body} (hc : HasType p b before condition .bool)
      (hb : BodyTyped p b before body) : ElseIfTyped p b before (some (condition, body))

inductive OtherwiseTyped (p : Program) (b : Body) : List Declaration → Option (List Stmt) → Prop
  | none {before} : OtherwiseTyped p b before none
  | some {before body} (hb : BodyTyped p b before body) :
      OtherwiseTyped p b before (some body)
end

/-- A `return` stands in the statement, on whatever branch. -/
inductive Returns : Stmt → Prop
  | ret {span value} : Returns (.ret span value)
  | body {span condition body elseIf otherwise s} (h : s ∈ body) (hs : Returns s) :
      Returns (.branch span condition body elseIf otherwise)
  | elseIf {span condition body c ss otherwise s} (h : s ∈ ss) (hs : Returns s) :
      Returns (.branch span condition body (some (c, ss)) otherwise)
  | otherwise {span condition body elseIf ss s} (h : s ∈ ss) (hs : Returns s) :
      Returns (.branch span condition body elseIf (some ss))
  | loop {span condition body s} (h : s ∈ body) (hs : Returns s) :
      Returns (.loop span condition body)

end Stmt

namespace Body

def stmts (p : Program) : Body → List Stmt
  | main => p.stmts
  | func f | method _ f => f.body

/-- The names that the declarations of the body may not take again. -/
def taken (p : Program) : Body → List String
  | main => p.vars.map (·.name)
  | b => b.params.map (·.1)

/-- A constructor, and what returns `None`, need no `return`. -/
def MayFallOff : Body → Prop
  | main => True
  | func f => f.ret = .none
  | method _ m => m.ret = .none ∨ m.name = constructorName

structure WellTyped (p : Program) (b : Body) : Prop where
  names : (b.taken p ++ (Stmt.bodyDeclarations (b.stmts p)).map (·.name)).Nodup
  stmts : Stmt.BodyTyped p b [] (b.stmts p)
  returns : b.MayFallOff ∨ ∃ s ∈ b.stmts p, s.Returns

end Body

structure VarDef.WellTyped (p : Program) (d : VarDef) : Prop where
  known : d.ty.Known p
  value : ∃ ty, d.value.HasType ty ∧ d.ty.Takes ty

structure FuncOf.WellDeclared (p : Program) (f : FuncDef) : Prop where
  params : ∀ q ∈ f.params, q.ty.Known p
  ret : f.ret.Known p

/-- A method of the class that is named. The declared type of the receiver does not matter. -/
structure FuncOf.WellDeclaredIn (p : Program) (c : String) (m : FuncDef) : Prop where
  receiver : ∃ q, m.params.head? = some q ∧ q.name = receiverName
  params : ∀ q ∈ m.params.tail, q.ty.Known p
  ret : m.ret.Known p
  constructor : m.name = constructorName → m.ret = .object c

structure ClassOf.WellDeclared (p : Program) (c : ClassDef) : Prop where
  fieldNames : (c.fields.map (·.name)).Nodup
  fields : ∀ d ∈ c.fields, d.WellTyped p
  methods : ∀ m ∈ c.methods, m.WellDeclaredIn p c.name

namespace Program

/-- The definitions of a program fit together. Functions and methods stand in one module with the
functions of the host, so no two of them may come out under one name. -/
structure WellDeclared (p : Program) : Prop where
  classNames : (p.classes.map (·.name)).Nodup
  symbols : (Symbol.hostFunctions ++ p.symbols).Nodup
  varNames : (p.vars.map (·.name)).Nodup
  classes : ∀ c ∈ p.classes, c.WellDeclared p
  funcs : ∀ f ∈ p.funcs, f.WellDeclared p
  vars : ∀ d ∈ p.vars, d.WellTyped p

structure WellTyped (p : Program) : Prop extends WellDeclared p where
  functionBodies : ∀ f ∈ p.funcs, (Body.func f).WellTyped p
  methodBodies : ∀ c ∈ p.classes, ∀ m ∈ c.methods, (Body.method c m).WellTyped p
  statements : Body.main.WellTyped p

end Program

end TypedScript
