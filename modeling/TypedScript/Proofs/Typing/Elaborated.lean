import TypedScript.Lowering.Program
import TypedScript.Typing.Program

/-! # Elaborated programs

What checking leaves behind: every name, call and member of an elaborated program refers to a
definition that fits it. Code is given to elaborated programs only. -/

namespace TypedScript

/-- A class as its users see it. Members with parameters come with their number, the receiver
counted in. -/
structure ClassHead where
  name : String
  fields : List String
  methods : List (String × Nat)
  deriving DecidableEq, Repr

namespace FuncOf

def head (f : FuncDef) : String × Nat := (f.name, f.params.length)

/-- What can be told of a function without its expressions. -/
def outline (f : FuncDef) : String × List Param × List String := (f.name, f.params, f.slots)

end FuncOf

namespace ClassOf

def head (c : ClassDef) : ClassHead where
  name := c.name
  fields := c.fields.map (·.name)
  methods := c.methods.map FuncOf.head

def outline (c : ClassDef) : String × List VarDef × List (String × List Param × List String) :=
  (c.name, c.fields, c.methods.map FuncOf.outline)

end ClassOf

/-- The names that a body may use. -/
structure Vocabulary where
  locals : List String
  globals : List String
  funcs : List (String × Nat)
  classes : List ClassHead
  /-- Whether a result may be returned. -/
  returns : Bool

namespace Vocabulary

def HasVar (v : Vocabulary) (x : String) : Prop := x ∈ v.locals ∨ x ∈ v.globals

/-- Variables are local inside a function and global outside. -/
def Declares (v : Vocabulary) (x : String) : Prop := x ∈ if v.returns then v.locals else v.globals

def HasField (v : Vocabulary) (c field : String) : Prop :=
  ∃ h ∈ v.classes, h.name = c ∧ field ∈ h.fields

def HasMethod (v : Vocabulary) (c method : String) (params : Nat) : Prop :=
  ∃ h ∈ v.classes, h.name = c ∧ (method, params) ∈ h.methods

/-- The class is known, and its constructor, if it has one, takes the receiver alone. -/
def Constructs (v : Vocabulary) (c : String) : Prop :=
  ∃ h ∈ v.classes, h.name = c ∧
    (constructorName ∈ h.methods.map (·.1) → (constructorName, 1) ∈ h.methods)

end Vocabulary

namespace Expr

inductive Elaborated (v : Vocabulary) : Expr → Prop
  | literal {n l} : Elaborated v (literal n l)
  | none {n} : Elaborated v (name n .none)
  | self {n} (known : receiverName ∈ v.locals) : Elaborated v (name n .self)
  | plain {n x} (known : v.HasVar x) : Elaborated v (name n (.plain x))
  | unary {n op e} (he : Elaborated v e) : Elaborated v (unary n op e)
  | binary {n op l r} (hl : Elaborated v l) (hr : Elaborated v r) : Elaborated v (binary n op l r)
  | call {n callee args} (known : (callee, args.length) ∈ v.funcs)
      (hargs : ∀ a ∈ args, Elaborated v a) : Elaborated v (call n callee args)
  | builtin1 {n fn e} (he : Elaborated v e) : Elaborated v (builtin1 n fn e)
  | builtin2 {n fn l r} (hl : Elaborated v l) (hr : Elaborated v r) :
      Elaborated v (builtin2 n fn l r)
  | construct {n c} (known : v.Constructs c) : Elaborated v (construct n c)
  | field {n object c f} (ty : Expr.ty? object = some (.object c)) (known : v.HasField c f)
      (ho : Elaborated v object) : Elaborated v (field n object f)
  | method {n object c m args} (ty : Expr.ty? object = some (.object c))
      (known : v.HasMethod c m (args.length + 1)) (ho : Elaborated v object)
      (hargs : ∀ a ∈ args, Elaborated v a) : Elaborated v (method n object m args)
  | print {n e ty} (hty : Expr.ty? e = some ty) (he : Elaborated v e) :
      Elaborated v (print n [e])

end Expr

namespace Target

inductive Elaborated (v : Vocabulary) : Target → Prop
  | name {x} (known : v.HasVar x) : Elaborated v (name x)
  | field {object c f} (ty : Expr.ty? object = some (.object c)) (known : v.HasField c f)
      (ho : Expr.Elaborated v object) : Elaborated v (field object f)

end Target

namespace Stmt

inductive Elaborated (v : Vocabulary) : Stmt → Prop
  | assign {span target value} (ht : Target.Elaborated v target)
      (hv : Expr.Elaborated v value) : Elaborated v (assign span target value)
  | branch {span condition body elseIf otherwise} (hc : Expr.Elaborated v condition)
      (hb : ∀ s ∈ body, Elaborated v s)
      (hec : ∀ c b, elseIf = some (c, b) → Expr.Elaborated v c)
      (heb : ∀ c b, elseIf = some (c, b) → ∀ s ∈ b, Elaborated v s)
      (ho : ∀ b, otherwise = some b → ∀ s ∈ b, Elaborated v s) :
      Elaborated v (branch span condition body elseIf otherwise)
  | loop {span condition body} (hc : Expr.Elaborated v condition)
      (hb : ∀ s ∈ body, Elaborated v s) : Elaborated v (loop span condition body)
  | pass {span} : Elaborated v (pass span)
  | ret {span value} (inside : v.returns = true) (hv : Expr.Elaborated v value) :
      Elaborated v (ret span value)
  | expr {value} (hv : Expr.Elaborated v value) : Elaborated v (expr value)
  | declare {d} (known : v.HasVar d.name) (hv : Expr.Elaborated v d.value) :
      Elaborated v (declare d)

end Stmt

namespace Program

def globalNames (p : Program) : List String :=
  p.vars.map (·.name) ++ (Stmt.bodyDeclarations p.stmts).map (·.name)

/-- The vocabulary of a function's body; without a function it is that of the statements. -/
def vocabulary (p : Program) (f : Option FuncDef) : Vocabulary where
  locals := (f.map FuncOf.slots).getD []
  globals := p.globalNames
  funcs := p.funcs.map FuncOf.head
  classes := p.classes.map ClassOf.head
  returns := f.isSome

/-- The names under which functions and methods stand in the emitted module. -/
def symbols (p : Program) : List String :=
  p.funcs.map (·.name) ++
    p.classes.flatMap fun c => c.methods.map fun m => Symbol.method c.name m.name

def names (p : Program) : List String :=
  p.globalNames ++ p.classes.map (·.name) ++ p.bodies.flatMap fun f => f.name :: f.slots

/-- No name can be mistaken for one of the module's own. -/
def Dotless (p : Program) : Prop := ∀ x ∈ p.names, '.' ∉ x.toList

instance (p : Program) : Decidable p.Dotless := inferInstanceAs (Decidable (∀ x ∈ p.names, _))

structure Elaborated (p : Program) : Prop where
  classNames : (p.classes.map (·.name)).Nodup
  symbols : (Symbol.hostFunctions ++ p.symbols).Nodup
  receivers : ∀ c ∈ p.classes, ∀ m ∈ c.methods, receiverName ∈ m.params.map (·.name)
  bodies : ∀ f ∈ p.bodies, ∀ s ∈ f.body, s.Elaborated (p.vocabulary (some f))
  stmts : ∀ s ∈ p.stmts, s.Elaborated (p.vocabulary none)

end Program

end TypedScript
