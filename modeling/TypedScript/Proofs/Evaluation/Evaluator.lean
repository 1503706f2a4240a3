import TypedScript.Host
import TypedScript.Lowering.Program
import TypedScript.Memory
import TypedScript.Proofs.Syntax
import Mathlib.Algebra.Group.Int.Defs
import Mathlib.Algebra.Group.Nat.Defs
import Mathlib.Logic.Function.Basic

/-! # Direct evaluation

What a checked program means, told on its expressions and statements without any code. Evaluation
may go on for ever, so it is given fuel, which calls and further rounds of loops use up. -/

namespace TypedScript

abbrev Valuation := String → Word

/-- What a program works on. -/
structure World (σ : Type) where
  globals : Valuation
  /-- The first free address. -/
  heap : Word
  memory : Memory
  host : σ

inductive Stop
  | trap (t : Trap)
  | spent
  /-- The program makes no sense here; no checked program gets there. -/
  | stuck

abbrev Eval (σ : Type) := EStateM Stop (World σ)

inductive Flow
  | next (locals : Valuation)
  | ret (w : Word)

namespace Eval

variable {σ α : Type}

def lift (r : Except Trap α) : Eval σ α :=
  match r with
  | .ok a => return a
  | .error t => throw (.trap t)

/-- What a checked program is known to have. -/
def known (a : Option α) : Eval σ α :=
  match a with
  | some a => return a
  | none => throw .stuck

/-- A variable is local if it is one of the names, and else global. -/
def getVar (slots : List String) (l : Valuation) (x : String) : Eval σ Word := do
  if x ∈ slots then return l x else return (← get).globals x

def setVar (slots : List String) (l : Valuation) (x : String) (w : Word) : Eval σ Valuation := do
  if x ∈ slots then return Function.update l x w
  else
    modify fun s => { s with globals := Function.update s.globals x w }
    return l

def load (a : Word) : Eval σ Word := do
  lift ((← get).memory.load a)

/-- A word that is stored outside of memory, at or above the heap pointer, is out of memory. -/
def store (a w : Word) : Eval σ Unit := do
  let s ← get
  match s.memory.store a w with
  | .ok memory => set { s with memory }
  | .error t => throw (.trap (if s.heap ≤ a then .outOfMemory s.heap s.memory.size else t))

end Eval

/-- Stores words one after the other, up to the first that does not lie in memory. -/
def Memory.fill (m : Memory) (a : Word) : List Word → Memory
  | [] => m
  | w :: ws =>
    match m.store a w with
    | .ok m => m.fill (a + Int32.ofNat wordSize) ws
    | .error _ => m

namespace Eval

variable {σ : Type}

/-- Takes room for words off the heap and fills it. The room has to lie in memory as a whole. -/
def allocate (ws : List Word) : Eval σ Word := do
  let s ← get
  set { s with memory := s.memory.fill s.heap ws }
  if s.heap.address + ws.length * wordSize ≤ s.memory.size then
    modify fun s => { s with heap := s.heap + Int32.ofNat (ws.length * wordSize) }
    return s.heap
  else throw (.trap (.outOfMemory s.heap s.memory.size))

/-- Calls the host. What it did stays done even if it fails. -/
def hostCall (h : Host σ) (f : HostFunction) (w : Word) : Eval σ Word := do
  let (r, host) := h.call f w (← get).host
  modify fun s => { s with host }
  lift r

end Eval

namespace BinaryOp

/-- Numbers wrap around, and quotients are rounded toward zero. -/
def apply (op : BinaryOp) (l r : Word) : Except Trap Word :=
  match op with
  | .add => .ok (Int32.ofInt (l.toInt + r.toInt))
  | .sub => .ok (Int32.ofInt (l.toInt - r.toInt))
  | .mul => .ok (Int32.ofInt (l.toInt * r.toInt))
  | .floorDiv =>
    if r = 0 then .error .divisionByZero
    else if l = Int32.minValue ∧ r = -1 then .error .integerOverflow
    else .ok (Int32.ofInt (l.toInt.tdiv r.toInt))
  | .mod =>
    if r = 0 then .error .divisionByZero else .ok (Int32.ofInt (l.toInt.tmod r.toInt))
  | .less => .ok (Word.ofBool (l.toInt < r.toInt))
  | .lessEqual => .ok (Word.ofBool (l.toInt ≤ r.toInt))
  | .greater => .ok (Word.ofBool (r.toInt < l.toInt))
  | .greaterEqual => .ok (Word.ofBool (r.toInt ≤ l.toInt))
  | .equal | .is => .ok (Word.ofBool (l = r))
  | .notEqual => .ok (Word.ofBool (l ≠ r))

end BinaryOp

namespace Builtin1

def apply : Builtin1 → Word → Word
  | .abs, w => Int32.ofInt w.toInt.natAbs

end Builtin1

namespace Builtin2

/-- A power with a negative exponent is one. -/
def apply : Builtin2 → Word → Word → Word
  | .max, l, r => Int32.ofInt (Max.max l.toInt r.toInt)
  | .min, l, r => Int32.ofInt (Min.min l.toInt r.toInt)
  | .pow, l, r => Int32.ofInt (l.toInt ^ r.toInt.toNat)

end Builtin2

namespace Ty

def printer? : Ty → Option HostFunction
  | .int => some .printNum
  | .bool => some .printBool
  | .none => some .printNone
  | .object _ => Option.none

end Ty

namespace Program

def function? (p : Program) (f : String) : Option FuncDef := p.funcs.find? (·.name == f)

def class? (p : Program) (c : String) : Option ClassDef := p.classes.find? (·.name == c)

def method? (p : Program) (c m : String) : Option FuncDef :=
  (p.class? c).bind fun d => d.methods.find? (·.name == m)

def offset? (p : Program) (c f : String) : Option Word :=
  (p.class? c).bind fun d =>
    (d.fields.findIdx? (·.name == f)).map fun i => Int32.ofNat (i * wordSize)

end Program

def Expr.class? (e : Expr) : Option String := e.ty?.bind Ty.className?

/-- The values that the names of a body have at its start; of two values of one name the later
counts. -/
def Valuation.ofList (entries : List (String × Word)) : Valuation :=
  entries.foldl (fun l e => Function.update l e.1 e.2) fun _ => 0

structure Evaluator (σ : Type) where
  program : Program
  host : Host σ
  /-- Runs statements, in which the given names are local, with the fuel that is left. -/
  run : List String → List Stmt → Valuation → Eval σ Flow

namespace Evaluator

variable {σ : Type}

/-- A body that runs to its end gives zero back, and a constructor its receiver. -/
def call (v : Evaluator σ) (className : Option String) (f : FuncDef) (args : List Word) :
    Eval σ Word := do
  let locals := Valuation.ofList
    ((f.params.map (·.name)).zip args ++ f.declarations.map fun d => (d.name, 0))
  match ← v.run f.slots f.body locals with
  | .ret w => return w
  | .next l =>
    return if className.isSome && f.name == constructorName then l receiverName else 0

end Evaluator

section

variable {σ : Type} (v : Evaluator σ) (slots : List String) (l : Valuation)

namespace Expr

mutual
def eval : Expr → Eval σ Word
  | literal _ value => return value.word
  | name _ .none => return 0
  | name _ .self => Eval.getVar slots l receiverName
  | name _ (.plain x) => Eval.getVar slots l x
  | unary _ .not e => do Eval.hostCall v.host .notOperator (← eval e)
  | unary _ .neg e => return Int32.ofInt (-(← eval e).toInt)
  | binary _ op left right => do
    let a ← eval left
    let b ← eval right
    Eval.lift (op.apply a b)
  | call _ callee args => do
    let f ← Eval.known (v.program.function? callee)
    v.call none f (← evalArgs args)
  | builtin1 _ fn e => return fn.apply (← eval e)
  | builtin2 _ fn left right => do
    let a ← eval left
    let b ← eval right
    return fn.apply a b
  | construct _ c => do
    let d ← Eval.known (v.program.class? c)
    Eval.allocate (d.fields.map (·.value.word))
  | field _ object f => do
    let offset ← Eval.known (object.class?.bind (v.program.offset? · f))
    Eval.load ((← eval object) + offset)
  | method _ object m args => do
    let c ← Eval.known object.class?
    let f ← Eval.known (v.program.method? c m)
    let self ← eval object
    v.call (some c) f (self :: (← evalArgs args))
  | print _ [e] => do
    let fn ← Eval.known (e.ty?.bind Ty.printer?)
    Eval.hostCall v.host fn (← eval e)
  | print _ _ => throw .stuck

/-- Arguments are evaluated from left to right. -/
def evalArgs : List Expr → Eval σ (List Word)
  | [] => return []
  | e :: es => do
    let w ← eval e
    return w :: (← evalArgs es)
end

/-- `None` is zero where its value is used. -/
theorem eval_of_isNone {e : Expr} (h : e.isNone = true) : eval v slots l e = return 0 := by
  match e, h with
  | literal _ .none, _ =>
    rw [eval]
    rfl
  | name _ .none, _ => rw [eval]

end Expr

end

section

variable {σ : Type} (v : Evaluator σ) (slots : List String)

/-- `None` is not stored. An object that is constructed here is stored, handed to its constructor if
it has one, and replaced by what that gives back. -/
def Evaluator.storeName (l : Valuation) (x : String) (value : Expr) : Eval σ Valuation :=
  match value with
  | .construct n c => do
    let object ← Expr.eval v slots l (.construct n c)
    let l ← Eval.setVar slots l x object
    match v.program.method? c constructorName with
    | some f => Eval.setVar slots l x (← v.call (some c) f [object])
    | none => return l
  | value => do
    if value.isNone then return l
    else Eval.setVar slots l x (← value.eval v slots l)

theorem Evaluator.storeName_of_isNone (l : Valuation) (x : String) {value : Expr}
    (h : value.isNone = true) : v.storeName slots l x value = return l := by
  match value, h with
  | .literal _ .none, _ => rfl
  | .name _ .none, _ => rfl

theorem Evaluator.storeName_value (l : Valuation) (x : String) {value : Expr}
    (hn : value.isNone = false) (hc : ∀ n c, value ≠ .construct n c) :
    v.storeName slots l x value = value.eval v slots l >>= Eval.setVar slots l x := by
  rw [storeName.eq_def]
  split
  · next n c => exact absurd rfl (hc n c)
  · rw [hn]
    rfl

namespace Stmt

mutual
def eval (l : Valuation) : Stmt → Eval σ Flow
  | assign _ (.name x) value => return .next (← v.storeName slots l x value)
  | assign _ (.field object f) value => do
    let offset ← Eval.known (object.class?.bind (v.program.offset? · f))
    let a ← object.eval v slots l
    Eval.store (a + offset) (← value.eval v slots l)
    return .next l
  | declare d => return .next (← v.storeName slots l d.name d.value)
  | branch _ condition body elseIf otherwise => do
    if (← condition.eval v slots l) ≠ 0 then evalBody l body
    else evalElseIf l (evalOtherwise l otherwise) elseIf
  | loop span condition body => do
    if (← condition.eval v slots l) = 0 then return .next l
    else
      match ← evalBody l body with
      | .ret w => return .ret w
      | .next l => v.run slots [loop span condition body] l
  | pass _ => return .next l
  | ret _ value => return .ret (← value.eval v slots l)
  | expr value => do
    let _ ← value.eval v slots l
    return .next l
  | func _ | cls _ => throw .stuck

def evalBody (l : Valuation) : List Stmt → Eval σ Flow
  | [] => return .next l
  | s :: ss => do
    match ← eval l s with
    | .ret w => return .ret w
    | .next l => evalBody l ss

/-- The second arm of a branch, in front of the last one. -/
def evalElseIf (l : Valuation) (otherwise : Eval σ Flow) : Option (Expr × List Stmt) → Eval σ Flow
  | none => otherwise
  | some (condition, body) => do
    if (← condition.eval v slots l) ≠ 0 then evalBody l body else otherwise

def evalOtherwise (l : Valuation) : Option (List Stmt) → Eval σ Flow
  | none => return .next l
  | some body => evalBody l body
end

/-- A variable that is assigned `None` keeps its value. -/
theorem eval_assign_of_isNone {span : Span} {x : String} {value : Expr} (l : Valuation)
    (h : value.isNone = true) : eval v slots l (assign span (.name x) value) = return .next l := by
  rw [eval, v.storeName_of_isNone slots l x h, pure_bind]

theorem evalBody_singleton (l : Valuation) (stmt : Stmt) :
    evalBody v slots l [stmt] = eval v slots l stmt := by
  funext w
  simp only [evalBody, Bind.bind, EStateM.bind]
  cases eval v slots l stmt w with
  | ok flow w' => cases flow <;> rfl
  | error e w' => rfl

end Stmt

end

namespace Program

variable {σ : Type}

def runBody (p : Program) (host : Host σ) :
    Nat → List String → List Stmt → Valuation → Eval σ Flow
  | 0, _, _, _ => throw .spent
  | fuel + 1, slots, body, l => Stmt.evalBody ⟨p, host, p.runBody host fuel⟩ slots l body

/-- Evaluation in which calls and further rounds of loops have the given fuel. -/
def evaluator (p : Program) (host : Host σ) (fuel : Nat) : Evaluator σ :=
  ⟨p, host, p.runBody host fuel⟩

/-- Sets a global variable; it holds `None` from the start. -/
def initVar (d : VarDef) : Eval σ Unit :=
  if d.value = .none then return
  else modify fun s => { s with globals := Function.update s.globals d.name d.value.word }

/-- The value of a program is that of the bare expression at its end. -/
def eval (p : Program) (host : Host σ) (fuel : Nat) : Eval σ (Option Word) := do
  p.vars.forM initVar
  match p.stmts.getLast? with
  | some (.expr e) =>
    let _ ← p.runBody host fuel [] p.stmts.dropLast fun _ => 0
    return some (← e.eval (p.evaluator host fuel) [] fun _ => 0)
  | _ =>
    let _ ← p.runBody host fuel [] p.stmts fun _ => 0
    return none

def initialWorld (p : Program) (o : Options) (memory : Memory) (host : σ) : World σ where
  globals := Valuation.ofList
    (p.vars.map (fun d => (d.name, o.initial d.ty)) ++
      (Stmt.bodyDeclarations p.stmts).map fun d => (d.name, o.initial d.ty))
  heap := o.heapBase
  memory := memory
  host := host

def evalFrom (p : Program) (o : Options) (host : Host σ) (memory : Memory) (s : σ) (fuel : Nat) :
    EStateM.Result Stop (World σ) (Option Word) :=
  p.eval host fuel (p.initialWorld o memory s)

end Program

/-- An evaluation that ends with a value, with none or with a trap. -/
def Eval.outcome {σ : Type} (r : Except Trap (Option Word)) (w : World σ) :
    EStateM.Result Stop (World σ) (Option Word) :=
  match r with
  | .ok v => .ok v w
  | .error t => .error (.trap t) w

end TypedScript
