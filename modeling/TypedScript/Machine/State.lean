import TypedScript.Bindings
import TypedScript.Code.Module
import TypedScript.Host
import TypedScript.Memory

/-! # Machine states

A call has a frame with its own stack, variables and open bodies. Global variables, memory and the
host outlive the calls.
-/

namespace TypedScript

/-- A body in progress: the instructions that are left, and where a branch to it goes on if it is a
loop. -/
structure Label where
  rest : List Instr
  again : Option (List Instr)
  deriving Repr

structure Frame where
  func : Func
  locals : Bindings Word
  /-- The operands, the topmost first. -/
  stack : List Word
  /-- The open bodies, the innermost first. -/
  labels : List Label
  deriving Repr

namespace Frame

/-- A call binds its arguments to the parameters; local variables start at zero. -/
def enter (f : Func) (args : List Word) : Frame where
  func := f
  locals := Bindings.ofList (f.params.zip args ++ f.locals.map (·, 0))
  stack := []
  labels := [⟨f.body, none⟩]

def push (f : Frame) (w : Word) : Frame := { f with stack := w :: f.stack }

def underflow (f : Frame) : Trap := .stackUnderflow f.func.name

def pop (f : Frame) : Except Trap (Word × Frame) :=
  match f.stack with
  | w :: ws => .ok (w, { f with stack := ws })
  | [] => .error f.underflow

/-- Takes arguments off the stack; the last one is on top. -/
def popArgs (f : Frame) (n : Nat) : Except Trap (List Word × Frame) :=
  if n ≤ f.stack.length then
    .ok ((f.stack.take n).reverse, { f with stack := f.stack.drop n })
  else .error f.underflow

def getLocal (f : Frame) (name : String) : Except Trap Word :=
  match f.locals.find? name with
  | some w => .ok w
  | none => .error (.unknownLocal name f.func.name)

def setLocal (f : Frame) (name : String) (w : Word) : Except Trap Frame :=
  if f.locals.contains name then .ok { f with locals := f.locals.insert name w }
  else .error (.unknownLocal name f.func.name)

def openBlock (f : Frame) (body : List Instr) : Frame :=
  { f with labels := ⟨body, none⟩ :: f.labels }

def openLoop (f : Frame) (body : List Instr) : Frame :=
  { f with labels := ⟨body, some body⟩ :: f.labels }

/-- Branches past `depth` open bodies: a loop starts over, and any other body is left. -/
def branch (f : Frame) (depth : Nat) : Except Trap Frame :=
  match f.labels.drop depth with
  | [] => .error (.invalidBranch (depth - (f.labels.length - 1)))
  | ⟨_, some body⟩ :: outer => .ok { f with labels := ⟨body, some body⟩ :: outer }
  | ⟨_, none⟩ :: outer => .ok { f with labels := outer }

def result (f : Frame) : Except Trap (Option Word) :=
  if f.func.hasResult then
    match f.stack with
    | w :: _ => .ok (some w)
    | [] => .error f.underflow
  else .ok none

def receive (f : Frame) : Option Word → Frame
  | some w => f.push w
  | none => f

end Frame

/-- What outlives a call. -/
structure Store (σ : Type) where
  globals : Bindings Word
  memory : Memory
  host : σ
  deriving Repr

structure Config where
  /-- The size of the memory in pages; without it the module decides. -/
  memoryPages : Option Nat := none
  /-- How many calls may be open at once. -/
  maxCallDepth : Nat := 512
  deriving DecidableEq, Repr

namespace Store

variable {σ : Type}

def initial (m : Module) (c : Config) (host : σ) : Store σ where
  globals := Bindings.ofList (m.globals.map fun g => (g.name, g.init))
  memory := Memory.ofPages ((c.memoryPages.or m.memoryPages?).getD 0)
  host := host

def getGlobal (s : Store σ) (name : String) : Except Trap Word :=
  match s.globals.find? name with
  | some w => .ok w
  | none => .error (.unknownGlobal name)

/-- The heap pointer may not be moved past the end of memory. -/
def setGlobal (s : Store σ) (name : String) (w : Word) : Except Trap (Store σ) :=
  if name = Symbol.heapPointer ∧ s.memory.size < w.address then
    .error (.outOfMemory w s.memory.size)
  else if s.globals.contains name then .ok { s with globals := s.globals.insert name w }
  else .error (.unknownGlobal name)

end Store

structure State (σ : Type) where
  /-- The open calls, the innermost first. -/
  frames : List Frame
  /-- How many more calls may be opened. -/
  room : Nat
  store : Store σ
  deriving Repr

end TypedScript
