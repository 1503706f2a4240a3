import TypedScript.Machine.State

/-! # Machine steps -/

namespace TypedScript

namespace NumericOp

def eval (op : NumericOp) (left right : Word) : Except Trap Word :=
  match op with
  | .add => .ok (left + right)
  | .sub => .ok (left - right)
  | .mul => .ok (left * right)
  | .divS =>
    if right = 0 then .error .divisionByZero
    else if left = Int32.minValue ∧ right = -1 then .error .integerOverflow
    else .ok (left / right)
  | .remS => if right = 0 then .error .divisionByZero else .ok (left % right)
  | .eq => .ok (Word.ofBool (left = right))
  | .ne => .ok (Word.ofBool (left ≠ right))
  | .ltS => .ok (Word.ofBool (left < right))
  | .leS => .ok (Word.ofBool (left ≤ right))
  | .gtS => .ok (Word.ofBool (left > right))
  | .geS => .ok (Word.ofBool (left ≥ right))

end NumericOp

structure Machine (σ : Type) where
  module : Module
  host : Host σ
  maxCallDepth : Nat

inductive Action
  | resume (f : Frame)
  | call (caller : Frame) (callee : Func) (args : List Word)

/-- How a step ends: in a further state, or with a result and what is left of the store. -/
inductive Progress (σ : Type)
  | next (s : State σ)
  | halt (result : Except Trap (Option Word)) (store : Store σ)

abbrev Exec (σ : Type) := EStateM Trap (Store σ)

namespace Exec

variable {σ α : Type}

def lift (r : Except Trap α) : Exec σ α := fun s =>
  match r with
  | .ok a => .ok a s
  | .error t => .error t s

def update (r : Store σ → Except Trap (Store σ)) : Exec σ Unit := fun s =>
  match r s with
  | .ok s => .ok () s
  | .error t => .error t s

/-- A store that misses memory at or above the heap pointer is an allocation that does not fit. -/
def storeWord (a w : Word) : Exec σ Unit := fun s =>
  match Memory.write a w s.memory, s.globals.find? Symbol.heapPointer with
  | .ok _ memory, _ => .ok () { s with memory }
  | .error t memory, some heap =>
    .error (if heap ≤ a then .outOfMemory heap s.memory.size else t) { s with memory }
  | .error t memory, none => .error t { s with memory }

end Exec

namespace Machine

variable {σ : Type}

/-- Of functions with one name the last one counts. -/
def function? (m : Machine σ) (name : String) : Option Func :=
  m.module.functions.foldl (fun found f => if f.name == name then some f else found) none

/-- Of functions exported under one name the last one counts. -/
def export? (m : Machine σ) (name : String) : Option Func :=
  m.module.functions.foldl
    (fun found f => if f.exportName == some name then some f else found) none

def import? (m : Machine σ) (name : String) : Option HostFunction :=
  if m.module.importsFunc name then HostFunction.ofName? name else none

/-- Calls the host. What it did stays done even if it fails. -/
def callHost (m : Machine σ) (f : HostFunction) (arg : Word) : Exec σ Word := fun s =>
  match m.host.call f arg s.host with
  | (.ok w, host) => .ok w { s with host }
  | (.error t, host) => .error t { s with host }

/-- Imports come before functions of the module. -/
def call (m : Machine σ) (f : Frame) (name : String) : Exec σ Action :=
  match m.import? name with
  | some fn => do
    let (arg, f) ← Exec.lift f.pop
    return .resume (f.push (← m.callHost fn arg))
  | none =>
    match m.function? name with
    | none => throw (.unknownFunction name)
    | some callee => do
      let (args, f) ← Exec.lift (f.popArgs callee.params.length)
      return .call f callee args

/-- Runs one instruction in a frame from which it has been taken. -/
def exec (m : Machine σ) (f : Frame) : Instr → Exec σ Action
  | .const w => return .resume (f.push w)
  | .localGet name => return .resume (f.push (← Exec.lift (f.getLocal name)))
  | .localSet name => do
    let (w, f) ← Exec.lift f.pop
    return .resume (← Exec.lift (f.setLocal name w))
  | .globalGet name => return .resume (f.push (← Exec.lift ((← get).getGlobal name)))
  | .globalSet name => do
    let (w, f) ← Exec.lift f.pop
    Exec.update (·.setGlobal name w)
    return .resume f
  | .call name => m.call f name
  | .numeric op => do
    let (right, f) ← Exec.lift f.pop
    let (left, f) ← Exec.lift f.pop
    return .resume (f.push (← Exec.lift (op.eval left right)))
  | .eqz => do
    let (w, f) ← Exec.lift f.pop
    return .resume (f.push (Word.ofBool (w = 0)))
  | .load => do
    let (a, f) ← Exec.lift f.pop
    return .resume (f.push (← Exec.lift ((← get).memory.load a)))
  | .store => do
    let (w, f) ← Exec.lift f.pop
    let (a, f) ← Exec.lift f.pop
    Exec.storeWord a w
    return .resume f
  | .ite body otherwise => do
    let (w, f) ← Exec.lift f.pop
    return .resume (f.openBlock (if w ≠ 0 then body else otherwise))
  | .block body => return .resume (f.openBlock body)
  | .loop body => return .resume (f.openLoop body)
  | .br depth => return .resume (← Exec.lift (f.branch depth))
  | .brIf depth => do
    let (w, f) ← Exec.lift f.pop
    if w ≠ 0 then return .resume (← Exec.lift (f.branch depth)) else return .resume f
  | .ret => return .resume { f with labels := [] }
  | .nop => return .resume f

def enter (m : Machine σ) (s : State σ) (f : Func) (args : List Word) : Progress σ :=
  match s.room with
  | 0 => .halt (.error (.callStackExhausted m.maxCallDepth)) s.store
  | room + 1 => .next { s with frames := Frame.enter f args :: s.frames, room }

def leave (f : Frame) (callers : List Frame) (room : Nat) (store : Store σ) : Progress σ :=
  match f.result, callers with
  | .error t, _ => .halt (.error t) store
  | .ok r, [] => .halt (.ok r) store
  | .ok r, caller :: outer => .next ⟨caller.receive r :: outer, room + 1, store⟩

def step (m : Machine σ) (s : State σ) : Progress σ :=
  match s.frames with
  | [] => .halt (.ok none) s.store
  | f :: callers =>
    match f.labels with
    | [] => leave f callers s.room s.store
    | ⟨[], _⟩ :: outer => .next { s with frames := { f with labels := outer } :: callers }
    | ⟨i :: rest, again⟩ :: outer =>
      match m.exec { f with labels := ⟨rest, again⟩ :: outer } i s.store with
      | .error t store => .halt (.error t) store
      | .ok (.resume f) store => .next { s with frames := f :: callers, store }
      | .ok (.call caller callee args) store =>
        m.enter { s with frames := caller :: callers, store } callee args

end Machine

end TypedScript
