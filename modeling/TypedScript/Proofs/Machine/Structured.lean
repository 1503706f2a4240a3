import TypedScript.Proofs.Machine.Step

/-! # Structured semantics

Code told by recursion on its shape, with no open bodies and no open calls to keep. Other than
control, an instruction acts on the variables and the operands of its call and on the store. -/

namespace TypedScript

@[ext] structure Activation where
  locals : Bindings Word
  stack : List Word

namespace Activation

/-- A call starts with its arguments, with zero in its local variables and without operands. -/
def enter (f : Func) (args : List Word) : Activation where
  locals := Bindings.ofList (f.params.zip args ++ f.locals.map (·, 0))
  stack := []

def frame (a : Activation) (f : Func) (labels : List Label) : Frame :=
  ⟨f, a.locals, a.stack, labels⟩

def receive (a : Activation) : Option Word → Activation
  | some w => { a with stack := w :: a.stack }
  | none => a

/-- What a call gives back once its body is done: the topmost operand if the function has a result,
and nothing otherwise. -/
def result (a : Activation) (f : Func) : Except Trap (Option Word) :=
  match f.hasResult, a.stack with
  | true, w :: _ => .ok (some w)
  | true, [] => .error (.stackUnderflow f.name)
  | false, _ => .ok none

theorem result_frame (a : Activation) (f : Func) (labels : List Label) :
    (a.frame f labels).result = a.result f := by
  obtain ⟨ls, st⟩ := a
  rw [Frame.result, result]
  cases hf : f.hasResult <;> cases st <;> simp [frame, hf, Frame.underflow]

end Activation

/-- How code ends: behind its last instruction, in a branch past a number of bodies, in a return, or
in a trap. -/
inductive Ending
  | normal (a : Activation)
  | branch (depth : Nat) (a : Activation)
  | ret (a : Activation)
  | trap (t : Trap)

namespace Ending

/-- The end of a body as the code around the body sees it. -/
def outside : Ending → Ending
  | branch 0 a => normal a
  | branch (depth + 1) a => branch depth a
  | e => e

def result (f : Func) : Ending → Except Trap (Option Word)
  | normal a | ret a | branch 0 a => a.result f
  | branch (depth + 1) _ => .error (.invalidBranch (depth + 1))
  | trap t => .error t

def ofCall (caller : Activation) : Except Trap (Option Word) → Ending
  | .ok r => normal (caller.receive r)
  | .error t => trap t

def isNormal : Ending → Bool
  | normal _ => true
  | _ => false

end Ending

/-- Whether an instruction decides where control goes on. -/
def Instr.isControl : Instr → Bool
  | .ite .. | .block _ | .loop _ | .br _ | .brIf _ | .ret => true
  | _ => false

namespace Machine

variable {σ : Type} (m : Machine σ)

mutual
/-- Code that runs in a function, with so many calls open, ends as told and leaves a store. An
instruction is code of length one. -/
inductive Yields : Nat → Func → Activation → Store σ → List Instr → Ending → Store σ → Prop
  | nil {depth f a s} : Yields depth f a s [] (.normal a) s
  | next {depth f a b s s₁ s' i rest e} (hi : Yields depth f a s [i] (.normal b) s₁)
      (hr : Yields depth f b s₁ rest e s') : Yields depth f a s (i :: rest) e s'
  | stop {depth f a s s' i rest e} (hi : Yields depth f a s [i] e s') (he : e.isNormal = false) :
      Yields depth f a s (i :: rest) e s'
  | plain {depth f a b s s' i} (hi : i.isControl = false)
      (h : m.exec (a.frame f []) i s = .ok (.resume (b.frame f [])) s') :
      Yields depth f a s [i] (.normal b) s'
  | trap {depth f a s s' i t} (hi : i.isControl = false)
      (h : m.exec (a.frame f []) i s = .error t s') : Yields depth f a s [i] (.trap t) s'
  | call {depth f a s s' x callee args st r} (hi : m.import? x = none)
      (hf : m.function? x = some callee) (hn : args.length = callee.params.length)
      (hst : a.stack = args.reverse ++ st) (hc : Calls depth callee args s r s') :
      Yields depth f a s [.call x] (.ofCall { a with stack := st } r) s'
  | block {depth f a s s' body e} (hb : Yields depth f a s body e s') :
      Yields depth f a s [.block body] e.outside s'
  | ite {depth f a s s' w st body otherwise e} (hst : a.stack = w :: st)
      (hb : Yields depth f { a with stack := st } s (if w ≠ 0 then body else otherwise) e s') :
      Yields depth f a s [.ite body otherwise] e.outside s'
  | iteUnderflow {depth f a s body otherwise} (hst : a.stack = []) :
      Yields depth f a s [.ite body otherwise] (.trap (.stackUnderflow f.name)) s
  | loopAgain {depth f a b s s₁ s' body e} (hb : Yields depth f a s body (.branch 0 b) s₁)
      (hl : Yields depth f b s₁ [.loop body] e s') : Yields depth f a s [.loop body] e s'
  | loopDone {depth f a s s' body e} (hb : Yields depth f a s body e s')
      (he : ∀ b, e ≠ .branch 0 b) : Yields depth f a s [.loop body] e.outside s'
  | br {depth f a s n} : Yields depth f a s [.br n] (.branch n a) s
  | brIf {depth f a s w st n} (hst : a.stack = w :: st) :
      Yields depth f a s [.brIf n]
        (if w ≠ 0 then .branch n { a with stack := st } else .normal { a with stack := st }) s
  | brIfUnderflow {depth f a s n} (hst : a.stack = []) :
      Yields depth f a s [.brIf n] (.trap (.stackUnderflow f.name)) s
  | ret {depth f a s} : Yields depth f a s [.ret] (.ret a) s

/-- A function that is called while so many calls are open gives back a result or traps. -/
inductive Calls : Nat → Func → List Word → Store σ → Except Trap (Option Word) → Store σ → Prop
  | exhausted {depth f args s} (h : m.maxCallDepth ≤ depth) :
      Calls depth f args s (.error (.callStackExhausted m.maxCallDepth)) s
  | body {depth f args s s' e} (h : depth < m.maxCallDepth)
      (hb : Yields (depth + 1) f (.enter f args) s f.body e s') :
      Calls depth f args s (e.result f) s'
end

variable {m} {depth : Nat} {f : Func} {a b : Activation} {s s' : Store σ} {i : Instr}

/-- An instruction does one thing, whatever bodies are open around it. -/
inductive Acts (m : Machine σ) (f : Func) (a : Activation) (s : Store σ) (i : Instr) : Prop
  | trap (t : Trap) (s' : Store σ)
      (h : ∀ labels, m.exec (a.frame f labels) i s = .error t s')
  | resume (b : Activation) (s' : Store σ)
      (h : ∀ labels, m.exec (a.frame f labels) i s = .ok (.resume (b.frame f labels)) s')
  | call (x : String) (callee : Func) (args st : List Word) (hx : i = .call x)
      (hi : m.import? x = none) (hf : m.function? x = some callee)
      (hn : args.length = callee.params.length) (hst : a.stack = args.reverse ++ st)

theorem acts_call (x : String) (f : Func) (a : Activation) (s : Store σ) :
    m.Acts f a s (.call x) := by
  obtain ⟨ls, st⟩ := a
  cases hi : m.import? x with
  | some fn =>
    cases st with
    | nil =>
      exact .trap (.stackUnderflow f.name) s fun labels => by
        simp [exec, call, hi, Activation.frame, Frame.pop, Frame.underflow]
    | cons w st =>
      rcases hc : m.host.call fn w s.host with ⟨r, host⟩
      cases r with
      | error t =>
        exact .trap t { s with host } fun labels => by
          simp [exec, call, hi, Activation.frame, Frame.pop, callHost, hc, Functor.map, EStateM.map]
      | ok r =>
        exact .resume ⟨ls, r :: st⟩ { s with host } fun labels => by
          simp [exec, call, hi, Activation.frame, Frame.pop, Frame.push, callHost, hc, Functor.map,
            EStateM.map]
  | none =>
    cases hf : m.function? x with
    | none =>
      exact .trap (.unknownFunction x) s fun labels => by
        simp only [exec, call, hi, hf]
        rfl
    | some callee =>
      by_cases hn : callee.params.length ≤ st.length
      · exact .call x callee (st.take callee.params.length).reverse
          (st.drop callee.params.length) rfl hi hf
          (by rw [List.length_reverse, List.length_take, Nat.min_eq_left hn]) (by simp)
      · exact .trap (.stackUnderflow f.name) s fun labels => by
          simp [exec, call, hi, hf, Activation.frame, Frame.popArgs, Frame.underflow, hn]

/-- Other than control, instructions neither see nor change the bodies that are open. -/
theorem acts_of_plain (hi : i.isControl = false) (f : Func) (a : Activation) (s : Store σ) :
    m.Acts f a s i := by
  obtain ⟨ls, st⟩ := a
  cases i with
  | ite _ _ | block _ | loop _ | br _ | brIf _ | ret => cases hi
  | call x => exact acts_call x f ⟨ls, st⟩ s
  | const w => exact .resume ⟨ls, w :: st⟩ s fun labels => rfl
  | nop => exact .resume ⟨ls, st⟩ s fun labels => rfl
  | localGet x =>
    cases hx : ls.find? x with
    | none =>
      exact .trap (.unknownLocal x f.name) s fun labels => by
        simp [exec, Activation.frame, Frame.getLocal, hx]
    | some w =>
      exact .resume ⟨ls, w :: st⟩ s fun labels => by
        simp [exec, Activation.frame, Frame.getLocal, Frame.push, hx]
  | globalGet x =>
    cases hx : s.globals.find? x with
    | none =>
      exact .trap (.unknownGlobal x) s fun labels => by
        simp [exec, Activation.frame, Store.getGlobal, hx]
    | some w =>
      exact .resume ⟨ls, w :: st⟩ s fun labels => by
        simp [exec, Activation.frame, Store.getGlobal, Frame.push, hx]
  | localSet x =>
    cases st with
    | nil => exact .trap (.stackUnderflow f.name) s fun labels => rfl
    | cons w st =>
      by_cases hx : ls.contains x = true
      · exact .resume ⟨ls.insert x w, st⟩ s fun labels => by
          simp [exec, Activation.frame, Frame.pop, Frame.setLocal, hx]
      · exact .trap (.unknownLocal x f.name) s fun labels => by
          simp [exec, Activation.frame, Frame.pop, Frame.setLocal, hx]
  | globalSet x =>
    cases st with
    | nil => exact .trap (.stackUnderflow f.name) s fun labels => rfl
    | cons w st =>
      cases hx : s.setGlobal x w with
      | error t =>
        exact .trap t s fun labels => by
          simp [exec, Activation.frame, Frame.pop, Exec.update_map, hx]
      | ok s' =>
        exact .resume ⟨ls, st⟩ s' fun labels => by
          simp [exec, Activation.frame, Frame.pop, Exec.update_map, hx]
  | numeric op =>
    rcases st with _ | ⟨r, _ | ⟨l, st⟩⟩
    · exact .trap (.stackUnderflow f.name) s fun labels => rfl
    · exact .trap (.stackUnderflow f.name) s fun labels => rfl
    · cases hx : op.eval l r with
      | error t =>
        exact .trap t s fun labels => by simp [exec, Activation.frame, Frame.pop, hx]
      | ok w =>
        exact .resume ⟨ls, w :: st⟩ s fun labels => by
          simp [exec, Activation.frame, Frame.pop, Frame.push, hx]
  | eqz =>
    cases st with
    | nil => exact .trap (.stackUnderflow f.name) s fun labels => rfl
    | cons w st => exact .resume ⟨ls, Word.ofBool (w = 0) :: st⟩ s fun labels => rfl
  | load =>
    cases st with
    | nil => exact .trap (.stackUnderflow f.name) s fun labels => rfl
    | cons w st =>
      cases hx : s.memory.load w with
      | error t =>
        exact .trap t s fun labels => by simp [exec, Activation.frame, Frame.pop, hx]
      | ok v =>
        exact .resume ⟨ls, v :: st⟩ s fun labels => by
          simp [exec, Activation.frame, Frame.pop, Frame.push, hx]
  | store =>
    rcases st with _ | ⟨w, _ | ⟨v, st⟩⟩
    · exact .trap (.stackUnderflow f.name) s fun labels => rfl
    · exact .trap (.stackUnderflow f.name) s fun labels => rfl
    · cases hx : s.storeWord v w with
      | error t =>
        exact .trap t s fun labels => by
          simp [exec, Activation.frame, Frame.pop, Exec.update_map, hx]
      | ok s' =>
        exact .resume ⟨ls, st⟩ s' fun labels => by
          simp [exec, Activation.frame, Frame.pop, Exec.update_map, hx]

/-- The arguments leave the stack before the function is called. -/
theorem exec_call {x : String} {callee : Func} {args st : List Word} {labels : List Label}
    (hi : m.import? x = none) (hf : m.function? x = some callee)
    (hn : args.length = callee.params.length) (hst : a.stack = args.reverse ++ st) :
    m.exec (a.frame f labels) (.call x) s =
      .ok (.call (Activation.frame { a with stack := st } f labels) callee args) s := by
  have hlen : args.reverse.length = callee.params.length := by rw [List.length_reverse, hn]
  simp [exec, call, hi, hf, Activation.frame, Frame.popArgs, hst, ← hlen]

namespace Acts

theorem resume_labels (ha : m.Acts f a s i)
    (h : m.exec (a.frame f []) i s = .ok (.resume (b.frame f [])) s') (labels : List Label) :
    m.exec (a.frame f labels) i s = .ok (.resume (b.frame f labels)) s' := by
  cases ha with
  | trap t s₁ ht => cases (ht []).symm.trans h
  | call x callee args st hx hi hf hn hst =>
    subst hx
    cases (exec_call hi hf hn hst).symm.trans h
  | resume c s₁ hr =>
    obtain rfl : c = b := by
      have heq := (hr []).symm.trans h
      simp only [EStateM.Result.ok.injEq, Action.resume.injEq, Activation.frame,
        Frame.mk.injEq] at heq
      exact Activation.ext heq.1.2.1 heq.1.2.2.1
    cases (hr []).symm.trans h
    exact hr labels

theorem trap_labels {t : Trap} (ha : m.Acts f a s i) (h : m.exec (a.frame f []) i s = .error t s')
    (labels : List Label) : m.exec (a.frame f labels) i s = .error t s' := by
  cases ha with
  | trap t' s₁ ht =>
    cases (ht []).symm.trans h
    exact ht labels
  | call x callee args st hx hi hf hn hst =>
    subst hx
    cases (exec_call hi hf hn hst).symm.trans h
  | resume c s₁ hr => cases (hr []).symm.trans h

end Acts

end Machine

end TypedScript
