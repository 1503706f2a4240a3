import TypedScript.Compile
import TypedScript.Proofs.Bindings
import TypedScript.Proofs.Faults
import TypedScript.Proofs.Syntax

/-! # Code and runs that do not depend on an order

Code is given for a body by asking for layouts by name, and a call asks for a function by name.
Main results: under layouts that agree the code is the same, and machines that find the same
functions take the same steps and so run alike. -/

namespace TypedScript

section Layouts

variable {ls ls' : Layouts} {xs : List String}

theorem Layouts.get_congr (h : Bindings.Agree ls ls') : ls.get = ls'.get := by
  funext c span
  rw [get, h c, get]

theorem Layouts.field_congr (h : Bindings.Agree ls ls') : ls.field = ls'.field := by
  funext c f span
  rw [field, get_congr h, field]

namespace Expr

theorem lowerArgs_congr {s s' : Site} {args : List Expr} (h : ∀ e ∈ args, e.lower s = e.lower s') :
    lowerArgs s args = lowerArgs s' args := by
  induction args with
  | nil => rfl
  | cons e rest ih =>
    have hrest := ih fun e he => h e (List.mem_cons_of_mem _ he)
    simp only [lowerArgs, h e List.mem_cons_self, hrest]

theorem lower_congr (h : Bindings.Agree ls ls') (e : Expr) :
    e.lower ⟨ls, xs⟩ = e.lower ⟨ls', xs⟩ := by
  induction e with
  | literal n l => cases l <;> rfl
  | name n x => cases x <;> rfl
  | unary n op e ih => cases op <;> simp only [lower, ih]
  | binary n op l r ihl ihr => simp only [lower, ihl, ihr]
  | call n callee args ih => simp only [lower, lowerArgs_congr ih]
  | builtin1 n fn e ih => simp only [lower, ih]
  | builtin2 n fn l r ihl ihr => simp only [lower, ihl, ihr]
  | construct n c => simp only [lower, Layouts.get_congr h]
  | field n object f ih => simp only [lower, ih, Layouts.field_congr h]
  | method n object m args iho iha => simp only [lower, iho, lowerArgs_congr iha]
  | print n args ih =>
    rcases args with - | ⟨e, - | ⟨e', rest⟩⟩
    · rfl
    · simp only [lower, ih e List.mem_cons_self]
    · rfl

theorem lowerValue_congr (h : Bindings.Agree ls ls') (e : Expr) :
    e.lowerValue ⟨ls, xs⟩ = e.lowerValue ⟨ls', xs⟩ := by
  rw [lowerValue, lower_congr h, lowerValue]

end Expr

theorem Site.storeName_congr (h : Bindings.Agree ls ls') (x : String) (value : Expr) :
    Site.storeName ⟨ls, xs⟩ x value = Site.storeName ⟨ls', xs⟩ x value := by
  simp only [storeName, Expr.lower_congr h, Layouts.get_congr h, get, set]

theorem Target.lower_congr (h : Bindings.Agree ls ls') (span : Span) (value : Expr)
    (target : Target) : target.lower ⟨ls, xs⟩ span value = target.lower ⟨ls', xs⟩ span value := by
  cases target with
  | name x => exact Site.storeName_congr h x value
  | field object f => simp only [lower, Layouts.field_congr h, Expr.lowerValue_congr h]

namespace Stmt

theorem lowerBody_eq_of_forall {s s' : Site} {ss : List Stmt}
    (h : ∀ st ∈ ss, st.lower s = st.lower s') : lowerBody s ss = lowerBody s' ss := by
  induction ss with
  | nil => rfl
  | cons st rest ih =>
    have hrest := ih fun st hst => h st (List.mem_cons_of_mem _ hst)
    simp only [lowerBody, h st List.mem_cons_self, hrest]

theorem lower_congr (h : Bindings.Agree ls ls') (st : Stmt) :
    st.lower ⟨ls, xs⟩ = st.lower ⟨ls', xs⟩ := by
  induction st with
  | assign span target value => exact Target.lower_congr h span value target
  | branch span condition body elseIf otherwise ihb ihe iho =>
    have helse : lowerElseIf ⟨ls, xs⟩ elseIf = lowerElseIf ⟨ls', xs⟩ elseIf := by
      funext code
      cases elseIf with
      | none => rfl
      | some e => simp only [lowerElseIf, Expr.lowerValue_congr h,
          lowerBody_eq_of_forall (ihe e.1 e.2 rfl)]
    have hother : lowerOtherwise ⟨ls, xs⟩ otherwise = lowerOtherwise ⟨ls', xs⟩ otherwise := by
      cases otherwise with
      | none => rfl
      | some body => exact lowerBody_eq_of_forall (iho body rfl)
    simp only [lower, lowerBody_eq_of_forall ihb, helse, hother, Expr.lowerValue_congr h]
  | loop span condition body ih =>
    simp only [lower, Expr.lowerValue_congr h, lowerBody_eq_of_forall ih]
  | pass span => rfl
  | ret span value => simp only [lower, Expr.lowerValue_congr h]
  | expr value => simp only [lower, Expr.lowerValue_congr h]
  | declare d => exact Site.storeName_congr h d.name d.value
  | func f => rfl
  | cls c => rfl

theorem lowerBody_congr (h : Bindings.Agree ls ls') (ss : List Stmt) :
    lowerBody ⟨ls, xs⟩ ss = lowerBody ⟨ls', xs⟩ ss :=
  lowerBody_eq_of_forall fun st _ => lower_congr h st

end Stmt

theorem FuncOf.lower_congr (h : Bindings.Agree ls ls') :
    FuncOf.lower ls = FuncOf.lower ls' := by
  funext className f
  simp only [lower, Stmt.lowerBody_congr h]

theorem ClassOf.lower_congr (h : Bindings.Agree ls ls') :
    ClassOf.lower ls = ClassOf.lower ls' := by
  funext c
  rw [lower, FuncOf.lower_congr h, lower]

theorem Program.lowerEntry_congr (h : Bindings.Agree ls ls') {p p' : Program}
    (hv : p'.vars = p.vars) (hs : p'.stmts = p.stmts) (o : Options) :
    p'.lowerEntry ls' o = p.lowerEntry ls o := by
  have hends : p'.endsWithExpr = p.endsWithExpr := by rw [endsWithExpr, hs, endsWithExpr]
  simp only [lowerEntry, hends, hv, hs, Stmt.lowerBody_congr h]

end Layouts

namespace Machine

variable {σ : Type}

/-- Machines that cannot be told apart by calls. -/
structure Alike (m m' : Machine σ) : Prop where
  host : m.host = m'.host
  maxCallDepth : m.maxCallDepth = m'.maxCallDepth
  imports : ∀ x, m.import? x = m'.import? x
  functions : ∀ x, m.function? x = m'.function? x

namespace Alike

variable {m m' : Machine σ}

theorem exec (h : m.Alike m') (f : Frame) (i : Instr) : m.exec f i = m'.exec f i := by
  cases i with
  | call x =>
    have hhost : m.callHost = m'.callHost := by
      funext fn arg s
      rw [callHost, h.host, callHost]
    rw [Machine.exec, call, h.imports x, h.functions x, hhost, Machine.exec, call]
  | _ => rfl

theorem enter (h : m.Alike m') (s : State σ) (f : Func) (args : List Word) :
    m.enter s f args = m'.enter s f args := by
  rw [Machine.enter, h.maxCallDepth, Machine.enter]

theorem step (h : m.Alike m') (s : State σ) : m.step s = m'.step s := by
  simp only [Machine.step, h.exec, h.enter]

theorem runFrom (h : m.Alike m') (fuel : Nat) (g : Progress σ) :
    m.runFrom fuel g = m'.runFrom fuel g := by
  induction fuel generalizing g with
  | zero => cases g <;> rfl
  | succ fuel ih =>
    cases g with
    | halt r store => rfl
    | next s => rw [Machine.runFrom, h.step, ih, Machine.runFrom]

theorem run (h : m.Alike m') {x : String} (hx : m.export? x = m'.export? x) (fuel : Nat)
    (s : Store σ) : m.run fuel x s = m'.run fuel x s := by
  rw [Machine.run, hx, Machine.run]
  cases m'.export? x with
  | none => rfl
  | some f => simp only [invoke, h.maxCallDepth, h.enter, h.runFrom]

end Alike

end Machine

end TypedScript
