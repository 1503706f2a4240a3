import TypedScript.Proofs.Bindings
import TypedScript.Proofs.Faults
import TypedScript.Proofs.Syntax
import TypedScript.Typing.Program
import Mathlib.Data.List.Forall2

/-! # Checking where more is known

The checker only ever asks what a name stands for, so what it accepts it accepts wherever the same
is found, with the same outcome. In the body of a function more global variables may be known as
well: the body sees those it knew before, and its own declarations do not meet the others. Main
results: functions and classes are accepted against every registry that knows more, and statements
against every registry that knows the same. -/

namespace TypedScript

/-- What the first check accepts the second accepts as well, with the same outcome. -/
def Checked.Within {α : Type} (x y : Checked α) : Prop := ∀ a, x = .ok a → y = .ok a

namespace Checked.Within

variable {α β : Type}

theorem refl (x : Checked α) : Within x x := fun _ h => h

theorem bind {x y : Checked α} {f g : α → Checked β} (hx : Within x y)
    (hf : ∀ a, Within (f a) (g a)) : Within (x >>= f) (y >>= g) := by
  intro b h
  obtain ⟨a, ha, hb⟩ := bind_eq_ok.mp h
  exact bind_eq_ok.mpr ⟨a, hx a ha, hf a b hb⟩

theorem mapM {f g : α → Checked β} (h : ∀ a, Within (f a) (g a)) (xs : List α) :
    Within (xs.mapM f) (xs.mapM g) := by
  intro ys hys
  exact mapM_of_forall₂ ((mapM_ok hys).imp fun a b hb => h a b hb)

end Checked.Within

/-- Scopes in which the same is found, but that the second may know more global variables in the
body of a function. Outside of functions it must not: there a declaration makes a global variable.
-/
structure Scope.Wider (s s' : Scope) : Prop where
  classes : Bindings.Agree s.classes s'.classes
  funcs : s.globals.funcs.Agree s'.globals.funcs
  vars : ∀ x ty, s.globals.vars.find? x = some ty → s'.globals.vars.find? x = some ty
  locals : s'.locals = s.locals
  function : s'.function = s.function
  outside : s.function = none → s.globals.vars.Agree s'.globals.vars

theorem Classes.get_congr {cs cs' : Classes} (h : Bindings.Agree cs cs') : cs.get = cs'.get := by
  funext name span
  rw [get, h name, get]

theorem Classes.validate_congr {cs cs' : Classes} (h : Bindings.Agree cs cs') :
    cs.validate = cs'.validate := by
  funext ty span
  cases ty with
  | object c => rw [validate, h.contains c, validate]
  | int => rfl
  | bool => rfl
  | none => rfl

namespace Scope.Wider

variable {s s' : Scope} {span : Span}

theorem lookup (h : s.Wider s') (x : String) :
    Checked.Within (s.lookup x span) (s'.lookup x span) := by
  intro ty hty
  rw [Scope.lookup] at hty ⊢
  rw [h.locals]
  cases hl : s.locals.find? x with
  | some ty' =>
    rw [hl] at hty
    exact hty
  | none =>
    rw [hl] at hty
    cases hg : s.globals.vars.find? x with
    | some ty' =>
      rw [hg] at hty
      rw [h.vars x ty' hg]
      exact hty
    | none =>
      rw [hg] at hty
      exact absurd hty reject_ne_ok

theorem nameType (h : s.Wider s') (x : Name) :
    Checked.Within (s.nameType span x) (s'.nameType span x) := by
  cases x with
  | self =>
    rw [Scope.nameType, Scope.nameType, receiver?, receiver?, h.function]
    exact .refl _
  | none => exact .refl _
  | plain ident => exact h.lookup ident

theorem fieldType (h : s.Wider s') : s.fieldType = s'.fieldType := by
  funext c f span
  rw [Scope.fieldType, Classes.get_congr h.classes, Scope.fieldType]

theorem methodSignature (h : s.Wider s') : s.methodSignature = s'.methodSignature := by
  funext c m span
  rw [Scope.methodSignature, Classes.get_congr h.classes, Scope.methodSignature]

theorem funcSignature (h : s.Wider s') : s.funcSignature = s'.funcSignature := by
  funext name span
  rw [Scope.funcSignature, h.funcs name, Scope.funcSignature]

theorem constructType (h : s.Wider s') : s.constructType = s'.constructType := by
  funext c span
  rw [Scope.constructType, Classes.get_congr h.classes, Scope.constructType]

end Scope.Wider

namespace Expr

variable {s s' : Scope}

theorem checkArgs_within {args : List Expr}
    (h : ∀ e ∈ args, Checked.Within (e.check s) (e.check s')) (callee : String) (index : Nat)
    (tys : List Ty) :
    Checked.Within (checkArgs s callee index tys args) (checkArgs s' callee index tys args) := by
  induction args generalizing index tys with
  | nil => cases tys <;> exact .refl _
  | cons e rest ih =>
    cases tys with
    | nil => exact .refl _
    | cons ty tys =>
      have hrest := ih (fun e he => h e (List.mem_cons_of_mem _ he)) (index + 1) tys
      simp only [checkArgs]
      refine .bind (h e List.mem_cons_self) fun _ => .bind (.refl _) fun _ => ?_
      exact .bind hrest fun _ => .refl _

theorem check_within (h : s.Wider s') (e : Expr) : Checked.Within (e.check s) (e.check s') := by
  induction e with
  | literal n l => exact .refl _
  | name n x =>
    simp only [check]
    exact .bind (h.nameType x) fun _ => .refl _
  | unary n op e ih =>
    simp only [check]
    exact .bind ih fun _ => .refl _
  | binary n op l r ihl ihr =>
    simp only [check]
    exact .bind ihl fun _ => .bind ihr fun _ => .refl _
  | call n callee args ih =>
    simp only [check, h.classes.contains, h.constructType, h.funcSignature]
    split
    · exact .refl _
    · refine .bind (.refl _) fun sig => .bind (.refl _) fun _ => ?_
      exact .bind (checkArgs_within ih callee 0 sig.params) fun _ => .refl _
  | builtin1 n fn e ih =>
    simp only [check]
    exact .bind ih fun _ => .refl _
  | builtin2 n fn l r ihl ihr =>
    simp only [check]
    refine .bind ihl fun _ => .bind (.refl _) fun _ => ?_
    exact .bind ihr fun _ => .refl _
  | construct n c =>
    simp only [check, h.constructType]
    exact .refl _
  | field n object f ih =>
    simp only [check, h.fieldType]
    exact .bind ih fun _ => .refl _
  | method n object m args iho iha =>
    simp only [check, h.methodSignature]
    refine .bind iho fun _ => .bind (.refl _) fun c => .bind (.refl _) fun sig => ?_
    refine .bind (.refl _) fun _ => ?_
    exact .bind (checkArgs_within iha _ 0 _) fun _ => .refl _
  | print n args ih =>
    rcases args with - | ⟨e, - | ⟨e', rest⟩⟩
    · exact .refl _
    · simp only [check]
      exact .bind (ih e List.mem_cons_self) fun _ => .refl _
    · exact .refl _

theorem checkCondition_within (h : s.Wider s') (construct : String) (e : Expr) :
    Checked.Within (e.checkCondition s construct) (e.checkCondition s' construct) := by
  rw [checkCondition, checkCondition]
  exact .bind (check_within h e) fun _ => .refl _

end Expr

theorem Target.check_within {s s' : Scope} (h : s.Wider s') (actual : Ty) (span : Span)
    (target : Target) :
    Checked.Within (target.check s actual span) (target.check s' actual span) := by
  cases target with
  | name ident =>
    simp only [check]
    exact .bind (h.lookup ident) fun _ => .refl _
  | field object f =>
    simp only [check, h.fieldType]
    exact .bind (Expr.check_within h object) fun _ => .refl _

/-- What the first check accepts the second accepts as well, with the same outcome in a scope that
is wider still. -/
def Checked.Widens {α : Type} (x y : Checked (Scope × α)) : Prop :=
  ∀ s a, x = .ok (s, a) → ∃ s', y = .ok (s', a) ∧ s.Wider s'

namespace Checked.Widens

variable {α β : Type}

theorem ok {s s' : Scope} (h : s.Wider s') (a : α) : Widens (.ok (s, a)) (.ok (s', a)) := by
  intro t b hb
  cases hb
  exact ⟨s', rfl, h⟩

theorem of_reject {e : TypeError} {span : Span} {y : Checked (Scope × α)} :
    Widens (reject e span) y := fun _ _ h => absurd h reject_ne_ok

theorem bind {x y : Checked (Scope × α)} {f g : Scope × α → Checked (Scope × β)}
    (hx : Widens x y) (hf : ∀ s s' a, s.Wider s' → Widens (f (s, a)) (g (s', a))) :
    Widens (x >>= f) (y >>= g) := by
  intro t b h
  obtain ⟨⟨s, a⟩, ha, hb⟩ := bind_eq_ok.mp h
  obtain ⟨s', ha', hs⟩ := hx s a ha
  obtain ⟨t', hb', ht⟩ := hf s s' a hs t b hb
  exact ⟨t', bind_eq_ok.mpr ⟨(s', a), ha', hb'⟩, ht⟩

/-- A step that does not touch the scope. -/
theorem bind_of_within {x y : Checked α} {f g : α → Checked (Scope × β)} (hx : Within x y)
    (hf : ∀ a, Widens (f a) (g a)) : Widens (x >>= f) (y >>= g) := by
  intro t b h
  obtain ⟨a, ha, hb⟩ := bind_eq_ok.mp h
  obtain ⟨t', hb', ht⟩ := hf a t b hb
  exact ⟨t', bind_eq_ok.mpr ⟨a, hx a ha, hb'⟩, ht⟩

/-- A step that leaves the scope behind. -/
theorem bind_within {x y : Checked (Scope × α)} {f g : Scope × α → Checked β} (hx : Widens x y)
    (hf : ∀ s s' a, s.Wider s' → Within (f (s, a)) (g (s', a))) : Within (x >>= f) (y >>= g) := by
  intro b h
  obtain ⟨⟨s, a⟩, ha, hb⟩ := bind_eq_ok.mp h
  obtain ⟨s', ha', hs⟩ := hx s a ha
  exact bind_eq_ok.mpr ⟨(s', a), ha', hf s s' a hs b hb⟩

end Checked.Widens

theorem Scope.declare_widens {α : Type} {s s' : Scope} (h : s.Wider s') (x : String) (ty : Ty)
    (span : Span) (a : α) :
    Checked.Widens (do return (← s.declare x ty span, a))
      (do return (← s'.declare x ty span, a)) := by
  cases hfn : s.function with
  | some fn =>
    -- Only the local variables must not have the name yet.
    simp only [declare, h.function, hfn, h.locals]
    cases Locals.declare s.locals x ty span with
    | error e => exact fun _ _ h => by cases h
    | ok ls =>
      refine Checked.Widens.ok ?_ a
      exact ⟨h.classes, h.funcs, h.vars, rfl, rfl, fun hnone => absurd hnone (by simp)⟩
  | none =>
    have hvars := (h.outside hfn).insert x ty
    simp only [declare, h.function, hfn, Globals.declareVar, (h.outside hfn).contains]
    split
    · exact fun _ _ h => by cases h
    · refine Checked.Widens.ok ?_ a
      exact ⟨h.classes, h.funcs, fun y ty' hy => hvars y ▸ hy, h.locals, rfl, fun _ => hvars⟩

theorem Declaration.check_widens {s s' : Scope} (h : s.Wider s') (d : Declaration) :
    Checked.Widens (d.check s) (d.check s') := by
  simp only [check, Classes.validate_congr h.classes]
  refine .bind_of_within (.refl _) fun _ => .bind_of_within (Expr.check_within h d.value) ?_
  intro value
  split
  · exact Scope.declare_widens h d.name d.ty d.span _
  · exact .of_reject

namespace Stmt

theorem checkReturn_widens {s s' : Scope} (h : s.Wider s') (span : Span) (value : Expr) :
    Checked.Widens (checkReturn s span value) (checkReturn s' span value) := by
  cases hfn : s.function with
  | none =>
    simp only [checkReturn, hfn]
    exact .of_reject
  | some fn =>
    simp only [checkReturn, h.function, hfn]
    refine .bind_of_within (Expr.check_within h value) fun value => ?_
    refine .bind_of_within (.refl _) fun _ => Checked.Widens.ok ?_ _
    exact ⟨h.classes, h.funcs, h.vars, h.locals, rfl, fun hnone => absurd hnone (by simp)⟩

/-- A statement that is checked alike where more is known. -/
def Widening (st : Stmt) : Prop :=
  ∀ s s' : Scope, s.Wider s' → Checked.Widens (st.check s) (st.check s')

theorem checkBody_widens {ss : List Stmt} (hss : ∀ st ∈ ss, st.Widening) {s s' : Scope}
    (h : s.Wider s') : Checked.Widens (checkBody s ss) (checkBody s' ss) := by
  induction ss generalizing s s' with
  | nil => exact .ok h []
  | cons st rest ih =>
    simp only [checkBody]
    refine .bind (hss st List.mem_cons_self s s' h) fun s₁ s₁' st' h₁ => ?_
    refine .bind (ih (fun st hst => hss st (List.mem_cons_of_mem _ hst)) h₁) ?_
    intro s₂ s₂' rest' h₂
    exact .ok h₂ _

theorem checkElseIf_widens {elseIf : Option (Expr × List Stmt)}
    (hss : ∀ c b, elseIf = some (c, b) → ∀ st ∈ b, st.Widening) {s s' : Scope} (h : s.Wider s') :
    Checked.Widens (checkElseIf s elseIf) (checkElseIf s' elseIf) := by
  cases elseIf with
  | none => exact .ok h none
  | some e =>
    obtain ⟨condition, body⟩ := e
    simp only [checkElseIf]
    refine .bind_of_within (Expr.checkCondition_within h "elif" condition) fun condition' => ?_
    refine .bind (checkBody_widens (hss condition body rfl) h) fun s₁ s₁' body' h₁ => ?_
    exact .ok h₁ _

theorem checkOtherwise_widens {otherwise : Option (List Stmt)}
    (hss : ∀ b, otherwise = some b → ∀ st ∈ b, st.Widening) {s s' : Scope} (h : s.Wider s') :
    Checked.Widens (checkOtherwise s otherwise) (checkOtherwise s' otherwise) := by
  cases otherwise with
  | none => exact .ok h none
  | some body =>
    simp only [checkOtherwise]
    refine .bind (checkBody_widens (hss body rfl) h) fun s₁ s₁' body' h₁ => ?_
    exact .ok h₁ _

theorem widening (st : Stmt) : st.Widening := by
  induction st with
  | assign span target value =>
    intro s s' h
    simp only [check]
    refine .bind_of_within (Expr.check_within h value) fun value => ?_
    refine .bind_of_within (Target.check_within h value.1 span target) fun _ => ?_
    exact .ok h _
  | branch span condition body elseIf otherwise ihb ihe iho =>
    intro s s' h
    simp only [check]
    refine .bind_of_within (Expr.checkCondition_within h "if" condition) fun condition' => ?_
    refine .bind (checkBody_widens ihb h) fun s₁ s₁' body' h₁ => ?_
    refine .bind (checkElseIf_widens ihe h₁) fun s₂ s₂' elseIf' h₂ => ?_
    refine .bind (checkOtherwise_widens iho h₂) fun s₃ s₃' otherwise' h₃ => ?_
    exact .ok h₃ _
  | loop span condition body ih =>
    intro s s' h
    simp only [check]
    refine .bind_of_within (Expr.checkCondition_within h "while" condition) fun condition' => ?_
    refine .bind (checkBody_widens ih h) fun s₁ s₁' body' h₁ => ?_
    exact .ok h₁ _
  | pass span =>
    intro s s' h
    exact .ok h _
  | ret span value =>
    intro s s' h
    exact checkReturn_widens h span value
  | expr value =>
    intro s s' h
    simp only [check]
    exact .bind_of_within (Expr.check_within h value) fun _ => .ok h _
  | declare d =>
    intro s s' h
    simp only [check]
    exact .bind (Declaration.check_widens h d) fun _ _ _ h₁ => .ok h₁ _
  | func f =>
    intro s s' _
    exact .of_reject
  | cls c =>
    intro s s' _
    exact .of_reject

end Stmt

/-- Registries in which the same is found, but that the second may know more global variables. Which
symbols are taken matters for registration only. -/
structure Registry.Wider (r r' : Registry) : Prop where
  classes : Bindings.Agree r.classes r'.classes
  funcs : r.globals.funcs.Agree r'.globals.funcs
  vars : ∀ x ty, r.globals.vars.find? x = some ty → r'.globals.vars.find? x = some ty

namespace Registry.Wider

variable {r r' : Registry}

theorem func_check (h : r.Wider r') (className : Option String) (f : FuncDef) :
    Checked.Within (f.check r className) (f.check r' className) := by
  simp only [FuncOf.check]
  refine .bind (.refl _) fun ls => ?_
  have hscope : Scope.Wider ⟨r.globals, r.classes, ls, some ⟨f.name, className, f.ret, false⟩⟩
      ⟨r'.globals, r'.classes, ls, some ⟨f.name, className, f.ret, false⟩⟩ :=
    ⟨h.classes, h.funcs, h.vars, rfl, rfl, fun hnone => absurd hnone (by simp)⟩
  have hbody := Stmt.checkBody_widens (fun st (_ : st ∈ f.body) => st.widening) hscope
  refine hbody.bind_within fun s s' body hs => ?_
  simp only [hs.function]
  exact .refl _

theorem class_check (h : r.Wider r') (c : ClassDef) :
    Checked.Within (c.check r) (c.check r') := by
  rw [ClassOf.check, ClassOf.check]
  exact .bind (.mapM (h.func_check (some c.name)) c.methods) fun _ => .refl _

end Registry.Wider

structure Registry.Alike (r r' : Registry) : Prop where
  classes : Bindings.Agree r.classes r'.classes
  funcs : r.globals.funcs.Agree r'.globals.funcs
  vars : r.globals.vars.Agree r'.globals.vars

namespace Registry.Alike

variable {r r' : Registry}

theorem wider (h : r.Alike r') : r.Wider r' :=
  ⟨h.classes, h.funcs, fun x _ hx => h.vars x ▸ hx⟩

theorem statements (h : r.Alike r') (ss : List Stmt) :
    Checked.Widens (Stmt.checkBody r.topLevel ss) (Stmt.checkBody r'.topLevel ss) :=
  Stmt.checkBody_widens (fun st _ => st.widening)
    ⟨h.classes, h.funcs, h.wider.vars, rfl, rfl, fun _ => h.vars⟩

end Registry.Alike

end TypedScript
