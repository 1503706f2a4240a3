import TypedScript.Proofs.Syntax
import TypedScript.Proofs.Typing.Inversion
import TypedScript.Proofs.Typing.Registry

/-! # Checking ignores types that are written already

A program is checked in the same way with and without the types on its expressions, faults included:
the check of a statement depends on its expressions only through theirs. -/

namespace TypedScript

def Note.erase (n : Note) : Note := { n with ty := none }

@[simp] theorem Note.erase_span (n : Note) : n.erase.span = n.span := rfl

namespace Expr

mutual
def erase : Expr → Expr
  | literal n l => literal n.erase l
  | name n x => name n.erase x
  | unary n op e => unary n.erase op (erase e)
  | binary n op l r => binary n.erase op (erase l) (erase r)
  | call n callee args => call n.erase callee (eraseList args)
  | builtin1 n fn e => builtin1 n.erase fn (erase e)
  | builtin2 n fn l r => builtin2 n.erase fn (erase l) (erase r)
  | construct n c => construct n.erase c
  | field n object f => field n.erase (erase object) f
  | method n object m args => method n.erase (erase object) m (eraseList args)
  | print n args => print n.erase (eraseList args)

def eraseList : List Expr → List Expr
  | [] => []
  | e :: es => erase e :: eraseList es
end

@[simp] theorem eraseList_eq (es : List Expr) : eraseList es = es.map erase := by
  induction es with
  | nil => rfl
  | cons e es ih => rw [eraseList, ih, List.map_cons]

end Expr

namespace Target

def mapExprs (f : Expr → Expr) : Target → Target
  | .name x => .name x
  | .field object x => .field (f object) x

end Target

namespace Stmt

mutual
/-- The statement with other expressions, those of definitions inside it included. -/
def mapExprs (f : Expr → Expr) : Stmt → Stmt
  | assign span target value => assign span (target.mapExprs f) (f value)
  | branch span condition body elseIf otherwise =>
    branch span (f condition) (mapBody f body) (mapElseIf f elseIf) (mapOtherwise f otherwise)
  | loop span condition body => loop span (f condition) (mapBody f body)
  | pass span => pass span
  | ret span value => ret span (f value)
  | expr value => expr (f value)
  | declare d => declare { d with value := f d.value }
  | func ⟨name, params, result, body, span⟩ => func ⟨name, params, result, mapBody f body, span⟩
  | cls ⟨name, fields, methods, span⟩ => cls ⟨name, fields, mapMethods f methods, span⟩

def mapBody (f : Expr → Expr) : List Stmt → List Stmt
  | [] => []
  | s :: ss => mapExprs f s :: mapBody f ss

def mapElseIf (f : Expr → Expr) : Option (Expr × List Stmt) → Option (Expr × List Stmt)
  | none => none
  | some (condition, body) => some (f condition, mapBody f body)

def mapOtherwise (f : Expr → Expr) : Option (List Stmt) → Option (List Stmt)
  | none => none
  | some body => some (mapBody f body)

def mapMethods (f : Expr → Expr) : List FuncDef → List FuncDef
  | [] => []
  | ⟨name, params, result, body, span⟩ :: ms =>
    ⟨name, params, result, mapBody f body, span⟩ :: mapMethods f ms
end

end Stmt

namespace FuncOf

def mapExprs (f : Expr → Expr) (g : FuncDef) : FuncDef := { g with body := Stmt.mapBody f g.body }

end FuncOf

namespace ClassOf

def mapExprs (f : Expr → Expr) (c : ClassDef) : ClassDef :=
  { c with methods := c.methods.map (·.mapExprs f) }

end ClassOf

namespace Program

def mapExprs (f : Expr → Expr) (p : Program) : Program :=
  { p with
    funcs := p.funcs.map (·.mapExprs f)
    classes := p.classes.map (·.mapExprs f)
    stmts := Stmt.mapBody f p.stmts }

def erase (p : Program) : Program := { p.mapExprs Expr.erase with ty := none }

end Program

namespace Expr

variable {s : Scope}

@[simp] theorem typed_erase (n : Note) (ty : Ty) (mk : Note → Expr) :
    typed n.erase ty mk = typed n ty mk := rfl

@[simp] theorem countArguments_map (callee : String) (params : List Ty) (args : List Expr)
    (f : Expr → Expr) (span : Span) :
    countArguments callee params (args.map f) span =
      countArguments callee params args span := by
  rw [countArguments, countArguments, List.length_map]

theorem checkArgs_map {f : Expr → Expr} {args : List Expr}
    (h : ∀ e ∈ args, (f e).check s = e.check s) (callee : String) (i : Nat) (tys : List Ty) :
    checkArgs s callee i tys (args.map f) = checkArgs s callee i tys args := by
  induction args generalizing i tys with
  | nil => rfl
  | cons e rest ih =>
    cases tys with
    | nil => rfl
    | cons ty tys =>
      have hrest := ih (fun e he => h e (List.mem_cons_of_mem _ he)) (i + 1) tys
      simp only [List.map_cons, checkArgs, h e List.mem_cons_self, hrest]

/-- Checking does not look at types that are there already. -/
theorem check_erase (s : Scope) (e : Expr) : e.erase.check s = e.check s := by
  induction e with
  | literal n l => rfl
  | name n x => rfl
  | unary n op e ih => simp only [erase, check, ih, typed_erase]
  | binary n op l r ihl ihr => simp only [erase, check, ihl, ihr, typed_erase, Note.erase_span]
  | call n callee args ih =>
    simp only [erase, check, eraseList_eq, checkArgs_map ih, countArguments_map, typed_erase,
      Note.erase_span, List.isEmpty_map, List.length_map]
  | builtin1 n fn e ih => simp only [erase, check, ih, typed_erase]
  | builtin2 n fn l r ihl ihr => simp only [erase, check, ihl, ihr, typed_erase]
  | construct n c => rfl
  | field n object f ih => simp only [erase, check, ih, typed_erase, Note.erase_span]
  | method n object m args iho iha =>
    simp only [erase, check, iho, eraseList_eq, checkArgs_map iha, countArguments_map, typed_erase,
      Note.erase_span]
  | print n args ih =>
    rcases args with _ | ⟨e, _ | ⟨e', rest⟩⟩
    · rfl
    · simp only [erase, eraseList, check, ih e List.mem_cons_self, typed_erase]
    · simp [erase, check]

end Expr

namespace Target

theorem check_mapExprs {s : Scope} {f : Expr → Expr} (hf : ∀ e, (f e).check s = e.check s)
    (actual : Ty) (span : Span) (target : Target) :
    (target.mapExprs f).check s actual span = target.check s actual span := by
  cases target with
  | name x => rfl
  | field object x => simp only [mapExprs, check, hf]

end Target

namespace Declaration

variable {s : Scope}

theorem check_value {d : Declaration} {e : Expr} (he : e.check s = d.value.check s) :
    ({ d with value := e } : Declaration).check s = d.check s := by
  simp only [check, he]

end Declaration

namespace Stmt

/-- Whether a statement is checked in the same way with other expressions. -/
def Indifferent (f : Expr → Expr) (st : Stmt) : Prop := ∀ s, (st.mapExprs f).check s = st.check s

variable {f : Expr → Expr}

theorem checkBody_mapBody {ss : List Stmt} (h : ∀ st ∈ ss, st.Indifferent f) (s : Scope) :
    checkBody s (mapBody f ss) = checkBody s ss := by
  induction ss generalizing s with
  | nil => rfl
  | cons st rest ih =>
    have hrest : ∀ s, checkBody s (mapBody f rest) = checkBody s rest :=
      ih fun st hst => h st (List.mem_cons_of_mem _ hst)
    simp only [mapBody, checkBody, h st List.mem_cons_self s, hrest]

theorem indifferent (hf : ∀ s e, (f e).check s = e.check s) (st : Stmt) : st.Indifferent f := by
  induction st with
  | assign span target value =>
    intro s
    simp only [mapExprs, check, hf, Target.check_mapExprs (hf s)]
  | branch span condition body elseIf otherwise ihb ihe iho =>
    intro s
    have helse : ∀ s, checkElseIf s (mapElseIf f elseIf) = checkElseIf s elseIf := by
      intro s
      rcases elseIf with _ | ⟨c, b⟩
      · rfl
      · simp only [mapElseIf, checkElseIf, Expr.checkCondition, hf, checkBody_mapBody (ihe c b rfl)]
    have hother : ∀ s,
        checkOtherwise s (mapOtherwise f otherwise) = checkOtherwise s otherwise := by
      intro s
      cases otherwise with
      | none => rfl
      | some b => simp only [mapOtherwise, checkOtherwise, checkBody_mapBody (iho b rfl)]
    simp only [mapExprs, check, Expr.checkCondition, hf, checkBody_mapBody ihb, helse, hother]
  | loop span condition body ih =>
    intro s
    simp only [mapExprs, check, Expr.checkCondition, hf, checkBody_mapBody ih]
  | pass span => exact fun s => rfl
  | ret span value =>
    intro s
    simp only [mapExprs, check, checkReturn, hf]
  | expr value =>
    intro s
    simp only [mapExprs, check, hf]
  | declare d =>
    intro s
    simp only [mapExprs, check, Declaration.check_value (hf s d.value)]
  | func g => exact fun s => rfl
  | cls c => exact fun s => rfl

end Stmt

/-- What is registered does not depend on the expressions. -/
theorem Registry.ofProgram_mapExprs (f : Expr → Expr) (p : Program) :
    ofProgram (p.mapExprs f) = ofProgram p := by
  have hclass : ∀ (r : Registry) (c : ClassDef), addMembers r (c.mapExprs f) = addMembers r c := by
    intro r c
    simp only [addMembers, ClassOf.mapExprs, List.foldlM_map]
    rfl
  simp only [ofProgram, Program.mapExprs, List.foldlM_map, hclass]
  rfl

namespace FuncOf

theorem check_mapExprs {r : Registry} {className : Option String} {f : Expr → Expr}
    (hf : ∀ s e, (f e).check s = e.check s) (g : FuncDef) :
    (g.mapExprs f).check r className = g.check r className := by
  have hbody : ∀ s, Stmt.checkBody s (Stmt.mapBody f g.body) = Stmt.checkBody s g.body :=
    Stmt.checkBody_mapBody fun st _ => Stmt.indifferent hf st
  simp only [check, mapExprs, hbody]
  rfl

end FuncOf

namespace ClassOf

theorem check_mapExprs {r : Registry} {f : Expr → Expr}
    (hf : ∀ s e, (f e).check s = e.check s) (c : ClassDef) :
    (c.mapExprs f).check r = c.check r := by
  simp only [check, mapExprs, List.mapM_map, Function.comp_def, FuncOf.check_mapExprs hf]

end ClassOf

namespace Program

/-- Types that are there already have no say, and neither has the type of the program's value. -/
theorem check_erase (p : Program) : p.erase.check = p.check := by
  have hf : ∀ s e, (Expr.erase e).check s = e.check s := Expr.check_erase
  have hr : Registry.ofProgram p.erase = Registry.ofProgram p :=
    Registry.ofProgram_mapExprs Expr.erase p
  have hstmts : ∀ s,
      Stmt.checkBody s (Stmt.mapBody Expr.erase p.stmts) = Stmt.checkBody s p.stmts :=
    Stmt.checkBody_mapBody fun st _ => Stmt.indifferent hf st
  simp only [check, hr]
  simp only [erase, mapExprs, List.mapM_map, Function.comp_def, FuncOf.check_mapExprs hf,
    ClassOf.check_mapExprs hf, hstmts]

end Program

end TypedScript
