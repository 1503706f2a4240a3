import TypedScript.Proofs.Lowering.Emitted
import TypedScript.Proofs.Typing.Widening

/-! # Declarations in front of the statements

A variable with a literal value may be declared among the global variables, behind all of them, or
by the first statement. The module is the same. As a global variable it is known in functions and
classes too, but what was accepted without it is not checked otherwise because of it. -/

namespace TypedScript

namespace VarDef

def toStmt (v : VarDef) (note : Note) (span : Span) : Stmt :=
  .declare ⟨v.name, v.ty, .literal note v.value, span⟩

theorem lower_toStmt (v : VarDef) (note : Note) (span : Span) (layouts : Layouts) :
    (v.toStmt note span).lower ⟨layouts, []⟩ = .ok v.lower := by
  obtain ⟨name, ty, value, _⟩ := v
  cases value <;> rfl

end VarDef

namespace Program

def withVar (p : Program) (v : VarDef) : Program := { p with vars := p.vars ++ [v] }

/-- The program with one more statement, in front of the others, that declares the variable. -/
def withDeclaration (p : Program) (v : VarDef) (note : Note) (span : Span) : Program :=
  { p with stmts := v.toStmt note span :: p.stmts }

variable {p : Program} {v : VarDef} {note : Note} {span : Span}

/-! ## The code -/

theorem endsWithExpr_withDeclaration :
    (p.withDeclaration v note span).endsWithExpr = p.endsWithExpr := by
  simp only [endsWithExpr, withDeclaration]
  cases p.stmts with
  | nil => rfl
  | cons st rest => rw [List.getLast?_cons_cons]

theorem uses_withDeclaration : (p.withDeclaration v note span).uses = p.uses := by
  funext b
  simp [uses, parts, withDeclaration, bodies, Stmt.partsBody, VarDef.toStmt, Stmt.parts, Expr.parts,
    Expr.builtin?]

theorem globals_withDeclaration (o : Options) :
    (p.withDeclaration v note span).globals o = (p.withVar v).globals o := by
  simp [globals, withDeclaration, withVar, VarDef.toStmt, Stmt.bodyDeclarations, Stmt.declarations]

theorem lowerEntry_withDeclaration (layouts : Layouts) (o : Options) :
    (p.withDeclaration v note span).lowerEntry layouts o = (p.withVar v).lowerEntry layouts o := by
  simp only [lowerEntry, endsWithExpr_withDeclaration]
  have hbody : Stmt.lowerBody ⟨layouts, []⟩ (p.withDeclaration v note span).stmts =
      (v.lower ++ ·) <$> Stmt.lowerBody ⟨layouts, []⟩ p.stmts := by
    rw [withDeclaration, Stmt.lowerBody, v.lower_toStmt note span layouts]
    rfl
  rw [hbody]
  have hstmts : (p.withVar v).stmts = p.stmts := rfl
  have hends : (p.withVar v).endsWithExpr = p.endsWithExpr := rfl
  rw [hstmts, hends]
  cases Stmt.lowerBody ⟨layouts, []⟩ p.stmts with
  | error e => rfl
  | ok body => simp [withVar, withDeclaration, Functor.map, Except.map, bind, Except.bind]

/-- Both programs have the same code, whether they are accepted or not. -/
theorem lower_withDeclaration (o : Options) :
    (p.withDeclaration v note span).lower o = (p.withVar v).lower o := by
  have huses : (p.withVar v).uses = p.uses := rfl
  simp only [lower, lowerEntry_withDeclaration, globals_withDeclaration, uses_withDeclaration,
    huses]
  rfl

/-- Whether there is code does not depend on the options. -/
theorem lower_isOk_of_options {o : Options} {m : Module} (h : p.lower o = .ok m) (o' : Options) :
    ∃ m', p.lower o' = .ok m' := by
  simp only [lower, bind_eq_ok, lowerEntry_eq_ok_iff] at h
  obtain ⟨funcs, hf, methods, hm, entry, ⟨body, hb, -⟩, -⟩ := h
  simp only [lower, bind_eq_ok, lowerEntry_eq_ok_iff]
  exact ⟨_, funcs, hf, methods, hm, _, ⟨body, hb, rfl⟩, rfl⟩

/-! ## The check -/

theorem valueType_toStmt (v : VarDef) (note : Note) (span : Span) (ss : List Stmt) :
    valueType (v.toStmt note span :: ss) = valueType ss := by
  cases ss with
  | nil => rfl
  | cons st rest => rw [valueType, List.getLast?_cons_cons, valueType]

theorem ofProgram_withVar :
    Registry.ofProgram (p.withVar v) = Registry.ofProgram p >>= fun r => r.addVar v := by
  simp only [Registry.ofProgram, withVar, List.foldlM_append, List.foldlM_cons, List.foldlM_nil,
    bind_pure, bind_assoc]

end Program

theorem Classes.validate_of_span {cs : Classes} {ty : Ty} {span span' : Span} {u : Unit}
    (h : cs.validate ty span = .ok u) : cs.validate ty span' = .ok () := by
  cases ty with
  | object c =>
    rw [validate] at h ⊢
    split at h
    · next hc => rw [if_pos hc]
    · exact absurd h reject_ne_ok
  | int => rfl
  | bool => rfl
  | none => rfl

/-- No literal is an object, so that a declaration takes no more literals than a global variable. -/
theorem Literal.isObject_ty (l : Literal) : l.ty.isObject = false := by
  cases l <;> rfl

/-- Where a variable can be declared at the head of the statements, it can be a global variable, and
then the statements behind are in the same scope. -/
theorem Registry.addVar_of_check {r : Registry} {v : VarDef} {note : Note} {span : Span} {s : Scope}
    {st : Stmt} (h : (v.toStmt note span).check r.topLevel = .ok (s, st)) :
    ∃ r', r.addVar v = .ok r' ∧ r.Wider r' ∧ s = r'.topLevel ∧
      st = v.toStmt { note with ty := some v.value.ty } span := by
  obtain ⟨d, hd, rfl⟩ := Stmt.check_declare.mp h
  simp only [Declaration.check, Expr.check, Expr.typed, ok_bind, Literal.isObject_ty,
    Bool.and_false, Bool.or_false] at hd
  obtain ⟨_, hvalid, hd⟩ := bind_eq_ok.mp hd
  split at hd
  · next haccepts =>
    obtain ⟨s', hdeclare, hd⟩ := bind_eq_ok.mp hd
    obtain ⟨g, hg, hs⟩ := bind_eq_ok.mp hdeclare
    rw [Globals.declareVar] at hg
    split at hg
    · exact absurd hg reject_ne_ok
    · next hnew =>
      cases hg
      cases hs
      cases hd
      refine ⟨{ r with globals := { r.globals with vars := r.globals.vars.insert v.name v.ty } },
        ?_, ⟨fun _ => rfl, fun _ => rfl, ?_⟩, rfl, rfl⟩
      · have hknown : r.classes.validate v.ty v.span = .ok () := Classes.validate_of_span hvalid
        rw [addVar, hknown, ok_bind]
        exact bind_eq_ok.mpr ⟨(), if_pos haccepts, bind_eq_ok.mpr ⟨_, if_neg hnew, rfl⟩⟩
      · intro x ty hx
        have hne : x ≠ v.name := by
          intro heq
          exact hnew (Bindings.contains_iff.mpr ⟨ty, heq ▸ hx⟩)
        rw [Bindings.find?_insert_of_ne _ _ hne]
        exact hx
  · exact absurd hd reject_ne_ok

namespace Program

variable {p : Program} {v : VarDef} {note : Note} {span : Span}

/-- What is accepted with the variable declared by the first statement is accepted with the variable
among the global ones, and the types that are filled in are the same. -/
theorem check_withVar {t : Program} (h : (p.withDeclaration v note span).check = .ok t) :
    ∃ (q : Program) (note' : Note), t = q.withDeclaration v note' span ∧
      (p.withVar v).check = .ok (q.withVar v) := by
  obtain ⟨r, hreg, h⟩ := bind_eq_ok.mp h
  obtain ⟨funcs, hf, h⟩ := bind_eq_ok.mp h
  obtain ⟨classes, hc, h⟩ := bind_eq_ok.mp h
  obtain ⟨⟨s, stmts⟩, hs, h⟩ := bind_eq_ok.mp h
  obtain ⟨s₁, st, rest, hfirst, hrest, rfl⟩ := Stmt.checkBody_cons.mp hs
  obtain ⟨r', hadd, hwider, rfl, rfl⟩ := Registry.addVar_of_check hfirst
  have hreg' : Registry.ofProgram (p.withVar v) = .ok r' :=
    ofProgram_withVar.trans (bind_eq_ok.mpr ⟨r, hreg, hadd⟩)
  have hf' := Checked.Within.mapM (hwider.func_check none) p.funcs funcs hf
  have hc' := Checked.Within.mapM hwider.class_check p.classes classes hc
  refine ⟨{ p with funcs, classes, stmts := rest, ty := some (valueType rest) },
    { note with ty := some v.value.ty }, ?_, ?_⟩
  · simp only [pure_eq_ok, Except.ok.injEq] at h
    rw [← h, valueType_toStmt]
    rfl
  · rw [check, hreg', ok_bind]
    refine bind_eq_ok.mpr ⟨funcs, hf', bind_eq_ok.mpr ⟨classes, hc', ?_⟩⟩
    exact bind_eq_ok.mpr ⟨(s, rest), hrest, rfl⟩

/-- A variable that a program declares with a literal by its first statement may as well be declared
as the last of the global variables: if the program is accepted, with whatever options, then so is
the other one, and with all options both have the same module. -/
theorem compile_withVar (h : ∃ o m, (p.withDeclaration v note span).compile o = .ok m)
    (o : Options) :
    ∃ m, (p.withVar v).compile o = .ok m ∧ (p.withDeclaration v note span).compile o = .ok m := by
  obtain ⟨o', m', hcompile⟩ := h
  obtain ⟨t, hcheck, hlower⟩ := compile_eq_ok_iff.mp hcompile
  obtain ⟨q, note', rfl, hcheck'⟩ := check_withVar hcheck
  obtain ⟨m, hm⟩ := lower_isOk_of_options hlower o
  refine ⟨m, compile_eq_ok_iff.mpr ⟨_, hcheck', ?_⟩, compile_eq_ok_iff.mpr ⟨_, hcheck, hm⟩⟩
  rw [← lower_withDeclaration]
  exact hm

/-- Reads a global variable in a function whose own variable has the name of another one. -/
def shadowing : Program :=
  let note : Note := ⟨default, none⟩
  { vars := [⟨"n", .int, .number 1, default⟩]
    funcs := [{
      name := "next", params := [], ret := .int, span := default
      body := [
        .declare ⟨"last", .int, .name note (.plain "n"), default⟩,
        .ret default (.name note (.plain "last"))] }]
    classes := [⟨"Point", [⟨"x", .int, .number 3, default⟩], [], default⟩]
    stmts := [
      .assign default (.name "last") (.call note "Point" []),
      .expr (.binary note .add (.call note "next" [])
        (.field note (.name note (.plain "last")) "x"))]
    ty := none }

theorem compile_shadowing :
    ∃ m, (shadowing.withVar ⟨"last", .object "Point", .none, default⟩).compile {} = .ok m ∧
      (shadowing.withDeclaration ⟨"last", .object "Point", .none, default⟩ ⟨default, none⟩
        default).compile {} = .ok m := by
  have hok : ((shadowing.withDeclaration ⟨"last", .object "Point", .none, default⟩ ⟨default, none⟩
      default).compile {}).toOption.isSome = true := by
    decide +kernel
  cases hm : (shadowing.withDeclaration ⟨"last", .object "Point", .none, default⟩ ⟨default, none⟩
      default).compile {} with
  | error e => simp [hm, Except.toOption] at hok
  | ok m =>
    obtain ⟨m', hvar, hdeclared⟩ := compile_withVar ⟨{}, m, hm⟩ {}
    exact ⟨m', hvar, hm.symm.trans hdeclared⟩

end Program

end TypedScript
