import TypedScript.Lowering.Program
import TypedScript.Proofs.Faults
import TypedScript.Proofs.Syntax

/-! # The code that is given

What the code of each form of expression and statement is made of. Where a value is used, `None` is
the constant zero, so that every expression has code of its own. -/

namespace TypedScript

theorem orZero_of_ne_nil {code : List Instr} (h : code ≠ []) : orZero code = code := by
  simp [orZero, h]

@[simp] theorem orZero_cons (i : Instr) (code : List Instr) : orZero (i :: code) = i :: code := rfl

@[simp] theorem orZero_append {front back : List Instr} (h : back ≠ []) :
    orZero (front ++ back) = front ++ back :=
  orZero_of_ne_nil (List.append_ne_nil_of_right_ne_nil front h)

@[simp] theorem orZero_nil : orZero [] = [.const 0] := rfl

@[simp] theorem refuse_ne_ok {α : Type} {e : LoweringError} {span : Span} {a : α} :
    refuse e span ≠ .ok a := by
  simp [refuse]

namespace Layouts

variable {ls : Layouts} {c f : String} {span : Span}

theorem get_eq_ok_iff {l : ClassLayout} : ls.get c span = .ok l ↔ ls.find? c = some l := by
  rw [get]
  cases Bindings.find? ls c with
  | none => simp
  | some l' => simp

theorem field_eq_ok_iff {slot : FieldSlot} :
    ls.field c f span = .ok slot ↔ ∃ l, ls.find? c = some l ∧ l.field? f = some slot := by
  simp only [field, bind_eq_ok, get_eq_ok_iff]
  refine exists_congr fun l => and_congr_right fun _ => ?_
  cases l.field? f with
  | none => simp
  | some slot' => simp

end Layouts

namespace Expr

-- The equations of `lower` are made here, once for all the lemmas below.
attribute [local simp] lower

variable {s : Site} {n : Note} {code : List Instr}

theorem checkedType_eq_ok_iff {e : Expr} {ty : Ty} :
    e.checkedType = .ok ty ↔ e.ty? = some ty := by
  rw [checkedType]
  cases e.ty? with
  | none => simp
  | some ty' => simp

theorem receiverClass_eq_ok_iff {object : Expr} {c : String} :
    object.receiverClass = .ok c ↔ object.ty? = some (.object c) := by
  rw [receiverClass, checkedType]
  cases object.ty? with
  | none => simp [refuse]
  | some ty => cases ty <;> simp

@[simp] theorem lowerValue_literal {l : Literal} :
    (literal n l).lowerValue s = .ok code ↔ [.const l.word] = code := by
  cases l <;> simp [lowerValue, lower, Literal.word]

@[simp] theorem lowerValue_none :
    (name n .none).lowerValue s = .ok code ↔ [.const 0] = code := by
  simp [lowerValue, lower]

@[simp] theorem lowerValue_self :
    (name n .self).lowerValue s = .ok code ↔ [s.get receiverName] = code := by
  simp [lowerValue, lower]

@[simp] theorem lowerValue_plain {x : String} :
    (name n (.plain x)).lowerValue s = .ok code ↔ [s.get x] = code := by
  simp [lowerValue, lower]

theorem lowerValue_not {e : Expr} :
    (unary n .not e).lowerValue s = .ok code ↔
      ∃ c, e.lowerValue s = .ok c ∧ c ++ [.call Symbol.notOperator] = code := by
  simp [lowerValue, lower, bind_eq_ok]

theorem lowerValue_neg {e : Expr} :
    (unary n .neg e).lowerValue s = .ok code ↔
      ∃ c, e.lowerValue s = .ok c ∧ [.const 0] ++ c ++ [.numeric .sub] = code := by
  simp [lowerValue, lower, bind_eq_ok]

theorem lowerValue_binary {op : BinaryOp} {l r : Expr} :
    (binary n op l r).lowerValue s = .ok code ↔
      ∃ cl cr, l.lowerValue s = .ok cl ∧ r.lowerValue s = .ok cr ∧
        cl ++ cr ++ [.numeric op.numeric] = code := by
  simp [lowerValue, lower, bind_eq_ok]

theorem lowerValue_builtin1 {fn : Builtin1} {e : Expr} :
    (builtin1 n fn e).lowerValue s = .ok code ↔
      ∃ c, e.lowerValue s = .ok c ∧ c ++ [.call fn.builtin.symbol] = code := by
  simp [lowerValue, lower, bind_eq_ok]

theorem lowerValue_builtin2 {fn : Builtin2} {l r : Expr} :
    (builtin2 n fn l r).lowerValue s = .ok code ↔
      ∃ cl cr, l.lowerValue s = .ok cl ∧ r.lowerValue s = .ok cr ∧
        cl ++ cr ++ [.call fn.builtin.symbol] = code := by
  simp [lowerValue, lower, bind_eq_ok]

theorem lowerValue_call {callee : String} {args : List Expr} :
    (call n callee args).lowerValue s = .ok code ↔
      ∃ cs, lowerArgs s args = .ok cs ∧ cs ++ [.call callee] = code := by
  simp [lowerValue, lower, bind_eq_ok]

theorem lowerValue_construct {c : String} :
    (construct n c).lowerValue s = .ok code ↔
      ∃ l, s.layouts.find? c = some l ∧ l.allocate = code := by
  simp [lowerValue, lower, bind_eq_ok, Layouts.get_eq_ok_iff, ClassLayout.allocate]

theorem lowerValue_field {object : Expr} {f : String} :
    (field n object f).lowerValue s = .ok code ↔
      ∃ c slot co, object.ty? = some (.object c) ∧
        (∃ l, s.layouts.find? c = some l ∧ l.field? f = some slot) ∧
        object.lowerValue s = .ok co ∧ fieldAddress co slot ++ [.load] = code := by
  simp [lowerValue, lower, bind_eq_ok, receiverClass_eq_ok_iff, Layouts.field_eq_ok_iff]

theorem lowerValue_method {object : Expr} {m : String} {args : List Expr} :
    (method n object m args).lowerValue s = .ok code ↔
      ∃ c co cs, object.ty? = some (.object c) ∧ object.lowerValue s = .ok co ∧
        lowerArgs s args = .ok cs ∧ co ++ cs ++ [.call (Symbol.method c m)] = code := by
  simp [lowerValue, lower, bind_eq_ok, receiverClass_eq_ok_iff]

theorem lowerArgs_nil : lowerArgs s [] = .ok code ↔ [] = code := by
  simp [lowerArgs]

theorem lowerArgs_cons {e : Expr} {es : List Expr} :
    lowerArgs s (e :: es) = .ok code ↔
      ∃ c cs, e.lowerValue s = .ok c ∧ lowerArgs s es = .ok cs ∧ c ++ cs = code := by
  simp [lowerArgs, lowerValue, bind_eq_ok]

theorem lowerValue_print {e : Expr} :
    (print n [e]).lowerValue s = .ok code ↔
      ∃ ty target c, e.ty? = some ty ∧ printer ty n.span = .ok target ∧
        e.lowerValue s = .ok c ∧ c ++ [.call target] = code := by
  simp [lowerValue, lower, bind_eq_ok, checkedType_eq_ok_iff]

/-- Only `None` has no code. -/
theorem lower_eq_nil {e : Expr} (h : e.lower s = .ok []) : e.isNone = true := by
  cases e with
  | literal n l => cases l <;> simp [lower, isNone] at h ⊢
  | name n x => cases x <;> simp [lower, isNone] at h ⊢
  | unary n op e => cases op <;> simp [lower, bind_eq_ok] at h
  | print n args =>
    rcases args with _ | ⟨e, _ | ⟨e', rest⟩⟩
    · simp [lower] at h
    · simp [lower, bind_eq_ok] at h
    · simp [lower] at h
  | _ => simp [lower, bind_eq_ok, ClassLayout.allocate] at h

theorem lower_of_isNone {e : Expr} (h : e.isNone = true) : e.lower s = .ok [] := by
  match e, h with
  | literal _ .none, _ => rfl
  | name _ .none, _ => rfl

/-- Code that is there is the code of the value. -/
theorem lowerValue_eq_ok_of_not_isNone {e : Expr} (h : e.isNone = false) :
    e.lowerValue s = .ok code ↔ e.lower s = .ok code := by
  simp only [lowerValue, bind_eq_ok, pure_eq_ok, Except.ok.injEq]
  constructor
  · rintro ⟨c, hc, rfl⟩
    have hne : c ≠ [] := by
      rintro rfl
      simp [lower_eq_nil hc] at h
    rwa [orZero_of_ne_nil hne]
  · intro hc
    have hne : code ≠ [] := by
      rintro rfl
      simp [lower_eq_nil hc] at h
    exact ⟨code, hc, orZero_of_ne_nil hne⟩

end Expr

namespace Site

variable {s : Site} {x : String} {code : List Instr}

theorem storeName_none {e : Expr} (h : e.isNone = true) : s.storeName x e = .ok [] := by
  simp [storeName, Expr.lower_of_isNone h]

theorem storeName_construct {n : Note} {c : String} :
    s.storeName x (.construct n c) = .ok code ↔
      ∃ l, s.layouts.find? c = some l ∧
        l.allocate ++ [s.set x] ++
          (if l.hasConstructor then
            [s.get x, .call (Symbol.method c constructorName), s.set x] else []) = code := by
  simp only [storeName, Expr.lower]
  cases hl : s.layouts.get c n.span with
  | error e =>
    have hnone : ∀ l, s.layouts.find? c ≠ some l := by
      intro l hfind
      have hget : s.layouts.get c n.span = .ok l := Layouts.get_eq_ok_iff.mpr hfind
      rw [hl] at hget
      cases hget
    simp [hnone]
  | ok l =>
    have hsome := Layouts.get_eq_ok_iff.mp hl
    have hne : l.allocate ≠ [] := by simp [ClassLayout.allocate]
    cases hk : l.hasConstructor <;> simp [hsome, hne, hk]

theorem storeName_value {e : Expr} (hn : e.isNone = false) (hc : ∀ n c, e ≠ .construct n c) :
    s.storeName x e = .ok code ↔ ∃ c, e.lowerValue s = .ok c ∧ c ++ [s.set x] = code := by
  simp only [storeName, bind_eq_ok, Expr.lowerValue_eq_ok_of_not_isNone hn]
  refine exists_congr fun c => and_congr_right fun h => ?_
  have hne : c.isEmpty = false := by
    rw [List.isEmpty_eq_false_iff]
    rintro rfl
    simp [Expr.lower_eq_nil h] at hn
  simp [hne]

end Site

namespace Target

theorem lower_field {s : Site} {span : Span} {object value : Expr} {f : String}
    {code : List Instr} :
    (field object f).lower s span value = .ok code ↔
      ∃ c slot co cv, object.ty? = some (.object c) ∧
        (∃ l, s.layouts.find? c = some l ∧ l.field? f = some slot) ∧
        object.lowerValue s = .ok co ∧ value.lowerValue s = .ok cv ∧
        Expr.fieldAddress co slot ++ cv ++ [.store] = code := by
  simp [lower, bind_eq_ok, Expr.receiverClass_eq_ok_iff, Layouts.field_eq_ok_iff]

end Target

namespace Stmt

attribute [local simp] lower

variable {s : Site} {span : Span} {code : List Instr}

theorem lower_branch {condition : Expr} {body : List Stmt} {elseIf : Option (Expr × List Stmt)}
    {otherwise : Option (List Stmt)} :
    (branch span condition body elseIf otherwise).lower s = .ok code ↔
      ∃ cb co ce cc, lowerBody s body = .ok cb ∧ lowerOtherwise s otherwise = .ok co ∧
        lowerElseIf s elseIf co = .ok ce ∧ condition.lowerValue s = .ok cc ∧
        cc ++ [.ite cb ce] = code := by
  simp [lower, bind_eq_ok]

theorem lower_loop {condition : Expr} {body : List Stmt} :
    (loop span condition body).lower s = .ok code ↔
      ∃ cc cb, condition.lowerValue s = .ok cc ∧ lowerBody s body = .ok cb ∧
        [.block [.loop (cc ++ [.eqz, .brIf 1] ++ cb ++ [.br 0])]] = code := by
  simp [lower, bind_eq_ok]

theorem lower_ret {value : Expr} :
    (ret span value).lower s = .ok code ↔
      ∃ c, value.lowerValue s = .ok c ∧ c ++ [.ret] = code := by
  simp [lower, bind_eq_ok]

theorem lower_expr {value : Expr} :
    (expr value).lower s = .ok code ↔
      ∃ c, value.lowerValue s = .ok c ∧ c ++ [.localSet Symbol.scratch] = code := by
  simp [lower, bind_eq_ok]

theorem lowerBody_nil : lowerBody s [] = .ok code ↔ [] = code := by
  simp [lowerBody]

theorem lowerBody_cons {stmt : Stmt} {rest : List Stmt} :
    lowerBody s (stmt :: rest) = .ok code ↔
      ∃ c cs, stmt.lower s = .ok c ∧ lowerBody s rest = .ok cs ∧ c ++ cs = code := by
  simp [lowerBody, bind_eq_ok]

theorem lowerBody_append {front back : List Stmt} :
    lowerBody s (front ++ back) = .ok code ↔
      ∃ cf cb, lowerBody s front = .ok cf ∧ lowerBody s back = .ok cb ∧ cf ++ cb = code := by
  induction front generalizing code with
  | nil => simp [lowerBody]
  | cons stmt front ih =>
    simp only [List.cons_append, lowerBody_cons, ih]
    constructor
    · rintro ⟨c, _, hs, ⟨cf, cb, hf, hb, rfl⟩, rfl⟩
      exact ⟨_, cb, ⟨c, cf, hs, hf, rfl⟩, hb, List.append_assoc c cf cb⟩
    · rintro ⟨_, cb, ⟨c, cf, hs, hf, rfl⟩, hb, rfl⟩
      exact ⟨c, _, hs, ⟨cf, cb, hf, hb, rfl⟩, (List.append_assoc c cf cb).symm⟩

theorem lowerElseIf_some {condition : Expr} {body : List Stmt} {otherwise : List Instr} :
    lowerElseIf s (some (condition, body)) otherwise = .ok code ↔
      ∃ cc cb, condition.lowerValue s = .ok cc ∧ lowerBody s body = .ok cb ∧
        cc ++ [.ite cb otherwise] = code := by
  simp [lowerElseIf, bind_eq_ok]

end Stmt

namespace FuncOf

def symbol (className : Option String) (f : FuncDef) : String :=
  match className with
  | some c => Symbol.method c f.name
  | none => f.name

def ending (className : Option String) (f : FuncDef) : List Instr :=
  (if className.isSome && f.name == constructorName then [.localGet receiverName, .ret] else []) ++
    [.const 0]

theorem lower_eq_ok_iff {layouts : Layouts} {className : Option String} {f : FuncDef} {g : Func} :
    FuncOf.lower layouts className f = .ok g ↔
      ∃ body, Stmt.lowerBody ⟨layouts, f.slots⟩ f.body = .ok body ∧
        { name := f.symbol className, exportName := none, params := f.params.map (·.name)
          hasResult := true, locals := Symbol.scratch :: f.declarations.map (·.name)
          body := body ++ f.ending className } = g := by
  simp only [lower, bind_eq_ok, pure_eq_ok, Except.ok.injEq, ending, List.append_assoc]
  rfl

end FuncOf

namespace Program

/-- The functions, and the methods with their classes, in the order of the emitted functions. -/
def definitions (p : Program) : List (Option String × FuncDef) :=
  p.funcs.map (none, ·) ++ p.classes.flatMap fun c => c.methods.map (some c.name, ·)

theorem mem_bodies {p : Program} {f : FuncDef} :
    f ∈ p.bodies ↔ ∃ className, (className, f) ∈ p.definitions := by
  simp only [bodies, definitions, List.mem_append, List.mem_flatMap, List.mem_map, Prod.mk.injEq,
    exists_or]
  simp

def ending (p : Program) : List Instr :=
  if p.endsWithExpr then [.localGet Symbol.scratch] else []

theorem lowerEntry_eq_ok_iff {p : Program} {layouts : Layouts} {o : Options} {g : Func} :
    p.lowerEntry layouts o = .ok g ↔
      ∃ body, Stmt.lowerBody ⟨layouts, []⟩ p.stmts = .ok body ∧
        { name := Symbol.entry, exportName := some o.entryExport, params := []
          hasResult := p.endsWithExpr, locals := [Symbol.scratch]
          body := p.vars.flatMap (·.lower) ++ body ++ p.ending } = g := by
  simp only [lowerEntry, bind_eq_ok, pure_eq_ok, Except.ok.injEq, ending]

theorem lower_eq_ok {p : Program} {o : Options} {m : Module} (h : p.lower o = .ok m) :
    ∃ funcs entry,
      p.definitions.mapM (fun d => FuncOf.lower (Layouts.ofClasses p.classes) d.1 d.2) =
        .ok funcs ∧
      p.lowerEntry (Layouts.ofClasses p.classes) o = .ok entry ∧
      m = ⟨o.imports, p.globals o, Builtin.funcs p.uses ++ funcs ++ [entry]⟩ := by
  simp only [lower, bind_eq_ok, pure_eq_ok, Except.ok.injEq] at h
  obtain ⟨funcs, hf, methods, hm, entry, he, rfl⟩ := h
  refine ⟨funcs ++ methods.flatten, entry, ?_, he, by simp⟩
  have hmethods : (p.classes.flatMap fun c => c.methods.map (some c.name, ·)).mapM
      (fun d => FuncOf.lower (Layouts.ofClasses p.classes) d.1 d.2) = .ok methods.flatten := by
    apply mapM_flatMap
    simp only [List.mapM_map, Function.comp_def]
    exact hm
  rw [definitions, List.mapM_append, hmethods, List.mapM_map]
  exact congrArg (· >>= _) hf

end Program

end TypedScript
