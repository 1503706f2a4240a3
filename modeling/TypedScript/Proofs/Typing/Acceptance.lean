import TypedScript.Proofs.Syntax
import TypedScript.Proofs.Typing.Inversion
import TypedScript.Proofs.Typing.Registry

/-! # When an expression is accepted

A scope that says what the rules say about names gives an expression exactly the types that the
rules give it. -/

namespace TypedScript

theorem UnaryOp.check_eq_ok {op : UnaryOp} {operand : Ty × Expr} {ty : Ty} :
    op.check operand = .ok ty ↔ operand.1 = op.signature.1 ∧ op.signature.2 = ty := by
  rw [check]
  split
  · next h => simp [h]
  · next h => simp [h]

/-- The rule gives a result to operands of the types. -/
def OperandRule.Admits (tyl tyr ty : Ty) : OperandRule → Prop
  | .uniform operand result => tyl = operand ∧ tyr = operand ∧ result = ty
  | .sameType result => tyl = tyr ∧ result = ty

theorem BinaryOp.check_eq_ok {op : BinaryOp} {l r : Ty × Expr} {span : Span} {ty : Ty} :
    op.check l r span = .ok ty ↔ op.rule.Admits l.1 r.1 ty := by
  rw [check]
  cases op.rule with
  | uniform operand result =>
    by_cases hl : l.1 = operand
    · by_cases hr : r.1 = operand
      · simp [OperandRule.Admits, hl, hr]
      · simp [OperandRule.Admits, hl, hr]
    · simp [OperandRule.Admits, hl]
  | sameType result =>
    by_cases h : l.1 = r.1
    · simp [OperandRule.Admits, h]
    · simp [OperandRule.Admits, h]

theorem Scope.funcSignature_eq_ok {s : Scope} {x : String} {span : Span} {sig : Signature} :
    s.funcSignature x span = .ok sig ↔ s.globals.funcs.find? x = some sig := by
  rw [funcSignature]
  split
  · next h => simp [h]
  · next h => simp [h]

namespace Expr

def Checks (s : Scope) (e : Expr) (ty : Ty) : Prop := ∃ e', e.check s = .ok (ty, e')

-- The equations of `check` are made here, once for all the lemmas below.
attribute [local simp] check

variable {s : Scope} {n : Note} {ty : Ty}

theorem checks_literal {l : Literal} : Checks s (literal n l) ty ↔ l.ty = ty := by
  simp [Checks, typed]

theorem checks_name {x : Name} : Checks s (name n x) ty ↔ s.nameType n.span x = .ok ty := by
  simp [Checks, typed, bind_eq_ok]

theorem checks_unary {op : UnaryOp} {e : Expr} :
    Checks s (unary n op e) ty ↔ Checks s e op.signature.1 ∧ op.signature.2 = ty := by
  simp [Checks, typed, bind_eq_ok, UnaryOp.check_eq_ok]

theorem checks_binary {op : BinaryOp} {l r : Expr} :
    Checks s (binary n op l r) ty ↔
      ∃ tyl tyr, Checks s l tyl ∧ Checks s r tyr ∧ op.rule.Admits tyl tyr ty := by
  simp only [Checks, check, typed, bind_eq_ok, BinaryOp.check_eq_ok, pure_eq_ok,
    Except.ok.injEq, Prod.mk.injEq]
  constructor
  · rintro ⟨_, ⟨tyl, l'⟩, hl, ⟨tyr, r'⟩, hr, _, h, rfl, rfl⟩
    exact ⟨tyl, tyr, ⟨l', hl⟩, ⟨r', hr⟩, h⟩
  · rintro ⟨tyl, tyr, ⟨l', hl⟩, ⟨r', hr⟩, h⟩
    exact ⟨_, (tyl, l'), hl, (tyr, r'), hr, ty, h, rfl, rfl⟩

theorem checks_construct {c : String} :
    Checks s (construct n c) ty ↔ s.constructType c n.span = .ok ty := by
  simp [Checks, typed, bind_eq_ok]

/-- As many arguments as there are parameters are accepted if each has the type of its parameter. -/
theorem checkArgs_eq_ok {callee : String} {i : Nat} {tys : List Ty} {args : List Expr} :
    (args.length = tys.length ∧ ∃ args', checkArgs s callee i tys args = .ok args') ↔
      List.Forall₂ (Checks s) args tys := by
  induction args generalizing i tys with
  | nil =>
    cases tys with
    | nil => simp [checkArgs]
    | cons ty tys => simp
  | cons e rest ih =>
    cases tys with
    | nil => simp
    | cons ty tys =>
      rw [List.forall₂_cons, ← ih]
      constructor
      · rintro ⟨hlen, args', h⟩
        obtain ⟨e', rest', he, hr, -⟩ := checkArgs_cons h
        exact ⟨⟨e', he⟩, by simpa using hlen, rest', hr⟩
      · rintro ⟨⟨e', he⟩, hlen, rest', hr⟩
        refine ⟨by simpa using hlen, e' :: rest', ?_⟩
        simp [checkArgs, he, hr, argument]

theorem checks_call {callee : String} {args : List Expr} :
    Checks s (call n callee args) ty ↔
      (s.classes.contains callee = true ∧ args = [] ∧ s.constructType callee n.span = .ok ty) ∨
      s.classes.contains callee ≠ true ∧ ∃ sig, s.globals.funcs.find? callee = some sig ∧
        List.Forall₂ (Checks s) args sig.params ∧ sig.ret = ty := by
  by_cases hc : s.classes.contains callee = true
  · cases args with
    | nil => simp [Checks, typed, bind_eq_ok, hc]
    | cons e rest => simp [Checks, hc]
  · simp only [Checks, check, if_neg hc, typed, bind_eq_ok, Scope.funcSignature_eq_ok,
      countArguments_eq_ok, pure_eq_ok, Except.ok.injEq, Prod.mk.injEq]
    constructor
    · rintro ⟨_, sig, hs, -, hlen, args', ha, rfl, rfl⟩
      exact .inr ⟨hc, sig, hs, checkArgs_eq_ok.mp ⟨hlen, args', ha⟩, rfl⟩
    · rintro (⟨hc', -⟩ | ⟨-, sig, hs, hargs, rfl⟩)
      · exact absurd hc' hc
      · obtain ⟨hlen, args', ha⟩ := checkArgs_eq_ok.mpr hargs
        exact ⟨_, sig, hs, (), hlen, args', ha, rfl, rfl⟩

theorem checks_builtin1 {fn : Builtin1} {e : Expr} :
    Checks s (builtin1 n fn e) ty ↔ Checks s e .int ∧ .int = ty := by
  simp [Checks, typed, bind_eq_ok, argument_eq_ok]

theorem checks_builtin2 {fn : Builtin2} {l r : Expr} :
    Checks s (builtin2 n fn l r) ty ↔ Checks s l .int ∧ Checks s r .int ∧ .int = ty := by
  simp [Checks, typed, bind_eq_ok, argument_eq_ok]

theorem checks_field {object : Expr} {f : String} :
    Checks s (field n object f) ty ↔
      ∃ c, Checks s object (.object c) ∧ s.fieldType c f n.span = .ok ty := by
  simp only [Checks, check, typed, bind_eq_ok, classOf_eq_ok, pure_eq_ok, Except.ok.injEq,
    Prod.mk.injEq]
  constructor
  · rintro ⟨_, ⟨_, o⟩, ho, c, rfl, _, hf, rfl, rfl⟩
    exact ⟨c, ⟨o, ho⟩, hf⟩
  · rintro ⟨c, ⟨o, ho⟩, hf⟩
    exact ⟨_, (.object c, o), ho, c, rfl, ty, hf, rfl, rfl⟩

theorem checks_method {object : Expr} {m : String} {args : List Expr} :
    Checks s (method n object m args) ty ↔
      ∃ c sig, Checks s object (.object c) ∧ s.methodSignature c m n.span = .ok sig ∧
        List.Forall₂ (Checks s) args (sig.params.drop 1) ∧ sig.ret = ty := by
  simp only [Checks, check, typed, bind_eq_ok, classOf_eq_ok, countArguments_eq_ok, pure_eq_ok,
    Except.ok.injEq, Prod.mk.injEq]
  constructor
  · rintro ⟨_, ⟨_, o⟩, ho, c, rfl, sig, hs, -, hlen, args', ha, rfl, rfl⟩
    exact ⟨c, sig, ⟨o, ho⟩, hs, checkArgs_eq_ok.mp ⟨hlen, args', ha⟩, rfl⟩
  · rintro ⟨c, sig, ⟨o, ho⟩, hs, hargs, rfl⟩
    obtain ⟨hlen, args', ha⟩ := checkArgs_eq_ok.mpr hargs
    exact ⟨_, (.object c, o), ho, c, rfl, sig, hs, (), hlen, args', ha, rfl, rfl⟩

theorem checks_print {args : List Expr} :
    Checks s (print n args) ty ↔ ∃ e, args = [e] ∧ Checks s e ty := by
  rcases args with _ | ⟨e, _ | ⟨e', rest⟩⟩
  · simp [Checks]
  · simp [Checks, typed, bind_eq_ok]
  · simp [Checks]

end Expr

/-- Where no two elements have one key, the element found by its key is the one that has it. -/
theorem find?_key_eq_some {α : Type} {k : α → String} {xs : List α} (hn : (xs.map k).Nodup)
    {x : String} {a : α} : xs.find? (k · == x) = some a ↔ a ∈ xs ∧ k a = x := by
  induction xs with
  | nil => simp
  | cons b rest ih =>
    rw [List.map_cons, List.nodup_cons] at hn
    by_cases hb : k b = x
    · have hrest : ∀ c ∈ rest, k c ≠ x := fun c hc he =>
        hn.1 (by rw [hb, ← he]; exact List.mem_map_of_mem hc)
      rw [List.find?_cons_of_pos (by simpa using hb), Option.some.injEq, List.mem_cons]
      constructor
      · rintro rfl
        exact ⟨.inl rfl, hb⟩
      · rintro ⟨rfl | ha, he⟩
        · rfl
        · exact absurd he (hrest a ha)
    · rw [List.find?_cons_of_neg (by simpa using hb), ih hn.2, List.mem_cons]
      constructor
      · rintro ⟨ha, he⟩
        exact ⟨.inr ha, he⟩
      · rintro ⟨rfl | ha, he⟩
        · exact absurd he hb
        · exact ⟨ha, he⟩

namespace ClassOf

variable {c : ClassDef}

theorem field?_info {f : String} {fld : Field} (hn : (c.fields.map (·.name)).Nodup) :
    c.info.field? f = some fld ↔ ∃ d ∈ c.fields, d.name = f ∧ ⟨d.name, d.ty, d.value⟩ = fld := by
  rw [ClassInfo.field?, find?_key_eq_some (c.fields_info ▸ hn), info, List.mem_map]
  constructor
  · rintro ⟨⟨d, hd, rfl⟩, hf⟩
    exact ⟨d, hd, hf, rfl⟩
  · rintro ⟨d, hd, hf, rfl⟩
    exact ⟨⟨d, hd, rfl⟩, hf⟩

theorem method?_info {m : String} {sig : Signature} (hn : (c.methods.map (·.name)).Nodup) :
    c.info.method? m = some sig ↔ ∃ f ∈ c.methods, f.name = m ∧ f.signatureIn c.name = sig := by
  have h : c.info.method? m = some sig ↔ (m, sig) ∈ c.info.methods :=
    Bindings.find?_eq_some_iff (c.methods_info ▸ hn)
  rw [h, info, List.mem_map]
  simp only [Prod.mk.injEq]

theorem constructor?_info (hn : (c.methods.map (·.name)).Nodup) :
    (∀ sig, c.info.constructor? = some sig → sig.params.length - 1 = 0) ↔
      ∀ m ∈ c.methods, m.name = constructorName → m.params.tail = [] := by
  constructor
  · intro h m hm hc
    have hlen := h _ ((method?_info hn).mpr ⟨m, hm, hc, rfl⟩)
    rw [← List.length_eq_zero_iff]
    simpa [FuncOf.signatureIn] using hlen
  · intro h sig hs
    obtain ⟨m, hm, hc, rfl⟩ := (method?_info hn).mp hs
    simp [FuncOf.signatureIn, h m hm hc]

end ClassOf

namespace Body

def locals (before : List Declaration) : Body → List (String × Ty)
  | main => []
  | b => b.params ++ before.map fun d => (d.name, d.ty)

def globals (p : Program) (before : List Declaration) : Body → List (String × Ty)
  | main => p.vars.map (fun d => (d.name, d.ty)) ++ before.map fun d => (d.name, d.ty)
  | _ => p.vars.map fun d => (d.name, d.ty)

end Body

/-- The scope knows what the rules know behind the declarations `before` of a body. -/
structure Scope.Reflects (p : Program) (b : Body) (before : List Declaration) (s : Scope) :
    Prop where
  classes : ∀ x info, s.classes.find? x = some info ↔ ∃ c ∈ p.classes, c.name = x ∧ c.info = info
  funcs : ∀ x sig, s.globals.funcs.find? x = some sig ↔
    ∃ f ∈ p.funcs, f.name = x ∧ f.signature = sig
  locals : ∀ x ty, s.locals.find? x = some ty ↔ (x, ty) ∈ b.locals before
  globals : ∀ x ty, s.globals.vars.find? x = some ty ↔ (x, ty) ∈ b.globals p before
  receiver : s.receiver? = b.receiver?
  result : s.function.map (·.ret) = b.result?
  names : (b.taken p ++ before.map (·.name)).Nodup

theorem Program.WellDeclared.methodNames {p : Program} (hp : p.WellDeclared) {c : ClassDef}
    (hc : c ∈ p.classes) : (c.methods.map (·.name)).Nodup := by
  have hn := (List.nodup_flatMap.mp hp.symbols.of_append_right.of_append_right).1 c hc
  refine List.Nodup.of_map (Symbol.method c.name) ?_
  rwa [List.map_map]

namespace Scope

variable {p : Program} {b : Body} {before : List Declaration} {s : Scope} {span : Span}

theorem lookup_eq_ok_iff {x : String} {ty : Ty} :
    s.lookup x span = .ok ty ↔ s.locals.find? x = some ty ∨
      s.locals.find? x = none ∧ s.globals.vars.find? x = some ty := by
  rw [lookup]
  cases s.locals.find? x with
  | some ty' => simp
  | none => cases s.globals.vars.find? x <;> simp

theorem constructType_eq_ok {c : String} {ty : Ty} :
    s.constructType c span = .ok ty ↔ ∃ info, s.classes.find? c = some info ∧
      (∀ sig, info.constructor? = some sig → sig.params.length - 1 = 0) ∧ .object c = ty := by
  simp only [constructType, bind_eq_ok, Classes.get_eq_ok]
  refine exists_congr fun info => and_congr_right fun _ => ?_
  cases info.constructor? with
  | none => simp
  | some sig =>
    by_cases h : sig.params.length - 1 = 0
    · simp [h]
    · simp [h]

namespace Reflects

variable (hs : s.Reflects p b before)
include hs

theorem contains_iff (x : String) :
    s.classes.contains x = true ↔ x ∈ p.classes.map (·.name) := by
  simp [Bindings.contains_iff, hs.classes]

omit hs in
/-- At top level all variables are global. -/
theorem lookup_main {x : String} {ty : Ty} (hs : s.Reflects p .main before) :
    s.lookup x span = .ok ty ↔ Denotes p .main before x ty := by
  have hnone : s.locals.find? x = none := by
    rw [Bindings.find?_eq_none_iff (hs.locals x)]
    simp [Body.locals]
  rw [lookup_eq_ok_iff, hnone, hs.globals, Body.globals, List.mem_append]
  constructor
  · rintro (h | ⟨-, h | h⟩)
    · simp at h
    · obtain ⟨d, hd, he⟩ := List.mem_map.mp h
      cases he
      refine .global hd rfl (by simp [Body.params]) fun hb => ?_
      exact List.disjoint_of_nodup_append hs.names (List.mem_map_of_mem hd) hb
    · obtain ⟨d, hd, he⟩ := List.mem_map.mp h
      cases he
      exact .declared hd rfl (by simp [Body.params])
  · intro h
    refine .inr ⟨rfl, ?_⟩
    cases h with
    | param h => simp [Body.params] at h
    | declared hd hx _ => exact .inr (List.mem_map.mpr ⟨_, hd, by rw [hx]⟩)
    | global hd hx _ _ => exact .inl (List.mem_map.mpr ⟨_, hd, by rw [hx]⟩)

/-- Inside a function, parameters and local variables come before the global ones. -/
theorem lookup_inner {x : String} {ty : Ty} (ht : b.taken p = b.params.map (·.1))
    (hl : b.locals before = b.params ++ before.map fun d => (d.name, d.ty))
    (hg : b.globals p before = p.vars.map fun d => (d.name, d.ty)) :
    s.lookup x span = .ok ty ↔ Denotes p b before x ty := by
  have hnames := hs.names
  rw [ht] at hnames
  have hnone : s.locals.find? x = none ↔
      x ∉ b.params.map (·.1) ∧ x ∉ before.map (·.name) := by
    rw [Bindings.find?_eq_none_iff (hs.locals x), hl, List.map_append, List.mem_append, not_or,
      List.map_map]
    rfl
  rw [lookup_eq_ok_iff, hnone, hs.locals, hs.globals, hl, hg, List.mem_append]
  constructor
  · rintro ((h | h) | ⟨⟨hx, hb⟩, h⟩)
    · exact .param h
    · obtain ⟨d, hd, he⟩ := List.mem_map.mp h
      cases he
      refine .declared hd rfl fun hx => ?_
      exact List.disjoint_of_nodup_append hnames hx (List.mem_map_of_mem hd)
    · obtain ⟨d, hd, he⟩ := List.mem_map.mp h
      cases he
      exact .global hd rfl hx hb
  · intro h
    cases h with
    | param h => exact .inl (.inl h)
    | declared hd hx _ => exact .inl (.inr (List.mem_map.mpr ⟨_, hd, by rw [hx]⟩))
    | global hd hx hpar hb => exact .inr ⟨⟨hpar, hb⟩, List.mem_map.mpr ⟨_, hd, by rw [hx]⟩⟩

theorem lookup_iff {x : String} {ty : Ty} :
    s.lookup x span = .ok ty ↔ Denotes p b before x ty := by
  cases b with
  | main => exact hs.lookup_main
  | func f => exact hs.lookup_inner rfl rfl rfl
  | method c m => exact hs.lookup_inner rfl rfl rfl

theorem nameType_iff {n : Note} {x : Name} {ty : Ty} :
    s.nameType n.span x = .ok ty ↔ Expr.HasType p b before (.name n x) ty := by
  cases x with
  | self =>
    simp only [nameType, hs.receiver]
    constructor
    · intro h
      split at h
      · next c hc =>
        cases h
        exact .self hc
      · exact absurd h reject_ne_ok
    · intro h
      cases h with
      | self hc => rw [hc]
  | none =>
    constructor
    · intro h
      cases h
      exact .none
    · intro h
      cases h
      rfl
  | plain x =>
    rw [nameType, hs.lookup_iff]
    constructor
    · exact .plain
    · intro h
      cases h with
      | plain h => exact h

variable (hp : p.WellDeclared)
include hp

theorem fieldType_iff {c f : String} {ty : Ty} :
    s.fieldType c f span = .ok ty ↔
      ∃ cls ∈ p.classes, cls.name = c ∧ ∃ d ∈ cls.fields, d.name = f ∧ d.ty = ty := by
  simp only [fieldType, bind_eq_ok, Classes.get_eq_ok, hs.classes]
  constructor
  · rintro ⟨_, ⟨cls, hc, rfl, rfl⟩, h⟩
    split at h
    · next fld hf =>
      obtain ⟨d, hd, hn, rfl⟩ := (ClassOf.field?_info (hp.classes cls hc).fieldNames).mp hf
      cases h
      exact ⟨cls, hc, rfl, d, hd, hn, rfl⟩
    · exact absurd h reject_ne_ok
  · rintro ⟨cls, hc, rfl, d, hd, hn, rfl⟩
    refine ⟨cls.info, ⟨cls, hc, rfl, rfl⟩, ?_⟩
    rw [(ClassOf.field?_info (hp.classes cls hc).fieldNames).mpr ⟨d, hd, hn, rfl⟩]

theorem methodSignature_iff {c m : String} {sig : Signature} :
    s.methodSignature c m span = .ok sig ↔
      ∃ cls ∈ p.classes, cls.name = c ∧ ∃ f ∈ cls.methods, f.name = m ∧
        f.signatureIn cls.name = sig := by
  simp only [methodSignature, bind_eq_ok, Classes.get_eq_ok, hs.classes]
  constructor
  · rintro ⟨_, ⟨cls, hc, rfl, rfl⟩, h⟩
    split at h
    · next sig' hm =>
      cases h
      exact ⟨cls, hc, rfl, (ClassOf.method?_info (hp.methodNames hc)).mp hm⟩
    · exact absurd h reject_ne_ok
  · rintro ⟨cls, hc, rfl, hm⟩
    refine ⟨cls.info, ⟨cls, hc, rfl, rfl⟩, ?_⟩
    rw [(ClassOf.method?_info (hp.methodNames hc)).mpr hm]

theorem constructType_iff {c : String} {ty : Ty} :
    s.constructType c span = .ok ty ↔ p.Constructs c ∧ .object c = ty := by
  simp only [constructType_eq_ok, hs.classes]
  constructor
  · rintro ⟨_, ⟨cls, hc, rfl, rfl⟩, h, rfl⟩
    exact ⟨⟨cls, hc, rfl, (ClassOf.constructor?_info (hp.methodNames hc)).mp h⟩, rfl⟩
  · rintro ⟨⟨cls, hc, rfl, hm⟩, rfl⟩
    exact ⟨_, ⟨cls, hc, rfl, rfl⟩, (ClassOf.constructor?_info (hp.methodNames hc)).mpr hm, rfl⟩

end Reflects

end Scope

namespace Expr

variable {p : Program} {b : Body} {before : List Declaration} {s : Scope}

theorem binary_iff {n : Note} {op : BinaryOp} {l r : Expr} {ty : Ty} :
    (∃ tyl tyr, HasType p b before l tyl ∧ HasType p b before r tyr ∧
      op.rule.Admits tyl tyr ty) ↔ HasType p b before (.binary n op l r) ty := by
  constructor
  · rintro ⟨tyl, tyr, hl, hr, h⟩
    cases op with
    | add | sub | mul | floorDiv | mod =>
      obtain ⟨rfl, rfl, rfl⟩ := h
      exact .arithmetic (by simp) hl hr
    | less | lessEqual | greater | greaterEqual =>
      obtain ⟨rfl, rfl, rfl⟩ := h
      exact .comparison (by simp) hl hr
    | equal | notEqual =>
      obtain ⟨rfl, rfl⟩ := h
      exact .equality (by simp) hl hr
    | is =>
      obtain ⟨rfl, rfl, rfl⟩ := h
      exact .is hl hr
  · intro h
    cases h with
    | arithmetic hop hl hr =>
      have hrule : op.rule = .uniform .int .int := by
        simp only [List.mem_cons, List.not_mem_nil, or_false] at hop
        rcases hop with rfl | rfl | rfl | rfl | rfl <;> rfl
      rw [hrule]
      exact ⟨_, _, hl, hr, rfl, rfl, rfl⟩
    | comparison hop hl hr =>
      have hrule : op.rule = .uniform .int .bool := by
        simp only [List.mem_cons, List.not_mem_nil, or_false] at hop
        rcases hop with rfl | rfl | rfl | rfl <;> rfl
      rw [hrule]
      exact ⟨_, _, hl, hr, rfl, rfl, rfl⟩
    | equality hop hl hr =>
      have hrule : op.rule = .sameType .bool := by
        simp only [List.mem_cons, List.not_mem_nil, or_false] at hop
        rcases hop with rfl | rfl <;> rfl
      rw [hrule]
      exact ⟨_, _, hl, hr, rfl, rfl⟩
    | is hl hr => exact ⟨_, _, hl, hr, rfl, rfl, rfl⟩

theorem forall₂_checks {args : List Expr}
    (ih : ∀ a ∈ args, ∀ ty, Checks s a ty ↔ HasType p b before a ty) {tys : List Ty} :
    List.Forall₂ (Checks s) args tys ↔ List.Forall₂ (HasType p b before) args tys := by
  induction args generalizing tys with
  | nil => simp
  | cons e rest ihr =>
    cases tys with
    | nil => simp
    | cons ty tys =>
      rw [List.forall₂_cons, List.forall₂_cons, ih e List.mem_cons_self,
        ihr fun a ha => ih a (List.mem_cons_of_mem e ha)]

/-- An expression is accepted with the types that the rules give it. -/
theorem checks_iff (hp : p.WellDeclared) (hs : s.Reflects p b before) (e : Expr) :
    ∀ ty, Checks s e ty ↔ HasType p b before e ty := by
  induction e with
  | literal n l =>
    intro ty
    rw [checks_literal]
    constructor
    · rintro rfl
      exact .literal (Literal.hasType_iff.mpr rfl)
    · intro h
      cases h with
      | literal h => exact (Literal.hasType_iff.mp h).symm
  | name n x =>
    intro ty
    rw [checks_name, hs.nameType_iff]
  | unary n op e ih =>
    intro ty
    rw [checks_unary, ih]
    cases op with
    | not =>
      constructor
      · rintro ⟨he, rfl⟩
        exact .not he
      · intro h
        cases h with
        | not he => exact ⟨he, rfl⟩
    | neg =>
      constructor
      · rintro ⟨he, rfl⟩
        exact .neg he
      · intro h
        cases h with
        | neg he => exact ⟨he, rfl⟩
  | binary n op l r ihl ihr =>
    intro ty
    simp only [checks_binary, ihl, ihr]
    exact binary_iff
  | call n callee args ih =>
    intro ty
    simp only [checks_call, ne_eq, hs.contains_iff, hs.constructType_iff hp, hs.funcs,
      forall₂_checks ih]
    constructor
    · rintro (⟨-, rfl, hc, rfl⟩ | ⟨hc, _, ⟨f, hf, rfl, rfl⟩, hargs, rfl⟩)
      · exact .constructCall hc
      · exact .call hf hc hargs
    · intro h
      cases h with
      | call hf hc hargs => exact .inr ⟨hc, _, ⟨_, hf, rfl, rfl⟩, hargs, rfl⟩
      | constructCall hc =>
        obtain ⟨cls, hcls, rfl, -⟩ := id hc
        exact .inl ⟨List.mem_map_of_mem hcls, rfl, hc, rfl⟩
  | builtin1 n fn e ih =>
    intro ty
    rw [checks_builtin1, ih]
    constructor
    · rintro ⟨he, rfl⟩
      exact .builtin1 he
    · intro h
      cases h with
      | builtin1 he => exact ⟨he, rfl⟩
  | builtin2 n fn l r ihl ihr =>
    intro ty
    rw [checks_builtin2, ihl, ihr]
    constructor
    · rintro ⟨hl, hr, rfl⟩
      exact .builtin2 hl hr
    · intro h
      cases h with
      | builtin2 hl hr => exact ⟨hl, hr, rfl⟩
  | construct n c =>
    intro ty
    rw [checks_construct, hs.constructType_iff hp]
    constructor
    · rintro ⟨hc, rfl⟩
      exact .construct hc
    · intro h
      cases h with
      | construct hc => exact ⟨hc, rfl⟩
  | field n object f ih =>
    intro ty
    simp only [checks_field, ih, hs.fieldType_iff hp]
    constructor
    · rintro ⟨_, ho, cls, hc, rfl, d, hd, rfl, rfl⟩
      exact .field hc hd ho
    · intro h
      cases h with
      | field hc hd ho => exact ⟨_, ho, _, hc, rfl, _, hd, rfl, rfl⟩
  | method n object m args iho iha =>
    intro ty
    simp only [checks_method, iho, hs.methodSignature_iff hp, forall₂_checks iha]
    constructor
    · rintro ⟨_, _, ho, ⟨cls, hc, rfl, f, hf, rfl, rfl⟩, hargs, rfl⟩
      exact .method hc hf ho hargs
    · intro h
      cases h with
      | method hc hm ho hargs => exact ⟨_, _, ho, ⟨_, hc, rfl, _, hm, rfl, rfl⟩, hargs, rfl⟩
  | print n args ih =>
    intro ty
    rw [checks_print]
    constructor
    · rintro ⟨e, rfl, he⟩
      exact .print ((ih e List.mem_cons_self ty).mp he)
    · intro h
      cases h with
      | print he => exact ⟨_, rfl, (ih _ List.mem_cons_self ty).mpr he⟩

end Expr

end TypedScript
