import TypedScript.Proofs.Faults
import TypedScript.Typing.Stmt

/-! # How expressions and statements are checked

What the check of each form is made of: the checks of its parts, the type that it writes, and the
scope that it leaves. -/

namespace TypedScript

namespace Expr

-- The equations of `check` are made here, once for all the lemmas below.
attribute [local simp] check

variable {s : Scope} {n : Note} {ty : Ty} {e' : Expr}

theorem argument_eq_ok {callee : String} {i : Nat} {arg : Ty × Expr} {e : Expr} :
    argument callee i ty arg = .ok e ↔ arg.1 = ty ∧ arg.2 = e := by
  rw [argument]
  split
  · next h => simp [h]
  · next h => simp [h]

theorem classOf_eq_ok {object : Ty × Expr} {c : String} :
    classOf object = .ok c ↔ object.1 = .object c := by
  rw [classOf]
  split
  · next h => simp [h]
  · next h =>
    constructor
    · intro hr
      exact absurd hr reject_ne_ok
    · intro hc
      exact absurd hc (h c)

theorem countArguments_eq_ok {callee : String} {params : List Ty} {args : List Expr} {span : Span}
    {u : Unit} : countArguments callee params args span = .ok u ↔ args.length = params.length := by
  rw [countArguments]
  split
  · next h => simp [h]
  · next h => simp [h]

theorem check_literal {l : Literal} (h : (literal n l).check s = .ok (ty, e')) :
    ty = l.ty ∧ e' = literal { n with ty := some ty } l := by
  simp only [check, typed, Except.ok.injEq, Prod.mk.injEq] at h
  obtain ⟨rfl, rfl⟩ := h
  exact ⟨rfl, rfl⟩

theorem check_name {x : Name} (h : (name n x).check s = .ok (ty, e')) :
    s.nameType n.span x = .ok ty ∧ e' = name { n with ty := some ty } x := by
  simp only [check] at h
  obtain ⟨ty', hx, h⟩ := bind_eq_ok.mp h
  simp only [typed, pure_eq_ok, Except.ok.injEq, Prod.mk.injEq] at h
  obtain ⟨rfl, rfl⟩ := h
  exact ⟨hx, rfl⟩

theorem check_unary {op : UnaryOp} {e : Expr} (h : (unary n op e).check s = .ok (ty, e')) :
    ∃ tye e₁, e.check s = .ok (tye, e₁) ∧ e' = unary { n with ty := some ty } op e₁ := by
  simp only [check] at h
  obtain ⟨⟨tye, e₁⟩, he, h⟩ := bind_eq_ok.mp h
  obtain ⟨ty', -, h⟩ := bind_eq_ok.mp h
  simp only [typed, pure_eq_ok, Except.ok.injEq, Prod.mk.injEq] at h
  obtain ⟨rfl, rfl⟩ := h
  exact ⟨tye, e₁, he, rfl⟩

theorem check_binary {op : BinaryOp} {l r : Expr} (h : (binary n op l r).check s = .ok (ty, e')) :
    ∃ tyl l₁ tyr r₁, l.check s = .ok (tyl, l₁) ∧ r.check s = .ok (tyr, r₁) ∧
      e' = binary { n with ty := some ty } op l₁ r₁ := by
  simp only [check] at h
  obtain ⟨⟨tyl, l₁⟩, hl, h⟩ := bind_eq_ok.mp h
  obtain ⟨⟨tyr, r₁⟩, hr, h⟩ := bind_eq_ok.mp h
  obtain ⟨ty', -, h⟩ := bind_eq_ok.mp h
  simp only [typed, pure_eq_ok, Except.ok.injEq, Prod.mk.injEq] at h
  obtain ⟨rfl, rfl⟩ := h
  exact ⟨tyl, l₁, tyr, r₁, hl, hr, rfl⟩

/-- The call of a class is a construction without arguments, and any other call is the call of a
function with as many arguments as it has parameters. -/
theorem check_call {callee : String} {args : List Expr}
    (h : (call n callee args).check s = .ok (ty, e')) :
    (args = [] ∧ s.constructType callee n.span = .ok ty ∧
      e' = construct { n with ty := some ty } callee) ∨
    ∃ sig args', s.funcSignature callee n.span = .ok sig ∧ args.length = sig.params.length ∧
      checkArgs s callee 0 sig.params args = .ok args' ∧
      e' = call { n with ty := some ty } callee args' := by
  simp only [check] at h
  split at h
  · split at h
    · next hnil =>
      obtain ⟨ty', hc, h⟩ := bind_eq_ok.mp h
      simp only [typed, pure_eq_ok, Except.ok.injEq, Prod.mk.injEq] at h
      obtain ⟨rfl, rfl⟩ := h
      exact .inl ⟨List.isEmpty_iff.mp hnil, hc, rfl⟩
    · exact absurd h reject_ne_ok
  · obtain ⟨sig, hs, h⟩ := bind_eq_ok.mp h
    obtain ⟨⟨⟩, hn, h⟩ := bind_eq_ok.mp h
    obtain ⟨args', ha, h⟩ := bind_eq_ok.mp h
    simp only [typed, pure_eq_ok, Except.ok.injEq, Prod.mk.injEq] at h
    obtain ⟨rfl, rfl⟩ := h
    exact .inr ⟨sig, args', hs, countArguments_eq_ok.mp hn, ha, rfl⟩

theorem check_builtin1 {fn : Builtin1} {e : Expr} (h : (builtin1 n fn e).check s = .ok (ty, e')) :
    ∃ tye e₁, e.check s = .ok (tye, e₁) ∧ e' = builtin1 { n with ty := some ty } fn e₁ := by
  simp only [check] at h
  obtain ⟨⟨tye, e₁⟩, he, h⟩ := bind_eq_ok.mp h
  obtain ⟨e₂, ha, h⟩ := bind_eq_ok.mp h
  obtain ⟨-, rfl⟩ := argument_eq_ok.mp ha
  simp only [typed, pure_eq_ok, Except.ok.injEq, Prod.mk.injEq] at h
  obtain ⟨rfl, rfl⟩ := h
  exact ⟨tye, e₁, he, rfl⟩

theorem check_builtin2 {fn : Builtin2} {l r : Expr}
    (h : (builtin2 n fn l r).check s = .ok (ty, e')) :
    ∃ tyl l₁ tyr r₁, l.check s = .ok (tyl, l₁) ∧ r.check s = .ok (tyr, r₁) ∧
      e' = builtin2 { n with ty := some ty } fn l₁ r₁ := by
  simp only [check] at h
  obtain ⟨⟨tyl, l₁⟩, hl, h⟩ := bind_eq_ok.mp h
  obtain ⟨l₂, hla, h⟩ := bind_eq_ok.mp h
  obtain ⟨⟨tyr, r₁⟩, hr, h⟩ := bind_eq_ok.mp h
  obtain ⟨r₂, hra, h⟩ := bind_eq_ok.mp h
  obtain ⟨-, rfl⟩ := argument_eq_ok.mp hla
  obtain ⟨-, rfl⟩ := argument_eq_ok.mp hra
  simp only [typed, pure_eq_ok, Except.ok.injEq, Prod.mk.injEq] at h
  obtain ⟨rfl, rfl⟩ := h
  exact ⟨tyl, l₁, tyr, r₁, hl, hr, rfl⟩

theorem check_construct {c : String} (h : (construct n c).check s = .ok (ty, e')) :
    s.constructType c n.span = .ok ty ∧ e' = construct { n with ty := some ty } c := by
  simp only [check] at h
  obtain ⟨ty', hc, h⟩ := bind_eq_ok.mp h
  simp only [typed, pure_eq_ok, Except.ok.injEq, Prod.mk.injEq] at h
  obtain ⟨rfl, rfl⟩ := h
  exact ⟨hc, rfl⟩

theorem check_field {object : Expr} {f : String} (h : (field n object f).check s = .ok (ty, e')) :
    ∃ c o₁, object.check s = .ok (.object c, o₁) ∧ s.fieldType c f n.span = .ok ty ∧
      e' = field { n with ty := some ty } o₁ f := by
  simp only [check] at h
  obtain ⟨⟨tyo, o₁⟩, ho, h⟩ := bind_eq_ok.mp h
  obtain ⟨c, hc, h⟩ := bind_eq_ok.mp h
  obtain ⟨ty', hf, h⟩ := bind_eq_ok.mp h
  simp only [typed, pure_eq_ok, Except.ok.injEq, Prod.mk.injEq] at h
  obtain ⟨rfl, rfl⟩ := h
  have hty : tyo = .object c := classOf_eq_ok.mp hc
  exact ⟨c, o₁, hty ▸ ho, hf, rfl⟩

theorem check_method {object : Expr} {m : String} {args : List Expr}
    (h : (method n object m args).check s = .ok (ty, e')) :
    ∃ c o₁ sig args', object.check s = .ok (.object c, o₁) ∧
      s.methodSignature c m n.span = .ok sig ∧ args.length = (sig.params.drop 1).length ∧
      checkArgs s (c ++ "." ++ m) 0 (sig.params.drop 1) args = .ok args' ∧
      e' = method { n with ty := some ty } o₁ m args' := by
  simp only [check] at h
  obtain ⟨⟨tyo, o₁⟩, ho, h⟩ := bind_eq_ok.mp h
  obtain ⟨c, hc, h⟩ := bind_eq_ok.mp h
  obtain ⟨sig, hs, h⟩ := bind_eq_ok.mp h
  obtain ⟨⟨⟩, hn, h⟩ := bind_eq_ok.mp h
  obtain ⟨args', ha, h⟩ := bind_eq_ok.mp h
  simp only [typed, pure_eq_ok, Except.ok.injEq, Prod.mk.injEq] at h
  obtain ⟨rfl, rfl⟩ := h
  have hty : tyo = .object c := classOf_eq_ok.mp hc
  exact ⟨c, o₁, sig, args', hty ▸ ho, hs, countArguments_eq_ok.mp hn, ha, rfl⟩

theorem check_print {args : List Expr} (h : (print n args).check s = .ok (ty, e')) :
    ∃ e e₁, args = [e] ∧ e.check s = .ok (ty, e₁) ∧
      e' = print { n with ty := some ty } [e₁] := by
  rcases args with _ | ⟨e, _ | ⟨e₁, rest⟩⟩
  · simp [check] at h
  · simp only [check] at h
    obtain ⟨⟨ty', e₁⟩, he, h⟩ := bind_eq_ok.mp h
    simp only [typed, pure_eq_ok, Except.ok.injEq, Prod.mk.injEq] at h
    obtain ⟨rfl, rfl⟩ := h
    exact ⟨e, e₁, rfl, he, rfl⟩
  · simp [check] at h

theorem checkArgs_cons {callee : String} {i : Nat} {ty : Ty} {tys : List Ty} {e : Expr}
    {rest args' : List Expr} (h : checkArgs s callee i (ty :: tys) (e :: rest) = .ok args') :
    ∃ e₁ rest', e.check s = .ok (ty, e₁) ∧ checkArgs s callee (i + 1) tys rest = .ok rest' ∧
      args' = e₁ :: rest' := by
  simp only [checkArgs] at h
  obtain ⟨⟨ty', e'⟩, he, h⟩ := bind_eq_ok.mp h
  obtain ⟨e₁, ha, h⟩ := bind_eq_ok.mp h
  obtain ⟨rest', hr, h⟩ := bind_eq_ok.mp h
  simp only [pure_eq_ok, Except.ok.injEq] at h
  obtain ⟨hty, rfl⟩ := argument_eq_ok.mp ha
  exact ⟨e', rest', hty ▸ he, hr, h.symm⟩

theorem checkCondition_eq_ok_iff {s : Scope} {what : String} {e e' : Expr} :
    e.checkCondition s what = .ok e' ↔ e.check s = .ok (.bool, e') := by
  simp only [checkCondition, bind_eq_ok]
  constructor
  · rintro ⟨⟨ty, e₁⟩, he, h⟩
    split at h
    · next hty =>
      simp only [pure_eq_ok, Except.ok.injEq] at h hty
      rw [he, hty, h]
    · exact absurd h reject_ne_ok
  · intro he
    exact ⟨(.bool, e'), he, by simp⟩

end Expr

theorem Target.check_name {s : Scope} {actual : Ty} {span : Span} {x : String} {target : Target}
    (h : (name x).check s actual span = .ok target) :
    (∃ slot, s.lookup x span = .ok slot) ∧ target = .name x := by
  simp only [check] at h
  obtain ⟨slot, hx, h⟩ := bind_eq_ok.mp h
  obtain ⟨_, -, h⟩ := bind_eq_ok.mp h
  simp only [pure_eq_ok, Except.ok.injEq] at h
  exact ⟨⟨slot, hx⟩, h.symm⟩

theorem Target.check_field {s : Scope} {actual : Ty} {span : Span} {object : Expr} {f : String}
    {target : Target} (h : (field object f).check s actual span = .ok target) :
    ∃ c object' slot, object.check s = .ok (.object c, object') ∧
      s.fieldType c f span = .ok slot ∧ target = .field object' f := by
  simp only [check] at h
  obtain ⟨⟨ty, object'⟩, ho, h⟩ := bind_eq_ok.mp h
  obtain ⟨c, hc, h⟩ := bind_eq_ok.mp h
  obtain ⟨slot, hf, h⟩ := bind_eq_ok.mp h
  obtain ⟨_, -, h⟩ := bind_eq_ok.mp h
  simp only [pure_eq_ok, Except.ok.injEq] at h
  have hty : ty = .object c := Expr.classOf_eq_ok.mp hc
  exact ⟨c, object', slot, hty ▸ ho, hf, h.symm⟩

theorem Declaration.check_eq_ok {s s' : Scope} {d d' : Declaration}
    (h : d.check s = .ok (s', d')) :
    ∃ ty value, d.value.check s = .ok (ty, value) ∧ s.declare d.name d.ty d.span = .ok s' ∧
      d' = { d with value } := by
  simp only [check] at h
  obtain ⟨_, -, h⟩ := bind_eq_ok.mp h
  obtain ⟨⟨ty, value⟩, hv, h⟩ := bind_eq_ok.mp h
  split at h
  · obtain ⟨s₁, hs, h⟩ := bind_eq_ok.mp h
    simp only [pure_eq_ok, Except.ok.injEq, Prod.mk.injEq] at h
    exact ⟨ty, value, hv, h.1 ▸ hs, h.2.symm⟩
  · exact absurd h reject_ne_ok

namespace Stmt

attribute [local simp] check

variable {s s' : Scope} {span : Span} {st : Stmt} {value : Expr}

theorem check_assign {target : Target} :
    (assign span target value).check s = .ok (s', st) ↔
      ∃ ty value' target', value.check s = .ok (ty, value') ∧
        target.check s ty span = .ok target' ∧ s = s' ∧ .assign span target' value' = st := by
  simp [check, bind_eq_ok]

theorem check_branch {condition : Expr} {body : List Stmt} {elseIf : Option (Expr × List Stmt)}
    {otherwise : Option (List Stmt)} :
    (branch span condition body elseIf otherwise).check s = .ok (s', st) ↔
      ∃ condition' s₁ body' s₂ elseIf' otherwise', condition.check s = .ok (.bool, condition') ∧
        checkBody s body = .ok (s₁, body') ∧ checkElseIf s₁ elseIf = .ok (s₂, elseIf') ∧
        checkOtherwise s₂ otherwise = .ok (s', otherwise') ∧
        .branch span condition' body' elseIf' otherwise' = st := by
  simp only [check, bind_eq_ok, Prod.exists, Expr.checkCondition_eq_ok_iff, pure_eq_ok,
    Except.ok.injEq, Prod.mk.injEq]
  constructor
  · rintro ⟨c, hc, s₁, b, hb, s₂, e, he, _, o, ho, rfl, rfl⟩
    exact ⟨c, s₁, b, s₂, e, o, hc, hb, he, ho, rfl⟩
  · rintro ⟨c, s₁, b, s₂, e, o, hc, hb, he, ho, rfl⟩
    exact ⟨c, hc, s₁, b, hb, s₂, e, he, s', o, ho, rfl, rfl⟩

theorem check_loop {condition : Expr} {body : List Stmt} :
    (loop span condition body).check s = .ok (s', st) ↔
      ∃ condition' body', condition.check s = .ok (.bool, condition') ∧
        checkBody s body = .ok (s', body') ∧ .loop span condition' body' = st := by
  simp only [check, bind_eq_ok, Prod.exists, Expr.checkCondition_eq_ok_iff, pure_eq_ok,
    Except.ok.injEq, Prod.mk.injEq]
  constructor
  · rintro ⟨c, hc, _, b, hb, rfl, rfl⟩
    exact ⟨c, b, hc, hb, rfl⟩
  · rintro ⟨c, b, hc, hb, rfl⟩
    exact ⟨c, hc, s', b, hb, rfl, rfl⟩

/-- A `return` is noted in the scope, and nothing else is. -/
theorem check_ret (h : (ret span value).check s = .ok (s', st)) :
    ∃ f ty value', s.function = some f ∧ value.check s = .ok (ty, value') ∧
      s' = { s with function := some { f with returned := true } } ∧ st = .ret span value' := by
  simp only [check, checkReturn] at h
  split at h
  · exact absurd h reject_ne_ok
  · next f hf =>
    obtain ⟨⟨ty, value'⟩, hv, h⟩ := bind_eq_ok.mp h
    obtain ⟨_, -, h⟩ := bind_eq_ok.mp h
    simp only [pure_eq_ok, Except.ok.injEq, Prod.mk.injEq] at h
    exact ⟨f, ty, value', hf, hv, h.1.symm, h.2.symm⟩

theorem check_expr :
    (expr value).check s = .ok (s', st) ↔
      ∃ ty value', value.check s = .ok (ty, value') ∧ s = s' ∧ .expr value' = st := by
  simp [check, bind_eq_ok]

theorem check_declare {d : Declaration} :
    (declare d).check s = .ok (s', st) ↔
      ∃ d', d.check s = .ok (s', d') ∧ .declare d' = st := by
  simp only [check, bind_eq_ok, Prod.exists, pure_eq_ok, Except.ok.injEq, Prod.mk.injEq]
  constructor
  · rintro ⟨_, d', hd, rfl, rfl⟩
    exact ⟨d', hd, rfl⟩
  · rintro ⟨d', hd, rfl⟩
    exact ⟨s', d', hd, rfl, rfl⟩

theorem checkBody_cons {rest body : List Stmt} :
    checkBody s (st :: rest) = .ok (s', body) ↔
      ∃ s₁ st' rest', st.check s = .ok (s₁, st') ∧ checkBody s₁ rest = .ok (s', rest') ∧
        st' :: rest' = body := by
  simp only [checkBody, bind_eq_ok, Prod.exists, pure_eq_ok, Except.ok.injEq, Prod.mk.injEq]
  constructor
  · rintro ⟨s₁, st', hst, _, rest', hrest, rfl, rfl⟩
    exact ⟨s₁, st', rest', hst, hrest, rfl⟩
  · rintro ⟨s₁, st', rest', hst, hrest, rfl⟩
    exact ⟨s₁, st', hst, s', rest', hrest, rfl, rfl⟩

theorem checkElseIf_some {condition : Expr} {body : List Stmt}
    {elseIf : Option (Expr × List Stmt)} :
    checkElseIf s (some (condition, body)) = .ok (s', elseIf) ↔
      ∃ condition' body', condition.check s = .ok (.bool, condition') ∧
        checkBody s body = .ok (s', body') ∧ some (condition', body') = elseIf := by
  simp only [checkElseIf, bind_eq_ok, Prod.exists, Expr.checkCondition_eq_ok_iff, pure_eq_ok,
    Except.ok.injEq, Prod.mk.injEq]
  constructor
  · rintro ⟨c, hc, _, b, hb, rfl, rfl⟩
    exact ⟨c, b, hc, hb, rfl⟩
  · rintro ⟨c, b, hc, hb, rfl⟩
    exact ⟨c, hc, s', b, hb, rfl, rfl⟩

theorem checkOtherwise_some {body : List Stmt} {otherwise : Option (List Stmt)} :
    checkOtherwise s (some body) = .ok (s', otherwise) ↔
      ∃ body', checkBody s body = .ok (s', body') ∧ some body' = otherwise := by
  simp only [checkOtherwise, bind_eq_ok, Prod.exists, pure_eq_ok, Except.ok.injEq, Prod.mk.injEq]
  constructor
  · rintro ⟨_, b, hb, rfl, rfl⟩
    exact ⟨b, hb, rfl⟩
  · rintro ⟨b, hb, rfl⟩
    exact ⟨s', b, hb, rfl, rfl⟩

end Stmt

end TypedScript
