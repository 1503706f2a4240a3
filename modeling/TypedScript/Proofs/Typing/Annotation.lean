import TypedScript.Proofs.Typing.Erasure

/-! # Checking annotates

What comes out of the check is the program that went in, with a type on every expression and with
the calls of its classes as constructions; and it passes the check again as it is. -/

namespace TypedScript

namespace Expr

mutual
/-- The expression with the calls of the given classes as constructions. -/
def resolve (cs : List String) : Expr → Expr
  | literal n l => literal n l
  | name n x => name n x
  | unary n op e => unary n op (resolve cs e)
  | binary n op l r => binary n op (resolve cs l) (resolve cs r)
  | call n callee args =>
    if callee ∈ cs then construct n callee else call n callee (resolveList cs args)
  | builtin1 n fn e => builtin1 n fn (resolve cs e)
  | builtin2 n fn l r => builtin2 n fn (resolve cs l) (resolve cs r)
  | construct n c => construct n c
  | field n object f => field n (resolve cs object) f
  | method n object m args => method n (resolve cs object) m (resolveList cs args)
  | print n args => print n (resolveList cs args)

def resolveList (cs : List String) : List Expr → List Expr
  | [] => []
  | e :: es => resolve cs e :: resolveList cs es
end

@[simp] theorem resolveList_eq (cs : List String) (es : List Expr) :
    resolveList cs es = es.map (resolve cs) := by
  induction es with
  | nil => rfl
  | cons e es ih => rw [resolveList, ih, List.map_cons]

def Typed (e : Expr) : Prop := ∀ q ∈ e.parts, q.ty?.isSome = true

end Expr

namespace Target

def exprs : Target → List Expr
  | .name _ => []
  | .field object _ => [object]

end Target

namespace Stmt

mutual
/-- The expressions that stand in a statement, those of definitions inside it included. -/
def exprs : Stmt → List Expr
  | assign _ target value => target.exprs ++ [value]
  | branch _ condition body elseIf otherwise =>
    condition :: (bodyExprs body ++ elseIfExprs elseIf ++ otherwiseExprs otherwise)
  | loop _ condition body => condition :: bodyExprs body
  | pass _ => []
  | ret _ value => [value]
  | expr value => [value]
  | declare d => [d.value]
  | func ⟨_, _, _, body, _⟩ => bodyExprs body
  | cls ⟨_, _, methods, _⟩ => methodExprs methods

def bodyExprs : List Stmt → List Expr
  | [] => []
  | s :: ss => exprs s ++ bodyExprs ss

def elseIfExprs : Option (Expr × List Stmt) → List Expr
  | none => []
  | some (condition, body) => condition :: bodyExprs body

def otherwiseExprs : Option (List Stmt) → List Expr
  | none => []
  | some body => bodyExprs body

def methodExprs : List FuncDef → List Expr
  | [] => []
  | ⟨_, _, _, body, _⟩ :: ms => bodyExprs body ++ methodExprs ms
end

end Stmt

namespace Program

def resolve (p : Program) : Program := p.mapExprs (Expr.resolve (p.classes.map (·.name)))

def exprs (p : Program) : List Expr :=
  p.bodies.flatMap (fun f => Stmt.bodyExprs f.body) ++ Stmt.bodyExprs p.stmts

end Program

def Scope.Knows (s : Scope) (cs : List String) : Prop :=
  ∀ x, Bindings.contains s.classes x = true ↔ x ∈ cs

namespace Expr

variable {s : Scope} {cs : List String}

theorem checkArgs_map_of_ok {f : Expr → Expr} {args : List Expr}
    (hf : ∀ e ∈ args, ∀ r, e.check s = .ok r → (f e).check s = .ok r) {callee : String} {i : Nat}
    {tys : List Ty} {args' : List Expr} (h : checkArgs s callee i tys args = .ok args') :
    checkArgs s callee i tys (args.map f) = .ok args' := by
  induction args generalizing i tys args' with
  | nil => exact h
  | cons e rest ih =>
    cases tys with
    | nil => exact h
    | cons ty tys =>
      obtain ⟨e₁, rest', he, hr, rfl⟩ := checkArgs_cons h
      have hrest := ih (fun e he => hf e (List.mem_cons_of_mem _ he)) hr
      simp [checkArgs, hf e List.mem_cons_self _ he, hrest, argument]

/-- A construction is checked as the call that it was written as. -/
theorem check_resolve (hcs : s.Knows cs) (e : Expr)
    {r : Ty × Expr} (h : e.check s = .ok r) : (e.resolve cs).check s = .ok r := by
  induction e generalizing r with
  | literal n l => exact h
  | name n x => exact h
  | unary n op e ih =>
    simp only [check] at h
    obtain ⟨x, hx, h⟩ := bind_eq_ok.mp h
    simpa only [resolve, check, ih hx, ok_bind] using h
  | binary n op lhs rhs ihl ihr =>
    simp only [check] at h
    obtain ⟨x, hx, h⟩ := bind_eq_ok.mp h
    obtain ⟨y, hy, h⟩ := bind_eq_ok.mp h
    simpa only [resolve, check, ihl hx, ihr hy, ok_bind] using h
  | call n callee args ih =>
    by_cases hc : Bindings.contains s.classes callee = true
    · rw [resolve, if_pos ((hcs callee).mp hc)]
      simp only [check, hc, if_true] at h
      split at h
      · simpa only [check] using h
      · exact absurd h reject_ne_ok
    · rw [resolve, if_neg (mt (hcs callee).mpr hc), resolveList_eq]
      simp only [check, hc, Bool.false_eq_true, if_false, countArguments_map] at h ⊢
      obtain ⟨sig, hs, h⟩ := bind_eq_ok.mp h
      obtain ⟨u, hn, h⟩ := bind_eq_ok.mp h
      obtain ⟨args', ha, h⟩ := bind_eq_ok.mp h
      have hargs := checkArgs_map_of_ok (fun e he r => ih e he) ha
      simpa only [hs, ok_bind, hn, hargs] using h
  | builtin1 n fn e ih =>
    simp only [check] at h
    obtain ⟨x, hx, h⟩ := bind_eq_ok.mp h
    simpa only [resolve, check, ih hx, ok_bind] using h
  | builtin2 n fn lhs rhs ihl ihr =>
    simp only [check] at h
    obtain ⟨x, hx, h⟩ := bind_eq_ok.mp h
    obtain ⟨x', hx', h⟩ := bind_eq_ok.mp h
    obtain ⟨y, hy, h⟩ := bind_eq_ok.mp h
    simpa only [resolve, check, ihl hx, ihr hy, ok_bind, hx'] using h
  | construct n c => exact h
  | field n object f ih =>
    simp only [check] at h
    obtain ⟨x, hx, h⟩ := bind_eq_ok.mp h
    simpa only [resolve, check, ih hx, ok_bind] using h
  | method n object m args iho iha =>
    simp only [check] at h
    obtain ⟨x, hx, h⟩ := bind_eq_ok.mp h
    obtain ⟨c, hc, h⟩ := bind_eq_ok.mp h
    obtain ⟨sig, hs, h⟩ := bind_eq_ok.mp h
    obtain ⟨u, hn, h⟩ := bind_eq_ok.mp h
    obtain ⟨args', ha, h⟩ := bind_eq_ok.mp h
    have hargs := checkArgs_map_of_ok (fun e he r => iha e he) ha
    simpa only [resolve, resolveList_eq, check, countArguments_map, iho hx, ok_bind, hc, hs, hn,
      hargs] using h
  | print n args ih =>
    obtain ⟨ty, e'⟩ := r
    obtain ⟨e, e₁, rfl, he, hr⟩ := check_print h
    simp only [check, he] at h
    simpa only [resolve, resolveList, check, ih e List.mem_cons_self he] using h

/-- What checking makes of an expression: the same up to types and constructions, and all of it has
types. -/
structure Annotated (cs : List String) (e e' : Expr) : Prop where
  same : e'.erase = (e.resolve cs).erase
  typed : e'.Typed

theorem checkArgs_annotated {args : List Expr}
    (ih : ∀ a ∈ args, ∀ ty e', a.check s = .ok (ty, e') → Annotated cs a e') {callee : String}
    {i : Nat} {tys : List Ty} {args' : List Expr} (hlen : args.length = tys.length)
    (h : checkArgs s callee i tys args = .ok args') :
    args'.map erase = args.map (fun a => (a.resolve cs).erase) ∧ ∀ a ∈ args', a.Typed := by
  induction args generalizing i tys args' with
  | nil =>
    obtain rfl : args' = [] := by simpa [checkArgs] using h.symm
    simp
  | cons e rest ihr =>
    cases tys with
    | nil => simp at hlen
    | cons ty tys =>
      obtain ⟨e₁, rest', he, hr, rfl⟩ := checkArgs_cons h
      obtain ⟨hsame, htyped⟩ := ihr (fun a ha => ih a (List.mem_cons_of_mem e ha))
        (by simpa using hlen) hr
      have hann := ih e List.mem_cons_self _ _ he
      simp only [List.map_cons, hann.same, hsame, List.forall_mem_cons]
      exact ⟨trivial, hann.typed, htyped⟩

/-- An expression has its types if it has its own and the expressions directly inside it have
theirs. -/
theorem Typed.of_parts {e : Expr} (es : List Expr) (ty : e.ty?.isSome = true)
    (hes : ∀ a ∈ es, a.Typed) (h : e.parts = e :: partsList es) : e.Typed := by
  intro q hq
  rw [h, List.mem_cons, mem_partsList] at hq
  obtain rfl | ⟨a, ha, hqa⟩ := hq
  · exact ty
  · exact hes a ha q hqa

theorem check_annotated (hcs : s.Knows cs) (e : Expr)
    {ty : Ty} {e' : Expr} (h : e.check s = .ok (ty, e')) : Annotated cs e e' := by
  induction e generalizing ty e' with
  | literal n l =>
    obtain ⟨-, rfl⟩ := check_literal h
    exact ⟨rfl, .of_parts [] rfl (by simp) rfl⟩
  | name n x =>
    obtain ⟨-, rfl⟩ := check_name h
    exact ⟨rfl, .of_parts [] rfl (by simp) rfl⟩
  | unary n op e ih =>
    obtain ⟨_, e₁, he, rfl⟩ := check_unary h
    have he' := ih he
    refine ⟨by simp only [resolve, erase, he'.same]; rfl, .of_parts [e₁] rfl ?_ ?_⟩
    · simpa using he'.typed
    · simp [parts, partsList]
  | binary n op lhs rhs ihl ihr =>
    obtain ⟨_, l₁, _, r₁, hl, hr, rfl⟩ := check_binary h
    have hl' := ihl hl
    have hr' := ihr hr
    refine ⟨by simp only [resolve, erase, hl'.same, hr'.same]; rfl,
      .of_parts [l₁, r₁] rfl ?_ ?_⟩
    · simpa using ⟨hl'.typed, hr'.typed⟩
    · simp [parts, partsList]
  | call n callee args ih =>
    by_cases hc : Bindings.contains s.classes callee = true
    · simp only [check, hc, if_true] at h
      split at h
      · obtain ⟨ty', -, h⟩ := bind_eq_ok.mp h
        simp only [typed, pure_eq_ok, Except.ok.injEq, Prod.mk.injEq] at h
        obtain ⟨rfl, rfl⟩ := h
        refine ⟨?_, .of_parts [] rfl (by simp) rfl⟩
        rw [resolve, if_pos ((hcs callee).mp hc)]
        rfl
      · exact absurd h reject_ne_ok
    · obtain ⟨-, hnew, -⟩ | ⟨sig, args', -, hlen, ha, rfl⟩ := check_call h
      · obtain ⟨info, hinfo, -⟩ := bind_eq_ok.mp hnew
        exact absurd (Bindings.contains_iff.mpr ⟨info, Classes.get_eq_ok.mp hinfo⟩) hc
      · obtain ⟨hsame, htyped⟩ := checkArgs_annotated (fun a ha ty e' => ih a ha) hlen ha
        refine ⟨?_, .of_parts args' rfl htyped rfl⟩
        rw [resolve, if_neg (mt (hcs callee).mpr hc)]
        simp only [erase, eraseList_eq, resolveList_eq, hsame, List.map_map]
        rfl
  | builtin1 n fn e ih =>
    obtain ⟨_, e₁, he, rfl⟩ := check_builtin1 h
    have he' := ih he
    refine ⟨by simp only [resolve, erase, he'.same]; rfl, .of_parts [e₁] rfl ?_ ?_⟩
    · simpa using he'.typed
    · simp [parts, partsList]
  | builtin2 n fn lhs rhs ihl ihr =>
    obtain ⟨_, l₁, _, r₁, hl, hr, rfl⟩ := check_builtin2 h
    have hl' := ihl hl
    have hr' := ihr hr
    refine ⟨by simp only [resolve, erase, hl'.same, hr'.same]; rfl,
      .of_parts [l₁, r₁] rfl ?_ ?_⟩
    · simpa using ⟨hl'.typed, hr'.typed⟩
    · simp [parts, partsList]
  | construct n c =>
    obtain ⟨-, rfl⟩ := check_construct h
    exact ⟨rfl, .of_parts [] rfl (by simp) rfl⟩
  | field n object f ih =>
    obtain ⟨c, o₁, ho, -, rfl⟩ := check_field h
    have ho' := ih ho
    refine ⟨by simp only [resolve, erase, ho'.same]; rfl, .of_parts [o₁] rfl ?_ ?_⟩
    · simpa using ho'.typed
    · simp [parts, partsList]
  | method n object m args iho iha =>
    obtain ⟨c, o₁, sig, args', ho, -, hlen, ha, rfl⟩ := check_method h
    have ho' := iho ho
    obtain ⟨hsame, htyped⟩ := checkArgs_annotated (fun a ha ty e' => iha a ha) hlen ha
    refine ⟨?_, .of_parts (o₁ :: args') rfl ?_ ?_⟩
    · simp only [resolve, erase, ho'.same, eraseList_eq, resolveList_eq, hsame, List.map_map]
      rfl
    · simpa using ⟨ho'.typed, htyped⟩
    · simp [parts, partsList]
  | print n args ih =>
    obtain ⟨e, e₁, rfl, he, rfl⟩ := check_print h
    have he' := ih e List.mem_cons_self he
    refine ⟨by simp only [resolve, resolveList, erase, eraseList, he'.same]; rfl,
      .of_parts [e₁] rfl ?_ ?_⟩
    · simpa using he'.typed
    · simp [parts, partsList]

end Expr

namespace Target

variable {s : Scope}

theorem check_mapExprs_of_ok {f : Expr → Expr}
    (hf : ∀ e r, e.check s = .ok r → (f e).check s = .ok r) {actual : Ty} {span : Span}
    {target target' : Target} (h : target.check s actual span = .ok target') :
    (target.mapExprs f).check s actual span = .ok target' := by
  cases target with
  | name x => exact h
  | field object x =>
    simp only [check] at h
    obtain ⟨r, hr, h⟩ := bind_eq_ok.mp h
    simpa only [mapExprs, check, hf object r hr, ok_bind] using h

theorem check_annotated {cs : List String} (hcs : s.Knows cs) {actual : Ty} {span : Span}
    {target target' : Target} (h : target.check s actual span = .ok target') :
    target'.mapExprs Expr.erase = (target.mapExprs (Expr.resolve cs)).mapExprs Expr.erase ∧
      ∀ e ∈ target'.exprs, e.Typed := by
  cases target with
  | name x =>
    obtain ⟨-, rfl⟩ := check_name h
    exact ⟨rfl, by simp [exprs]⟩
  | field object x =>
    obtain ⟨c, o₁, slot, ho, -, rfl⟩ := check_field h
    have hobject := Expr.check_annotated hcs object ho
    exact ⟨by simp only [mapExprs, hobject.same], by simpa [exprs] using hobject.typed⟩

end Target

theorem Scope.declare_classes {s s' : Scope} {x : String} {ty : Ty} {span : Span}
    (h : s.declare x ty span = .ok s') : s'.classes = s.classes := by
  rw [declare] at h
  split at h <;>
  · obtain ⟨_, -, h⟩ := bind_eq_ok.mp h
    cases h
    rfl

/-- What checking makes of statements and leaves in scope: the same classes are known, the
statements are checked alike with their constructions, and they have come out the same up to types
and constructions, with all their types. -/
structure Annotated {α : Type} (check : Scope → α → Checked (Scope × α))
    (map : (Expr → Expr) → α → α) (exprs : α → List Expr) (cs : List String) (s s' : Scope)
    (a a' : α) : Prop where
  classes : s'.classes = s.classes
  resolved : check s (map (Expr.resolve cs) a) = .ok (s', a')
  same : map Expr.erase a' = map Expr.erase (map (Expr.resolve cs) a)
  typed : ∀ e ∈ exprs a', e.Typed

theorem Annotated.knows {α : Type} {check : Scope → α → Checked (Scope × α)}
    {map : (Expr → Expr) → α → α} {exprs : α → List Expr} {cs : List String} {s s' : Scope}
    {a a' : α} (h : Annotated check map exprs cs s s' a a') (hcs : s.Knows cs) : s'.Knows cs := by
  rw [Scope.Knows, h.classes]
  exact hcs

namespace Stmt

variable {cs : List String} {s s' : Scope}

def Annotates (cs : List String) (st : Stmt) : Prop :=
  ∀ s s' st', s.Knows cs → st.check s = .ok (s', st') →
    Annotated check mapExprs exprs cs s s' st st'

theorem checkBody_annotated {ss ss' : List Stmt}
    (ih : ∀ st ∈ ss, st.Annotates cs) (hcs : s.Knows cs) (h : checkBody s ss = .ok (s', ss')) :
    Annotated checkBody mapBody bodyExprs cs s s' ss ss' := by
  induction ss generalizing s ss' with
  | nil =>
    simp only [checkBody, Except.ok.injEq, Prod.mk.injEq] at h
    obtain ⟨rfl, rfl⟩ := h
    exact ⟨rfl, rfl, rfl, by simp [bodyExprs]⟩
  | cons st rest ihr =>
    obtain ⟨s₁, st₁, rest₂, h₁, h₂, rfl⟩ := checkBody_cons.mp h
    have hst := ih st List.mem_cons_self s s₁ st₁ hcs h₁
    have hrest := ihr (fun st' hmem => ih st' (List.mem_cons_of_mem st hmem)) (hst.knows hcs) h₂
    refine ⟨hrest.classes.trans hst.classes, ?_, ?_, ?_⟩
    · exact checkBody_cons.mpr ⟨s₁, st₁, rest₂, hst.resolved, hrest.resolved, rfl⟩
    · simp only [mapBody, hst.same, hrest.same]
    · intro e he
      simp only [bodyExprs, List.mem_append] at he
      exact he.elim (hst.typed e) (hrest.typed e)

theorem checkElseIf_annotated {elseIf elseIf' : Option (Expr × List Stmt)}
    (ih : ∀ c b, elseIf = some (c, b) → ∀ st ∈ b, st.Annotates cs) (hcs : s.Knows cs)
    (h : checkElseIf s elseIf = .ok (s', elseIf')) :
    Annotated checkElseIf mapElseIf elseIfExprs cs s s' elseIf elseIf' := by
  rcases elseIf with _ | ⟨c, b⟩
  · simp only [checkElseIf, Except.ok.injEq, Prod.mk.injEq] at h
    obtain ⟨rfl, rfl⟩ := h
    exact ⟨rfl, rfl, rfl, by simp [elseIfExprs]⟩
  · obtain ⟨c₁, b₁, hc, hb, rfl⟩ := checkElseIf_some.mp h
    have hcond := Expr.check_annotated hcs c hc
    have hbody := checkBody_annotated (ih c b rfl) hcs hb
    refine ⟨hbody.classes, ?_, ?_, ?_⟩
    · exact checkElseIf_some.mpr ⟨c₁, b₁, Expr.check_resolve hcs c hc, hbody.resolved, rfl⟩
    · simp only [mapElseIf, hcond.same, hbody.same]
    · simpa only [elseIfExprs, List.forall_mem_cons] using ⟨hcond.typed, hbody.typed⟩

theorem checkOtherwise_annotated {otherwise otherwise' : Option (List Stmt)}
    (ih : ∀ b, otherwise = some b → ∀ st ∈ b, st.Annotates cs) (hcs : s.Knows cs)
    (h : checkOtherwise s otherwise = .ok (s', otherwise')) :
    Annotated checkOtherwise mapOtherwise otherwiseExprs cs s s' otherwise otherwise' := by
  cases otherwise with
  | none =>
    simp only [checkOtherwise, Except.ok.injEq, Prod.mk.injEq] at h
    obtain ⟨rfl, rfl⟩ := h
    exact ⟨rfl, rfl, rfl, by simp [otherwiseExprs]⟩
  | some b =>
    obtain ⟨b₁, hb, rfl⟩ := checkOtherwise_some.mp h
    have hbody := checkBody_annotated (ih b rfl) hcs hb
    refine ⟨hbody.classes, ?_, ?_, hbody.typed⟩
    · exact checkOtherwise_some.mpr ⟨b₁, hbody.resolved, rfl⟩
    · simp only [mapOtherwise, hbody.same]

theorem check_annotates (st : Stmt) : st.Annotates cs := by
  induction st with
  | assign span target value =>
    intro s s' st' hcs h
    obtain ⟨ty, value₁, target₁, hv, ht, rfl, rfl⟩ := check_assign.mp h
    have hvalue := Expr.check_annotated hcs value hv
    obtain ⟨hsame, htyped⟩ := Target.check_annotated hcs ht
    refine ⟨rfl, ?_, ?_, ?_⟩
    · refine check_assign.mpr ⟨ty, value₁, target₁, Expr.check_resolve hcs value hv, ?_, rfl, rfl⟩
      exact Target.check_mapExprs_of_ok (fun e r => Expr.check_resolve hcs e) ht
    · simp only [mapExprs, hvalue.same, hsame]
    · intro e he
      simp only [exprs, List.mem_append, List.mem_singleton] at he
      obtain he | rfl := he
      · exact htyped e he
      · exact hvalue.typed
  | branch span condition body elseIf otherwise ihb ihe iho =>
    intro s s' st' hcs h
    obtain ⟨condition₁, s₁, body₁, s₂, elseIf₁, otherwise₁, hc, hb, he, ho, rfl⟩ :=
      check_branch.mp h
    have hcond := Expr.check_annotated hcs condition hc
    have hbody := checkBody_annotated ihb hcs hb
    have helse := checkElseIf_annotated ihe (hbody.knows hcs) he
    have hother := checkOtherwise_annotated iho (helse.knows (hbody.knows hcs)) ho
    refine ⟨hother.classes.trans (helse.classes.trans hbody.classes), ?_, ?_, ?_⟩
    · exact check_branch.mpr ⟨condition₁, s₁, body₁, s₂, elseIf₁, otherwise₁,
        Expr.check_resolve hcs condition hc, hbody.resolved, helse.resolved, hother.resolved, rfl⟩
    · simp only [mapExprs, hcond.same, hbody.same, helse.same, hother.same]
    · intro e he
      simp only [exprs, List.mem_cons, List.mem_append] at he
      obtain rfl | (he | he) | he := he
      · exact hcond.typed
      · exact hbody.typed e he
      · exact helse.typed e he
      · exact hother.typed e he
  | loop span condition body ih =>
    intro s s' st' hcs h
    obtain ⟨condition₁, body₁, hc, hb, rfl⟩ := check_loop.mp h
    have hcond := Expr.check_annotated hcs condition hc
    have hbody := checkBody_annotated ih hcs hb
    refine ⟨hbody.classes, ?_, ?_, ?_⟩
    · exact check_loop.mpr
        ⟨condition₁, body₁, Expr.check_resolve hcs condition hc, hbody.resolved, rfl⟩
    · simp only [mapExprs, hcond.same, hbody.same]
    · simpa only [exprs, List.forall_mem_cons] using ⟨hcond.typed, hbody.typed⟩
  | pass span =>
    intro s s' st' hcs h
    simp only [check, Except.ok.injEq, Prod.mk.injEq] at h
    obtain ⟨rfl, rfl⟩ := h
    exact ⟨rfl, rfl, rfl, by simp [exprs]⟩
  | ret span value =>
    intro s s' st' hcs h
    obtain ⟨f, ty, value₁, hf, hv, rfl, rfl⟩ := check_ret h
    have hvalue := Expr.check_annotated hcs value hv
    refine ⟨rfl, ?_, ?_, ?_⟩
    · rw [← h]
      simp only [mapExprs, check, checkReturn, hf, Expr.check_resolve hcs value hv, hv]
    · simp only [mapExprs, hvalue.same]
    · simpa only [exprs, List.forall_mem_singleton] using hvalue.typed
  | expr value =>
    intro s s' st' hcs h
    obtain ⟨ty, value₁, hv, rfl, rfl⟩ := check_expr.mp h
    have hvalue := Expr.check_annotated hcs value hv
    refine ⟨rfl, ?_, ?_, ?_⟩
    · exact check_expr.mpr ⟨ty, value₁, Expr.check_resolve hcs value hv, rfl, rfl⟩
    · simp only [mapExprs, hvalue.same]
    · simpa only [exprs, List.forall_mem_singleton] using hvalue.typed
  | declare d =>
    intro s s' st' hcs h
    obtain ⟨d₁, hd₁, rfl⟩ := check_declare.mp h
    obtain ⟨ty, value₁, hv, hs, rfl⟩ := Declaration.check_eq_ok hd₁
    have hvalue := Expr.check_annotated hcs d.value hv
    refine ⟨Scope.declare_classes hs, ?_, ?_, ?_⟩
    · refine check_declare.mpr ⟨_, ?_, rfl⟩
      rw [Declaration.check_value ((Expr.check_resolve hcs d.value hv).trans hv.symm)]
      exact hd₁
    · simp only [mapExprs, hvalue.same]
    · simpa only [exprs, List.forall_mem_singleton] using hvalue.typed
  | func g =>
    intro s s' st' hcs h
    simp only [check] at h
    exact absurd h reject_ne_ok
  | cls c =>
    intro s s' st' hcs h
    simp only [check] at h
    exact absurd h reject_ne_ok

end Stmt

namespace FuncOf

variable {r : Registry} {className : Option String}

theorem check_annotated {cs : List String} {g g' : FuncDef}
    (hcs : ∀ x, Bindings.contains r.classes x = true ↔ x ∈ cs)
    (h : g.check r className = .ok g') :
    (g.mapExprs (Expr.resolve cs)).check r className = .ok g' ∧
      g'.mapExprs Expr.erase = (g.mapExprs (Expr.resolve cs)).mapExprs Expr.erase ∧
      ∀ e ∈ Stmt.bodyExprs g'.body, e.Typed := by
  obtain ⟨ls, hl, h⟩ := bind_eq_ok.mp h
  obtain ⟨⟨s, body⟩, hb, h⟩ := bind_eq_ok.mp h
  have hbody := Stmt.checkBody_annotated (fun st _ => Stmt.check_annotates st) (by exact hcs) hb
  have hresolved : (g.mapExprs (Expr.resolve cs)).check r className = .ok g' :=
    bind_eq_ok.mpr ⟨ls, hl, bind_eq_ok.mpr ⟨(s, body), hbody.resolved, h⟩⟩
  dsimp only at h
  split at h
  · cases h
    refine ⟨hresolved, ?_, hbody.typed⟩
    simp only [mapExprs, hbody.same]
  · exact absurd h reject_ne_ok

end FuncOf

/-- Elements that are computed from others are computed from what these are made into, if each
is. -/
theorem mapM_map_of_ok {ε α β : Type} {f : α → Except ε β} {k : α → α} {xs : List α} {ys : List β}
    (hk : ∀ x y, f x = .ok y → f (k x) = .ok y) (h : xs.mapM f = .ok ys) :
    (xs.map k).mapM f = .ok ys := by
  refine mapM_of_forall₂ (List.forall₂_map_left_iff.mpr ?_)
  exact (mapM_ok h).imp hk

namespace ClassOf

variable {r : Registry}

theorem check_annotated {cs : List String} {c c' : ClassDef}
    (hcs : ∀ x, Bindings.contains r.classes x = true ↔ x ∈ cs) (h : c.check r = .ok c') :
    (c.mapExprs (Expr.resolve cs)).check r = .ok c' ∧
      c'.mapExprs Expr.erase = (c.mapExprs (Expr.resolve cs)).mapExprs Expr.erase ∧
      ∀ m ∈ c'.methods, ∀ e ∈ Stmt.bodyExprs m.body, e.Typed := by
  obtain ⟨ms, hm, h⟩ := bind_eq_ok.mp h
  cases h
  refine ⟨?_, ?_, ?_⟩
  · have hms : (c.methods.map (·.mapExprs (Expr.resolve cs))).mapM
        (FuncOf.check r (some c.name)) = .ok ms :=
      mapM_map_of_ok (fun m m' hm => (FuncOf.check_annotated hcs hm).1) hm
    exact bind_eq_ok.mpr ⟨ms, hms, rfl⟩
  · have hms := mapM_ok_map hm fun m _ m' hm => (FuncOf.check_annotated hcs hm).2.1
    simp only [mapExprs, hms, List.map_map, Function.comp_def]
  · intro m hmem
    obtain ⟨m₀, -, hm₀⟩ := mapM_ok_mem hm hmem
    exact (FuncOf.check_annotated hcs hm₀).2.2

end ClassOf

namespace Program

theorem check_annotated {p t : Program} (h : p.check = .ok t) :
    p.resolve.check = .ok t ∧ t.erase = p.resolve.erase ∧ (∀ e ∈ t.exprs, e.Typed) ∧
      t.ty.isSome = true := by
  obtain ⟨r, hr, h⟩ := bind_eq_ok.mp h
  obtain ⟨funcs, hfuncs, h⟩ := bind_eq_ok.mp h
  obtain ⟨classes, hclasses, h⟩ := bind_eq_ok.mp h
  obtain ⟨⟨s, stmts⟩, hstmts, h⟩ := bind_eq_ok.mp h
  cases h
  have hcs : ∀ x, Bindings.contains r.classes x = true ↔ x ∈ p.classes.map (·.name) := by
    intro x
    have hdescribes := (Registry.ofProgram_eq_ok hr).2
    rw [Bindings.contains_iff, List.mem_map]
    constructor
    · rintro ⟨info, hx⟩
      obtain ⟨c, hc, hn, -⟩ := (hdescribes.classes x info).mp hx
      exact ⟨c, hc, hn⟩
    · rintro ⟨c, hc, hn⟩
      exact ⟨c.info, (hdescribes.classes x c.info).mpr ⟨c, hc, hn, rfl⟩⟩
  have hbody := Stmt.checkBody_annotated (fun st _ => Stmt.check_annotates st) (by exact hcs) hstmts
  refine ⟨?_, ?_, ?_, rfl⟩
  · have hr' : Registry.ofProgram p.resolve = .ok r := (Registry.ofProgram_mapExprs _ p).trans hr
    have hfuncs' : p.resolve.funcs.mapM (FuncOf.check r none) = .ok funcs :=
      mapM_map_of_ok (fun f f' hf => (FuncOf.check_annotated hcs hf).1) hfuncs
    have hclasses' : p.resolve.classes.mapM (ClassOf.check r) = .ok classes :=
      mapM_map_of_ok (fun c c' hc => (ClassOf.check_annotated hcs hc).1) hclasses
    exact bind_eq_ok.mpr ⟨r, hr', bind_eq_ok.mpr ⟨funcs, hfuncs', bind_eq_ok.mpr ⟨classes,
      hclasses', bind_eq_ok.mpr ⟨(s, stmts), hbody.resolved, rfl⟩⟩⟩⟩
  · have hfuncs' := mapM_ok_map hfuncs fun f _ f' hf => (FuncOf.check_annotated hcs hf).2.1
    have hclasses' := mapM_ok_map hclasses fun c _ c' hc => (ClassOf.check_annotated hcs hc).2.1
    simp only [erase, resolve, mapExprs, hfuncs', hclasses', hbody.same, List.map_map,
      Function.comp_def]
  · intro e he
    simp only [exprs, bodies, List.mem_append, List.mem_flatMap] at he
    obtain ⟨f, hf | ⟨c, hc, hf⟩, he⟩ | he := he
    · obtain ⟨f₀, -, hf₀⟩ := mapM_ok_mem hfuncs hf
      exact (FuncOf.check_annotated hcs hf₀).2.2 e he
    · obtain ⟨c₀, -, hc₀⟩ := mapM_ok_mem hclasses hc
      exact (ClassOf.check_annotated hcs hc₀).2.2 f hf e he
    · exact hbody.typed e he

/-- Checking only annotates. It gives the same for a program with and without its types, faults
included. A program that passes comes out the same but for its types and for the calls of its
classes, which have become constructions; every expression in it then has a type, and it passes
again as it is. -/
theorem check_only_annotates (p : Program) :
    p.erase.check = p.check ∧
      ∀ t, p.check = .ok t →
        t.erase = p.resolve.erase ∧ (∀ e ∈ t.exprs, ∀ q ∈ e.parts, q.ty?.isSome = true) ∧
          t.ty.isSome = true ∧ t.check = .ok t := by
  refine ⟨p.check_erase, fun t ht => ?_⟩
  obtain ⟨hresolve, hsame, htyped, hty⟩ := check_annotated ht
  refine ⟨hsame, htyped, hty, ?_⟩
  calc t.check = t.erase.check := t.check_erase.symm
    _ = p.resolve.erase.check := by rw [hsame]
    _ = p.resolve.check := p.resolve.check_erase
    _ = .ok t := hresolve

/-- A field of a new object, with types on it that are wrong. -/
def mistyped : Program where
  vars := []
  funcs := []
  classes := [⟨"Point", [⟨"x", .int, .number 3, ⟨1, 1, 1⟩⟩], [], ⟨1, 1, 1⟩⟩]
  stmts := [.expr (.field ⟨⟨2, 1, 9⟩, some .none⟩ (.call ⟨⟨2, 1, 7⟩, some .bool⟩ "Point" []) "x")]
  ty := some .bool

theorem check_mistyped :
    ∃ t, mistyped.check = .ok t ∧ mistyped.erase.check = .ok t ∧ t.ty = some .int ∧
      t.stmts = [.expr (.field ⟨⟨2, 1, 9⟩, some .int⟩
        (.construct ⟨⟨2, 1, 7⟩, some (.object "Point")⟩ "Point") "x")] ∧
      t.erase = mistyped.resolve.erase ∧ t.check = .ok t := by
  obtain ⟨herase, hall⟩ := check_only_annotates mistyped
  obtain ⟨t, ht, hty, hstmts⟩ : ∃ t, mistyped.check = .ok t ∧ t.ty = some .int ∧
      t.stmts = [.expr (.field ⟨⟨2, 1, 9⟩, some .int⟩
        (.construct ⟨⟨2, 1, 7⟩, some (.object "Point")⟩ "Point") "x")] := ⟨_, rfl, rfl, rfl⟩
  obtain ⟨hsame, -, -, hagain⟩ := hall t ht
  exact ⟨t, ht, herase.trans ht, hty, hstmts, hsame, hagain⟩

end Program

end TypedScript
