import TypedScript.Proofs.Syntax
import TypedScript.Proofs.Typing.Inversion
import TypedScript.Proofs.Typing.Registry

/-! # Checking elaborates

A program that is checked comes out elaborated: the scope at each statement stays inside the
vocabulary of its body, so whatever is looked up in the scope is found in the vocabulary. -/

namespace TypedScript

namespace Scope

/-- Everything in scope belongs to the vocabulary. -/
structure Within (v : Vocabulary) (s : Scope) : Prop where
  locals : ∀ x, s.locals.contains x = true → x ∈ v.locals
  globals : ∀ x, s.globals.vars.contains x = true → x ∈ v.globals
  funcs : ∀ x sig, s.globals.funcs.find? x = some sig → (x, sig.params.length) ∈ v.funcs
  classes : ∀ x info, s.classes.find? x = some info → info.head x ∈ v.classes
  methods : ∀ h ∈ v.classes, ∀ m ∈ h.methods, 0 < m.2
  receiver : ∀ c, s.receiver? = some c → receiverName ∈ v.locals
  returns : s.function.isSome = v.returns

variable {v : Vocabulary} {s : Scope} {span : Span}

theorem Within.lookup {x : String} {ty : Ty} (hw : s.Within v) (h : s.lookup x span = .ok ty) :
    v.HasVar x := by
  unfold Scope.lookup at h
  split at h
  · next hx => exact .inl (hw.locals x (Bindings.contains_iff.mpr ⟨_, hx⟩))
  · split at h
    · next hx => exact .inr (hw.globals x (Bindings.contains_iff.mpr ⟨_, hx⟩))
    · exact absurd h reject_ne_ok

theorem Within.fieldType {c f : String} {ty : Ty} (hw : s.Within v)
    (h : s.fieldType c f span = .ok ty) : v.HasField c f := by
  obtain ⟨info, hi, h⟩ := bind_eq_ok.mp h
  refine ⟨info.head c, hw.classes c info (Classes.get_eq_ok.mp hi), rfl, ?_⟩
  split at h
  · next d hd =>
    have hn : d.name = f := by simpa using List.find?_some hd
    exact List.mem_map.mpr ⟨d, List.mem_of_find?_eq_some hd, hn⟩
  · exact absurd h reject_ne_ok

theorem mem_head_of_method? {info : ClassInfo} {c m : String} {sig : Signature}
    (h : info.method? m = some sig) : (m, sig.params.length) ∈ (info.head c).methods := by
  have hm : (m, sig) ∈ info.methods := by
    unfold ClassInfo.method? at h
    obtain ⟨l₁, l₂, hl, -⟩ := List.lookup_eq_some_iff.mp h
    rw [hl]
    simp
  exact List.mem_map.mpr ⟨(m, sig), hm, rfl⟩

theorem Within.methodSignature {c m : String} {sig : Signature} (hw : s.Within v)
    (h : s.methodSignature c m span = .ok sig) :
    v.HasMethod c m ((sig.params.drop 1).length + 1) := by
  obtain ⟨info, hi, h⟩ := bind_eq_ok.mp h
  have hc := hw.classes c info (Classes.get_eq_ok.mp hi)
  split at h
  · next sig' hs =>
    rw [Except.ok.injEq] at h
    subst h
    have hm := mem_head_of_method? (c := c) hs
    have hpos := hw.methods _ hc _ hm
    refine ⟨info.head c, hc, rfl, ?_⟩
    rw [List.length_drop, Nat.sub_add_cancel hpos]
    exact hm
  · exact absurd h reject_ne_ok

theorem Within.constructType {c : String} {ty : Ty} (hw : s.Within v)
    (h : s.constructType c span = .ok ty) : v.Constructs c := by
  obtain ⟨info, hi, h⟩ := bind_eq_ok.mp h
  have hc := hw.classes c info (Classes.get_eq_ok.mp hi)
  refine ⟨info.head c, hc, rfl, ?_⟩
  intro hctor
  split at h
  · next sig hs =>
    have hm := mem_head_of_method? (c := c) hs
    have hpos := hw.methods _ hc _ hm
    simp only at h hpos
    split at h
    · next hextra =>
      have hone : sig.params.length = 1 := by omega
      rwa [hone] at hm
    · exact absurd h reject_ne_ok
  · next hs =>
    obtain ⟨q, hq, hn⟩ := List.mem_map.mp hctor
    obtain ⟨m, hm, rfl⟩ := List.mem_map.mp hq
    have hne := List.lookup_eq_none_iff.mp hs m hm
    simp only [bne_iff_ne, ne_eq] at hne
    exact absurd hn.symm hne

end Scope

namespace Expr

variable {v : Vocabulary} {s : Scope}

/-- Checking an expression elaborates it and writes its type on it. -/
def Elaborates (v : Vocabulary) (s : Scope) (e : Expr) : Prop :=
  ∀ ty e', e.check s = .ok (ty, e') → e'.Elaborated v ∧ e'.ty? = some ty

theorem checkArgs_elaborated {callee : String} {args : List Expr}
    (ih : ∀ a ∈ args, Elaborates v s a) {i : Nat} {tys : List Ty} {args' : List Expr}
    (hlen : args.length = tys.length) (h : checkArgs s callee i tys args = .ok args') :
    args'.length = args.length ∧ ∀ a ∈ args', a.Elaborated v := by
  induction args generalizing i tys args' with
  | nil =>
    have hnil : args' = [] := by simpa [checkArgs] using h.symm
    simp [hnil]
  | cons e rest ihr =>
    cases tys with
    | nil => simp at hlen
    | cons ty tys =>
      obtain ⟨e', rest', he, hr, rfl⟩ := checkArgs_cons h
      obtain ⟨hl, hm⟩ := ihr (fun a ha => ih a (List.mem_cons_of_mem e ha))
        (by simpa using hlen) hr
      refine ⟨by simp [hl], ?_⟩
      intro a ha
      rcases List.mem_cons.mp ha with rfl | ha
      · exact (ih e List.mem_cons_self _ _ he).1
      · exact hm a ha

theorem check_elaborates (hw : s.Within v) (e : Expr) : Elaborates v s e := by
  induction e with
  | literal n l =>
    intro ty e' h
    obtain ⟨-, rfl⟩ := check_literal h
    exact ⟨.literal, rfl⟩
  | name n x =>
    intro ty e' h
    obtain ⟨hx, rfl⟩ := check_name h
    refine ⟨?_, rfl⟩
    cases x with
    | self =>
      simp only [Scope.nameType] at hx
      split at hx
      · next c hc => exact .self (hw.receiver c hc)
      · exact absurd hx reject_ne_ok
    | none => exact .none
    | plain x => exact .plain (hw.lookup hx)
  | unary n op e ih =>
    intro ty e' h
    obtain ⟨_, e₁, he, rfl⟩ := check_unary h
    exact ⟨.unary (ih _ _ he).1, rfl⟩
  | binary n op l r ihl ihr =>
    intro ty e' h
    obtain ⟨_, l₁, _, r₁, hl, hr, rfl⟩ := check_binary h
    exact ⟨.binary (ihl _ _ hl).1 (ihr _ _ hr).1, rfl⟩
  | call n callee args ih =>
    intro ty e' h
    rcases check_call h with ⟨-, hc, rfl⟩ | ⟨sig, args', hs, hlen, ha, rfl⟩
    · exact ⟨.construct (hw.constructType hc), rfl⟩
    · obtain ⟨hlen', hm⟩ := checkArgs_elaborated ih hlen ha
      refine ⟨.call ?_ hm, rfl⟩
      unfold Scope.funcSignature at hs
      split at hs
      · next sig' hf =>
        rw [Except.ok.injEq] at hs
        subst hs
        rw [hlen', hlen]
        exact hw.funcs callee sig' hf
      · exact absurd hs reject_ne_ok
  | builtin1 n fn e ih =>
    intro ty e' h
    obtain ⟨_, e₁, he, rfl⟩ := check_builtin1 h
    exact ⟨.builtin1 (ih _ _ he).1, rfl⟩
  | builtin2 n fn l r ihl ihr =>
    intro ty e' h
    obtain ⟨_, l₁, _, r₁, hl, hr, rfl⟩ := check_builtin2 h
    exact ⟨.builtin2 (ihl _ _ hl).1 (ihr _ _ hr).1, rfl⟩
  | construct n c =>
    intro ty e' h
    obtain ⟨hc, rfl⟩ := check_construct h
    exact ⟨.construct (hw.constructType hc), rfl⟩
  | field n object f ih =>
    intro ty e' h
    obtain ⟨c, o₁, ho, hf, rfl⟩ := check_field h
    obtain ⟨hoe, hot⟩ := ih _ _ ho
    exact ⟨.field hot (hw.fieldType hf) hoe, rfl⟩
  | method n object m args iho iha =>
    intro ty e' h
    obtain ⟨c, o₁, sig, args', ho, hs, hlen, ha, rfl⟩ := check_method h
    obtain ⟨hlen', hm⟩ := checkArgs_elaborated iha hlen ha
    obtain ⟨hoe, hot⟩ := iho _ _ ho
    refine ⟨.method hot ?_ hoe hm, rfl⟩
    rw [hlen', hlen]
    exact hw.methodSignature hs
  | print n args ih =>
    intro ty e' h
    obtain ⟨e, e₁, rfl, he, rfl⟩ := check_print h
    obtain ⟨hee, het⟩ := ih e (by simp) _ _ he
    exact ⟨.print het hee, rfl⟩

end Expr

namespace Scope

variable {v : Vocabulary} {s s' : Scope}

theorem Within.declare {x : String} {ty : Ty} {span : Span} (hw : s.Within v)
    (hx : v.Declares x) (h : s.declare x ty span = .ok s') : s'.Within v := by
  unfold Scope.declare at h
  split at h
  · next f hf =>
    obtain ⟨ls, hl, h⟩ := bind_eq_ok.mp h
    simp only [pure_eq_ok, Except.ok.injEq] at h
    unfold Locals.declare at hl
    split at hl
    · exact absurd hl reject_ne_ok
    · simp only [Except.ok.injEq] at hl
      subst hl h
      have hr : v.returns = true := by rw [← hw.returns, hf]; rfl
      refine ⟨?_, hw.globals, hw.funcs, hw.classes, hw.methods, hw.receiver, hw.returns⟩
      intro y hy
      rcases Bindings.contains_insert.mp hy with rfl | hy
      · simpa [Vocabulary.Declares, hr] using hx
      · exact hw.locals y hy
  · next hf =>
    obtain ⟨g, hg, h⟩ := bind_eq_ok.mp h
    simp only [pure_eq_ok, Except.ok.injEq] at h
    unfold Globals.declareVar at hg
    split at hg
    · exact absurd hg reject_ne_ok
    · simp only [Except.ok.injEq] at hg
      subst hg h
      have hr : v.returns = false := by rw [← hw.returns, hf]; rfl
      refine ⟨hw.locals, ?_, hw.funcs, hw.classes, hw.methods, hw.receiver, hw.returns⟩
      intro y hy
      rcases Bindings.contains_insert.mp hy with rfl | hy
      · simpa [Vocabulary.Declares, hr] using hx
      · exact hw.globals y hy

theorem Within.returned {f : FuncScope} (hw : s.Within v) (hf : s.function = some f) :
    Within v { s with function := some { f with returned := true } } := by
  refine ⟨hw.locals, hw.globals, hw.funcs, hw.classes, hw.methods, ?_, ?_⟩
  · intro c hc
    exact hw.receiver c (by simpa [receiver?, hf] using hc)
  · rw [← hw.returns, hf]
    rfl

end Scope

theorem Vocabulary.Declares.hasVar {v : Vocabulary} {x : String} (h : v.Declares x) :
    v.HasVar x := by
  unfold Declares at h
  split at h
  · exact .inl h
  · exact .inr h

namespace Target

theorem check_elaborated {v : Vocabulary} {s : Scope} {actual : Ty} {span : Span}
    {target target' : Target} (hw : s.Within v) (h : target.check s actual span = .ok target') :
    target'.Elaborated v := by
  cases target with
  | name x =>
    obtain ⟨⟨slot, hx⟩, rfl⟩ := check_name h
    exact .name (hw.lookup hx)
  | field object f =>
    obtain ⟨c, o₁, slot, ho, hf, rfl⟩ := check_field h
    obtain ⟨hoe, hot⟩ := Expr.check_elaborates hw object _ _ ho
    exact .field hot (hw.fieldType hf) hoe

end Target

namespace Stmt

variable {v : Vocabulary}

/-- Checking a statement elaborates it, keeps what it declares and stays inside the vocabulary. -/
def Elaborates (v : Vocabulary) (st : Stmt) : Prop :=
  ∀ s s' st', s.Within v → (∀ x ∈ st.declarations.map (·.name), v.Declares x) →
    st.check s = .ok (s', st') →
    st'.Elaborated v ∧ s'.Within v ∧ st'.declarations.map (·.name) = st.declarations.map (·.name)

theorem checkBody_elaborated {ss ss' : List Stmt} {s s' : Scope}
    (ih : ∀ st ∈ ss, Elaborates v st) (hw : s.Within v)
    (hd : ∀ x ∈ (bodyDeclarations ss).map (·.name), v.Declares x)
    (h : checkBody s ss = .ok (s', ss')) :
    (∀ st ∈ ss', st.Elaborated v) ∧ s'.Within v ∧
      (bodyDeclarations ss').map (·.name) = (bodyDeclarations ss).map (·.name) := by
  induction ss generalizing s ss' with
  | nil =>
    simp only [checkBody, Except.ok.injEq, Prod.mk.injEq] at h
    obtain ⟨rfl, rfl⟩ := h
    exact ⟨by simp, hw, rfl⟩
  | cons st rest ihr =>
    obtain ⟨s₁, st₁, rest₂, h₁, h₂, rfl⟩ := checkBody_cons.mp h
    simp only [bodyDeclarations, List.map_append, List.mem_append] at hd ⊢
    obtain ⟨he, hw₁, hn⟩ := ih st List.mem_cons_self s s₁ st₁ hw (fun x hx => hd x (.inl hx)) h₁
    obtain ⟨her, hw₂, hnr⟩ := ihr (fun st' hst => ih st' (List.mem_cons_of_mem st hst)) hw₁
      (fun x hx => hd x (.inr hx)) h₂
    refine ⟨?_, hw₂, by rw [hn, hnr]⟩
    intro st' hst
    rcases List.mem_cons.mp hst with rfl | hst
    · exact he
    · exact her st' hst

theorem check_elaborates (st : Stmt) : Elaborates v st := by
  induction st with
  | assign span target value =>
    intro s s' st' hw hd h
    obtain ⟨ty, value₁, target₁, hv, ht, rfl, rfl⟩ := check_assign.mp h
    exact ⟨.assign (Target.check_elaborated hw ht) (Expr.check_elaborates hw value _ _ hv).1,
      hw, rfl⟩
  | branch span condition body elseIf otherwise ihb ihe iho =>
    intro s s' st' hw hd h
    obtain ⟨condition₁, s₁, body₁, s₂, elseIf₁, otherwise₁, hc, hb, he, ho, rfl⟩ :=
      check_branch.mp h
    simp only [declarations, List.map_append, List.mem_append] at hd
    obtain ⟨hbe, hw₁, hbn⟩ :=
      checkBody_elaborated ihb hw (fun x hx => hd x (.inl (.inl hx))) hb
    have helse : (∀ c b, elseIf₁ = some (c, b) → c.Elaborated v) ∧
        (∀ c b, elseIf₁ = some (c, b) → ∀ st ∈ b, st.Elaborated v) ∧ s₂.Within v ∧
        (elseIfDeclarations elseIf₁).map (·.name) = (elseIfDeclarations elseIf).map (·.name) := by
      rcases elseIf with _ | ⟨c, b⟩
      · simp only [checkElseIf, Except.ok.injEq, Prod.mk.injEq] at he
        obtain ⟨rfl, rfl⟩ := he
        exact ⟨by simp, by simp, hw₁, rfl⟩
      · obtain ⟨c₁, b₁, hc₁, hb₁, rfl⟩ := checkElseIf_some.mp he
        obtain ⟨hbe₁, hw₂, hbn₁⟩ :=
          checkBody_elaborated (ihe c b rfl) hw₁ (fun x hx => hd x (.inl (.inr hx))) hb₁
        refine ⟨?_, ?_, hw₂, hbn₁⟩
        · rintro _ _ ⟨⟩
          exact (Expr.check_elaborates hw₁ c _ _ hc₁).1
        · rintro _ _ ⟨⟩
          exact hbe₁
    obtain ⟨hec, heb, hw₂, hen⟩ := helse
    have hother : (∀ b, otherwise₁ = some b → ∀ st ∈ b, st.Elaborated v) ∧ s'.Within v ∧
        (otherwiseDeclarations otherwise₁).map (·.name) =
          (otherwiseDeclarations otherwise).map (·.name) := by
      cases otherwise with
      | none =>
        simp only [checkOtherwise, Except.ok.injEq, Prod.mk.injEq] at ho
        obtain ⟨rfl, rfl⟩ := ho
        exact ⟨by simp, hw₂, rfl⟩
      | some b =>
        obtain ⟨b₁, hb₁, rfl⟩ := checkOtherwise_some.mp ho
        obtain ⟨hbe₁, hw₃, hbn₁⟩ :=
          checkBody_elaborated (iho b rfl) hw₂ (fun x hx => hd x (.inr hx)) hb₁
        refine ⟨?_, hw₃, hbn₁⟩
        rintro _ ⟨⟩
        exact hbe₁
    obtain ⟨hob, hw₃, hon⟩ := hother
    refine ⟨.branch (Expr.check_elaborates hw condition _ _ hc).1 hbe hec heb hob, hw₃, ?_⟩
    simp only [declarations, List.map_append, hbn, hen, hon]
  | loop span condition body ih =>
    intro s s' st' hw hd h
    obtain ⟨condition₁, body₁, hc, hb, rfl⟩ := check_loop.mp h
    obtain ⟨hbe, hw₁, hbn⟩ := checkBody_elaborated ih hw hd hb
    exact ⟨.loop (Expr.check_elaborates hw condition _ _ hc).1 hbe, hw₁, hbn⟩
  | pass span =>
    intro s s' st' hw hd h
    simp only [check, Except.ok.injEq, Prod.mk.injEq] at h
    obtain ⟨rfl, rfl⟩ := h
    exact ⟨.pass, hw, rfl⟩
  | ret span value =>
    intro s s' st' hw hd h
    obtain ⟨f, ty, value₁, hf, hv, rfl, rfl⟩ := check_ret h
    have hr : v.returns = true := by rw [← hw.returns, hf]; rfl
    exact ⟨.ret hr (Expr.check_elaborates hw value _ _ hv).1, hw.returned hf, rfl⟩
  | expr value =>
    intro s s' st' hw hd h
    obtain ⟨ty, value₁, hv, rfl, rfl⟩ := check_expr.mp h
    exact ⟨.expr (Expr.check_elaborates hw value _ _ hv).1, hw, rfl⟩
  | declare d =>
    intro s s' st' hw hd h
    obtain ⟨d₁, hd₁, rfl⟩ := check_declare.mp h
    obtain ⟨ty, value₁, hv, hs, rfl⟩ := Declaration.check_eq_ok hd₁
    have hx : v.Declares d.name := hd d.name (by simp [declarations])
    exact ⟨.declare hx.hasVar (Expr.check_elaborates hw d.value _ _ hv).1, hw.declare hx hs, rfl⟩
  | func f =>
    intro s s' st' hw hd h
    simp only [check] at h
    exact absurd h reject_ne_ok
  | cls c =>
    intro s s' st' hw hd h
    simp only [check] at h
    exact absurd h reject_ne_ok

end Stmt

namespace FuncOf

variable {p : Program} {r : Registry} {className : Option String} {f f' : FuncDef}

/-- The parameters are the local variables in front of a body. -/
theorem paramLocals_find? {ls : Locals} (h : f.paramLocals className = .ok ls) (x : String)
    (ty : Ty) :
    Bindings.find? ls x = some ty ↔ ∃ q ∈ f.params, q.name = x ∧ paramType className q = ty := by
  suffices key : ∀ x ty, Bindings.find? ls x = some ty ↔
      ∃ q ∈ f.params, q.name = x ∧ paramType className q = ty from key x ty
  refine foldlM_ok (fun done ls => ∀ x ty, Bindings.find? ls x = some ty ↔
    ∃ q ∈ (done : List Param), q.name = x ∧ paramType className q = ty)
    (by simp [Bindings.find?]) ?_ h
  intro done q rest c c' _ hd hc y ty
  unfold Locals.declare at hc
  split at hc
  · exact absurd hc reject_ne_ok
  · next hnew =>
    simp only [Except.ok.injEq] at hc
    subst hc
    rw [Bindings.find?_insert_of_fresh hnew, hd]
    simp [or_and_right, exists_or]

theorem paramLocals_contains {ls : Locals} (h : f.paramLocals className = .ok ls) (x : String)
    (hx : Bindings.contains ls x = true) : x ∈ f.params.map (·.name) := by
  obtain ⟨ty, hty⟩ := Bindings.contains_iff.mp hx
  obtain ⟨q, hq, hn, -⟩ := (paramLocals_find? h x ty).mp hty
  exact List.mem_map.mpr ⟨q, hq, hn⟩

theorem check_elaborated (hr : r.Records p)
    (hself : className.isSome = true → receiverName ∈ f.params.map (·.name))
    (h : f.check r className = .ok f') :
    f'.outline = f.outline ∧ ∀ st ∈ f'.body, st.Elaborated (p.vocabulary (some f)) := by
  obtain ⟨ls, hl, h⟩ := bind_eq_ok.mp h
  obtain ⟨⟨s, body⟩, hb, h⟩ := bind_eq_ok.mp h
  have hw : Scope.Within (p.vocabulary (some f))
      ⟨r.globals, r.classes, ls, some ⟨f.name, className, f.ret, false⟩⟩ := by
    refine ⟨?_, ?_, hr.funcs, ?_, ?_, ?_, rfl⟩
    · intro x hx
      exact List.mem_append_left _ (paramLocals_contains hl x hx)
    · intro x hx
      exact List.mem_append_left _ (hr.vars x hx)
    · intro x info hx
      obtain ⟨c, hc, -, hh⟩ := hr.classes x info hx
      exact List.mem_map.mpr ⟨c, hc, hh.symm⟩
    · exact hr.methods_pos
    · intro c hc
      have hsome : className = some c := hc
      exact List.mem_append_left _ (hself (by rw [hsome]; rfl))
  have hd : ∀ x ∈ (Stmt.bodyDeclarations f.body).map (·.name),
      (p.vocabulary (some f)).Declares x := by
    intro x hx
    exact List.mem_append_right _ hx
  obtain ⟨he, -, hn⟩ :=
    Stmt.checkBody_elaborated (fun st _ => Stmt.check_elaborates st) hw hd hb
  dsimp only at h
  split at h
  · simp only [pure_eq_ok, Except.ok.injEq] at h
    subst h
    refine ⟨?_, he⟩
    simp only [outline, slots, declarations, hn]
  · exact absurd h reject_ne_ok

end FuncOf

namespace ClassOf

theorem check_elaborated {p : Program} {r : Registry} {c c' : ClassDef} (hr : r.Records p)
    (hc : c ∈ p.classes) (h : c.check r = .ok c') :
    c'.outline = c.outline ∧ ∀ m' ∈ c'.methods, ∃ m ∈ c.methods, m'.outline = m.outline ∧
      ∀ st ∈ m'.body, st.Elaborated (p.vocabulary (some m)) := by
  obtain ⟨ms, hm, h⟩ := bind_eq_ok.mp h
  simp only [pure_eq_ok, Except.ok.injEq] at h
  subst h
  constructor
  · simp only [outline]
    rw [mapM_ok_map hm fun m hmem m' hcheck =>
      (FuncOf.check_elaborated hr (fun _ => hr.receivers c hc m hmem) hcheck).1]
  · intro m' hm'
    obtain ⟨m, hmem, hcheck⟩ := mapM_ok_mem hm hm'
    exact ⟨m, hmem, FuncOf.check_elaborated hr (fun _ => hr.receivers c hc m hmem) hcheck⟩

end ClassOf

namespace Stmt

theorem check_isExpr {s s' : Scope} {st st' : Stmt} (h : st.check s = .ok (s', st')) :
    (∃ e, st' = .expr e) ↔ ∃ e, st = .expr e := by
  cases st with
  | expr value =>
    obtain ⟨ty, value', -, -, rfl⟩ := check_expr.mp h
    simp
  | assign span target value =>
    obtain ⟨_, _, _, -, -, -, rfl⟩ := check_assign.mp h
    simp
  | branch span condition body elseIf otherwise =>
    obtain ⟨_, _, _, _, _, _, -, -, -, -, rfl⟩ := check_branch.mp h
    simp
  | loop span condition body =>
    obtain ⟨_, _, -, -, rfl⟩ := check_loop.mp h
    simp
  | pass span =>
    simp only [check, Except.ok.injEq, Prod.mk.injEq] at h
    simp [← h.2]
  | ret span value =>
    obtain ⟨_, _, _, -, -, -, rfl⟩ := check_ret h
    simp
  | declare d =>
    obtain ⟨_, -, rfl⟩ := check_declare.mp h
    simp
  | func f => exact absurd h (by simp [check])
  | cls c => exact absurd h (by simp [check])

theorem checkBody_getLast? {s s' : Scope} {ss ss' : List Stmt}
    (h : checkBody s ss = .ok (s', ss')) :
    (∃ e, ss'.getLast? = some (.expr e)) ↔ ∃ e, ss.getLast? = some (.expr e) := by
  induction ss generalizing s ss' with
  | nil =>
    simp only [checkBody, Except.ok.injEq, Prod.mk.injEq] at h
    simp [← h.2]
  | cons st rest ih =>
    obtain ⟨s₁, st₁, rest₂, h₁, h₂, rfl⟩ := checkBody_cons.mp h
    cases rest with
    | nil =>
      simp only [checkBody, Except.ok.injEq, Prod.mk.injEq] at h₂
      simpa [← h₂.2] using check_isExpr h₁
    | cons st' rest' =>
      obtain ⟨_, a, as, -, -, rfl⟩ := checkBody_cons.mp h₂
      rw [List.getLast?_cons_cons, List.getLast?_cons_cons]
      exact ih h₂

end Stmt

namespace Program

theorem endsWithExpr_iff {p : Program} :
    p.endsWithExpr = true ↔ ∃ e, p.stmts.getLast? = some (.expr e) := by
  unfold endsWithExpr
  split
  · next e he => simp [he]
  · next hne => simpa using fun e he => hne e he

/-- The programs differ at most in what stands inside their expressions and statements. -/
structure SameOutline (p t : Program) : Prop where
  vars : t.vars = p.vars
  funcs : t.funcs.map FuncOf.outline = p.funcs.map FuncOf.outline
  classes : t.classes.map ClassOf.outline = p.classes.map ClassOf.outline
  declared : (Stmt.bodyDeclarations t.stmts).map (·.name) =
    (Stmt.bodyDeclarations p.stmts).map (·.name)
  endsWithExpr : t.endsWithExpr = p.endsWithExpr

namespace SameOutline

variable {p t : Program}

theorem funcHeads (h : SameOutline p t) : t.funcs.map FuncOf.head = p.funcs.map FuncOf.head := by
  have hm := congrArg (List.map fun o => (o.1, o.2.1.length)) h.funcs
  rwa [List.map_map, List.map_map] at hm

theorem classHeads (h : SameOutline p t) :
    t.classes.map ClassOf.head = p.classes.map ClassOf.head := by
  have hm := congrArg (List.map fun o => (⟨o.1, o.2.1.map (·.name),
    o.2.2.map fun m => (m.1, m.2.1.length)⟩ : ClassHead)) h.classes
  simp only [List.map_map, Function.comp_def, ClassOf.outline] at hm
  exact hm

theorem symbols (h : SameOutline p t) : t.symbols = p.symbols := by
  have hf := congrArg (List.map fun o => o.1) h.funcs
  have hc := congrArg (List.flatMap fun o => o.2.2.map fun m => Symbol.method o.1 m.1) h.classes
  simp only [List.map_map, List.flatMap_map] at hf hc
  simp only [Program.symbols]
  congr 1
  simpa [ClassOf.outline, FuncOf.outline, Function.comp_def] using hc

theorem bodies (h : SameOutline p t) :
    t.bodies.map FuncOf.outline = p.bodies.map FuncOf.outline := by
  have hc := congrArg (List.flatMap fun o => o.2.2) h.classes
  simp only [List.flatMap_map, ClassOf.outline] at hc
  simp only [Program.bodies, List.map_append, List.map_flatMap, h.funcs, hc]

theorem globalNames (h : SameOutline p t) : t.globalNames = p.globalNames := by
  rw [Program.globalNames, Program.globalNames, h.vars, h.declared]

theorem names (h : SameOutline p t) : t.names = p.names := by
  have hc := congrArg (List.map fun o => o.1) h.classes
  have hb := congrArg (List.flatMap fun o => o.1 :: o.2.2) h.bodies
  simp only [List.map_map, List.flatMap_map, Function.comp_def, ClassOf.outline,
    FuncOf.outline] at hc hb
  simp only [Program.names, h.globalNames, hc, hb]

theorem dotless (h : SameOutline p t) (hd : p.Dotless) : t.Dotless := by
  rw [Dotless, h.names]
  exact hd

theorem vocabulary (h : SameOutline p t) {f f' : Option FuncDef}
    (hf : f'.map FuncOf.outline = f.map FuncOf.outline) : t.vocabulary f' = p.vocabulary f := by
  have hs := congrArg (Option.map fun o => o.2.2) hf
  have hr := congrArg Option.isSome hf
  simp only [Option.map_map, Function.comp_def, FuncOf.outline, Option.isSome_map] at hs hr
  simp only [Program.vocabulary, h.funcHeads, h.classHeads, h.globalNames, hr,
    Vocabulary.mk.injEq, and_true]
  exact congrArg (Option.getD · []) hs

end SameOutline

theorem topLevel_within {p : Program} {r : Registry} (hr : r.Records p) :
    Scope.Within (p.vocabulary none) r.topLevel := by
  refine ⟨?_, ?_, hr.funcs, ?_, ?_, ?_, rfl⟩
  · intro x hx
    exact absurd hx (by simp [Registry.topLevel])
  · intro x hx
    exact List.mem_append_left _ (hr.vars x hx)
  · intro x info hx
    obtain ⟨c, hc, -, hh⟩ := hr.classes x info hx
    exact List.mem_map.mpr ⟨c, hc, hh.symm⟩
  · exact hr.methods_pos
  · intro c hc
    exact absurd hc (by simp [Scope.receiver?, Registry.topLevel])

theorem check_sameOutline {p t : Program} (h : p.check = .ok t) : SameOutline p t := by
  obtain ⟨r, hreg, h⟩ := bind_eq_ok.mp h
  obtain ⟨funcs, hf, h⟩ := bind_eq_ok.mp h
  obtain ⟨classes, hc, h⟩ := bind_eq_ok.mp h
  obtain ⟨⟨s, stmts⟩, hs, h⟩ := bind_eq_ok.mp h
  simp only [pure_eq_ok, Except.ok.injEq] at h
  subst h
  have hr := Registry.ofProgram_records hreg
  obtain ⟨-, -, hn⟩ := Stmt.checkBody_elaborated (fun st _ => Stmt.check_elaborates st)
    (topLevel_within hr) (fun x hx => List.mem_append_right _ hx) hs
  refine ⟨rfl, ?_, ?_, hn, ?_⟩
  · exact mapM_ok_map hf fun f _ f' hcheck => (FuncOf.check_elaborated hr (by simp) hcheck).1
  · exact mapM_ok_map hc fun c hmem c' hcheck => (ClassOf.check_elaborated hr hmem hcheck).1
  · rw [Bool.eq_iff_iff, endsWithExpr_iff, endsWithExpr_iff]
    exact Stmt.checkBody_getLast? hs

theorem check_elaborated {p t : Program} (h : p.check = .ok t) : t.Elaborated := by
  have same := check_sameOutline h
  obtain ⟨r, hreg, h⟩ := bind_eq_ok.mp h
  obtain ⟨funcs, hf, h⟩ := bind_eq_ok.mp h
  obtain ⟨classes, hc, h⟩ := bind_eq_ok.mp h
  obtain ⟨⟨s, stmts⟩, hs, h⟩ := bind_eq_ok.mp h
  simp only [pure_eq_ok, Except.ok.injEq] at h
  have hr := Registry.ofProgram_records hreg
  have hbodies : ∀ f' ∈ t.bodies, ∃ f, f'.outline = f.outline ∧
      ∀ st ∈ f'.body, st.Elaborated (p.vocabulary (some f)) := by
    intro f' hf'
    subst h
    rcases List.mem_append.mp hf' with hf' | hf'
    · obtain ⟨f, -, hcheck⟩ := mapM_ok_mem hf hf'
      exact ⟨f, FuncOf.check_elaborated hr (by simp) hcheck⟩
    · obtain ⟨c', hc', hm'⟩ := List.mem_flatMap.mp hf'
      obtain ⟨c, hmem, hcheck⟩ := mapM_ok_mem hc hc'
      obtain ⟨m, -, hm⟩ := (ClassOf.check_elaborated hr hmem hcheck).2 f' hm'
      exact ⟨m, hm⟩
  refine ⟨?_, ?_, ?_, ?_, ?_⟩
  · have hn := hr.classNames
    have hm := congrArg (List.map fun o => o.1) same.classes
    rw [List.map_map, List.map_map] at hm
    rwa [show p.classes.map (·.name) = t.classes.map (·.name) from hm.symm] at hn
  · rw [same.symbols]
    exact hr.symbols
  · intro c' hc' m' hm'
    subst h
    obtain ⟨c, hmem, hcheck⟩ := mapM_ok_mem hc hc'
    obtain ⟨m, hm, ho, -⟩ := (ClassOf.check_elaborated hr hmem hcheck).2 m' hm'
    have hp : m'.params = m.params := congrArg (fun o => o.2.1) ho
    rw [hp]
    exact hr.receivers c hmem m hm
  · intro f' hf' st hst
    obtain ⟨f, ho, he⟩ := hbodies f' hf'
    have hv : t.vocabulary (some f') = p.vocabulary (some f) := same.vocabulary (congrArg some ho)
    rw [hv]
    exact he st hst
  · intro st hst
    have hv : t.vocabulary none = p.vocabulary none := same.vocabulary rfl
    rw [hv]
    subst h
    exact (Stmt.checkBody_elaborated (fun st _ => Stmt.check_elaborates st)
      (topLevel_within hr) (fun x hx => List.mem_append_right _ hx) hs).1 st hst

end Program

end TypedScript
