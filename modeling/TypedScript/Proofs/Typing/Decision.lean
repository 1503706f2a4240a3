import TypedScript.Proofs.Typing.Acceptance
import TypedScript.Proofs.Typing.Elaboration

/-! # The checker decides the typing rules

A program is accepted exactly if it is well typed. Statements are checked in a scope that grows as
they go; the rules look back at the declarations before. -/

namespace TypedScript

theorem Ty.receives_iff {slot actual : Ty} :
    (slot.accepts actual || (slot.isObject && actual.isObject)) = true ↔ slot.Receives actual := by
  rw [Bool.or_eq_true, Ty.accepts_iff]
  constructor
  · rintro (h | h)
    · exact .taken h
    · cases slot <;> cases actual <;> first | exact .object | simp [isObject, className?] at h
  · intro h
    cases h with
    | taken h => exact .inl h
    | object => exact .inr rfl

def Scope.Returned (s : Scope) : Prop := s.function.any (·.returned) = true

/-- Going through statements is possible exactly if the rule `T` holds and the declarations `ds`
that they make are new, and it leads to the scope behind them; `R` says whether they return. -/
structure Decides (p : Program) (b : Body) (before : List Declaration) (L : Scope → Scope → Prop)
    (T : Prop) (ds : List Declaration) (R : Prop) : Prop where
  accepts : ∀ {s}, s.Reflects p b before →
    ((∃ s', L s s') ↔ T ∧ (b.taken p ++ (before ++ ds).map (·.name)).Nodup)
  leaves : ∀ {s s'}, s.Reflects p b before → L s s' →
    s'.Reflects p b (before ++ ds) ∧ (s'.Returned ↔ s.Returned ∨ R)

namespace Decides

variable {p : Program} {b : Body} {before ds ds' : List Declaration}
  {L L' : Scope → Scope → Prop} {T T' R R' : Prop}

theorem congr (h : Decides p b before L T ds R)
    (hL : ∀ s s', s.Reflects p b before → (L' s s' ↔ L s s')) (hT : T' ↔ T) (hds : ds' = ds)
    (hR : R' ↔ R) : Decides p b before L' T' ds' R' := by
  subst hds
  constructor
  · intro s hs
    rw [exists_congr fun s' => hL s s' hs, hT]
    exact h.accepts hs
  · intro s s' hs hl
    rw [hR]
    exact h.leaves hs ((hL s s' hs).mp hl)

theorem refl : Decides p b before (fun s s' => s = s') True [] False where
  accepts {s} hs := by simpa using hs.names
  leaves {s s'} hs h := by
    subst h
    simpa using hs

/-- A condition may be asked for first. -/
theorem guard {C : Scope → Prop} (hC : ∀ s, s.Reflects p b before → (C s ↔ T))
    (h : Decides p b before L T' ds R) :
    Decides p b before (fun s s' => C s ∧ L s s') (T ∧ T') ds R where
  accepts {s} hs := by
    rw [exists_and_left, hC s hs, h.accepts hs, and_assoc]
  leaves hs hl := h.leaves hs hl.2

/-- What is accepted in a row is accepted one by one, each behind the declarations before. -/
theorem seq (h : Decides p b before L T ds R) (h' : Decides p b (before ++ ds) L' T' ds' R') :
    Decides p b before (fun s s'' => ∃ s', L s s' ∧ L' s' s'') (T ∧ T') (ds ++ ds') (R ∨ R') where
  accepts {s} hs := by
    rw [← List.append_assoc]
    constructor
    · rintro ⟨s'', s', hl, hl'⟩
      have h₁ := (h.accepts hs).mp ⟨s', hl⟩
      have h₂ := (h'.accepts (h.leaves hs hl).1).mp ⟨s'', hl'⟩
      exact ⟨⟨h₁.1, h₂.1⟩, h₂.2⟩
    · rintro ⟨⟨hT, hT'⟩, hn⟩
      have hn₁ : (b.taken p ++ (before ++ ds).map (·.name)).Nodup := by
        rw [List.map_append, ← List.append_assoc] at hn
        exact hn.of_append_left
      obtain ⟨s', hl⟩ := (h.accepts hs).mpr ⟨hT, hn₁⟩
      obtain ⟨s'', hl'⟩ := (h'.accepts (h.leaves hs hl).1).mpr ⟨hT', hn⟩
      exact ⟨s'', s', hl, hl'⟩
  leaves {s s''} hs hl := by
    obtain ⟨s', hl, hl'⟩ := hl
    obtain ⟨hs', hr⟩ := h.leaves hs hl
    obtain ⟨hs'', hr'⟩ := h'.leaves hs' hl'
    rw [List.append_assoc] at hs''
    exact ⟨hs'', by rw [hr', hr, or_assoc]⟩

end Decides

theorem Locals.declare_eq_ok {ls ls' : Locals} {x : String} {ty : Ty} {span : Span} :
    ls.declare x ty span = .ok ls' ↔
      Bindings.contains ls x ≠ true ∧ ls' = Bindings.insert ls x ty := by
  rw [declare]
  split
  · next h => simp [h]
  · next h => simp [h, eq_comm]

namespace Scope

variable {p : Program} {b : Body} {before : List Declaration} {s s' : Scope}

theorem declare_inner {f : FuncScope} (hf : s.function = some f) {x : String} {ty : Ty}
    {span : Span} : s.declare x ty span = .ok s' ↔ s.locals.contains x ≠ true ∧
      s' = { s with locals := s.locals.insert x ty } := by
  simp only [declare, hf, Locals.declare_eq_ok, bind_eq_ok, pure_eq_ok, Except.ok.injEq]
  constructor
  · rintro ⟨_, ⟨hnew, rfl⟩, rfl⟩
    exact ⟨hnew, rfl⟩
  · rintro ⟨hnew, rfl⟩
    exact ⟨_, ⟨hnew, rfl⟩, rfl⟩

theorem declare_main (hf : s.function = none) {x : String} {ty : Ty} {span : Span} :
    s.declare x ty span = .ok s' ↔ s.globals.vars.contains x ≠ true ∧
      s' = { s with globals := { s.globals with vars := s.globals.vars.insert x ty } } := by
  simp only [declare, hf, Globals.declareVar, bind_eq_ok, pure_eq_ok, Except.ok.injEq]
  split
  · next h => simp [h]
  · next h => simp [h, eq_comm]

theorem Reflects.names_iff (hs : s.Reflects p b before) (d : Declaration) :
    (b.taken p ++ (before ++ [d]).map (·.name)).Nodup ↔
      d.name ∉ b.taken p ++ before.map (·.name) := by
  rw [List.map_append, ← List.append_assoc, List.nodup_append']
  simp [hs.names]

theorem Reflects.function_isSome (hs : s.Reflects p b before) :
    s.function.isSome = b.result?.isSome := by
  rw [← hs.result, Option.isSome_map]

theorem Reflects.contains_locals (hs : s.Reflects p b before) (ht : b.taken p = b.params.map (·.1))
    (hl : b.locals before = b.params ++ before.map fun d => (d.name, d.ty)) (x : String) :
    s.locals.contains x = true ↔ x ∈ b.taken p ++ before.map (·.name) := by
  rw [Bindings.contains_iff_mem_entries (hs.locals x), hl, ht, List.map_append, List.map_map]
  rfl

theorem Reflects.contains_globals (hs : s.Reflects p .main before) (x : String) :
    s.globals.vars.contains x = true ↔ x ∈ Body.taken p .main ++ before.map (·.name) := by
  rw [Bindings.contains_iff_mem_entries (hs.globals x), Body.globals, List.map_append,
    List.map_map, List.map_map]
  rfl

theorem Reflects.function_eq_none (hs : s.Reflects p .main before) : s.function = none := by
  simpa [Body.result?] using hs.function_isSome

end Scope

namespace Decides

variable {p : Program} {b : Body} {before : List Declaration} (d : Declaration)

/-- Inside a function a declaration adds a local variable. -/
theorem declare_inner (hr : b.result?.isSome = true) (ht : b.taken p = b.params.map (·.1))
    (hl : ∀ before, b.locals before = b.params ++ before.map fun d => (d.name, d.ty))
    (hg : ∀ before, b.globals p before = b.globals p []) :
    Decides p b before (fun s s' => s.declare d.name d.ty d.span = .ok s') True [d] False where
  accepts {s} hs := by
    obtain ⟨f, hf⟩ := Option.isSome_iff_exists.mp (hs.function_isSome.trans hr)
    simp only [Scope.declare_inner hf, ne_eq, hs.contains_locals ht (hl before), hs.names_iff d,
      exists_and_left, exists_eq, and_true, true_and]
  leaves {s s'} hs h := by
    obtain ⟨f, hf⟩ := Option.isSome_iff_exists.mp (hs.function_isSome.trans hr)
    obtain ⟨hnew, rfl⟩ := (Scope.declare_inner hf).mp h
    refine ⟨⟨hs.classes, hs.funcs, ?_, ?_, hs.receiver, hs.result, ?_⟩, by simp [Scope.Returned]⟩
    · intro x ty
      change (Bindings.insert s.locals d.name d.ty).find? x = some ty ↔ _
      rw [Bindings.find?_insert_of_fresh hnew, hs.locals, hl, hl]
      simp [or_assoc, eq_comm]
    · intro x ty
      rw [hg, ← hg before]
      exact hs.globals x ty
    · rw [hs.names_iff d, ← hs.contains_locals ht (hl before)]
      exact hnew

/-- At top level a declaration adds a global variable. -/
theorem declare_main :
    Decides p .main before (fun s s' => s.declare d.name d.ty d.span = .ok s') True [d] False where
  accepts {s} hs := by
    simp only [Scope.declare_main hs.function_eq_none, ne_eq, hs.contains_globals,
      hs.names_iff d, exists_and_left, exists_eq, and_true, true_and]
  leaves {s s'} hs h := by
    obtain ⟨hnew, rfl⟩ := (Scope.declare_main hs.function_eq_none).mp h
    refine ⟨⟨hs.classes, hs.funcs, hs.locals, ?_, hs.receiver, hs.result, ?_⟩,
      by simp [Scope.Returned]⟩
    · intro x ty
      change (Bindings.insert s.globals.vars d.name d.ty).find? x = some ty ↔ _
      rw [Bindings.find?_insert_of_fresh hnew, hs.globals, Body.globals, Body.globals]
      simp [or_assoc, eq_comm]
    · rw [hs.names_iff d, ← hs.contains_globals]
      exact hnew

theorem declare :
    Decides p b before (fun s s' => s.declare d.name d.ty d.span = .ok s') True [d] False := by
  cases b with
  | main => exact declare_main d
  | func f => exact declare_inner d rfl rfl (fun _ => rfl) fun _ => rfl
  | method c m => exact declare_inner d rfl rfl (fun _ => rfl) fun _ => rfl

end Decides

theorem Target.check_isOk {s : Scope} {actual : Ty} {span : Span} {target : Target} :
    (∃ target', target.check s actual span = .ok target') ↔
      match target with
      | .name x => ∃ slot, s.lookup x span = .ok slot ∧ slot.Takes actual
      | .field object f => ∃ c slot, Expr.Checks s object (.object c) ∧
          s.fieldType c f span = .ok slot ∧ slot.Takes actual := by
  cases target with
  | name x => simp [check, bind_eq_ok, requireAccepts_eq_ok]
  | field object f =>
    simp only [check, bind_eq_ok, Expr.classOf_eq_ok, requireAccepts_eq_ok, pure_eq_ok,
      Except.ok.injEq]
    constructor
    · rintro ⟨_, ⟨_, o⟩, ho, c, rfl, slot, hf, -, h, -⟩
      exact ⟨c, slot, ⟨o, ho⟩, hf, h⟩
    · rintro ⟨c, slot, ⟨o, ho⟩, hf, h⟩
      exact ⟨_, (.object c, o), ho, c, rfl, slot, hf, (), h, rfl⟩

theorem Declaration.check_isOk {p : Program} {s s' : Scope} {d : Declaration}
    (hk : Registry.Knows p s.classes) :
    (∃ d', d.check s = .ok (s', d')) ↔ (d.ty.Known p ∧
      ∃ ty, Expr.Checks s d.value ty ∧ d.ty.Receives ty) ∧
      s.declare d.name d.ty d.span = .ok s' := by
  simp only [check, bind_eq_ok, hk.validate_eq_ok]
  constructor
  · rintro ⟨d', -, hty, ⟨ty, v⟩, hv, h⟩
    split at h
    · next hr =>
      obtain ⟨s₁, hs, h⟩ := bind_eq_ok.mp h
      simp only [pure_eq_ok, Except.ok.injEq, Prod.mk.injEq] at h
      exact ⟨⟨hty, ty, ⟨v, hv⟩, Ty.receives_iff.mp hr⟩, h.1 ▸ hs⟩
    · exact absurd h reject_ne_ok
  · rintro ⟨⟨hty, ty, ⟨v, hv⟩, hr⟩, hs⟩
    refine ⟨{ d with value := v }, (), hty, (ty, v), hv, ?_⟩
    rw [if_pos (Ty.receives_iff.mpr hr), hs]
    rfl

namespace Stmt

variable {p : Program} {b : Body}

def Leads {α : Type} (x : Scope → Checked (Scope × α)) (s s' : Scope) : Prop :=
  ∃ a, x s = .ok (s', a)

/-- The rules decide whether a statement is accepted, behind whatever declarations. -/
def Decided (p : Program) (b : Body) (st : Stmt) : Prop :=
  ∀ before, Decides p b before (Leads st.check) (Typed p b before st) st.declarations st.Returns

/-- Statements in a row are decided if each of them is. -/
theorem checkBody_decides {ss : List Stmt} (ih : ∀ st ∈ ss, Decided p b st)
    (before : List Declaration) :
    Decides p b before (Leads (checkBody · ss)) (BodyTyped p b before ss) (bodyDeclarations ss)
      (∃ st ∈ ss, st.Returns) := by
  induction ss generalizing before with
  | nil =>
    refine Decides.refl.congr (fun s s' _ => ?_) ?_ rfl (by simp)
    · simp [Leads, checkBody]
    · exact ⟨fun _ => trivial, fun _ => .nil⟩
  | cons st rest ihr =>
    have hst := ih st List.mem_cons_self before
    have hrest := ihr (fun t ht => ih t (List.mem_cons_of_mem st ht)) (before ++ st.declarations)
    refine (hst.seq hrest).congr (fun s s' _ => ?_) ?_ rfl (by simp)
    · simp only [Leads, checkBody_cons]
      constructor
      · rintro ⟨_, s₁, st', rest', h, h', -⟩
        exact ⟨s₁, ⟨st', h⟩, rest', h'⟩
      · rintro ⟨s₁, ⟨st', h⟩, rest', h'⟩
        exact ⟨_, s₁, st', rest', h, h', rfl⟩
    · constructor
      · intro h
        cases h with
        | cons hs hss => exact ⟨hs, hss⟩
      · rintro ⟨hs, hss⟩
        exact .cons hs hss

theorem condition_iff (hp : p.WellDeclared) (before : List Declaration) (e : Expr) (s : Scope)
    (hs : s.Reflects p b before) :
    Expr.Checks s e .bool ↔ Expr.HasType p b before e .bool :=
  Expr.checks_iff hp hs e .bool

theorem checkElseIf_decides (hp : p.WellDeclared) {elseIf : Option (Expr × List Stmt)}
    (ih : ∀ c ss, elseIf = some (c, ss) → ∀ st ∈ ss, Decided p b st)
    (before : List Declaration) :
    Decides p b before (Leads (checkElseIf · elseIf)) (ElseIfTyped p b before elseIf)
      (elseIfDeclarations elseIf) (∃ c ss, elseIf = some (c, ss) ∧ ∃ st ∈ ss, st.Returns) := by
  rcases elseIf with _ | ⟨condition, body⟩
  · refine Decides.refl.congr (fun s s' _ => ?_) ?_ rfl (by simp)
    · simp [Leads, checkElseIf]
    · exact ⟨fun _ => trivial, fun _ => .none⟩
  · have hbody := checkBody_decides (ih condition body rfl) before
    have hc := condition_iff (b := b) hp before condition
    refine (hbody.guard hc).congr (fun s s' _ => ?_) ?_ rfl (by simp)
    · simp only [Leads, checkElseIf_some, Expr.Checks]
      constructor
      · rintro ⟨_, c', body', h, h', -⟩
        exact ⟨⟨c', h⟩, body', h'⟩
      · rintro ⟨⟨c', h⟩, body', h'⟩
        exact ⟨_, c', body', h, h', rfl⟩
    · constructor
      · intro h
        cases h with
        | some hc hb => exact ⟨hc, hb⟩
      · rintro ⟨hc, hb⟩
        exact .some hc hb

theorem checkOtherwise_decides {otherwise : Option (List Stmt)}
    (ih : ∀ ss, otherwise = some ss → ∀ st ∈ ss, Decided p b st)
    (before : List Declaration) :
    Decides p b before (Leads (checkOtherwise · otherwise)) (OtherwiseTyped p b before otherwise)
      (otherwiseDeclarations otherwise) (∃ ss, otherwise = some ss ∧ ∃ st ∈ ss, st.Returns) := by
  cases otherwise with
  | none =>
    refine Decides.refl.congr (fun s s' _ => ?_) ?_ rfl (by simp)
    · simp [Leads, checkOtherwise]
    · exact ⟨fun _ => trivial, fun _ => .none⟩
  | some body =>
    refine (checkBody_decides (ih body rfl) before).congr (fun s s' _ => ?_) ?_ rfl (by simp)
    · simp [Leads, checkOtherwise_some]
    · constructor
      · intro h
        cases h with
        | some hb => exact hb
      · exact .some

/-- What a check finds without declaring anything. -/
theorem Decides.still {before : List Declaration} {C : Scope → Prop} {T : Prop}
    (hC : ∀ s, s.Reflects p b before → (C s ↔ T)) :
    Decides p b before (fun s s' => C s ∧ s = s') T [] False :=
  (Decides.refl.guard hC).congr (fun _ _ _ => Iff.rfl) (by simp) rfl Iff.rfl

theorem assign_iff (hp : p.WellDeclared) {before : List Declaration} {s : Scope}
    (hs : s.Reflects p b before) {span : Span} {target : Target} {value : Expr} :
    (∃ ty, Expr.HasType p b before value ty ∧ match target with
      | .name x => ∃ slot, s.lookup x span = .ok slot ∧ slot.Takes ty
      | .field object f => ∃ c slot, Expr.Checks s object (.object c) ∧
          s.fieldType c f span = .ok slot ∧ slot.Takes ty) ↔
      Typed p b before (.assign span target value) := by
  cases target with
  | name x =>
    simp only [hs.lookup_iff]
    constructor
    · rintro ⟨ty, hv, slot, hx, h⟩
      exact .assignName hx hv h
    · intro h
      cases h with
      | assignName hx hv h => exact ⟨_, hv, _, hx, h⟩
  | field object f =>
    simp only [Expr.checks_iff hp hs, hs.fieldType_iff hp]
    constructor
    · rintro ⟨ty, hv, _, _, ho, ⟨cls, hc, rfl, d, hd, rfl, rfl⟩, h⟩
      exact .assignField hc hd ho hv h
    · intro h
      cases h with
      | assignField hc hd ho hv h => exact ⟨_, hv, _, _, ho, ⟨_, hc, rfl, _, hd, rfl, rfl⟩, h⟩

theorem leads_ret {span : Span} {value : Expr} {s s' : Scope} :
    Leads (ret span value).check s s' ↔ ∃ f, s.function = some f ∧
      (∃ ty, Expr.Checks s value ty ∧ f.ret.Takes ty) ∧
      s' = { s with function := some { f with returned := true } } := by
  simp only [Leads, check, checkReturn]
  cases s.function with
  | none => simp
  | some f =>
    simp only [bind_eq_ok, requireAccepts_eq_ok, pure_eq_ok, Except.ok.injEq, Prod.mk.injEq,
      Option.some.injEq, exists_eq_left', Expr.Checks]
    constructor
    · rintro ⟨_, ⟨ty, v⟩, hv, -, h, rfl, -⟩
      exact ⟨⟨ty, ⟨v, hv⟩, h⟩, rfl⟩
    · rintro ⟨⟨ty, ⟨v, hv⟩, h⟩, rfl⟩
      exact ⟨_, (ty, v), hv, (), h, rfl, rfl⟩

/-- A `return` is noted, and nothing else changes. -/
theorem decided_ret (hp : p.WellDeclared) (span : Span) (value : Expr) :
    Decided p b (ret span value) := by
  intro before
  constructor
  · intro s hs
    simp only [leads_ret, Expr.checks_iff hp hs value]
    constructor
    · rintro ⟨_, f, hf, ⟨ty, hv, h⟩, rfl⟩
      have hr : b.result? = some f.ret := by rw [← hs.result, hf, Option.map_some]
      exact ⟨.ret hr hv h, by simpa [declarations] using hs.names⟩
    · rintro ⟨h, -⟩
      cases h with
      | ret hr hv h =>
        rw [← hs.result] at hr
        obtain ⟨f, hf, rfl⟩ := Option.map_eq_some_iff.mp hr
        exact ⟨_, f, hf, ⟨_, hv, h⟩, rfl⟩
  · intro s s' hs h
    obtain ⟨f, hf, -, rfl⟩ := leads_ret.mp h
    have hresult := hs.result
    have hreceiver := hs.receiver
    rw [hf] at hresult
    rw [Scope.receiver?, hf] at hreceiver
    rw [declarations, List.append_nil]
    refine ⟨⟨hs.classes, hs.funcs, hs.locals, hs.globals, hreceiver, hresult, hs.names⟩, ?_⟩
    exact iff_of_true rfl (.inr .ret)

theorem decided_assign (hp : p.WellDeclared) (span : Span) (target : Target) (value : Expr) :
    Decided p b (assign span target value) := by
  intro before
  refine (Decides.still (C := fun s => ∃ ty, Expr.Checks s value ty ∧
    ∃ target', target.check s ty span = .ok target') (fun s hs => ?_)).congr
    (fun s s' _ => ?_) Iff.rfl rfl ?_
  · simp only [Expr.checks_iff hp hs value, Target.check_isOk]
    exact assign_iff hp hs
  · simp only [Leads, check_assign]
    constructor
    · rintro ⟨_, ty, v', t', h, h', rfl, -⟩
      exact ⟨⟨ty, ⟨v', h⟩, t', h'⟩, rfl⟩
    · rintro ⟨⟨ty, ⟨v', h⟩, t', h'⟩, rfl⟩
      exact ⟨_, ty, v', t', h, h', rfl, rfl⟩
  · exact iff_of_false nofun id

theorem decided_branch (hp : p.WellDeclared) {span : Span} {condition : Expr} {body : List Stmt}
    {elseIf : Option (Expr × List Stmt)} {otherwise : Option (List Stmt)}
    (ihb : ∀ st ∈ body, Decided p b st)
    (ihe : ∀ c ss, elseIf = some (c, ss) → ∀ st ∈ ss, Decided p b st)
    (iho : ∀ ss, otherwise = some ss → ∀ st ∈ ss, Decided p b st) :
    Decided p b (branch span condition body elseIf otherwise) := by
  intro before
  have hc := condition_iff (b := b) hp before condition
  have hbody := checkBody_decides ihb before
  have helse := checkElseIf_decides hp ihe (before ++ bodyDeclarations body)
  have hother := checkOtherwise_decides iho
    (before ++ (bodyDeclarations body ++ elseIfDeclarations elseIf))
  refine (((hbody.seq helse).seq hother).guard hc).congr (fun s s' _ => ?_) ?_ rfl ?_
  · simp only [Leads, check_branch, Expr.Checks]
    constructor
    · rintro ⟨_, c', s₁, b', s₂, e', o', hc, hb, he, ho, -⟩
      exact ⟨⟨c', hc⟩, s₂, ⟨s₁, ⟨b', hb⟩, e', he⟩, o', ho⟩
    · rintro ⟨⟨c', hc⟩, s₂, ⟨s₁, ⟨b', hb⟩, e', he⟩, o', ho⟩
      exact ⟨_, c', s₁, b', s₂, e', o', hc, hb, he, ho, rfl⟩
  · rw [← List.append_assoc]
    constructor
    · intro h
      cases h with
      | branch hc hb he ho => exact ⟨hc, ⟨hb, he⟩, ho⟩
    · rintro ⟨hc, ⟨hb, he⟩, ho⟩
      exact .branch hc hb he ho
  · constructor
    · intro h
      cases h with
      | body h hs => exact .inl (.inl ⟨_, h, hs⟩)
      | elseIf h hs => exact .inl (.inr ⟨_, _, rfl, _, h, hs⟩)
      | otherwise h hs => exact .inr ⟨_, rfl, _, h, hs⟩
    · rintro ((⟨st, h, hs⟩ | ⟨c, ss, rfl, st, h, hs⟩) | ⟨ss, rfl, st, h, hs⟩)
      · exact .body h hs
      · exact .elseIf h hs
      · exact .otherwise h hs

theorem decided_loop (hp : p.WellDeclared) {span : Span} {condition : Expr} {body : List Stmt}
    (ih : ∀ st ∈ body, Decided p b st) : Decided p b (loop span condition body) := by
  intro before
  have hc := condition_iff (b := b) hp before condition
  refine ((checkBody_decides ih before).guard hc).congr (fun s s' _ => ?_) ?_ rfl ?_
  · simp only [Leads, check_loop, Expr.Checks]
    constructor
    · rintro ⟨_, c', body', h, h', -⟩
      exact ⟨⟨c', h⟩, body', h'⟩
    · rintro ⟨⟨c', h⟩, body', h'⟩
      exact ⟨_, c', body', h, h', rfl⟩
  · constructor
    · intro h
      cases h with
      | loop hc hb => exact ⟨hc, hb⟩
    · rintro ⟨hc, hb⟩
      exact .loop hc hb
  · constructor
    · intro h
      cases h with
      | loop h hs => exact ⟨_, h, hs⟩
    · rintro ⟨st, h, hs⟩
      exact .loop h hs

theorem decided_expr (hp : p.WellDeclared) (value : Expr) : Decided p b (expr value) := by
  intro before
  refine (Decides.still (C := fun s => ∃ ty, Expr.Checks s value ty) (fun s hs => ?_)).congr
    (fun s s' _ => ?_) Iff.rfl rfl ?_
  · simp only [Expr.checks_iff hp hs value]
    constructor
    · rintro ⟨ty, h⟩
      exact .expr h
    · intro h
      cases h with
      | expr h => exact ⟨_, h⟩
  · simp only [Leads, check_expr, Expr.Checks]
    constructor
    · rintro ⟨_, ty, v', h, rfl, -⟩
      exact ⟨⟨ty, v', h⟩, rfl⟩
    · rintro ⟨⟨ty, v', h⟩, rfl⟩
      exact ⟨_, ty, v', h, rfl, rfl⟩
  · apply iff_of_false
    · intro h
      cases h
    · exact id

theorem decided_declare (hp : p.WellDeclared) (d : Declaration) : Decided p b (declare d) := by
  intro before
  have hd : ∀ s : Scope, s.Reflects p b before → ((d.ty.Known p ∧
      ∃ ty, Expr.Checks s d.value ty ∧ d.ty.Receives ty) ↔ Typed p b before (.declare d)) := by
    intro s hs
    simp only [Expr.checks_iff hp hs d.value]
    constructor
    · rintro ⟨hk, ty, hv, h⟩
      exact .declare hk hv h
    · intro h
      cases h with
      | declare hk hv h => exact ⟨hk, _, hv, h⟩
  refine ((Decides.declare d).guard hd).congr (fun s s' hs => ?_) (by simp) rfl ?_
  · rw [← Declaration.check_isOk hs.contains_iff]
    simp [Leads, check_declare]
  · exact iff_of_false nofun id

/-- What no rule allows has to be refused. -/
theorem decided_of_refused {st : Stmt} (hc : ∀ s s', ¬ Leads st.check s s')
    (ht : ∀ before, ¬ Typed p b before st) (hd : st.declarations = []) (hr : ¬ st.Returns) :
    Decided p b st := by
  intro before
  refine (Decides.still (C := fun _ => False) (T := False) fun _ _ => Iff.rfl).congr
    (fun s s' _ => ?_) ?_ hd ?_
  · exact iff_of_false (hc s s') And.left
  · exact iff_of_false (ht before) id
  · exact iff_of_false hr id

theorem check_decides (hp : p.WellDeclared) (st : Stmt) : Decided p b st := by
  induction st with
  | assign span target value => exact decided_assign hp span target value
  | branch span condition body elseIf otherwise ihb ihe iho => exact decided_branch hp ihb ihe iho
  | loop span condition body ih => exact decided_loop hp ih
  | pass span =>
    intro before
    refine Decides.refl.congr (fun s s' _ => ?_) ?_ rfl ?_
    · simp [Leads, check]
    · exact ⟨fun _ => trivial, fun _ => .pass⟩
    · exact iff_of_false nofun id
  | ret span value => exact decided_ret hp span value
  | expr value => exact decided_expr hp value
  | declare d => exact decided_declare hp d
  | func f => exact decided_of_refused (by simp [Leads, check]) nofun rfl nofun
  | cls c => exact decided_of_refused (by simp [Leads, check]) nofun rfl nofun

end Stmt

namespace Registry

variable {p : Program} {r : Registry}

/-- The scope at the head of a function or a method knows its parameters. -/
theorem Describes.reflects (hr : r.Describes p) {b : Body} {ls : Locals} {f : FuncScope}
    (hreceiver : f.className = b.receiver?) (hresult : some f.ret = b.result?)
    (hls : ∀ x ty, ls.find? x = some ty ↔ (x, ty) ∈ b.params)
    (hn : (b.params.map (·.1)).Nodup) :
    Scope.Reflects p b [] ⟨r.globals, r.classes, ls, some f⟩ := by
  cases b with
  | main => simp [Body.result?] at hresult
  | func g =>
    refine ⟨hr.classes, hr.funcs, ?_, ?_, hreceiver, hresult, ?_⟩
    · simpa [Body.locals] using hls
    · simpa [Body.globals] using hr.vars
    · simpa [Body.taken] using hn
  | method c m =>
    refine ⟨hr.classes, hr.funcs, ?_, ?_, hreceiver, hresult, ?_⟩
    · simpa [Body.locals] using hls
    · simpa [Body.globals] using hr.vars
    · simpa [Body.taken] using hn

theorem Describes.reflects_topLevel (hr : r.Describes p) (hp : p.WellDeclared) :
    Scope.Reflects p .main [] r.topLevel where
  classes := hr.classes
  funcs := hr.funcs
  locals := by simp [topLevel, Body.locals, Bindings.find?]
  globals := by simpa [topLevel, Body.globals] using hr.vars
  receiver := rfl
  result := rfl
  names := by simpa [Body.taken] using hp.varNames

end Registry

namespace FuncOf

variable {p : Program} {r : Registry} {className : Option String} {f : FuncDef}

/-- The local variables are the parameters in `done`. -/
def Bound (done : List Param) (ls : Locals) : Prop :=
  ∀ x, Bindings.contains ls x = true ↔ x ∈ done.map (·.name)

theorem Bound.insert {done : List Param} {ls : Locals} (hd : Bound done ls) (q : Param) (ty : Ty) :
    Bound (done ++ [q]) (Bindings.insert ls q.name ty) := by
  intro x
  rw [Bindings.contains_insert, hd]
  simp [or_comm]

theorem paramLocals_isOk :
    (∃ ls, f.paramLocals className = .ok ls) ↔ (f.params.map (·.name)).Nodup := by
  constructor
  · rintro ⟨ls, h⟩
    refine (foldlM_ok (fun done ls => Bound done ls ∧ (done.map (·.name)).Nodup)
      ⟨by simp [Bound], by simp⟩ ?_ h).2
    intro done q rest c c' hx hd hc
    obtain ⟨hnew, rfl⟩ := Locals.declare_eq_ok.mp hc
    refine ⟨hd.1.insert q _, ?_⟩
    rw [ne_eq, hd.1] at hnew
    rw [List.map_append, List.nodup_append']
    exact ⟨hd.2, by simp, by simpa using hnew⟩
  · intro hn
    have hall : ∃ ls, f.paramLocals className = .ok ls ∧ Bound f.params ls := by
      refine foldlM_total Bound (by simp [Bound]) fun done q rest ls hx hd => ?_
      have hnew : Bindings.contains ls q.name ≠ true := by
        rw [ne_eq, hd]
        exact notMem_of_nodup_map hn hx
      exact ⟨_, Locals.declare_eq_ok.mpr ⟨hnew, rfl⟩, hd.insert q _⟩
    obtain ⟨ls, h, -⟩ := hall
    exact ⟨ls, h⟩

structure Has (p : Program) (className : Option String) (f : FuncDef) (b : Body) : Prop where
  receiver : className = b.receiver?
  result : some f.ret = b.result?
  stmts : b.stmts p = f.body
  taken : b.taken p = f.params.map (·.name)
  names : b.params.map (·.1) = f.params.map (·.name)
  params : (f.params.map (·.name)).Nodup →
    b.params = f.params.map fun q => (q.name, paramType className q)
  fall : f.mayFallOff className = true ↔ b.MayFallOff

theorem has_func (f : FuncDef) : f.Has p none (.func f) where
  receiver := rfl
  result := rfl
  stmts := rfl
  taken := by simp [Body.taken, Body.params]
  names := by simp [Body.params]
  params _ := rfl
  fall := by simp [mayFallOff, Body.MayFallOff]

theorem has_method {c : ClassDef} {m : FuncDef} (hm : m.WellDeclaredIn p c.name) :
    m.Has p (some c.name) (.method c m) := by
  obtain ⟨q, hq, hn⟩ := hm.receiver
  obtain ⟨rest, hparams⟩ := List.head?_eq_some_iff.mp hq
  have hnames : (Body.method c m).params.map (·.1) = m.params.map (·.name) := by
    simp [Body.params, hparams, hn]
  refine ⟨rfl, rfl, rfl, hnames, hnames, ?_, ?_⟩
  · intro hnodup
    rw [hparams, List.map_cons, List.nodup_cons, hn] at hnodup
    have htail : rest.map (fun q => (q.name, q.ty)) =
        rest.map fun q => (q.name, paramType (some c.name) q) := by
      refine List.map_congr_left fun q' hq' => ?_
      have hne : q'.name ≠ receiverName := fun he => hnodup.1 (he ▸ List.mem_map_of_mem hq')
      rw [paramType, if_neg hne]
    rw [hparams, List.map_cons, ← htail, paramType, if_pos hn, hn, Body.params, hparams]
    rfl
  · simp [mayFallOff, Body.MayFallOff]

theorem check_eq_ok_iff :
    (∃ f', f.check r className = .ok f') ↔ ∃ ls s, f.paramLocals className = .ok ls ∧
      Stmt.Leads (Stmt.checkBody · f.body)
        ⟨r.globals, r.classes, ls, some ⟨f.name, className, f.ret, false⟩⟩ s ∧
      (f.mayFallOff className = true ∨ s.Returned) := by
  simp only [check, bind_eq_ok]
  constructor
  · rintro ⟨f', ls, hl, ⟨s, body⟩, hb, h⟩
    split at h
    · next hr => exact ⟨ls, s, hl, ⟨body, hb⟩, by simpa [Scope.Returned] using hr⟩
    · exact absurd h reject_ne_ok
  · rintro ⟨ls, s, hl, ⟨body, hb⟩, hr⟩
    refine ⟨{ f with body }, ls, hl, (s, body), hb, ?_⟩
    rw [if_pos (by simpa [Scope.Returned] using hr)]
    rfl

/-- A function is accepted if its body is well typed. -/
theorem check_isOk_iff {b : Body} (hr : r.Describes p) (hp : p.WellDeclared)
    (hb : f.Has p className b) : (∃ f', f.check r className = .ok f') ↔ b.WellTyped p := by
  have hreflects : ∀ ls, f.paramLocals className = .ok ls → Scope.Reflects p b []
      ⟨r.globals, r.classes, ls, some ⟨f.name, className, f.ret, false⟩⟩ := by
    intro ls hl
    have hn := paramLocals_isOk.mp ⟨ls, hl⟩
    refine hr.reflects hb.receiver hb.result ?_ (hb.names ▸ hn)
    intro x ty
    rw [paramLocals_find? hl, hb.params hn]
    simp
  have hdecides := Stmt.checkBody_decides (b := b)
    (fun st (_ : st ∈ f.body) => Stmt.check_decides hp st) []
  rw [check_eq_ok_iff]
  constructor
  · rintro ⟨ls, s, hl, hs, hret⟩
    obtain ⟨htyped, hnames⟩ := (hdecides.accepts (hreflects ls hl)).mp ⟨s, hs⟩
    have hreturns := (hdecides.leaves (hreflects ls hl) hs).2
    constructor
    · rw [hb.stmts]
      exact hnames
    · rw [hb.stmts]
      exact htyped
    · rw [hb.stmts]
      rcases hret with hfall | hret
      · exact .inl (hb.fall.mp hfall)
      · rcases hreturns.mp hret with hbefore | hbody
        · simp [Scope.Returned] at hbefore
        · exact .inr hbody
  · intro h
    have hnames := h.names
    have hstmts := h.stmts
    have hret := h.returns
    rw [hb.stmts] at hnames hstmts hret
    obtain ⟨ls, hl⟩ : ∃ ls, f.paramLocals className = .ok ls := by
      refine paramLocals_isOk.mpr ?_
      rw [hb.taken] at hnames
      exact hnames.of_append_left
    obtain ⟨s, hs⟩ := (hdecides.accepts (hreflects ls hl)).mpr ⟨hstmts, hnames⟩
    have hreturns := (hdecides.leaves (hreflects ls hl) hs).2
    refine ⟨ls, s, hl, hs, ?_⟩
    rcases hret with hfall | hbody
    · exact .inl (hb.fall.mpr hfall)
    · exact .inr (hreturns.mpr (.inr hbody))

end FuncOf

/-- A class is accepted if the bodies of its methods are well typed. -/
theorem ClassOf.check_isOk_iff {p : Program} {r : Registry} {c : ClassDef} (hr : r.Describes p)
    (hp : p.WellDeclared) (hc : c ∈ p.classes) :
    (∃ c', c.check r = .ok c') ↔ ∀ m ∈ c.methods, (Body.method c m).WellTyped p := by
  have hmethods : (∃ c', c.check r = .ok c') ↔
      ∃ ms, c.methods.mapM (FuncOf.check r (some c.name)) = .ok ms := by
    simp [check, bind_eq_ok]
  rw [hmethods, mapM_isOk]
  refine forall₂_congr fun m hm => ?_
  exact FuncOf.check_isOk_iff hr hp (FuncOf.has_method ((hp.classes c hc).methods m hm))

namespace Program

theorem check_isOk {p : Program} :
    (∃ t, p.check = .ok t) ↔ ∃ r, Registry.ofProgram p = .ok r ∧
      (∀ f ∈ p.funcs, ∃ f', f.check r none = .ok f') ∧
      (∀ c ∈ p.classes, ∃ c', c.check r = .ok c') ∧
      ∃ s, Stmt.Leads (Stmt.checkBody · p.stmts) r.topLevel s := by
  simp only [check, bind_eq_ok, ← mapM_isOk]
  constructor
  · rintro ⟨t, r, hr, fs, hf, cs, hc, ⟨s, ss⟩, hs, -⟩
    exact ⟨r, hr, ⟨fs, hf⟩, ⟨cs, hc⟩, s, ss, hs⟩
  · rintro ⟨r, hr, ⟨fs, hf⟩, ⟨cs, hc⟩, s, ss, hs⟩
    exact ⟨_, r, hr, fs, hf, cs, hc, (s, ss), hs, rfl⟩

/-- A program is accepted exactly if it is well typed. -/
theorem check_isOk_iff_wellTyped (p : Program) : (∃ t, p.check = .ok t) ↔ p.WellTyped := by
  have hparts : ∀ r : Registry, r.Describes p → p.WellDeclared →
      ((∀ f ∈ p.funcs, ∃ f', f.check r none = .ok f') ∧
        (∀ c ∈ p.classes, ∃ c', c.check r = .ok c') ∧
        (∃ s, Stmt.Leads (Stmt.checkBody · p.stmts) r.topLevel s) ↔
      (∀ f ∈ p.funcs, (Body.func f).WellTyped p) ∧
        (∀ c ∈ p.classes, ∀ m ∈ c.methods, (Body.method c m).WellTyped p) ∧
        Body.main.WellTyped p) := by
    intro r hr hp
    refine and_congr ?_ (and_congr ?_ ?_)
    · exact forall₂_congr fun f _ => FuncOf.check_isOk_iff hr hp (FuncOf.has_func f)
    · exact forall₂_congr fun c hc => ClassOf.check_isOk_iff hr hp hc
    · have hdecides := Stmt.checkBody_decides (b := .main)
        (fun st (_ : st ∈ p.stmts) => Stmt.check_decides hp st) []
      rw [hdecides.accepts (hr.reflects_topLevel hp)]
      constructor
      · rintro ⟨htyped, hnames⟩
        exact ⟨hnames, htyped, .inl trivial⟩
      · intro h
        exact ⟨h.stmts, h.names⟩
  rw [check_isOk]
  constructor
  · rintro ⟨r, hreg, h⟩
    obtain ⟨hp, hr⟩ := Registry.ofProgram_eq_ok hreg
    obtain ⟨hfuncs, hmethods, hmain⟩ := (hparts r hr hp).mp h
    exact ⟨hp, hfuncs, hmethods, hmain⟩
  · intro h
    obtain ⟨r, hreg⟩ := Registry.ofProgram_total h.toWellDeclared
    obtain ⟨hp, hr⟩ := Registry.ofProgram_eq_ok hreg
    exact ⟨r, hreg, (hparts r hr hp).mpr ⟨h.functionBodies, h.methodBodies, h.statements⟩⟩

end Program

end TypedScript
