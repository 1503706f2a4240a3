import TypedScript.Proofs.Typing.Elaboration
import TypedScript.Proofs.Typing.Inversion

/-! # Occurrences of names

The names that a body uses, in the order in which code is given for them, each with the scope in
which the checker looks it up. That scope knows exactly the declarations that stand before. -/

namespace TypedScript

inductive Place
  | slot
  | global
  deriving DecidableEq, Repr

inductive Access
  | get
  | set
  deriving DecidableEq, Repr

/-- A name in the text of a body. The scope is the one in which it is checked, and a store comes
down to any number of accesses. -/
structure Occurrence where
  scope : Scope
  name : String
  accesses : List Access
  deriving DecidableEq, Repr

namespace Scope

variable {s s' s'' : Scope} {x : String} {span : Span}

/-- The variable that a lookup finds, with its type. -/
def resolve? (s : Scope) (x : String) : Option (Place × Ty) :=
  match s.locals.find? x with
  | some ty => some (.slot, ty)
  | none => (s.globals.vars.find? x).map (.global, ·)

theorem resolve?_slot {ty : Ty} :
    s.resolve? x = some (.slot, ty) ↔ s.locals.find? x = some ty := by
  cases h : s.locals.find? x <;> simp [resolve?, h]

theorem resolve?_global {ty : Ty} :
    s.resolve? x = some (.global, ty) ↔
      s.locals.find? x = none ∧ s.globals.vars.find? x = some ty := by
  cases h : s.locals.find? x <;> simp [resolve?, h]

theorem lookup_eq_ok {ty : Ty} :
    s.lookup x span = .ok ty ↔ ∃ place, s.resolve? x = some (place, ty) := by
  cases hl : s.locals.find? x with
  | some ty' => simp [lookup, resolve?, hl]
  | none => cases hg : s.globals.vars.find? x <;> simp [lookup, resolve?, hl, hg]

/-- The receiver of a method is one of its local variables. -/
def Receives (s : Scope) : Prop :=
  ∀ c, s.receiver? = some c → s.locals.find? receiverName = some (.object c)

/-- The scope after some more local variables have been declared. -/
structure Grows (ds : List Declaration) (s s' : Scope) : Prop where
  globals : s'.globals = s.globals
  receiver : s'.receiver? = s.receiver?
  inside : s'.function.isSome = s.function.isSome
  locals : ∀ x ty, s'.locals.find? x = some ty ↔
    s.locals.find? x = some ty ∨ ∃ d ∈ ds, d.name = x ∧ d.ty = ty

namespace Grows

variable {ds es : List Declaration}

theorem refl (s : Scope) : s.Grows [] s := ⟨rfl, rfl, rfl, by simp⟩

theorem trans (h : s.Grows ds s') (h' : s'.Grows es s'') : s.Grows (ds ++ es) s'' where
  globals := h'.globals.trans h.globals
  receiver := h'.receiver.trans h.receiver
  inside := h'.inside.trans h.inside
  locals x ty := by
    rw [h'.locals, h.locals]
    simp [or_and_right, exists_or, or_assoc]

theorem receives (h : s.Grows ds s') (hs : s.Receives) : s'.Receives := by
  intro c hc
  rw [h.receiver] at hc
  exact (h.locals _ _).mpr (.inl (hs c hc))

/-- Inside a function a declaration is local. -/
theorem declare {d : Declaration} (hin : s.function.isSome = true)
    (h : s.declare d.name d.ty span = .ok s') : s.Grows [d] s' := by
  obtain ⟨f, hf⟩ := Option.isSome_iff_exists.mp hin
  simp only [Scope.declare, hf] at h
  obtain ⟨ls, hl, h⟩ := bind_eq_ok.mp h
  simp only [pure_eq_ok, Except.ok.injEq] at h
  unfold Locals.declare at hl
  split at hl
  · exact absurd hl reject_ne_ok
  · next hnew =>
    simp only [Except.ok.injEq] at hl
    subst hl h
    refine ⟨rfl, by simp [receiver?, hf], by simp [hf], fun x ty => ?_⟩
    rw [Bindings.find?_insert_of_fresh hnew]
    simp

theorem returned {f : FuncScope} (hf : s.function = some f) :
    s.Grows [] { s with function := some { f with returned := true } } := by
  refine ⟨rfl, ?_, ?_, by simp⟩
  · simp [receiver?, hf]
  · simp [hf]

end Grows

def leftBy {α : Type} (s : Scope) (x : Checked (Scope × α)) : Scope := x.toOption.elim s (·.1)

@[simp] theorem leftBy_ok {α : Type} {a : α} : s.leftBy (.ok (s', a)) = s' := rfl

end Scope

namespace Expr

mutual
/-- The variables that an expression reads, from left to right. -/
def reads : Expr → List String
  | name _ .self => [receiverName]
  | name _ (.plain x) => [x]
  | literal .. | name _ .none | construct .. => []
  | unary _ _ e | builtin1 _ _ e | field _ e _ => reads e
  | binary _ _ l r | builtin2 _ _ l r => reads l ++ reads r
  | call _ _ args | print _ args => readsList args
  | method _ object _ args => reads object ++ readsList args

def readsList : List Expr → List String
  | [] => []
  | e :: es => reads e ++ readsList es
end

def occurrences (s : Scope) (e : Expr) : List Occurrence :=
  e.reads.map fun x => ⟨s, x, [.get]⟩

def elaborate (s : Scope) (e : Expr) : Expr := (e.check s).toOption.elim e (·.2)

/-- The accesses that storing a value takes. `None` is not stored, and an object that is handed to
its constructor is stored twice. -/
def storeAccesses (ls : Layouts) : Expr → List Access
  | literal _ .none | name _ .none => []
  | construct _ c =>
    if (ls.find? c).any (·.hasConstructor) then [.set, .get, .set] else [.set]
  | _ => [.set]

end Expr

namespace Target

def occurrences (ls : Layouts) (s : Scope) (value : Expr) : Target → List Occurrence
  | .name x => value.occurrences s ++ [⟨s, x, (value.elaborate s).storeAccesses ls⟩]
  | .field object _ => object.occurrences s ++ value.occurrences s

end Target

namespace Stmt

mutual
/-- The occurrences in a statement, in the order of its code. A declared variable is looked up
after it has been declared. -/
def occurrences (ls : Layouts) (s : Scope) : Stmt → List Occurrence
  | assign _ target value => target.occurrences ls s value
  | branch _ condition body elseIf otherwise =>
    let afterBody := s.leftBy (checkBody s body)
    condition.occurrences s ++ bodyOccurrences ls s body ++
      elseIfOccurrences ls afterBody elseIf ++
        otherwiseOccurrences ls (afterBody.leftBy (checkElseIf afterBody elseIf)) otherwise
  | loop _ condition body => condition.occurrences s ++ bodyOccurrences ls s body
  | ret _ value | expr value => value.occurrences s
  | declare d =>
    d.value.occurrences s ++
      [⟨s.leftBy (d.check s), d.name, (d.value.elaborate s).storeAccesses ls⟩]
  | pass _ | func _ | cls _ => []

def bodyOccurrences (ls : Layouts) (s : Scope) : List Stmt → List Occurrence
  | [] => []
  | st :: rest => occurrences ls s st ++ bodyOccurrences ls (s.leftBy (check s st)) rest

def elseIfOccurrences (ls : Layouts) (s : Scope) : Option (Expr × List Stmt) → List Occurrence
  | none => []
  | some (condition, body) => condition.occurrences s ++ bodyOccurrences ls s body

def otherwiseOccurrences (ls : Layouts) (s : Scope) : Option (List Stmt) → List Occurrence
  | none => []
  | some body => bodyOccurrences ls s body
end

end Stmt

namespace Expr

variable {s : Scope}

theorem nameType_resolves (hs : s.Receives) {x : Name} {n : Note} {ty : Ty} {y : String}
    (h : s.nameType n.span x = .ok ty) (hy : y ∈ (name n x).reads) :
    ∃ place, s.resolve? y = some (place, ty) := by
  cases x with
  | none => simp [reads] at hy
  | plain x =>
    obtain rfl : y = x := by simpa [reads] using hy
    exact Scope.lookup_eq_ok.mp h
  | self =>
    obtain rfl : y = receiverName := by simpa [reads] using hy
    simp only [Scope.nameType] at h
    split at h
    · next c hc =>
      cases h
      exact ⟨.slot, Scope.resolve?_slot.mpr (hs c hc)⟩
    · exact absurd h reject_ne_ok

/-- Checking keeps the variables that are read, and it has found each of them. -/
def Resolves (s : Scope) (e : Expr) : Prop :=
  ∀ ty e', e.check s = .ok (ty, e') →
    e'.reads = e.reads ∧ ∀ x ∈ e.reads, ∃ r, s.resolve? x = some r

theorem checkArgs_resolves {callee : String} {args : List Expr}
    (ih : ∀ a ∈ args, Resolves s a) {i : Nat} {tys : List Ty} {args' : List Expr}
    (hlen : args.length = tys.length) (h : checkArgs s callee i tys args = .ok args') :
    readsList args' = readsList args ∧ ∀ x ∈ readsList args, ∃ r, s.resolve? x = some r := by
  induction args generalizing i tys args' with
  | nil =>
    have hnil : args' = [] := by simpa [checkArgs] using h.symm
    simp [hnil, readsList]
  | cons e rest ihr =>
    cases tys with
    | nil => simp at hlen
    | cons ty tys =>
      obtain ⟨e', rest', he, hr, rfl⟩ := checkArgs_cons h
      obtain ⟨hre, hxe⟩ := ih e List.mem_cons_self _ _ he
      obtain ⟨hrr, hxr⟩ := ihr (fun a ha => ih a (List.mem_cons_of_mem e ha))
        (by simpa using hlen) hr
      simp only [readsList, List.mem_append]
      exact ⟨by rw [hre, hrr], fun x hx => hx.elim (hxe x) (hxr x)⟩

theorem check_resolves (hs : s.Receives) (e : Expr) : Resolves s e := by
  induction e with
  | literal n l =>
    intro ty e' h
    obtain ⟨-, rfl⟩ := check_literal h
    simp [reads]
  | name n x =>
    intro ty e' h
    obtain ⟨hx, rfl⟩ := check_name h
    refine ⟨by cases x <;> rfl, fun y hy => ?_⟩
    obtain ⟨place, hplace⟩ := nameType_resolves hs hx hy
    exact ⟨_, hplace⟩
  | unary n op e ih =>
    intro ty e' h
    obtain ⟨_, e₁, he, rfl⟩ := check_unary h
    simpa only [reads] using ih _ _ he
  | binary n op l r ihl ihr =>
    intro ty e' h
    obtain ⟨_, l₁, _, r₁, hl, hr, rfl⟩ := check_binary h
    obtain ⟨hrl, hxl⟩ := ihl _ _ hl
    obtain ⟨hrr, hxr⟩ := ihr _ _ hr
    simp only [reads, List.mem_append]
    exact ⟨by rw [hrl, hrr], fun x hx => hx.elim (hxl x) (hxr x)⟩
  | call n callee args ih =>
    intro ty e' h
    rcases check_call h with ⟨rfl, -, rfl⟩ | ⟨sig, args', -, hlen, ha, rfl⟩
    · simp [reads, readsList]
    · simpa only [reads] using checkArgs_resolves ih hlen ha
  | builtin1 n fn e ih =>
    intro ty e' h
    obtain ⟨_, e₁, he, rfl⟩ := check_builtin1 h
    simpa only [reads] using ih _ _ he
  | builtin2 n fn l r ihl ihr =>
    intro ty e' h
    obtain ⟨_, l₁, _, r₁, hl, hr, rfl⟩ := check_builtin2 h
    obtain ⟨hrl, hxl⟩ := ihl _ _ hl
    obtain ⟨hrr, hxr⟩ := ihr _ _ hr
    simp only [reads, List.mem_append]
    exact ⟨by rw [hrl, hrr], fun x hx => hx.elim (hxl x) (hxr x)⟩
  | construct n c =>
    intro ty e' h
    obtain ⟨-, rfl⟩ := check_construct h
    simp [reads]
  | field n object f ih =>
    intro ty e' h
    obtain ⟨c, o₁, ho, -, rfl⟩ := check_field h
    simpa only [reads] using ih _ _ ho
  | method n object m args iho iha =>
    intro ty e' h
    obtain ⟨c, o₁, sig, args', ho, -, hlen, ha, rfl⟩ := check_method h
    obtain ⟨hro, hxo⟩ := iho _ _ ho
    obtain ⟨hra, hxa⟩ := checkArgs_resolves iha hlen ha
    simp only [reads, List.mem_append]
    exact ⟨by rw [hro, hra], fun x hx => hx.elim (hxo x) (hxa x)⟩
  | print n args ih =>
    intro ty e' h
    obtain ⟨e, e₁, rfl, he, rfl⟩ := check_print h
    simpa only [reads, readsList, List.append_nil] using ih e (by simp) _ _ he

theorem reads_of_isNone {e : Expr} (h : e.isNone = true) (ls : Layouts) :
    e.reads = [] ∧ e.storeAccesses ls = [] := by
  match e, h with
  | literal _ .none, _ => exact ⟨rfl, rfl⟩
  | name _ .none, _ => exact ⟨rfl, rfl⟩

theorem elaborate_eq {e e' : Expr} {ty : Ty} (h : e.check s = .ok (ty, e')) :
    e.elaborate s = e' := by
  rw [elaborate, h]
  rfl

end Expr

/-- The occurrence is found, and the declarations in front of it are known where it is checked,
and no others of those in `ds`. -/
def Occurrence.Settled (ds : List Declaration) (s : Scope) (u : Occurrence) : Prop :=
  (∃ r, u.scope.resolve? u.name = some r) ∧
    ∃ before after, ds = before ++ after ∧ s.Grows before u.scope

namespace Occurrence.Settled

variable {ds es : List Declaration} {s s' : Scope} {u : Occurrence}

theorem append_right (h : u.Settled ds s) (es : List Declaration) : u.Settled (ds ++ es) s := by
  obtain ⟨hr, before, after, rfl, hg⟩ := h
  exact ⟨hr, before, after ++ es, List.append_assoc before after es, hg⟩

theorem append_left (hg : s.Grows ds s') (h : u.Settled es s') : u.Settled (ds ++ es) s := by
  obtain ⟨hr, before, after, rfl, hb⟩ := h
  exact ⟨hr, ds ++ before, after, (List.append_assoc ds before after).symm, hg.trans hb⟩

end Occurrence.Settled

theorem Expr.occurrences_settled {s : Scope} (hs : s.Receives) {e e' : Expr} {ty : Ty}
    (h : e.check s = .ok (ty, e')) (ds : List Declaration) :
    ∀ u ∈ e.occurrences s, u.Settled ds s := by
  intro u hu
  obtain ⟨x, hx, rfl⟩ := List.mem_map.mp hu
  exact ⟨(check_resolves hs e _ _ h).2 x hx, [], ds, rfl, .refl s⟩

theorem Target.occurrences_settled {ls : Layouts} {s : Scope} (hs : s.Receives) {span : Span}
    {target target' : Target} {value value' : Expr} {ty : Ty}
    (hv : value.check s = .ok (ty, value')) (ht : target.check s ty span = .ok target') :
    ∀ u ∈ target.occurrences ls s value, u.Settled [] s := by
  intro u hu
  cases target with
  | name x =>
    obtain ⟨⟨slot, hx⟩, -⟩ := check_name ht
    rcases List.mem_append.mp hu with hu | hu
    · exact Expr.occurrences_settled hs hv [] u hu
    · rw [List.mem_singleton.mp hu]
      obtain ⟨place, hplace⟩ := Scope.lookup_eq_ok.mp hx
      exact ⟨⟨_, hplace⟩, [], [], rfl, .refl s⟩
  | field object f =>
    obtain ⟨c, o₁, slot, ho, -, -⟩ := check_field ht
    rcases List.mem_append.mp hu with hu | hu
    · exact Expr.occurrences_settled hs ho [] u hu
    · exact Expr.occurrences_settled hs hv [] u hu

namespace Stmt

/-- Checking a statement inside a function declares what the statement declares, and it settles
every occurrence on the way. -/
def Settles (ls : Layouts) (st : Stmt) : Prop :=
  ∀ s s' st', s.function.isSome = true → s.Receives → st.check s = .ok (s', st') →
    s.Grows st.declarations s' ∧ ∀ u ∈ st.occurrences ls s, u.Settled st.declarations s

theorem checkBody_settles {ls : Layouts} {ss ss' : List Stmt} {s s' : Scope}
    (ih : ∀ st ∈ ss, Settles ls st) (hin : s.function.isSome = true) (hs : s.Receives)
    (h : checkBody s ss = .ok (s', ss')) :
    s.Grows (bodyDeclarations ss) s' ∧
      ∀ u ∈ bodyOccurrences ls s ss, u.Settled (bodyDeclarations ss) s := by
  induction ss generalizing s ss' with
  | nil =>
    simp only [checkBody, Except.ok.injEq, Prod.mk.injEq] at h
    obtain ⟨rfl, rfl⟩ := h
    simp only [bodyDeclarations, bodyOccurrences]
    exact ⟨.refl s, by simp⟩
  | cons st rest ihr =>
    obtain ⟨s₁, st₁, rest₁, hst, hrest, rfl⟩ := checkBody_cons.mp h
    obtain ⟨hg, hu⟩ := ih st List.mem_cons_self s s₁ st₁ hin hs hst
    obtain ⟨hgr, hur⟩ := ihr (fun st' hst' => ih st' (List.mem_cons_of_mem st hst'))
      (hg.inside.trans hin) (hg.receives hs) hrest
    simp only [bodyDeclarations, bodyOccurrences, hst, Scope.leftBy_ok, List.mem_append]
    refine ⟨hg.trans hgr, ?_⟩
    rintro u (hmem | hmem)
    · exact (hu u hmem).append_right _
    · exact (hur u hmem).append_left hg

theorem checkElseIf_settles {ls : Layouts} {elseIf elseIf' : Option (Expr × List Stmt)}
    {s s' : Scope} (ih : ∀ c b, elseIf = some (c, b) → ∀ st ∈ b, Settles ls st)
    (hin : s.function.isSome = true) (hs : s.Receives)
    (h : checkElseIf s elseIf = .ok (s', elseIf')) :
    s.Grows (elseIfDeclarations elseIf) s' ∧
      ∀ u ∈ elseIfOccurrences ls s elseIf, u.Settled (elseIfDeclarations elseIf) s := by
  rcases elseIf with _ | ⟨c, b⟩
  · simp only [checkElseIf, Except.ok.injEq, Prod.mk.injEq] at h
    obtain ⟨rfl, rfl⟩ := h
    simp only [elseIfDeclarations, elseIfOccurrences]
    exact ⟨.refl s, by simp⟩
  · obtain ⟨c₁, b₁, hc, hb, rfl⟩ := checkElseIf_some.mp h
    obtain ⟨hg, hu⟩ := checkBody_settles (ih c b rfl) hin hs hb
    simp only [elseIfDeclarations, elseIfOccurrences, List.mem_append]
    refine ⟨hg, ?_⟩
    rintro u (hmem | hmem)
    · exact Expr.occurrences_settled hs hc _ u hmem
    · exact hu u hmem

theorem checkOtherwise_settles {ls : Layouts} {otherwise otherwise' : Option (List Stmt)}
    {s s' : Scope} (ih : ∀ b, otherwise = some b → ∀ st ∈ b, Settles ls st)
    (hin : s.function.isSome = true) (hs : s.Receives)
    (h : checkOtherwise s otherwise = .ok (s', otherwise')) :
    s.Grows (otherwiseDeclarations otherwise) s' ∧
      ∀ u ∈ otherwiseOccurrences ls s otherwise,
        u.Settled (otherwiseDeclarations otherwise) s := by
  cases otherwise with
  | none =>
    simp only [checkOtherwise, Except.ok.injEq, Prod.mk.injEq] at h
    obtain ⟨rfl, rfl⟩ := h
    simp only [otherwiseDeclarations, otherwiseOccurrences]
    exact ⟨.refl s, by simp⟩
  | some b =>
    obtain ⟨b₁, hb, rfl⟩ := checkOtherwise_some.mp h
    simp only [otherwiseDeclarations, otherwiseOccurrences]
    exact checkBody_settles (ih b rfl) hin hs hb

theorem check_settles (ls : Layouts) (st : Stmt) : Settles ls st := by
  induction st with
  | assign span target value =>
    intro s s' st' hin hs h
    obtain ⟨ty, value₁, target₁, hv, ht, rfl, rfl⟩ := check_assign.mp h
    simp only [declarations, occurrences]
    exact ⟨.refl s, Target.occurrences_settled hs hv ht⟩
  | branch span condition body elseIf otherwise ihb ihe iho =>
    intro s s' st' hin hs h
    obtain ⟨condition₁, s₁, body₁, s₂, elseIf₁, otherwise₁, hc, hb, he, ho, rfl⟩ :=
      check_branch.mp h
    obtain ⟨hgb, hub⟩ := checkBody_settles ihb hin hs hb
    obtain ⟨hge, hue⟩ := checkElseIf_settles ihe (hgb.inside.trans hin) (hgb.receives hs) he
    have hgbe := hgb.trans hge
    obtain ⟨hgo, huo⟩ :=
      checkOtherwise_settles iho (hgbe.inside.trans hin) (hgbe.receives hs) ho
    simp only [declarations, occurrences, hb, he, Scope.leftBy_ok, List.mem_append]
    refine ⟨hgbe.trans hgo, ?_⟩
    rintro u (((hmem | hmem) | hmem) | hmem)
    · exact Expr.occurrences_settled hs hc _ u hmem
    · exact ((hub u hmem).append_right _).append_right _
    · exact ((hue u hmem).append_left hgb).append_right _
    · exact (huo u hmem).append_left hgbe
  | loop span condition body ih =>
    intro s s' st' hin hs h
    obtain ⟨condition₁, body₁, hc, hb, rfl⟩ := check_loop.mp h
    obtain ⟨hg, hu⟩ := checkBody_settles ih hin hs hb
    simp only [declarations, occurrences, List.mem_append]
    refine ⟨hg, ?_⟩
    rintro u (hmem | hmem)
    · exact Expr.occurrences_settled hs hc _ u hmem
    · exact hu u hmem
  | pass span =>
    intro s s' st' hin hs h
    simp only [check, Except.ok.injEq, Prod.mk.injEq] at h
    obtain ⟨rfl, rfl⟩ := h
    simp only [declarations, occurrences]
    exact ⟨.refl s, by simp⟩
  | ret span value =>
    intro s s' st' hin hs h
    obtain ⟨f, ty, value₁, hf, hv, rfl, rfl⟩ := check_ret h
    simp only [declarations, occurrences]
    exact ⟨.returned hf, Expr.occurrences_settled hs hv []⟩
  | expr value =>
    intro s s' st' hin hs h
    obtain ⟨ty, value₁, hv, rfl, rfl⟩ := check_expr.mp h
    simp only [declarations, occurrences]
    exact ⟨.refl s, Expr.occurrences_settled hs hv []⟩
  | declare d =>
    intro s s' st' hin hs h
    obtain ⟨d₁, hd, rfl⟩ := check_declare.mp h
    obtain ⟨ty, value₁, hv, hdecl, rfl⟩ := Declaration.check_eq_ok hd
    have hg := Scope.Grows.declare hin hdecl
    simp only [declarations, occurrences, hd, Scope.leftBy_ok, List.mem_append,
      List.mem_singleton]
    refine ⟨hg, ?_⟩
    rintro u (hmem | rfl)
    · exact Expr.occurrences_settled hs hv _ u hmem
    · have hfound : s'.locals.find? d.name = some d.ty :=
        (hg.locals _ _).mpr (.inr ⟨d, by simp, rfl, rfl⟩)
      exact ⟨⟨_, Scope.resolve?_slot.mpr hfound⟩, [d], [], rfl, hg⟩
  | func f =>
    intro s s' st' hin hs h
    simp only [check] at h
    exact absurd h reject_ne_ok
  | cls c =>
    intro s s' st' hin hs h
    simp only [check] at h
    exact absurd h reject_ne_ok

end Stmt

end TypedScript
