import TypedScript.Proofs.Lowering.Inversion
import TypedScript.Proofs.Resolution.Occurrences

/-! # Accesses in code

The variables that code accesses are those of the occurrences, one after the other, and for each
the place is chosen by its name alone. -/

namespace TypedScript

namespace Symbol

def ownVariables : List String := [heapPointer, scratch]

end Symbol

abbrev Reference := Place × Access × String

namespace Site

def place (s : Site) (x : String) : Place := if s.locals.contains x then .slot else .global

end Site

/-- The accesses that an occurrence becomes. -/
def Occurrence.emitted (s : Site) (u : Occurrence) : List Reference :=
  u.accesses.map fun a => (s.place u.name, a, u.name)

namespace Instr

mutual
/-- The accesses to variables of the program, in order and at any depth. -/
def accesses : Instr → List Reference
  | localGet x => if x ∈ Symbol.ownVariables then [] else [(.slot, .get, x)]
  | localSet x => if x ∈ Symbol.ownVariables then [] else [(.slot, .set, x)]
  | globalGet x => if x ∈ Symbol.ownVariables then [] else [(.global, .get, x)]
  | globalSet x => if x ∈ Symbol.ownVariables then [] else [(.global, .set, x)]
  | ite body otherwise => bodyAccesses body ++ bodyAccesses otherwise
  | block body | loop body => bodyAccesses body
  | const _ | call _ | numeric _ | eqz | load | store | br _ | brIf _ | ret | nop => []

def bodyAccesses : List Instr → List Reference
  | [] => []
  | i :: is => accesses i ++ bodyAccesses is
end

-- The equations are made here, once for all the lemmas below.
attribute [local simp] accesses bodyAccesses

@[simp] theorem bodyAccesses_nil : bodyAccesses [] = [] := by
  simp

@[simp] theorem bodyAccesses_cons {i : Instr} {is : List Instr} :
    bodyAccesses (i :: is) = i.accesses ++ bodyAccesses is := by
  simp

@[simp] theorem bodyAccesses_append {code rest : List Instr} :
    bodyAccesses (code ++ rest) = bodyAccesses code ++ bodyAccesses rest := by
  induction code with
  | nil => simp
  | cons i is ih => simp [ih]

theorem accesses_get {s : Site} {x : String} (hx : x ∉ Symbol.ownVariables) :
    (s.get x).accesses = [(s.place x, .get, x)] := by
  rw [Site.get, Site.place]
  split
  · simp [accesses, hx]
  · simp [accesses, hx]

theorem accesses_set {s : Site} {x : String} (hx : x ∉ Symbol.ownVariables) :
    (s.set x).accesses = [(s.place x, .set, x)] := by
  rw [Site.set, Site.place]
  split
  · simp [accesses, hx]
  · simp [accesses, hx]

/-- An allocation uses no variable but the heap pointer. -/
theorem bodyAccesses_allocate (l : ClassLayout) : bodyAccesses l.allocate = [] := by
  have hown : Symbol.heapPointer ∈ Symbol.ownVariables := by decide
  have hfields : bodyAccesses (l.fields.flatMap ClassLayout.initField) = [] := by
    induction l.fields with
    | nil => simp
    | cons f rest ih => simp [ih, ClassLayout.initField, accesses, hown]
  simp [ClassLayout.allocate, hfields, accesses, hown]

end Instr

namespace Expr

open Instr

variable {s : Site}

/-- The code of an expression reads the variables of the expression, in their order. -/
def ReadsInOrder (s : Site) (e : Expr) : Prop :=
  ∀ code, e.lowerValue s = .ok code → (∀ x ∈ e.reads, x ∉ Symbol.ownVariables) →
    bodyAccesses code = e.reads.map fun x => (s.place x, .get, x)

theorem lowerArgs_readsInOrder {args : List Expr} (ih : ∀ a ∈ args, ReadsInOrder s a)
    {code : List Instr} (hc : lowerArgs s args = .ok code)
    (hx : ∀ x ∈ readsList args, x ∉ Symbol.ownVariables) :
    bodyAccesses code = (readsList args).map fun x => (s.place x, .get, x) := by
  induction args generalizing code with
  | nil =>
    obtain rfl := lowerArgs_nil.mp hc
    simp [readsList]
  | cons a rest ihr =>
    obtain ⟨c, cs, ha, hr, rfl⟩ := lowerArgs_cons.mp hc
    simp only [readsList, List.mem_append] at hx ⊢
    rw [bodyAccesses_append, ih a List.mem_cons_self c ha fun x h => hx x (.inl h),
      ihr (fun b hb => ih b (List.mem_cons_of_mem a hb)) hr fun x h => hx x (.inr h),
      List.map_append]

theorem readsInOrder (e : Expr) : ReadsInOrder s e := by
  induction e with
  | literal n l =>
    intro code hc _
    obtain rfl := lowerValue_literal.mp hc
    simp [reads, accesses]
  | name n x =>
    intro code hc hx
    cases x with
    | none =>
      obtain rfl := lowerValue_none.mp hc
      simp [reads, accesses]
    | self =>
      obtain rfl := lowerValue_self.mp hc
      rw [bodyAccesses_cons, accesses_get (hx _ (by simp [reads]))]
      simp [reads]
    | plain x =>
      obtain rfl := lowerValue_plain.mp hc
      rw [bodyAccesses_cons, accesses_get (hx _ (by simp [reads]))]
      simp [reads]
  | unary n op e ih =>
    intro code hc hx
    simp only [reads] at hx ⊢
    cases op with
    | not =>
      obtain ⟨c, he, rfl⟩ := lowerValue_not.mp hc
      simp [ih c he hx, accesses]
    | neg =>
      obtain ⟨c, he, rfl⟩ := lowerValue_neg.mp hc
      simp [ih c he hx, accesses]
  | binary n op l r ihl ihr =>
    intro code hc hx
    simp only [reads, List.mem_append] at hx ⊢
    obtain ⟨cl, cr, hl, hr, rfl⟩ := lowerValue_binary.mp hc
    simp [ihl cl hl fun x h => hx x (.inl h), ihr cr hr fun x h => hx x (.inr h), accesses]
  | call n callee args ih =>
    intro code hc hx
    simp only [reads] at hx ⊢
    obtain ⟨cs, ha, rfl⟩ := lowerValue_call.mp hc
    simp [lowerArgs_readsInOrder ih ha hx, accesses]
  | builtin1 n fn e ih =>
    intro code hc hx
    simp only [reads] at hx ⊢
    obtain ⟨c, he, rfl⟩ := lowerValue_builtin1.mp hc
    simp [ih c he hx, accesses]
  | builtin2 n fn l r ihl ihr =>
    intro code hc hx
    simp only [reads, List.mem_append] at hx ⊢
    obtain ⟨cl, cr, hl, hr, rfl⟩ := lowerValue_builtin2.mp hc
    simp [ihl cl hl fun x h => hx x (.inl h), ihr cr hr fun x h => hx x (.inr h), accesses]
  | construct n c =>
    intro code hc _
    obtain ⟨l, -, rfl⟩ := lowerValue_construct.mp hc
    simp [reads, bodyAccesses_allocate]
  | field n object f ih =>
    intro code hc hx
    simp only [reads] at hx ⊢
    obtain ⟨c, slot, co, -, -, ho, rfl⟩ := lowerValue_field.mp hc
    simp [fieldAddress, ih co ho hx, accesses]
  | method n object m args iho iha =>
    intro code hc hx
    simp only [reads, List.mem_append] at hx ⊢
    obtain ⟨c, co, cs, -, ho, ha, rfl⟩ := lowerValue_method.mp hc
    simp [iho co ho fun x h => hx x (.inl h),
      lowerArgs_readsInOrder iha ha fun x h => hx x (.inr h), accesses]
  | print n args ih =>
    intro code hc hx
    rcases args with _ | ⟨e, _ | ⟨e₁, rest⟩⟩
    · simp [lowerValue, lower, bind_eq_ok] at hc
    · simp only [reads, readsList, List.append_nil] at hx ⊢
      obtain ⟨ty, target, c, -, -, he, rfl⟩ := lowerValue_print.mp hc
      simp [ih e (by simp) c he hx, accesses]
    · simp [lowerValue, lower, bind_eq_ok] at hc

/-- The occurrences in an expression become the reads in its code. -/
theorem occurrences_emitted {t : Scope} (ht : t.Receives) {e e' : Expr} {ty : Ty}
    {code : List Instr} (he : e.check t = .ok (ty, e')) (hc : e'.lowerValue s = .ok code)
    (hx : ∀ u ∈ e.occurrences t, u.name ∉ Symbol.ownVariables) :
    bodyAccesses code = (e.occurrences t).flatMap (·.emitted s) := by
  have hreads := (check_resolves ht e _ _ he).1
  have hown : ∀ x ∈ e'.reads, x ∉ Symbol.ownVariables := by
    intro x hmem
    rw [hreads] at hmem
    exact hx ⟨t, x, [.get]⟩ (List.mem_map.mpr ⟨x, hmem, rfl⟩)
  rw [readsInOrder e' code hc hown, hreads, List.map_eq_flatMap, occurrences, List.flatMap_map]
  simp only [Occurrence.emitted, List.map_cons, List.map_nil]

end Expr

section

open Instr

variable {s : Site} {t : Scope}

/-- The accesses of a store come behind the reads of its value. -/
theorem Site.storeName_emitted {x : String} (hx : x ∉ Symbol.ownVariables) (ht : t.Receives)
    {value value' : Expr} {ty : Ty} {code : List Instr} (hv : value.check t = .ok (ty, value'))
    (hc : s.storeName x value' = .ok code)
    (hown : ∀ u ∈ value.occurrences t, u.name ∉ Symbol.ownVariables) (scope : Scope) :
    bodyAccesses code = (value.occurrences t).flatMap (·.emitted s) ++
      Occurrence.emitted s ⟨scope, x, value'.storeAccesses s.layouts⟩ := by
  have hreads := (Expr.check_resolves ht value _ _ hv).1
  by_cases hn : value'.isNone = true
  · -- `None` reads no variable, and nothing is stored.
    rw [storeName_none hn] at hc
    cases hc
    obtain ⟨hnil, hstore⟩ := Expr.reads_of_isNone hn s.layouts
    simp [Expr.occurrences, Occurrence.emitted, ← hreads, hnil, hstore]
  by_cases hk : ∃ n c, value' = .construct n c
  · obtain ⟨n, c, rfl⟩ := hk
    obtain ⟨l, hl, rfl⟩ := storeName_construct.mp hc
    have hnil : value.reads = [] := hreads.symm
    cases hctor : l.hasConstructor <;>
      simp [Expr.occurrences, hnil, Occurrence.emitted, Expr.storeAccesses, hl, hctor,
        bodyAccesses_allocate, accesses_set hx, accesses_get hx, accesses]
  · simp only [not_exists] at hk
    have hstore : value'.storeAccesses s.layouts = [.set] := by
      unfold Expr.storeAccesses
      split
      · simp [Expr.isNone] at hn
      · simp [Expr.isNone] at hn
      · next n c => exact absurd rfl (hk n c)
      · rfl
    obtain ⟨c, hcv, rfl⟩ := (storeName_value (by simpa using hn) hk).mp hc
    rw [bodyAccesses_append, Expr.occurrences_emitted ht hv hcv hown]
    simp [Occurrence.emitted, hstore, accesses_set hx]

theorem Target.occurrences_emitted (ht : t.Receives) {target target' : Target}
    {value value' : Expr} {ty : Ty} {span span' : Span} {code : List Instr}
    (hv : value.check t = .ok (ty, value')) (htarget : target.check t ty span = .ok target')
    (hc : target'.lower s span' value' = .ok code)
    (hown : ∀ u ∈ target.occurrences s.layouts t value, u.name ∉ Symbol.ownVariables) :
    bodyAccesses code = (target.occurrences s.layouts t value).flatMap (·.emitted s) := by
  cases target with
  | name x =>
    obtain ⟨-, rfl⟩ := check_name htarget
    simp only [occurrences, Expr.elaborate_eq hv, List.mem_append, List.mem_singleton] at hown ⊢
    rw [Site.storeName_emitted (hown _ (.inr rfl)) ht hv hc (fun u hu => hown u (.inl hu)) t]
    simp
  | field object f =>
    obtain ⟨c, o₁, slot, ho, -, rfl⟩ := check_field htarget
    simp only [occurrences, List.mem_append] at hown ⊢
    obtain ⟨c, slot, co, cv, -, -, hco, hcv, rfl⟩ := Target.lower_field.mp hc
    have hobject := Expr.occurrences_emitted ht ho hco fun u hu => hown u (.inl hu)
    have hvalue := Expr.occurrences_emitted ht hv hcv fun u hu => hown u (.inr hu)
    simp [Expr.fieldAddress, hobject, hvalue, accesses]

namespace Stmt

/-- The occurrences in a statement become the accesses in its code. -/
def Emits (s : Site) (st : Stmt) : Prop :=
  ∀ t t' st' code, t.function.isSome = true → t.Receives → st.check t = .ok (t', st') →
    st'.lower s = .ok code →
    (∀ u ∈ st.occurrences s.layouts t, u.name ∉ Symbol.ownVariables) →
    bodyAccesses code = (st.occurrences s.layouts t).flatMap (·.emitted s)

theorem checkBody_emits {ss ss' : List Stmt} {t' : Scope} {code : List Instr}
    (ih : ∀ st ∈ ss, Emits s st) (hin : t.function.isSome = true) (ht : t.Receives)
    (h : checkBody t ss = .ok (t', ss')) (hc : lowerBody s ss' = .ok code)
    (hown : ∀ u ∈ bodyOccurrences s.layouts t ss, u.name ∉ Symbol.ownVariables) :
    bodyAccesses code = (bodyOccurrences s.layouts t ss).flatMap (·.emitted s) := by
  induction ss generalizing t ss' code with
  | nil =>
    simp only [checkBody, Except.ok.injEq, Prod.mk.injEq] at h
    obtain ⟨rfl, rfl⟩ := h
    obtain rfl := lowerBody_nil.mp hc
    simp [bodyOccurrences]
  | cons st rest ihr =>
    obtain ⟨t₁, st₁, rest₁, hst, hrest, rfl⟩ := checkBody_cons.mp h
    obtain ⟨c, cs, hcs, hcr, rfl⟩ := lowerBody_cons.mp hc
    simp only [bodyOccurrences, hst, Scope.leftBy_ok, List.mem_append] at hown ⊢
    have hg := (check_settles s.layouts st t t₁ st₁ hin ht hst).1
    rw [bodyAccesses_append, List.flatMap_append,
      ih st List.mem_cons_self t t₁ st₁ c hin ht hst hcs fun u hu => hown u (.inl hu),
      ihr (fun st' hst' => ih st' (List.mem_cons_of_mem st hst')) (hg.inside.trans hin)
        (hg.receives ht) hrest hcr fun u hu => hown u (.inr hu)]

theorem checkElseIf_emits {elseIf elseIf' : Option (Expr × List Stmt)} {t' : Scope}
    {code otherwise : List Instr} (ih : ∀ c b, elseIf = some (c, b) → ∀ st ∈ b, Emits s st)
    (hin : t.function.isSome = true) (ht : t.Receives)
    (h : checkElseIf t elseIf = .ok (t', elseIf')) (hc : lowerElseIf s elseIf' otherwise = .ok code)
    (hown : ∀ u ∈ elseIfOccurrences s.layouts t elseIf, u.name ∉ Symbol.ownVariables) :
    bodyAccesses code =
      (elseIfOccurrences s.layouts t elseIf).flatMap (·.emitted s) ++ bodyAccesses otherwise := by
  rcases elseIf with _ | ⟨c, b⟩
  · simp only [checkElseIf, Except.ok.injEq, Prod.mk.injEq] at h
    obtain ⟨rfl, rfl⟩ := h
    obtain rfl : otherwise = code := by simpa [lowerElseIf] using hc
    simp [elseIfOccurrences]
  · obtain ⟨c₁, b₁, hcond, hb, rfl⟩ := checkElseIf_some.mp h
    obtain ⟨cc, cb, hcc, hcb, rfl⟩ := lowerElseIf_some.mp hc
    simp only [elseIfOccurrences, List.mem_append] at hown ⊢
    have hcondition := Expr.occurrences_emitted ht hcond hcc fun u hu => hown u (.inl hu)
    have hbody := checkBody_emits (ih c b rfl) hin ht hb hcb fun u hu => hown u (.inr hu)
    simp [hcondition, hbody, accesses]

theorem checkOtherwise_emits {otherwise otherwise' : Option (List Stmt)} {t' : Scope}
    {code : List Instr} (ih : ∀ b, otherwise = some b → ∀ st ∈ b, Emits s st)
    (hin : t.function.isSome = true) (ht : t.Receives)
    (h : checkOtherwise t otherwise = .ok (t', otherwise'))
    (hc : lowerOtherwise s otherwise' = .ok code)
    (hown : ∀ u ∈ otherwiseOccurrences s.layouts t otherwise, u.name ∉ Symbol.ownVariables) :
    bodyAccesses code = (otherwiseOccurrences s.layouts t otherwise).flatMap (·.emitted s) := by
  cases otherwise with
  | none =>
    simp only [checkOtherwise, Except.ok.injEq, Prod.mk.injEq] at h
    obtain ⟨rfl, rfl⟩ := h
    obtain rfl : [] = code := by simpa [lowerOtherwise] using hc
    simp [otherwiseOccurrences]
  | some b =>
    obtain ⟨b₁, hb, rfl⟩ := checkOtherwise_some.mp h
    simp only [lowerOtherwise, otherwiseOccurrences] at hc hown ⊢
    exact checkBody_emits (ih b rfl) hin ht hb hc hown

theorem check_emits (st : Stmt) : Emits s st := by
  induction st with
  | assign span target value =>
    intro t t' st' code hin ht h hc hown
    obtain ⟨ty, value₁, target₁, hv, htarget, rfl, rfl⟩ := check_assign.mp h
    simp only [lower, occurrences] at hc hown ⊢
    exact Target.occurrences_emitted ht hv htarget hc hown
  | branch span condition body elseIf otherwise ihb ihe iho =>
    intro t t' st' code hin ht h hc hown
    obtain ⟨condition₁, t₁, body₁, t₂, elseIf₁, otherwise₁, hcond, hb, he, ho, rfl⟩ :=
      check_branch.mp h
    obtain ⟨cb, co, ce, cc, hcb, hco, hce, hcc, rfl⟩ := lower_branch.mp hc
    simp only [occurrences, hb, he, Scope.leftBy_ok, List.mem_append] at hown ⊢
    have hg₁ := (checkBody_settles (fun st _ => check_settles s.layouts st) hin ht hb).1
    have hg₂ := hg₁.trans (checkElseIf_settles (fun _ _ _ st _ => check_settles s.layouts st)
      (hg₁.inside.trans hin) (hg₁.receives ht) he).1
    have hcondition := Expr.occurrences_emitted ht hcond hcc
      fun u hu => hown u (.inl (.inl (.inl hu)))
    have hbody := checkBody_emits ihb hin ht hb hcb fun u hu => hown u (.inl (.inl (.inr hu)))
    have helse := checkElseIf_emits ihe (hg₁.inside.trans hin) (hg₁.receives ht) he hce
      fun u hu => hown u (.inl (.inr hu))
    have hother := checkOtherwise_emits iho (hg₂.inside.trans hin) (hg₂.receives ht) ho hco
      fun u hu => hown u (.inr hu)
    simp [hcondition, hbody, helse, hother, accesses]
  | loop span condition body ih =>
    intro t t' st' code hin ht h hc hown
    obtain ⟨condition₁, body₁, hcond, hb, rfl⟩ := check_loop.mp h
    obtain ⟨cc, cb, hcc, hcb, rfl⟩ := lower_loop.mp hc
    simp only [occurrences, List.mem_append] at hown ⊢
    have hcondition := Expr.occurrences_emitted ht hcond hcc fun u hu => hown u (.inl hu)
    have hbody := checkBody_emits ih hin ht hb hcb fun u hu => hown u (.inr hu)
    simp [hcondition, hbody, accesses]
  | pass span =>
    intro t t' st' code hin ht h hc hown
    simp only [check, Except.ok.injEq, Prod.mk.injEq] at h
    obtain ⟨rfl, rfl⟩ := h
    obtain rfl : [Instr.nop] = code := by simpa [lower] using hc
    simp [occurrences, accesses]
  | ret span value =>
    intro t t' st' code hin ht h hc hown
    obtain ⟨f, ty, value₁, hf, hv, rfl, rfl⟩ := check_ret h
    obtain ⟨c, hcv, rfl⟩ := lower_ret.mp hc
    simp only [occurrences] at hown ⊢
    simp [Expr.occurrences_emitted ht hv hcv hown, accesses]
  | expr value =>
    intro t t' st' code hin ht h hc hown
    obtain ⟨ty, value₁, hv, rfl, rfl⟩ := check_expr.mp h
    obtain ⟨c, hcv, rfl⟩ := lower_expr.mp hc
    simp only [occurrences] at hown ⊢
    have hscratch : Symbol.scratch ∈ Symbol.ownVariables := by decide
    simp [Expr.occurrences_emitted ht hv hcv hown, accesses, hscratch]
  | declare d =>
    intro t t' st' code hin ht h hc hown
    obtain ⟨d₁, hd, rfl⟩ := check_declare.mp h
    obtain ⟨ty, value₁, hv, hdecl, rfl⟩ := Declaration.check_eq_ok hd
    simp only [occurrences, hd, Scope.leftBy_ok, Expr.elaborate_eq hv, List.mem_append,
      List.mem_singleton] at hown ⊢
    simp only [lower] at hc
    rw [Site.storeName_emitted (hown _ (.inr rfl)) ht hv hc (fun u hu => hown u (.inl hu)) t']
    simp
  | func f =>
    intro t t' st' code hin ht h hc hown
    simp only [check] at h
    exact absurd h reject_ne_ok
  | cls c =>
    intro t t' st' code hin ht h hc hown
    simp only [check] at h
    exact absurd h reject_ne_ok

end Stmt

end

end TypedScript
