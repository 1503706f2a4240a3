import TypedScript.Proofs.Lowering.Emitted
import TypedScript.Proofs.Lowering.Totality

/-! # Emitted modules are valid

The code of an expression leaves one value more on the stack, and the code of a statement leaves the
stack as it was. -/

namespace TypedScript

open Instr

/-- The module has a function, and the function a slot, for all that the vocabulary names. -/
structure Provides (m : Module) (f : Func) (v : Vocabulary) : Prop where
  locals : ∀ x ∈ v.locals, f.hasSlot x = true
  scratch : f.hasSlot Symbol.scratch = true
  globals : ∀ x ∈ v.globals, (m.global? x).isSome = true
  heap : (m.global? Symbol.heapPointer).isSome = true
  hosts : ∀ x ∈ Symbol.hostFunctions, m.arity? x = some (1, 1)
  funcs : ∀ x n, (x, n) ∈ v.funcs → m.arity? x = some (n, 1)
  methods : ∀ c ∈ v.classes, ∀ x n, (x, n) ∈ c.methods →
    m.arity? (Symbol.method c.name x) = some (n, 1)
  results : v.returns = true → f.results = 1

/-- The module has a function for each built-in that `parts` call. -/
def Supports (m : Module) (parts : List Expr) : Prop :=
  ∀ q ∈ parts, ∀ b, q.builtin? = some b → m.arity? b.symbol = some (b.params.length, 1)

namespace Supports

variable {m : Module} {ps qs : List Expr} {e : Expr}

@[simp] theorem append : Supports m (ps ++ qs) ↔ Supports m ps ∧ Supports m qs := by
  simp only [Supports, List.mem_append, or_imp, forall_and]

@[simp] theorem cons : Supports m (e :: ps) ↔
    (∀ b, e.builtin? = some b → m.arity? b.symbol = some (b.params.length, 1)) ∧
      Supports m ps := by
  simp only [Supports, List.mem_cons, forall_eq_or_imp]

theorem of_mem_args {args : List Expr} (h : Supports m (Expr.partsList args)) (he : e ∈ args) :
    Supports m e.parts :=
  fun q hq => h q (Expr.mem_partsList.mpr ⟨e, he, hq⟩)

theorem of_mem_body {body : List Stmt} {st : Stmt} (h : Supports m (Stmt.partsBody body))
    (hs : st ∈ body) : Supports m st.parts :=
  fun q hq => h q (Stmt.mem_partsBody.mpr ⟨st, hs, hq⟩)

end Supports

section

variable {m : Module} {f : Func} {v : Vocabulary} {s : Site} {labels : List Nat}

namespace Provides

variable {x : String}

theorem get (hp : Provides m f v) (hs : s.locals = v.locals) (hx : v.HasVar x) (h : Nat) :
    height? m f labels (s.get x) h = some (h + 1) := by
  rw [Site.get]
  split
  · next hl =>
    have hslot := hp.locals x (hs ▸ List.contains_iff_mem.mp hl)
    simp [height?, hslot, heightAfter]
  · next hl =>
    have hg : x ∈ v.globals := hx.resolve_left fun hx => hl (by simpa [hs] using hx)
    simp [height?, hp.globals x hg, heightAfter]

theorem set (hp : Provides m f v) (hs : s.locals = v.locals) (hx : v.HasVar x) (h : Nat) :
    height? m f labels (s.set x) (h + 1) = some h := by
  rw [Site.set]
  split
  · next hl =>
    have hslot := hp.locals x (hs ▸ List.contains_iff_mem.mp hl)
    simp [height?, hslot, heightAfter]
  · next hl =>
    have hg : x ∈ v.globals := hx.resolve_left fun hx => hl (by simpa [hs] using hx)
    simp [height?, hp.globals x hg, heightAfter]

theorem allocate (hp : Provides m f v) (l : ClassLayout) (h : Nat) :
    bodyHeight? m f labels l.allocate h = some (h + 1) := by
  have hfield : ∀ slot ∈ l.fields,
      bodyHeight? m f labels (ClassLayout.initField slot) h = some h := by
    intro slot _
    simp [ClassLayout.initField, height?, hp.heap, heightAfter]
  rw [ClassLayout.allocate, bodyHeight?_append, bodyHeight?_flatMap hfield]
  simp [height?, hp.heap, heightAfter]

end Provides

namespace Expr

/-- Printing is left to the host. -/
theorem printer_mem {ty : Ty} {span : Span} {target : String} (h : printer ty span = .ok target) :
    target ∈ Symbol.hostFunctions := by
  cases ty <;> simp [printer] at h <;> subst h <;> decide

theorem lowerArgs_height {args : List Expr} {code : List Instr}
    (ih : ∀ a ∈ args, ∀ c h, a.lowerValue s = .ok c → bodyHeight? m f labels c h = some (h + 1))
    (hc : lowerArgs s args = .ok code) (h : Nat) :
    bodyHeight? m f labels code h = some (h + args.length) := by
  induction args generalizing code h with
  | nil =>
    obtain rfl := lowerArgs_nil.mp hc
    simp
  | cons a rest ihr =>
    obtain ⟨c, cs, ha, hr, rfl⟩ := lowerArgs_cons.mp hc
    have hrest := ihr (fun b hb => ih b (List.mem_cons_of_mem a hb)) hr (h + 1)
    simp [ih a List.mem_cons_self c h ha, hrest]
    omega

theorem Elaborated.height {e : Expr} (he : e.Elaborated v) (hp : Provides m f v)
    (hs : s.locals = v.locals) (hb : Supports m e.parts) {code : List Instr}
    (hc : e.lowerValue s = .ok code) (h : Nat) :
    bodyHeight? m f labels code h = some (h + 1) := by
  induction he generalizing code h with
  | literal =>
    obtain rfl := lowerValue_literal.mp hc
    simp [height?, heightAfter]
  | none =>
    obtain rfl := lowerValue_none.mp hc
    simp [height?, heightAfter]
  | self known =>
    obtain rfl := lowerValue_self.mp hc
    simp [hp.get hs (.inl known)]
  | plain known =>
    obtain rfl := lowerValue_plain.mp hc
    simp [hp.get hs known]
  | @unary n op e _ ih =>
    simp only [parts, Supports.cons] at hb
    cases op with
    | not =>
      obtain ⟨c, he, rfl⟩ := lowerValue_not.mp hc
      have hn := hp.hosts Symbol.notOperator (by decide)
      simp [ih hb.2 he h, height?, hn, heightAfter]
    | neg =>
      obtain ⟨c, he, rfl⟩ := lowerValue_neg.mp hc
      simp [height?, heightAfter, ih hb.2 he (h + 1)]
  | binary _ _ ihl ihr =>
    simp only [parts, Supports.cons, Supports.append] at hb
    obtain ⟨cl, cr, hl, hr, rfl⟩ := lowerValue_binary.mp hc
    simp [ihl hb.2.1 hl h, ihr hb.2.2 hr (h + 1), height?, heightAfter]
  | call known _ ih =>
    simp only [parts, Supports.cons] at hb
    obtain ⟨cs, ha, rfl⟩ := lowerValue_call.mp hc
    have hargs := lowerArgs_height (fun a ha c h hc => ih a ha (hb.2.of_mem_args ha) hc h) ha h
    simp [hargs, height?, hp.funcs _ _ known, heightAfter]
  | @builtin1 n fn e _ ih =>
    simp only [parts, Supports.cons] at hb
    obtain ⟨c, he, rfl⟩ := lowerValue_builtin1.mp hc
    have hn : fn.builtin.params.length = 1 := by cases fn; rfl
    simp [ih hb.2 he h, height?, hb.1 fn.builtin rfl, hn, heightAfter]
  | @builtin2 n fn l r _ _ ihl ihr =>
    simp only [parts, Supports.cons, Supports.append] at hb
    obtain ⟨cl, cr, hl, hr, rfl⟩ := lowerValue_builtin2.mp hc
    have hn : fn.builtin.params.length = 2 := by cases fn <;> rfl
    simp [ihl hb.2.1 hl h, ihr hb.2.2 hr (h + 1), height?, hb.1 fn.builtin rfl, hn, heightAfter]
  | construct =>
    obtain ⟨l, -, rfl⟩ := lowerValue_construct.mp hc
    exact hp.allocate l h
  | field _ _ _ ih =>
    simp only [parts, Supports.cons] at hb
    obtain ⟨c, slot, co, -, -, ho, rfl⟩ := lowerValue_field.mp hc
    simp [fieldAddress, ih hb.2 ho h, height?, heightAfter]
  | @method n object c m args ty known _ _ iho iha =>
    simp only [parts, Supports.cons, Supports.append] at hb
    obtain ⟨c', co, cs, hty, ho, ha, rfl⟩ := lowerValue_method.mp hc
    obtain rfl : c = c' := by simpa [ty] using hty
    obtain ⟨d, hd, rfl, hm⟩ := known
    have hargs := lowerArgs_height
      (fun a ha c h hc => iha a ha (hb.2.2.of_mem_args ha) hc h) ha (h + 1)
    have hcall : heightAfter (args.length + 1) 1 (h + 1 + args.length) = some (h + 1) :=
      heightAfter_of_eq (by omega)
    simp [iho hb.2.1 ho h, hargs, height?, hp.methods d hd _ _ hm, hcall]
  | print _ _ ih =>
    simp only [parts, partsList, Supports.cons, List.append_nil] at hb
    obtain ⟨ty, target, c, -, ht, he, rfl⟩ := lowerValue_print.mp hc
    simp [ih hb.2 he h, height?, hp.hosts target (printer_mem ht), heightAfter]

end Expr

namespace Site

/-- Code is given where the names of the vocabulary are in scope. -/
structure Serves (s : Site) (v : Vocabulary) : Prop where
  locals : s.locals = v.locals
  constructors : ∀ d ∈ v.classes, ∀ l, s.layouts.find? d.name = some l →
    l.hasConstructor = true → constructorName ∈ d.methods.map (·.1)

theorem storeName_height {x : String} {value : Expr} {code : List Instr} (hs : s.Serves v)
    (hp : Provides m f v) (hx : v.HasVar x) (hv : value.Elaborated v)
    (hb : Supports m value.parts) (hc : s.storeName x value = .ok code) :
    bodyHeight? m f labels code 0 = some 0 := by
  by_cases hn : value.isNone = true
  · rw [storeName_none hn] at hc
    cases hc
    simp
  by_cases hk : ∃ n c, value = .construct n c
  · obtain ⟨n, c, rfl⟩ := hk
    obtain ⟨l, hl, rfl⟩ := storeName_construct.mp hc
    simp only [bodyHeight?_append, hp.allocate, Option.bind_some, bodyHeight?_cons,
      bodyHeight?_nil, hp.set hs.locals hx 0]
    split
    · next hcon =>
      cases hv with
      | construct known =>
        obtain ⟨d, hd, rfl, hinit⟩ := known
        have hcall := hp.methods d hd _ _ (hinit (hs.constructors d hd l hl hcon))
        simp [hp.get hs.locals hx, hp.set hs.locals hx 0, height?, hcall, heightAfter]
    · simp
  · simp only [not_exists] at hk
    obtain ⟨c, hcv, rfl⟩ := (storeName_value (by simpa using hn) hk).mp hc
    simp [hv.height hp hs.locals hb hcv, hp.set hs.locals hx 0]

end Site

theorem Target.lower_height {target : Target} {value : Expr} {span : Span} {code : List Instr}
    (ht : target.Elaborated v) (hv : value.Elaborated v) (hs : s.Serves v) (hp : Provides m f v)
    (hb : Supports m (target.parts ++ value.parts)) (hc : target.lower s span value = .ok code) :
    bodyHeight? m f labels code 0 = some 0 := by
  rw [Supports.append] at hb
  cases ht with
  | name known => exact Site.storeName_height hs hp known hv hb.2 hc
  | field _ _ ho =>
    obtain ⟨c, slot, co, cv, -, -, hco, hcv, rfl⟩ := Target.lower_field.mp hc
    simp [Expr.fieldAddress, ho.height hp hs.locals hb.1 hco, hv.height hp hs.locals hb.2 hcv,
      height?, heightAfter]

namespace Stmt

theorem lowerBody_height {body : List Stmt} {code : List Instr}
    (ih : ∀ st ∈ body, ∀ c, st.lower s = .ok c → bodyHeight? m f labels c 0 = some 0)
    (hc : lowerBody s body = .ok code) : bodyHeight? m f labels code 0 = some 0 := by
  induction body generalizing code with
  | nil =>
    obtain rfl := lowerBody_nil.mp hc
    simp
  | cons st rest ihr =>
    obtain ⟨c, cs, hst, hr, rfl⟩ := lowerBody_cons.mp hc
    simp [ih st List.mem_cons_self c hst,
      ihr (fun st' h => ih st' (List.mem_cons_of_mem st h)) hr]

theorem Elaborated.height {st : Stmt} (h : st.Elaborated v) (hs : s.Serves v)
    (hp : Provides m f v) (hb : Supports m st.parts) {code : List Instr}
    (hc : st.lower s = .ok code) (labels : List Nat) :
    bodyHeight? m f labels code 0 = some 0 := by
  induction h generalizing code labels with
  | assign ht hv =>
    simp only [lower] at hc
    exact Target.lower_height ht hv hs hp hb hc
  | declare known hv =>
    simp only [lower] at hc
    exact Site.storeName_height hs hp known hv hb hc
  | @branch span condition body elseIf otherwise hcond _ hec _ _ ihb ihe iho =>
    simp only [parts, Supports.append] at hb
    obtain ⟨⟨⟨hbc, hbb⟩, hbe⟩, hbo⟩ := hb
    obtain ⟨cb, co, ce, cc, hcb, hco, hce, hcc, rfl⟩ := lower_branch.mp hc
    have hbody := lowerBody_height
      (fun st hst c hc => ihb st hst (hbb.of_mem_body hst) hc (0 :: labels)) hcb
    have hother : ∀ labels, bodyHeight? m f labels co 0 = some 0 := by
      intro labels
      cases otherwise with
      | none =>
        obtain rfl : [] = co := by simpa [lowerOtherwise] using hco
        simp
      | some b =>
        exact lowerBody_height
          (fun st hst c hc => iho b rfl st hst (Supports.of_mem_body hbo hst) hc labels) hco
    have helse : bodyHeight? m f (0 :: labels) ce 0 = some 0 := by
      cases elseIf with
      | none =>
        obtain rfl : co = ce := by simpa [lowerElseIf] using hce
        exact hother (0 :: labels)
      | some arm =>
        obtain ⟨c, b⟩ := arm
        obtain ⟨cc', cb', hcc', hcb', rfl⟩ := lowerElseIf_some.mp hce
        simp only [partsElseIf, Supports.append] at hbe
        have harm := lowerBody_height
          (fun st hst c' hc => ihe c b rfl st hst (hbe.2.of_mem_body hst) hc
            (0 :: 0 :: labels)) hcb'
        simp [(hec c b rfl).height hp hs.locals hbe.1 hcc', height?, harm, hother, heightAfter]
    simp [hcond.height hp hs.locals hbc hcc, height?, hbody, helse, heightAfter]
  | loop hcond _ ih =>
    simp only [parts, Supports.append] at hb
    obtain ⟨cc, cb, hcc, hcb, rfl⟩ := lower_loop.mp hc
    -- two labels deeper: the loop and the block that a branch leaves it by
    have hbody := lowerBody_height
      (fun st hst c hc => ih st hst (hb.2.of_mem_body hst) hc (0 :: 0 :: labels)) hcb
    simp [height?, hcond.height hp hs.locals hb.1 hcc, hbody, heightAfter, heightAtExit]
  | pass =>
    obtain rfl : [.nop] = code := by simpa [lower] using hc
    simp [height?]
  | ret inside hv =>
    obtain ⟨c, hcv, rfl⟩ := lower_ret.mp hc
    simp [hv.height hp hs.locals hb hcv, height?, hp.results inside, heightAtExit]
  | expr hv =>
    obtain ⟨c, hcv, rfl⟩ := lower_expr.mp hc
    simp [hv.height hp hs.locals hb hcv, height?, hp.scratch, heightAfter]

end Stmt

end

namespace Emitted

variable {p : Program} {o : Options} {m : Module}

theorem arity_definition (h : Emitted p o m) {className : Option String} {f : FuncDef}
    (hd : (className, f) ∈ p.definitions) :
    m.arity? (f.symbol className) = some (f.params.length, 1) := by
  obtain ⟨g, hg, hlower⟩ := h.definitions _ hd
  obtain ⟨body, -, rfl⟩ := FuncOf.lower_eq_ok_iff.mp hlower
  simpa [Func.results] using h.arity_function hg

theorem provides (h : Emitted p o m) {g : Func} {f : Option FuncDef}
    (locals : ∀ x ∈ (p.vocabulary f).locals, g.hasSlot x = true)
    (scratch : g.hasSlot Symbol.scratch = true) (results : f.isSome = true → g.results = 1) :
    Provides m g (p.vocabulary f) where
  locals := locals
  scratch := scratch
  globals x hx := by
    rw [Module.global?, h.globals, List.find?_isSome]
    rcases List.mem_append.mp hx with hx | hx
    · obtain ⟨d, hd, rfl⟩ := List.mem_map.mp hx
      refine ⟨⟨d.name, o.initial d.ty⟩, List.mem_cons_of_mem _ ?_, by simp⟩
      exact List.mem_append_left _ (List.mem_map.mpr ⟨d, hd, rfl⟩)
    · obtain ⟨d, hd, rfl⟩ := List.mem_map.mp hx
      refine ⟨⟨d.name, o.initial d.ty⟩, List.mem_cons_of_mem _ ?_, by simp⟩
      exact List.mem_append_right _ (List.mem_map.mpr ⟨d, hd, rfl⟩)
  heap := by simp [Module.global?, h.globals, Program.globals]
  hosts x hx := h.arity_host hx
  funcs x n hx := by
    obtain ⟨f, hf, heq⟩ := List.mem_map.mp hx
    cases heq
    exact h.arity_definition (List.mem_append_left _ (List.mem_map.mpr ⟨f, hf, rfl⟩))
  methods d hd x n hx := by
    obtain ⟨c, hc, rfl⟩ := List.mem_map.mp hd
    obtain ⟨f, hf, heq⟩ := List.mem_map.mp hx
    cases heq
    exact h.arity_definition (List.mem_append_right _
      (List.mem_flatMap.mpr ⟨c, hc, List.mem_map.mpr ⟨f, hf, rfl⟩⟩))
  results := results

theorem supports (h : Emitted p o m) : Supports m p.parts := by
  intro q hq b hb
  have huse : p.uses b = true := List.any_eq_true.mpr ⟨q, hq, by simp [hb]⟩
  simpa [Func.results, Builtin.func] using h.arity_function (h.builtins b huse)

end Emitted

theorem Program.Elaborated.serves {p : Program} (hp : p.Elaborated) (f : Option FuncDef) :
    Site.Serves ⟨Layouts.ofClasses p.classes, (f.map FuncOf.slots).getD []⟩ (p.vocabulary f) where
  locals := rfl
  constructors d hd l hl hk := by
    obtain ⟨c, hc, rfl⟩ := List.mem_map.mp hd
    have hfound := Layouts.find?_ofClasses hp.classNames hc
    obtain rfl : ClassLayout.ofClass c = l := Option.some.inj (hfound.symm.trans hl)
    obtain ⟨k, hk, hname⟩ := List.any_eq_true.mp hk
    exact List.mem_map.mpr ⟨k.head, List.mem_map.mpr ⟨k, hk, rfl⟩, beq_iff_eq.mp hname⟩

namespace Program

variable {p : Program}

theorem mem_parts_of_body {f : FuncDef} {st : Stmt} {q : Expr} (hf : f ∈ p.bodies)
    (hst : st ∈ f.body) (hq : q ∈ st.parts) : q ∈ p.parts :=
  List.mem_append_left _ (List.mem_flatMap.mpr ⟨f, hf, Stmt.mem_partsBody.mpr ⟨st, hst, hq⟩⟩)

theorem mem_parts_of_stmts {st : Stmt} {q : Expr} (hst : st ∈ p.stmts) (hq : q ∈ st.parts) :
    q ∈ p.parts :=
  List.mem_append_right _ (Stmt.mem_partsBody.mpr ⟨st, hst, hq⟩)

theorem Elaborated.receiver_mem (hp : p.Elaborated) {className : Option String} {f : FuncDef}
    (hd : (className, f) ∈ p.definitions) (hc : className.isSome = true) :
    receiverName ∈ f.params.map (·.name) := by
  rcases List.mem_append.mp hd with hd | hd
  · obtain ⟨f', -, heq⟩ := List.mem_map.mp hd
    cases heq
    simp at hc
  · obtain ⟨c, hmem, hd⟩ := List.mem_flatMap.mp hd
    obtain ⟨f', hf, heq⟩ := List.mem_map.mp hd
    cases heq
    exact hp.receivers c hmem f hf

end Program

theorem Builtin.func_valid (m : Module) (b : Builtin) : b.func.Valid m := by
  cases b <;>
    simp [Func.Valid, Builtin.func, Builtin.body, absBody, pickBody, powBody, Builtin.params,
      Builtin.locals, Func.results, Func.hasSlot, height?, heightAfter, heightAtExit]

namespace Emitted

variable {p : Program} {o : Options} {m : Module} {g : Func}

theorem definition_valid (h : Emitted p o m) (hp : p.Elaborated) {className : Option String}
    {f : FuncDef} (hd : (className, f) ∈ p.definitions)
    (hg : FuncOf.lower (Layouts.ofClasses p.classes) className f = .ok g) : g.Valid m := by
  obtain ⟨body, hbody, hg⟩ := FuncOf.lower_eq_ok_iff.mp hg
  have hf : f ∈ p.bodies := Program.mem_bodies.mpr ⟨className, hd⟩
  have hgbody : g.body = body ++ f.ending className := by rw [← hg]
  have hresults : g.results = 1 := by rw [← hg]; rfl
  have hslots : ∀ x ∈ f.slots, g.hasSlot x = true := by
    intro x hx
    rw [← hg]
    rcases List.mem_append.mp hx with hx | hx
    · simp [Func.hasSlot, hx]
    · simp [Func.hasSlot, hx]
  have hprov := h.provides (f := some f) hslots (by rw [← hg]; simp [Func.hasSlot])
    (fun _ => hresults)
  have hheight : bodyHeight? m g [g.results] body 0 = some 0 :=
    Stmt.lowerBody_height (fun st hst c hc => (hp.bodies f hf st hst).height (hp.serves (some f))
      hprov (fun q hq => h.supports q (Program.mem_parts_of_body hf hst hq)) hc [g.results]) hbody
  rw [Func.Valid, hgbody, bodyHeight?_append, hheight, hresults, FuncOf.ending]
  split
  · next hk =>
    have hself : receiverName ∈ f.slots :=
      List.mem_append_left _ (hp.receiver_mem hd (Bool.and_eq_true_iff.mp hk).1)
    simp [height?, hslots receiverName hself, heightAfter, heightAtExit, hresults]
  · simp [height?, heightAfter]

theorem entry_valid (h : Emitted p o m) (hp : p.Elaborated)
    (hg : p.lowerEntry (Layouts.ofClasses p.classes) o = .ok g) : g.Valid m := by
  obtain ⟨body, hbody, hg⟩ := Program.lowerEntry_eq_ok_iff.mp hg
  have hgbody : g.body = p.vars.flatMap (·.lower) ++ body ++ p.ending := by rw [← hg]
  have hresults : g.results = if p.endsWithExpr then 1 else 0 := by rw [← hg]; rfl
  have hscratch : g.hasSlot Symbol.scratch = true := by rw [← hg]; simp [Func.hasSlot]
  have hprov := h.provides (f := none) (g := g) (by intro x hx; cases hx) hscratch (by simp)
  have hheight : bodyHeight? m g [g.results] body 0 = some 0 :=
    Stmt.lowerBody_height (fun st hst c hc => (hp.stmts st hst).height (hp.serves none)
      hprov (fun q hq => h.supports q (Program.mem_parts_of_stmts hst hq)) hc [g.results]) hbody
  have hvars : bodyHeight? m g [g.results] (p.vars.flatMap (·.lower)) 0 = some 0 := by
    refine bodyHeight?_flatMap fun d hd => ?_
    have hglobal := hprov.globals d.name (List.mem_append_left _ (List.mem_map.mpr ⟨d, hd, rfl⟩))
    rw [VarDef.lower]
    split
    · simp
    · simp [height?, hglobal, heightAfter]
  rw [Func.Valid, hgbody, bodyHeight?_append, bodyHeight?_append, hvars, Option.bind_some, hheight,
    hresults, Program.ending]
  cases p.endsWithExpr with
  | false => simp
  | true => simp [height?, hscratch, heightAfter]

theorem valid (h : Emitted p o m) (hp : p.Elaborated) : m.Valid := by
  intro g hg
  rcases h.cases g hg with ⟨b, -, rfl⟩ | ⟨d, hd, hg⟩ | hg
  · exact b.func_valid m
  · exact h.definition_valid hp hd hg
  · exact h.entry_valid hp hg

end Emitted

section

variable {s : Site} {q : Expr} {b : Builtin}

namespace Expr

theorem lowerArgs_calls {args : List Expr} {code : List Instr}
    (ih : ∀ a ∈ args, q ∈ a.parts → ∀ c, a.lowerValue s = .ok c → b.symbol ∈ bodyCalls c)
    (hq : q ∈ partsList args) (hc : lowerArgs s args = .ok code) : b.symbol ∈ bodyCalls code := by
  induction args generalizing code with
  | nil => simp [partsList] at hq
  | cons a rest ihr =>
    obtain ⟨c, cs, ha, hr, rfl⟩ := lowerArgs_cons.mp hc
    rw [bodyCalls_append]
    rcases List.mem_append.mp (by simpa [partsList] using hq) with hq | hq
    · exact List.mem_append_left _ (ih a List.mem_cons_self hq c ha)
    · exact List.mem_append_right _ (ihr (fun a' ha' => ih a' (List.mem_cons_of_mem a ha')) hq hr)

/-- A built-in that is used is called. -/
theorem lowerValue_calls {e : Expr} {code : List Instr} (hb : q.builtin? = some b)
    (hq : q ∈ e.parts) (hc : e.lowerValue s = .ok code) : b.symbol ∈ bodyCalls code := by
  induction e generalizing code with
  | literal n l =>
    obtain rfl : q = .literal n l := by simpa [parts] using hq
    simp [builtin?] at hb
  | name n x =>
    obtain rfl : q = .name n x := by simpa [parts] using hq
    simp [builtin?] at hb
  | unary n op e ih =>
    simp only [parts, List.mem_cons] at hq
    rcases hq with rfl | hq
    · simp [builtin?] at hb
    cases op with
    | not =>
      obtain ⟨c, he, rfl⟩ := lowerValue_not.mp hc
      simp [ih hq he]
    | neg =>
      obtain ⟨c, he, rfl⟩ := lowerValue_neg.mp hc
      simp [ih hq he]
  | binary n op l r ihl ihr =>
    obtain ⟨cl, cr, hl, hr, rfl⟩ := lowerValue_binary.mp hc
    simp only [parts, List.mem_cons, List.mem_append] at hq
    rcases hq with rfl | hq | hq
    · simp [builtin?] at hb
    · simp [ihl hq hl]
    · simp [ihr hq hr]
  | call n callee args ih =>
    obtain ⟨cs, ha, rfl⟩ := lowerValue_call.mp hc
    simp only [parts, List.mem_cons] at hq
    rcases hq with rfl | hq
    · simp [builtin?] at hb
    simp [lowerArgs_calls (fun a ha hq c hc => ih a ha hq hc) hq ha]
  | builtin1 n fn e ih =>
    obtain ⟨c, he, rfl⟩ := lowerValue_builtin1.mp hc
    simp only [parts, List.mem_cons] at hq
    rcases hq with rfl | hq
    · obtain rfl : fn.builtin = b := by simpa [builtin?] using hb
      simp [calls]
    · simp [ih hq he]
  | builtin2 n fn l r ihl ihr =>
    obtain ⟨cl, cr, hl, hr, rfl⟩ := lowerValue_builtin2.mp hc
    simp only [parts, List.mem_cons, List.mem_append] at hq
    rcases hq with rfl | hq | hq
    · obtain rfl : fn.builtin = b := by simpa [builtin?] using hb
      simp [calls]
    · simp [ihl hq hl]
    · simp [ihr hq hr]
  | construct n c =>
    obtain rfl : q = .construct n c := by simpa [parts] using hq
    simp [builtin?] at hb
  | field n object f ih =>
    obtain ⟨c, slot, co, -, -, ho, rfl⟩ := lowerValue_field.mp hc
    simp only [parts, List.mem_cons] at hq
    rcases hq with rfl | hq
    · simp [builtin?] at hb
    simp [fieldAddress, ih hq ho]
  | method n object k args iho iha =>
    obtain ⟨c, co, cs, -, ho, ha, rfl⟩ := lowerValue_method.mp hc
    simp only [parts, List.mem_cons, List.mem_append] at hq
    rcases hq with rfl | hq | hq
    · simp [builtin?] at hb
    · simp [iho hq ho]
    · simp [lowerArgs_calls (fun a ha hq c hc => iha a ha hq hc) hq ha]
  | print n args ih =>
    simp only [parts, List.mem_cons] at hq
    rcases hq with rfl | hq
    · simp [builtin?] at hb
    rcases args with _ | ⟨e, _ | ⟨e', rest⟩⟩
    · simp [partsList] at hq
    · obtain ⟨ty, target, c, -, -, he, rfl⟩ := lowerValue_print.mp hc
      have hq : q ∈ e.parts := by simpa [partsList] using hq
      simp [ih e (List.mem_singleton_self e) hq he]
    · simp [lowerValue, lower, bind_eq_ok] at hc

end Expr

theorem Site.storeName_calls {x : String} {value : Expr} {code : List Instr}
    (hb : q.builtin? = some b) (hq : q ∈ value.parts) (hc : s.storeName x value = .ok code) :
    b.symbol ∈ bodyCalls code := by
  have hn : value.isNone = false := by
    rw [Bool.eq_false_iff]
    intro hn
    have hzero : value.lowerValue s = .ok [.const 0] := by
      simp [Expr.lowerValue, Expr.lower_of_isNone hn]
    simpa [calls] using Expr.lowerValue_calls hb hq hzero
  have hk : ∀ n c, value ≠ .construct n c := by
    rintro n c rfl
    obtain rfl : q = .construct n c := by simpa [Expr.parts] using hq
    simp [Expr.builtin?] at hb
  obtain ⟨c, hcv, rfl⟩ := (storeName_value hn hk).mp hc
  simp [Expr.lowerValue_calls hb hq hcv]

theorem Target.lower_calls {target : Target} {value : Expr} {span : Span} {code : List Instr}
    (hb : q.builtin? = some b) (hq : q ∈ target.parts ++ value.parts)
    (hc : target.lower s span value = .ok code) : b.symbol ∈ bodyCalls code := by
  cases target with
  | name x =>
    exact Site.storeName_calls hb (by simpa [parts] using hq) hc
  | field object f =>
    obtain ⟨c, slot, co, cv, -, -, hco, hcv, rfl⟩ := Target.lower_field.mp hc
    rcases List.mem_append.mp hq with hq | hq
    · simp [Expr.fieldAddress, Expr.lowerValue_calls hb hq hco]
    · simp [Expr.lowerValue_calls hb hq hcv]

namespace Stmt

theorem lowerBody_calls {body : List Stmt} {code : List Instr}
    (ih : ∀ st ∈ body, q ∈ st.parts → ∀ c, st.lower s = .ok c → b.symbol ∈ bodyCalls c)
    (hq : q ∈ partsBody body) (hc : lowerBody s body = .ok code) : b.symbol ∈ bodyCalls code := by
  induction body generalizing code with
  | nil => simp [partsBody] at hq
  | cons st rest ihr =>
    obtain ⟨c, cs, hst, hr, rfl⟩ := lowerBody_cons.mp hc
    rw [bodyCalls_append]
    rcases List.mem_append.mp (by simpa [partsBody] using hq) with hq | hq
    · exact List.mem_append_left _ (ih st List.mem_cons_self hq c hst)
    · exact List.mem_append_right _
        (ihr (fun st' h => ih st' (List.mem_cons_of_mem st h)) hq hr)

theorem lower_calls {st : Stmt} {code : List Instr} (hb : q.builtin? = some b)
    (hq : q ∈ st.parts) (hc : st.lower s = .ok code) : b.symbol ∈ bodyCalls code := by
  induction st generalizing code with
  | assign span target value => exact Target.lower_calls hb hq (by simpa [lower] using hc)
  | declare d => exact Site.storeName_calls hb hq (by simpa [lower] using hc)
  | branch span condition body elseIf otherwise ihb ihe iho =>
    obtain ⟨cb, co, ce, cc, hcb, hco, hce, hcc, rfl⟩ := lower_branch.mp hc
    simp only [parts, List.mem_append] at hq
    have hother : q ∈ partsOtherwise otherwise → b.symbol ∈ bodyCalls co := by
      intro hq
      cases otherwise with
      | none => simp [partsOtherwise] at hq
      | some body => exact lowerBody_calls (fun st hst hq c hc => iho body rfl st hst hq hc) hq hco
    have harm : q ∈ partsElseIf elseIf ∨ b.symbol ∈ bodyCalls co → b.symbol ∈ bodyCalls ce := by
      intro hq
      rcases elseIf with _ | ⟨c, body⟩
      · obtain rfl : co = ce := by simpa [lowerElseIf] using hce
        exact hq.resolve_left (by simp [partsElseIf])
      · obtain ⟨cc', cb', hcc', hcb', rfl⟩ := lowerElseIf_some.mp hce
        simp only [partsElseIf, List.mem_append] at hq
        rcases hq with (hq | hq) | hco
        · simp [Expr.lowerValue_calls hb hq hcc']
        · simp [calls, lowerBody_calls (fun st hst hq c' hc => ihe c body rfl st hst hq hc) hq hcb']
        · simp [calls, hco]
    rcases hq with ((hq | hq) | hq) | hq
    · simp [Expr.lowerValue_calls hb hq hcc]
    · simp [calls, lowerBody_calls (fun st hst hq c hc => ihb st hst hq hc) hq hcb]
    · simp [calls, harm (.inl hq)]
    · simp [calls, harm (.inr (hother hq))]
  | loop span condition body ih =>
    obtain ⟨cc, cb, hcc, hcb, rfl⟩ := lower_loop.mp hc
    simp only [parts, List.mem_append] at hq
    rcases hq with hq | hq
    · simp [calls, Expr.lowerValue_calls hb hq hcc]
    · simp [calls, lowerBody_calls (fun st hst hq c hc => ih st hst hq hc) hq hcb]
  | pass span => simp [parts] at hq
  | ret span value =>
    obtain ⟨c, hcv, rfl⟩ := lower_ret.mp hc
    simp [Expr.lowerValue_calls hb hq hcv]
  | expr value =>
    obtain ⟨c, hcv, rfl⟩ := lower_expr.mp hc
    simp [Expr.lowerValue_calls hb hq hcv]
  | func f => simp [parts] at hq
  | cls c => simp [parts] at hq

end Stmt

end

theorem Emitted.calls_of_uses {p : Program} {o : Options} {m : Module} {b : Builtin}
    (h : Emitted p o m) (hb : p.uses b = true) :
    ∃ g ∈ m.functions, b.symbol ∈ bodyCalls g.body := by
  obtain ⟨q, hq, hqb⟩ := List.any_eq_true.mp hb
  have hqb : q.builtin? = some b := beq_iff_eq.mp hqb
  rcases List.mem_append.mp hq with hq | hq
  · obtain ⟨f, hf, hq⟩ := List.mem_flatMap.mp hq
    obtain ⟨className, hd⟩ := Program.mem_bodies.mp hf
    obtain ⟨g, hg, hlower⟩ := h.definitions _ hd
    obtain ⟨body, hbody, rfl⟩ := FuncOf.lower_eq_ok_iff.mp hlower
    have hcalls := Stmt.lowerBody_calls (fun _ _ hq _ hc => Stmt.lower_calls hqb hq hc) hq hbody
    exact ⟨_, hg, by simp [hcalls]⟩
  · obtain ⟨g, hg, hlower⟩ := h.entry
    obtain ⟨body, hbody, rfl⟩ := Program.lowerEntry_eq_ok_iff.mp hlower
    have hcalls := Stmt.lowerBody_calls (fun _ _ hq _ hc => Stmt.lower_calls hqb hq hc) hq hbody
    exact ⟨_, hg, by simp [hcalls]⟩

theorem Builtin.symbol_injective : Function.Injective Builtin.symbol := by
  intro a b h
  cases a <;> cases b <;> simp [Builtin.symbol] at h ⊢

/-- A function with the name of a built-in is that built-in. -/
theorem Emitted.builtin_of_name {p : Program} {o : Options} {m : Module} {b : Builtin} {g : Func}
    (h : Emitted p o m) (hd : p.Dotless) (hg : g ∈ m.functions) (hname : g.name = b.symbol) :
    p.uses b = true ∧ g = b.func := by
  rcases h.cases g hg with ⟨b', hb', rfl⟩ | ⟨d, hmem, hlower⟩ | hlower
  · obtain rfl := Builtin.symbol_injective hname
    exact ⟨hb', rfl⟩
  · obtain ⟨body, -, rfl⟩ := FuncOf.lower_eq_ok_iff.mp hlower
    have hmem : b.symbol ∈ p.symbols := by
      rw [p.symbols_eq, ← hname]
      exact List.mem_map.mpr ⟨d, hmem, rfl⟩
    exact absurd (hd.symbols _ hmem) (by cases b <;> decide)
  · obtain ⟨body, -, rfl⟩ := Program.lowerEntry_eq_ok_iff.mp hlower
    have hentry : Symbol.entry = b.symbol := hname
    exact absurd hentry (by cases b <;> decide)

namespace Program

/-- Every emitted module is valid, and it brings along the built-ins that it calls and no others. -/
theorem compile_valid {p : Program} {o : Options} {m : Module} (h : p.compile o = .ok m)
    (hd : p.Dotless) :
    m.Valid ∧ ∀ b : Builtin,
      (b.func ∈ m.functions ↔ ∃ g ∈ m.functions, b.symbol ∈ bodyCalls g.body) ∧
        ∀ g ∈ m.functions, g.name = b.symbol → g = b.func := by
  obtain ⟨t, ht, hm⟩ := compile_eq_ok_iff.mp h
  have helab := check_elaborated ht
  have hdt := (check_sameOutline ht).dotless hd
  have hemit := helab.emitted hdt hm
  have hvalid := hemit.valid helab
  refine ⟨hvalid, fun b => ⟨⟨fun hb => ?_, ?_⟩, ?_⟩⟩
  · exact hemit.calls_of_uses (hemit.builtin_of_name hdt hb rfl).1
  · rintro ⟨g, hg, hcall⟩
    obtain ⟨a, ha⟩ := Option.isSome_iff_exists.mp
      (arity_of_mem_bodyCalls g.body (hvalid g hg) hcall)
    rcases Module.arity_cases ha with ⟨himport, -⟩ | ⟨-, f, hf, -⟩
    · have hhost : b.symbol ∈ Symbol.hostFunctions := by
        simpa using (Bool.and_eq_true_iff.mp himport).1
      exact absurd hhost (by cases b <;> decide)
    · have hmem : f ∈ m.functions.filter (·.name == b.symbol) := by simp [hf]
      obtain ⟨hf, hname⟩ := List.mem_filter.mp hmem
      rwa [← (hemit.builtin_of_name hdt hf (beq_iff_eq.mp hname)).2]
  · intro g hg hname
    exact (hemit.builtin_of_name hdt hg hname).2

/-- Counts down an object, printing powers of two on the way. -/
def countdown : Program :=
  let note : Note := ⟨default, none⟩
  let self : Expr := .name note .self
  let var (x : String) : Expr := .name note (.plain x)
  { vars := []
    funcs := [{
      name := "power", ret := .int, span := default
      params := [⟨"b", .int, default⟩, ⟨"e", .int, default⟩]
      body := [.ret default (.builtin2 note .pow (var "b") (var "e"))] }]
    classes := [{
      name := "Counter", fields := [⟨"count", .int, .number 0, default⟩], span := default
      methods := [
        { name := "__init__", params := [⟨"self", .object "Counter", default⟩]
          ret := .object "Counter", span := default
          body := [.assign default (.field self "count") (.literal note (.number 4))] },
        { name := "next", params := [⟨"self", .object "Counter", default⟩, ⟨"by", .int, default⟩]
          ret := .int, span := default
          body := [
            .assign default (.field self "count")
              (.binary note .sub (.field note self "count") (var "by")),
            .ret default (.field note self "count")] }] }]
    stmts := [
      .declare ⟨"c", .object "Counter", .call note "Counter" [], default⟩,
      .loop default
        (.binary note .greater (.method note (var "c") "next" [.literal note (.number 1)])
          (.literal note (.number 0)))
        [.branch default (.binary note .equal (.field note (var "c") "count")
            (.literal note (.number 2)))
          [.pass default] none
          (some [.expr (.print note [.call note "power"
            [.literal note (.number 2), .field note (var "c") "count"]])])],
      .expr (.field note (var "c") "count")]
    ty := none }

theorem compile_countdown : ∃ m, countdown.compile {} = .ok m ∧ countdown.Dotless ∧ m.Valid ∧
    Builtin.pow.func ∈ m.functions ∧ Builtin.abs.func ∉ m.functions := by
  have hdot : countdown.Dotless := by decide
  have hnames : (countdown.compile {}).toOption.map (fun m => m.functions.map (·.name)) =
      some ["rt.pow", "power", "__init___Counter", "next_Counter", "rt.start"] := by
    decide +kernel
  cases hm : countdown.compile {} with
  | error e =>
    rw [hm] at hnames
    cases hnames
  | ok m =>
    rw [hm] at hnames
    have hnames : m.functions.map (·.name) = _ := Option.some.inj hnames
    obtain ⟨hvalid, hbuiltins⟩ := compile_valid hm hdot
    obtain ⟨g, hg, hname⟩ := List.mem_map.mp (hnames ▸ List.mem_cons_self)
    refine ⟨m, rfl, hdot, hvalid, (hbuiltins .pow).2 g hg hname ▸ hg, fun habs => ?_⟩
    have hmem : "rt.abs" ∈ m.functions.map (·.name) := List.mem_map.mpr ⟨_, habs, rfl⟩
    rw [hnames] at hmem
    exact absurd hmem (by decide)

end Program

end TypedScript
