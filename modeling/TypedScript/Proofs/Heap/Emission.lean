import TypedScript.Proofs.Heap.Discipline
import TypedScript.Proofs.Lowering.Validity

/-! # Emitted code is disciplined

No variable of a program has the name of the heap pointer, so that only constructions use it. -/

namespace TypedScript

def Defaults (cs : List ClassDef) (ws : List Word) : Prop := ∃ c ∈ cs, ws = ClassOf.defaults c

section

variable {P : List Word → Prop} {s : Site} {v : Vocabulary}

/-- Code that is given here uses the heap pointer only to allocate. -/
structure Site.Spares (P : List Word → Prop) (s : Site) (v : Vocabulary) : Prop where
  locals : s.locals = v.locals
  globals : Symbol.heapPointer ∉ v.globals
  allocate : ∀ c l, v.Constructs c → s.layouts.find? c = some l → Disciplined P l.allocate

namespace Site.Spares

variable {x : String}

theorem ne_heapPointer (hs : s.Spares P v) (hx : v.HasVar x) (hl : ¬ s.locals.contains x = true) :
    x ≠ Symbol.heapPointer := by
  rintro rfl
  exact hs.globals (hx.resolve_left fun hx => hl (by simpa [hs.locals] using hx))

theorem get (hs : s.Spares P v) (hx : v.HasVar x) : (s.get x).sparesHeap = true := by
  rw [Site.get]
  split
  · rfl
  · next hl => simpa [Instr.sparesHeap] using hs.ne_heapPointer hx hl

theorem set (hs : s.Spares P v) (hx : v.HasVar x) : (s.set x).sparesHeap = true := by
  rw [Site.set]
  split
  · rfl
  · next hl => simpa [Instr.sparesHeap] using hs.ne_heapPointer hx hl

end Site.Spares

namespace Expr

theorem lowerArgs_disciplined {args : List Expr} {code : List Instr}
    (ih : ∀ a ∈ args, ∀ c, a.lowerValue s = .ok c → Disciplined P c)
    (hc : lowerArgs s args = .ok code) : Disciplined P code := by
  induction args generalizing code with
  | nil =>
    obtain rfl := lowerArgs_nil.mp hc
    exact .nil
  | cons a rest ihr =>
    obtain ⟨c, cs, ha, hr, rfl⟩ := lowerArgs_cons.mp hc
    exact (ih a List.mem_cons_self c ha).append
      (ihr (fun b hb => ih b (List.mem_cons_of_mem a hb)) hr)

theorem Elaborated.disciplined {e : Expr} (he : e.Elaborated v) (hs : s.Spares P v)
    {code : List Instr} (hc : e.lowerValue s = .ok code) : Disciplined P code := by
  induction he generalizing code with
  | literal =>
    obtain rfl := lowerValue_literal.mp hc
    exact .single rfl
  | none =>
    obtain rfl := lowerValue_none.mp hc
    exact .single rfl
  | self known =>
    obtain rfl := lowerValue_self.mp hc
    exact .single (hs.get (.inl known))
  | plain known =>
    obtain rfl := lowerValue_plain.mp hc
    exact .single (hs.get known)
  | @unary n op e _ ih =>
    cases op with
    | not =>
      obtain ⟨c, he, rfl⟩ := lowerValue_not.mp hc
      exact (ih he).append (.single rfl)
    | neg =>
      obtain ⟨c, he, rfl⟩ := lowerValue_neg.mp hc
      exact ((Disciplined.single rfl).append (ih he)).append (.single rfl)
  | binary _ _ ihl ihr =>
    obtain ⟨cl, cr, hl, hr, rfl⟩ := lowerValue_binary.mp hc
    exact ((ihl hl).append (ihr hr)).append (.single rfl)
  | call _ _ ih =>
    obtain ⟨cs, ha, rfl⟩ := lowerValue_call.mp hc
    exact (lowerArgs_disciplined (fun a ha c hc => ih a ha hc) ha).append (.single rfl)
  | builtin1 _ ih =>
    obtain ⟨c, he, rfl⟩ := lowerValue_builtin1.mp hc
    exact (ih he).append (.single rfl)
  | builtin2 _ _ ihl ihr =>
    obtain ⟨cl, cr, hl, hr, rfl⟩ := lowerValue_builtin2.mp hc
    exact ((ihl hl).append (ihr hr)).append (.single rfl)
  | construct known =>
    obtain ⟨l, hl, rfl⟩ := lowerValue_construct.mp hc
    exact hs.allocate _ l known hl
  | field _ _ _ ih =>
    obtain ⟨c, slot, co, -, -, ho, rfl⟩ := lowerValue_field.mp hc
    exact ((ih ho).append (.instr rfl (.single rfl))).append (.single rfl)
  | method _ _ _ _ iho iha =>
    obtain ⟨c, co, cs, -, ho, ha, rfl⟩ := lowerValue_method.mp hc
    exact ((iho ho).append (lowerArgs_disciplined (fun a ha c hc => iha a ha hc) ha)).append
      (.single rfl)
  | print _ _ ih =>
    obtain ⟨ty, target, c, -, -, he, rfl⟩ := lowerValue_print.mp hc
    exact (ih he).append (.single rfl)

end Expr

theorem Site.storeName_disciplined {x : String} {value : Expr} {code : List Instr}
    (hs : s.Spares P v) (hx : v.HasVar x) (hv : value.Elaborated v)
    (hc : s.storeName x value = .ok code) : Disciplined P code := by
  by_cases hn : value.isNone = true
  · rw [storeName_none hn] at hc
    cases hc
    exact .nil
  by_cases hk : ∃ n c, value = .construct n c
  · obtain ⟨n, c, rfl⟩ := hk
    obtain ⟨l, hl, rfl⟩ := storeName_construct.mp hc
    have hallocate : Disciplined P l.allocate := by
      cases hv with
      | construct known => exact hs.allocate c l known hl
    refine (hallocate.append (.single (hs.set hx))).append ?_
    split
    · exact .instr (hs.get hx) (.instr rfl (.single (hs.set hx)))
    · exact .nil
  · simp only [not_exists] at hk
    obtain ⟨c, hcv, rfl⟩ := (storeName_value (by simpa using hn) hk).mp hc
    exact (hv.disciplined hs hcv).append (.single (hs.set hx))

theorem Target.lower_disciplined {target : Target} {value : Expr} {span : Span}
    {code : List Instr} (ht : target.Elaborated v) (hv : value.Elaborated v) (hs : s.Spares P v)
    (hc : target.lower s span value = .ok code) : Disciplined P code := by
  cases ht with
  | name known => exact Site.storeName_disciplined hs known hv hc
  | field _ _ ho =>
    obtain ⟨c, slot, co, cv, -, -, hco, hcv, rfl⟩ := Target.lower_field.mp hc
    exact (((ho.disciplined hs hco).append (.instr rfl (.single rfl))).append
      (hv.disciplined hs hcv)).append (.single rfl)

namespace Stmt

theorem lowerBody_disciplined {body : List Stmt} {code : List Instr}
    (ih : ∀ st ∈ body, ∀ c, st.lower s = .ok c → Disciplined P c)
    (hc : lowerBody s body = .ok code) : Disciplined P code := by
  induction body generalizing code with
  | nil =>
    obtain rfl := lowerBody_nil.mp hc
    exact .nil
  | cons st rest ihr =>
    obtain ⟨c, cs, hst, hr, rfl⟩ := lowerBody_cons.mp hc
    exact (ih st List.mem_cons_self c hst).append
      (ihr (fun st' h => ih st' (List.mem_cons_of_mem st h)) hr)

theorem Elaborated.disciplined {st : Stmt} (h : st.Elaborated v) (hs : s.Spares P v)
    {code : List Instr} (hc : st.lower s = .ok code) : Disciplined P code := by
  induction h generalizing code with
  | assign ht hv => exact Target.lower_disciplined ht hv hs (by simpa [lower] using hc)
  | declare known hv => exact Site.storeName_disciplined hs known hv (by simpa [lower] using hc)
  | @branch span condition body elseIf otherwise hcond _ hec _ _ ihb ihe iho =>
    obtain ⟨cb, co, ce, cc, hcb, hco, hce, hcc, rfl⟩ := lower_branch.mp hc
    have hother : Disciplined P co := by
      cases otherwise with
      | none =>
        obtain rfl : [] = co := by simpa [lowerOtherwise] using hco
        exact .nil
      | some b => exact lowerBody_disciplined (fun st hst c hc => iho b rfl st hst hc) hco
    have helse : Disciplined P ce := by
      rcases elseIf with _ | ⟨c, b⟩
      · obtain rfl : co = ce := by simpa [lowerElseIf] using hce
        exact hother
      · obtain ⟨cc', cb', hcc', hcb', rfl⟩ := lowerElseIf_some.mp hce
        exact ((hec c b rfl).disciplined hs hcc').append
          (.ite (lowerBody_disciplined (fun st hst c' hc => ihe c b rfl st hst hc) hcb') hother
            .nil)
    exact (hcond.disciplined hs hcc).append
      (.ite (lowerBody_disciplined (fun st hst c hc => ihb st hst hc) hcb) helse .nil)
  | loop hcond _ ih =>
    obtain ⟨cc, cb, hcc, hcb, rfl⟩ := lower_loop.mp hc
    have hbody := lowerBody_disciplined (fun st hst c hc => ih st hst hc) hcb
    refine .block (.loop ?_ .nil) .nil
    exact (((hcond.disciplined hs hcc).append (.instr rfl (.single rfl))).append hbody).append
      (.single rfl)
  | pass =>
    obtain rfl : [.nop] = code := by simpa [lower] using hc
    exact .single rfl
  | ret _ hv =>
    obtain ⟨c, hcv, rfl⟩ := lower_ret.mp hc
    exact (hv.disciplined hs hcv).append (.single rfl)
  | expr hv =>
    obtain ⟨c, hcv, rfl⟩ := lower_expr.mp hc
    exact (hv.disciplined hs hcv).append (.single rfl)

end Stmt

end

theorem Program.Elaborated.spares {p : Program} (hp : p.Elaborated) (hd : p.Dotless)
    (f : Option FuncDef) :
    Site.Spares (Defaults p.classes)
      ⟨Layouts.ofClasses p.classes, (f.map FuncOf.slots).getD []⟩ (p.vocabulary f) where
  locals := rfl
  globals := hd.heapPointer_notMem
  allocate c l known hl := by
    obtain ⟨h, hh, rfl, -⟩ := known
    obtain ⟨d, hd, rfl⟩ := List.mem_map.mp hh
    obtain rfl : ClassLayout.ofClass d = l :=
      Option.some.inj ((Layouts.find?_ofClasses hp.classNames hd).symm.trans hl)
    rw [allocate_ofClass]
    exact .allocation ⟨d, hd, rfl⟩

theorem Builtin.func_disciplined (P : List Word → Prop) (b : Builtin) :
    Disciplined P b.func.body := by
  have hpick (op : NumericOp) : Disciplined P (pickBody op) :=
    .instr rfl (.instr rfl (.instr rfl (.ite (.of_forall (by decide)) .nil (.single rfl))))
  cases b with
  | abs =>
    exact .instr rfl (.instr rfl (.instr rfl (.ite (.of_forall (by decide)) .nil (.single rfl))))
  | max => exact hpick .gtS
  | min => exact hpick .ltS
  | pow =>
    exact .instr rfl (.instr rfl (.block (.loop (.of_forall (by decide)) .nil) (.single rfl)))

/-- Global variables are set under their own names. -/
theorem Program.Dotless.vars_disciplined {p : Program} (hd : p.Dotless) (P : List Word → Prop) :
    Disciplined P (p.vars.flatMap (·.lower)) := by
  refine .of_forall fun i hi => ?_
  obtain ⟨d, hmem, hi⟩ := List.mem_flatMap.mp hi
  have hne : d.name ≠ Symbol.heapPointer := by
    intro heq
    refine hd.heapPointer_notMem (List.mem_append_left _ (List.mem_map.mpr ⟨d, hmem, heq⟩))
  rw [VarDef.lower] at hi
  split at hi
  · cases hi
  · simp only [List.mem_cons, List.not_mem_nil, or_false] at hi
    rcases hi with rfl | rfl
    · rfl
    · simpa [Instr.sparesHeap] using hne

/-- Every function of an emitted module is disciplined. -/
theorem Emitted.disciplined {p : Program} {o : Options} {m : Module} (h : Emitted p o m)
    (hp : p.Elaborated) (hd : p.Dotless) :
    ∀ g ∈ m.functions, Disciplined (Defaults p.classes) g.body := by
  intro g hg
  rcases h.cases g hg with ⟨b, -, rfl⟩ | ⟨⟨className, f⟩, hdef, hg⟩ | hg
  · exact b.func_disciplined _
  · obtain ⟨body, hbody, rfl⟩ := FuncOf.lower_eq_ok_iff.mp hg
    have hf : f ∈ p.bodies := Program.mem_bodies.mpr ⟨className, hdef⟩
    have hcode := Stmt.lowerBody_disciplined (fun st hst c hc =>
      (hp.bodies f hf st hst).disciplined (hp.spares hd (some f)) hc) hbody
    refine hcode.append (.append ?_ (.single rfl))
    split
    · exact .instr rfl (.single rfl)
    · exact .nil
  · obtain ⟨body, hbody, rfl⟩ := Program.lowerEntry_eq_ok_iff.mp hg
    have hcode := Stmt.lowerBody_disciplined (fun st hst c hc =>
      (hp.stmts st hst).disciplined (hp.spares hd none) hc) hbody
    refine ((hd.vars_disciplined _).append hcode).append ?_
    rw [Program.ending]
    split
    · exact .single rfl
    · exact .nil

end TypedScript
