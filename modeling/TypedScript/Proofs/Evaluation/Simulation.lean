import TypedScript.Proofs.Evaluation.Calls

/-! # The machine follows expressions and statements

The code of an expression leaves the value of the expression on the stack, and the code of a
statement sets the variables as the statement does. The induction is on the fuel of the evaluation:
with one unit more, calls and further rounds of loops go as they went before. -/

namespace TypedScript

namespace Program

/-- Where the code of a function's body is given; without a function that of the statements. -/
def site (p : Program) (f : Option FuncDef) : Site :=
  ⟨Layouts.ofClasses p.classes, (p.vocabulary f).locals⟩

variable {σ : Type}

@[simp] theorem evaluator_program (p : Program) (host : Host σ) (n : Nat) :
    (p.evaluator host n).program = p := rfl

end Program

/-- The machine holds the code of a checked program. -/
structure Machine.Holds {σ : Type} (m : Machine σ) (p : Program) (o : Options) : Prop where
  elaborated : p.Elaborated
  dotless : p.Dotless
  emitted : Emitted p o m.module

section

variable {σ : Type} (m : Machine σ) (p : Program) (n : Nat) (f : Option FuncDef)

/-- The machine follows the expression wherever its code stands. -/
def Expr.Tracked (e : Expr) : Prop :=
  ∀ ⦃code⦄, e.lowerValue (p.site f) = .ok code →
    ∀ ⦃k : Spot⦄ ⦃ls st rest l⦄ ⦃s : Store σ⦄ ⦃w : World σ⦄,
      l.Agrees (p.vocabulary f).locals ls → w.Agrees p s →
      Follows m p (n + 1) (.next (k.state ls st (code ++ rest) s))
        (e.eval (p.evaluator m.host n) (p.vocabulary f).locals l w) (Pushed p k ls st rest)

/-- The machine follows the statement wherever its code stands. -/
def Stmt.Tracked (stmt : Stmt) : Prop :=
  ∀ ⦃code⦄, stmt.lower (p.site f) = .ok code →
    ∀ ⦃k : Spot⦄ ⦃ls st rest l⦄ ⦃s : Store σ⦄ ⦃w : World σ⦄,
      l.Agrees (p.vocabulary f).locals ls → w.Agrees p s →
      Follows m p (n + 1) (.next (k.state ls st (code ++ rest) s))
        (stmt.eval (p.evaluator m.host n) (p.vocabulary f).locals l w)
        (Flowed p k st rest (p.vocabulary f))

/-- The machine follows calls of definitions. -/
def CallsTracked : Prop :=
  ∀ ⦃className g callee⦄ ⦃args : List Word⦄, (className, g) ∈ p.definitions →
    FuncOf.lower (Layouts.ofClasses p.classes) className g = .ok callee →
    args.length = g.params.length →
    ∀ ⦃k : Spot⦄ ⦃s : Store σ⦄ ⦃w : World σ⦄, k.outer = [] → w.Agrees p s →
      Follows m p n (.next (k.state (Frame.enter callee args).locals [] callee.body s))
        ((p.evaluator m.host n).call className g args w) (Returned p k)

/-- A statement of a function's body; without a function one of the statements. -/
structure Stmt.StandsIn (stmt : Stmt) : Prop where
  elaborated : stmt.Elaborated (p.vocabulary f)
  parts : stmt.parts ⊆ p.parts
  scratch : Symbol.scratch ∉ (p.vocabulary f).locals

def roundCode (condition body : List Instr) : List Instr :=
  condition ++ .eqz :: .brIf 1 :: (body ++ [.br 0])

/-- The spot in a loop that stands in front of the code `rest`. -/
def Spot.looping (k : Spot) (rest round : List Instr) : Spot :=
  (k.inside rest none).inside [] (some round)

/-- The machine follows loops from the start of a round. -/
def LoopsTracked : Prop :=
  ∀ ⦃f span condition body cc cb⦄, (Stmt.loop span condition body).StandsIn p f →
    condition.lowerValue (p.site f) = .ok cc → Stmt.lowerBody (p.site f) body = .ok cb →
    ∀ ⦃k : Spot⦄ ⦃ls st rest l⦄ ⦃s : Store σ⦄ ⦃w : World σ⦄,
      l.Agrees (p.vocabulary f).locals ls → w.Agrees p s →
      Follows m p n (.next ((k.looping rest (roundCode cc cb)).state ls st (roundCode cc cb) s))
        (p.runBody m.host n (p.vocabulary f).locals [.loop span condition body] l w)
        (Flowed p k st rest (p.vocabulary f))

end

section

variable {σ : Type} {m : Machine σ} {p : Program} {o : Options} {n : Nat} {f : Option FuncDef}
  {k : Spot} {ls : Bindings Word} {st : List Word} {rest : List Instr} {l : Valuation}
  {s : Store σ} {w : World σ}

theorem definition_follows (hm : m.Holds p o) (hc : CallsTracked m p n)
    {className : Option String} {g : FuncDef} {args : List Word}
    (hd : (className, g) ∈ p.definitions) (hn : args.length = g.params.length)
    (hw : w.Agrees p s) :
    Follows m p (n + 1)
      (.next (k.state ls (args.reverse ++ st) (.call (g.symbol className) :: rest) s))
      ((p.evaluator m.host n).call className g args w) (Pushed p k ls st rest) := by
  obtain ⟨callee, hmem, hlower⟩ := hm.emitted.definitions _ hd
  obtain ⟨body, -, hdef⟩ := FuncOf.lower_eq_ok_iff.mp hlower
  have hname : callee.name = g.symbol className := by rw [← hdef]
  have hresult : callee.hasResult = true := by rw [← hdef]
  have hparams : args.length = callee.params.length := by rw [← hdef, hn, List.length_map]
  rw [← hname]
  exact call_follows (hm.emitted.import?_eq_none hmem) (hm.emitted.function?_eq hmem) hparams
    hresult fun room => hc hd hlower hn rfl hw

namespace Expr

/-- The values of arguments lie on the stack, the last one on top. -/
def PushedAll (p : Program) (k : Spot) (ls : Bindings Word) (st : List Word) (rest : List Instr)
    (n : Nat) (vs : List Word) (w : World σ) (q : State σ) : Prop :=
  vs.length = n ∧ ∃ s, w.Agrees p s ∧ q = k.state ls (vs.reverse ++ st) rest s

theorem evalArgs_follows {args : List Expr} {code : List Instr}
    (ih : ∀ a ∈ args, a.Tracked m p n f) (hcode : lowerArgs (p.site f) args = .ok code)
    (hl : l.Agrees (p.vocabulary f).locals ls) (hw : w.Agrees p s) :
    Follows m p (n + 1) (.next (k.state ls st (code ++ rest) s))
      (evalArgs (p.evaluator m.host n) (p.vocabulary f).locals l args w)
      (PushedAll p k ls st rest args.length) := by
  induction args generalizing code st s w with
  | nil =>
    obtain rfl := lowerArgs_nil.mp hcode
    exact .done ⟨rfl, s, hw, rfl⟩
  | cons a args ihargs =>
    obtain ⟨c, cs, ha, hargs, rfl⟩ := lowerArgs_cons.mp hcode
    rw [evalArgs, List.append_assoc]
    refine (ih a List.mem_cons_self ha hl hw).bind ?_
    rintro v w' _ ⟨s', hw', rfl⟩
    refine (ihargs (fun b hb => ih b (List.mem_cons_of_mem a hb)) hargs hw').bind ?_
    rintro vs w'' _ ⟨hlen, s'', hw'', rfl⟩
    exact .done ⟨by rw [List.length_cons, hlen, List.length_cons], s'', hw'', by simp⟩

theorem printer?_of_printer {ty : Ty} {span : Span} {target : String}
    (h : printer ty span = .ok target) : ∃ fn, ty.printer? = some fn ∧ fn.name = target := by
  cases ty with
  | int => exact ⟨.printNum, rfl, Except.ok.inj h⟩
  | bool => exact ⟨.printBool, rfl, Except.ok.inj h⟩
  | none => exact ⟨.printNone, rfl, Except.ok.inj h⟩
  | object c => cases h

namespace Tracked

variable {i : Note} {e left right object : Expr} {args : List Expr}

theorem not (hm : m.Holds p o) (he : e.Tracked m p n f) : (unary i .not e).Tracked m p n f := by
  intro code hc k ls st rest l s w hl hw
  obtain ⟨c, hce, rfl⟩ := lowerValue_not.mp hc
  rw [eval, List.append_assoc]
  refine (he hce hl hw).bind ?_
  rintro a w' _ ⟨s', hw', rfl⟩
  exact host_follows (hm.emitted.import?_eq_some .notOperator) hw'

theorem neg (he : e.Tracked m p n f) : (unary i .neg e).Tracked m p n f := by
  intro code hc k ls st rest l s w hl hw
  obtain ⟨c, hce, rfl⟩ := lowerValue_neg.mp hc
  rw [eval, List.append_assoc, List.append_assoc]
  refine .step Machine.step_const ((he hce hl hw).bind ?_)
  rintro a w' _ ⟨s', hw', rfl⟩
  refine .step Machine.step_numeric (.done ⟨s', hw', ?_⟩)
  rw [Word.zero_sub_eq]
  rfl

theorem binary {op : BinaryOp} (hleft : left.Tracked m p n f) (hright : right.Tracked m p n f) :
    (Expr.binary i op left right).Tracked m p n f := by
  intro code hc k ls st rest l s w hl hw
  obtain ⟨cl, cr, hcl, hcr, rfl⟩ := lowerValue_binary.mp hc
  rw [eval, List.append_assoc, List.append_assoc]
  refine (hleft hcl hl hw).bind ?_
  rintro a w₁ _ ⟨s₁, hw₁, rfl⟩
  refine (hright hcr hl hw₁).bind ?_
  rintro b w₂ _ ⟨s₂, hw₂, rfl⟩
  exact numeric_follows op hw₂

theorem builtin1 (hm : m.Holds p o) {fn : Builtin1} (hu : p.uses fn.builtin = true)
    (he : e.Tracked m p n f) : (Expr.builtin1 i fn e).Tracked m p n f := by
  intro code hc k ls st rest l s w hl hw
  obtain ⟨c, hce, rfl⟩ := lowerValue_builtin1.mp hc
  rw [eval, List.append_assoc]
  refine (he hce hl hw).bind ?_
  rintro a w' _ ⟨s', hw', rfl⟩
  have hn : [a].length = fn.builtin.params.length := by cases fn; rfl
  exact builtin_follows hm.emitted hu hn (fun k => fn.func_reaches a) hw'

theorem builtin2 (hm : m.Holds p o) {fn : Builtin2} (hu : p.uses fn.builtin = true)
    (hleft : left.Tracked m p n f) (hright : right.Tracked m p n f) :
    (Expr.builtin2 i fn left right).Tracked m p n f := by
  intro code hc k ls st rest l s w hl hw
  obtain ⟨cl, cr, hcl, hcr, rfl⟩ := lowerValue_builtin2.mp hc
  rw [eval, List.append_assoc, List.append_assoc]
  refine (hleft hcl hl hw).bind ?_
  rintro a w₁ _ ⟨s₁, hw₁, rfl⟩
  refine (hright hcr hl hw₁).bind ?_
  rintro b w₂ _ ⟨s₂, hw₂, rfl⟩
  have hn : [a, b].length = fn.builtin.params.length := by cases fn <;> rfl
  exact builtin_follows hm.emitted hu hn (fun k => fn.func_reaches a b) hw₂

theorem call (hm : m.Holds p o) (hcalls : CallsTracked m p n) {callee : String}
    (known : (callee, args.length) ∈ (p.vocabulary f).funcs)
    (hargs : ∀ a ∈ args, a.Tracked m p n f) : (Expr.call i callee args).Tracked m p n f := by
  intro code hc k ls st rest l s w hl hw
  obtain ⟨cs, hcs, rfl⟩ := lowerValue_call.mp hc
  obtain ⟨g, hg, hdef, rfl, hn⟩ := hm.elaborated.find_function known
  simp only [eval, Program.evaluator_program, hg, Eval.known, pure_bind, List.append_assoc]
  refine (evalArgs_follows hargs hcs hl hw).bind ?_
  rintro vs w' _ ⟨hlen, s', hw', rfl⟩
  exact definition_follows hm hcalls hdef (hlen.trans hn.symm) hw'

theorem construct (hm : m.Holds p o) {c : String} (known : (p.vocabulary f).Constructs c) :
    (Expr.construct i c).Tracked m p n f := by
  intro code hc k ls st rest l s w hl hw
  obtain ⟨layout, hlayout, rfl⟩ := lowerValue_construct.mp hc
  obtain ⟨d, hd, hfound⟩ := hm.elaborated.find_class known
  obtain rfl : ClassLayout.ofClass d = layout := Option.some.inj (hfound.symm.trans hlayout)
  simp only [eval, Program.evaluator_program, hd, Eval.known, pure_bind]
  exact allocate_follows hm.dotless d hw

theorem field (hm : m.Holds p o) {c x : String} (ty : object.ty? = some (.object c))
    (known : (p.vocabulary f).HasField c x) (ho : object.Tracked m p n f) :
    (Expr.field i object x).Tracked m p n f := by
  intro code hc k ls st rest l s w hl hw
  obtain ⟨c', slot, co, hty, ⟨layout, hlayout, hslot⟩, hco, rfl⟩ := lowerValue_field.mp hc
  obtain rfl : c = c' := by simpa [ty] using hty
  have hoffset := hm.elaborated.offset?_eq known hlayout hslot
  simp only [eval, Program.evaluator_program, class?, ty, Option.bind_some, Ty.className?, hoffset,
    Eval.known, pure_bind, fieldAddress, List.append_assoc]
  refine (ho hco hl hw).bind ?_
  rintro a w' _ ⟨s', hw', rfl⟩
  exact .step Machine.step_const (.step Machine.step_numeric (load_follows hw'))

theorem method (hm : m.Holds p o) (hcalls : CallsTracked m p n) {c x : String}
    (ty : object.ty? = some (.object c))
    (known : (p.vocabulary f).HasMethod c x (args.length + 1)) (ho : object.Tracked m p n f)
    (hargs : ∀ a ∈ args, a.Tracked m p n f) : (Expr.method i object x args).Tracked m p n f := by
  intro code hc k ls st rest l s w hl hw
  obtain ⟨c', co, cs, hty, hco, hcs, rfl⟩ := lowerValue_method.mp hc
  obtain rfl : c = c' := by simpa [ty] using hty
  obtain ⟨g, hg, hdef, hname, hn⟩ := hm.elaborated.find_method known
  simp only [eval, Program.evaluator_program, class?, ty, Option.bind_some, Ty.className?, hg,
    Eval.known, pure_bind, List.append_assoc]
  refine (ho hco hl hw).bind ?_
  rintro self w₁ _ ⟨s₁, hw₁, rfl⟩
  refine (evalArgs_follows hargs hcs hl hw₁).bind ?_
  rintro vs w₂ _ ⟨hlen, s₂, hw₂, rfl⟩
  have hall : (self :: vs).length = g.params.length := by rw [List.length_cons, hlen, hn]
  have hcall : Follows m p (n + 1) _ _ (Pushed p k ls st rest) :=
    definition_follows hm hcalls hdef hall hw₂
  rw [List.reverse_cons, List.append_assoc, hname] at hcall
  exact hcall

theorem print (hm : m.Holds p o) {ty : Ty} (hty : e.ty? = some ty) (he : e.Tracked m p n f) :
    (Expr.print i [e]).Tracked m p n f := by
  intro code hc k ls st rest l s w hl hw
  obtain ⟨ty', target, c, hty', htarget, hce, rfl⟩ := lowerValue_print.mp hc
  obtain rfl : ty = ty' := Option.some.inj (hty.symm.trans hty')
  obtain ⟨fn, hfn, rfl⟩ := printer?_of_printer htarget
  simp only [eval, hty, Option.bind_some, hfn, Eval.known, pure_bind, List.append_assoc]
  refine (he hce hl hw).bind ?_
  rintro a w' _ ⟨s', hw', rfl⟩
  exact host_follows (hm.emitted.import?_eq_some fn) hw'

end Tracked

theorem Elaborated.tracked (hm : m.Holds p o) (hcalls : CallsTracked m p n) {e : Expr}
    (he : e.Elaborated (p.vocabulary f)) (hparts : e.parts ⊆ p.parts) : e.Tracked m p n f := by
  have huses {q : Expr} {b : Builtin} (hq : q ∈ p.parts) (hb : q.builtin? = some b) :
      p.uses b = true := List.any_eq_true.mpr ⟨q, hq, by simp [hb]⟩
  have hmembers {args : List Expr} (h : partsList args ⊆ p.parts) {a : Expr} (ha : a ∈ args) :
      a.parts ⊆ p.parts := fun q hq => h (mem_partsList.mpr ⟨a, ha, hq⟩)
  induction he with
  | literal =>
    intro code hc k ls st rest l s w hl hw
    obtain rfl := lowerValue_literal.mp hc
    exact .step Machine.step_const (.done ⟨s, hw, rfl⟩)
  | none =>
    intro code hc k ls st rest l s w hl hw
    obtain rfl := lowerValue_none.mp hc
    exact .step Machine.step_const (.done ⟨s, hw, rfl⟩)
  | self known =>
    intro code hc k ls st rest l s w hl hw
    obtain rfl := lowerValue_self.mp hc
    exact get_follows hl hw (.inl known)
  | plain known =>
    intro code hc k ls st rest l s w hl hw
    obtain rfl := lowerValue_plain.mp hc
    exact get_follows hl hw known
  | @unary _ op e _ ih =>
    rw [parts, List.cons_subset] at hparts
    cases op with
    | not => exact .not hm (ih hparts.2)
    | neg => exact .neg (ih hparts.2)
  | binary _ _ ihl ihr =>
    rw [parts, List.cons_subset, List.append_subset] at hparts
    exact .binary (ihl hparts.2.1) (ihr hparts.2.2)
  | call known _ ih =>
    rw [parts, List.cons_subset] at hparts
    exact .call hm hcalls known fun a ha => ih a ha (hmembers hparts.2 ha)
  | builtin1 _ ih =>
    rw [parts, List.cons_subset] at hparts
    exact .builtin1 hm (huses hparts.1 rfl) (ih hparts.2)
  | builtin2 _ _ ihl ihr =>
    rw [parts, List.cons_subset, List.append_subset] at hparts
    exact .builtin2 hm (huses hparts.1 rfl) (ihl hparts.2.1) (ihr hparts.2.2)
  | construct known => exact .construct hm known
  | field ty known _ ih =>
    rw [parts, List.cons_subset] at hparts
    exact .field hm ty known (ih hparts.2)
  | method ty known _ _ iho ih =>
    rw [parts, List.cons_subset, List.append_subset] at hparts
    exact .method hm hcalls ty known (iho hparts.2.1) fun a ha =>
      ih a ha (hmembers hparts.2.2 ha)
  | print hty _ ih =>
    rw [parts, List.cons_subset] at hparts
    exact .print hm hty (ih (hmembers hparts.2 List.mem_cons_self))

end Expr

theorem Eval.getVar_of_setVar {slots : List String} {l l' : Valuation} {x : String} {v : Word}
    {w w' : World σ} (h : setVar slots l x v w = .ok l' w') : getVar slots l' x w' = .ok v w' := by
  by_cases hx : x ∈ slots
  · simp only [setVar, getVar, hx, if_true, pure_run] at h ⊢
    cases h
    simp
  · simp only [setVar, getVar, hx, if_false, modify_bind, pure_run, get_bind] at h ⊢
    cases h
    simp

/-- A new object is stored, handed to its constructor and replaced by what that gives back. -/
theorem storeConstruct_follows (hm : m.Holds p o) (hcalls : CallsTracked m p n) {x c : String}
    {i : Note} {code : List Instr} (hx : (p.vocabulary f).HasVar x)
    (known : (p.vocabulary f).Constructs c)
    (hc : (p.site f).storeName x (.construct i c) = .ok code)
    (hl : l.Agrees (p.vocabulary f).locals ls) (hw : w.Agrees p s) :
    Follows m p (n + 1) (.next (k.state ls st (code ++ rest) s))
      ((p.evaluator m.host n).storeName (p.vocabulary f).locals l x (.construct i c) w)
      (Arrived p k (p.vocabulary f).locals st rest) := by
  obtain ⟨layout, hlayout, rfl⟩ := Site.storeName_construct.mp hc
  obtain ⟨d, hd, hfound⟩ := hm.elaborated.find_class known
  obtain rfl : ClassLayout.ofClass d = layout := Option.some.inj (hfound.symm.trans hlayout)
  rw [Evaluator.storeName, List.append_assoc, List.append_assoc]
  have hnew : (Expr.construct i c).Tracked m p n f := .construct hm known
  refine (hnew (Expr.lowerValue_construct.mpr ⟨_, hfound, rfl⟩) hl hw).bind ?_
  rintro object w₁ _ ⟨s₁, hw₁, rfl⟩
  refine (set_follows hm.dotless hl hw₁ hx).bind_run ?_
  rintro l' w₂ _ hset ⟨ls', s₂, hl', hw₂, rfl⟩
  rw [Program.evaluator_program]
  rcases hm.elaborated.find_constructor known hd with ⟨hk, hmethod⟩ | ⟨hk, hnone⟩
  · obtain ⟨g, hg, hdef, hname, hn⟩ := hm.elaborated.find_method hmethod
    simp only [hg, hk, if_true]
    -- the code reads the object back from the variable it was stored in
    have hget (tail : List Instr) : Follows m p (n + 1)
        (.next (k.state ls' st ((p.site f).get x :: tail) s₂)) (.ok object w₂)
        (Pushed p k ls' st tail) := by
      rw [← Eval.getVar_of_setVar hset]
      exact get_follows hl' hw₂ hx
    refine (hget _).trans ?_
    rintro _ ⟨s₃, hw₃, rfl⟩
    have hone : [object].length = g.params.length := hn.symm
    rw [← hname]
    refine (definition_follows hm hcalls hdef hone hw₃).bind ?_
    rintro v w₄ _ ⟨s₄, hw₄, rfl⟩
    exact set_follows hm.dotless hl' hw₄ hx
  · simp only [hnone, hk]
    exact .done ⟨ls', s₂, hl', hw₂, rfl⟩

theorem storeName_follows (hm : m.Holds p o) (hcalls : CallsTracked m p n) {x : String}
    {value : Expr} {code : List Instr} (hx : (p.vocabulary f).HasVar x)
    (hv : value.Elaborated (p.vocabulary f)) (hparts : value.parts ⊆ p.parts)
    (hc : (p.site f).storeName x value = .ok code)
    (hl : l.Agrees (p.vocabulary f).locals ls) (hw : w.Agrees p s) :
    Follows m p (n + 1) (.next (k.state ls st (code ++ rest) s))
      ((p.evaluator m.host n).storeName (p.vocabulary f).locals l x value w)
      (Arrived p k (p.vocabulary f).locals st rest) := by
  by_cases hconstruct : ∃ i c, value = .construct i c
  · obtain ⟨i, c, rfl⟩ := hconstruct
    cases hv with
    | construct known => exact storeConstruct_follows hm hcalls hx known hc hl hw
  · have hother : ∀ i c, value ≠ .construct i c := fun i c h => hconstruct ⟨i, c, h⟩
    cases hnone : value.isNone with
    | true =>
      rw [Site.storeName_none hnone] at hc
      cases hc
      rw [Evaluator.storeName_of_isNone _ _ _ _ hnone]
      exact .done ⟨ls, s, hl, hw, rfl⟩
    | false =>
      obtain ⟨c, hcv, rfl⟩ := (Site.storeName_value hnone hother).mp hc
      rw [Evaluator.storeName_value _ _ _ _ hnone hother, List.append_assoc]
      refine (hv.tracked hm hcalls hparts hcv hl hw).bind ?_
      rintro a w' _ ⟨s', hw', rfl⟩
      exact set_follows hm.dotless hl hw' hx

/-- A body that was opened in front of `rest` runs to its end and goes on there. -/
theorem Follows.leave {fuel : Nat} {q : Progress σ} {r : EStateM.Result Stop (World σ) Flow}
    {v : Vocabulary} (h : Follows m p fuel q r (Flowed p (k.inside rest none) st [] v)) :
    Follows m p fuel q r (Flowed p k st rest v) := by
  refine h.imp fun flow w' q' hq => ?_
  cases flow with
  | next l' =>
    obtain ⟨ls', s', hl', hw', rfl⟩ := hq
    exact ⟨_, .step Machine.step_end_inside, ls', s', hl', hw', rfl⟩
  | ret v => exact ⟨q', .refl _, hq⟩

namespace Stmt

theorem evalBody_follows {body : List Stmt} {code : List Instr}
    (ih : ∀ stmt ∈ body, stmt.Tracked m p n f) (hc : lowerBody (p.site f) body = .ok code)
    (hl : l.Agrees (p.vocabulary f).locals ls) (hw : w.Agrees p s) :
    Follows m p (n + 1) (.next (k.state ls st (code ++ rest) s))
      (evalBody (p.evaluator m.host n) (p.vocabulary f).locals l body w)
      (Flowed p k st rest (p.vocabulary f)) := by
  induction body generalizing code ls l s w with
  | nil =>
    obtain rfl := lowerBody_nil.mp hc
    exact .done ⟨ls, s, hl, hw, rfl⟩
  | cons stmt body ihbody =>
    obtain ⟨c, cs, hstmt, hbody, rfl⟩ := lowerBody_cons.mp hc
    rw [evalBody, List.append_assoc]
    refine (ih stmt List.mem_cons_self hstmt hl hw).bind fun flow w' q hq => ?_
    cases flow with
    | next l' =>
      obtain ⟨ls', s', hl', hw', rfl⟩ := hq
      exact ihbody (fun b hb => ih b (List.mem_cons_of_mem stmt hb)) hbody hl' hw'
    | ret v => exact .done hq

/-- An arm of a branch, in front of what runs otherwise. -/
theorem arm_follows {condition : Expr} {body : List Stmt} {cc cb co : List Instr}
    {otherwise : Eval σ Flow} (hcond : condition.Tracked m p n f)
    (hbody : ∀ stmt ∈ body, stmt.Tracked m p n f)
    (hcc : condition.lowerValue (p.site f) = .ok cc) (hcb : lowerBody (p.site f) body = .ok cb)
    (ho : ∀ {w s}, w.Agrees p s → Follows m p (n + 1)
      (.next ((k.inside rest none).state ls st (co ++ []) s)) (otherwise w)
      (Flowed p (k.inside rest none) st [] (p.vocabulary f)))
    (hl : l.Agrees (p.vocabulary f).locals ls) (hw : w.Agrees p s) :
    Follows m p (n + 1) (.next (k.state ls st (cc ++ [.ite cb co] ++ rest) s))
      ((condition.eval (p.evaluator m.host n) (p.vocabulary f).locals l >>= fun a =>
        if a ≠ 0 then evalBody (p.evaluator m.host n) (p.vocabulary f).locals l body
        else otherwise) w)
      (Flowed p k st rest (p.vocabulary f)) := by
  rw [List.append_assoc]
  refine (hcond hcc hl hw).bind ?_
  rintro a w' _ ⟨s', hw', rfl⟩
  refine .step Machine.step_ite (.leave ?_)
  by_cases ha : a ≠ 0
  · rw [if_pos ha, if_pos ha, ← List.append_nil cb]
    exact evalBody_follows hbody hcb hl hw'
  · rw [if_neg ha, if_neg ha, ← List.append_nil co]
    exact ho hw'

namespace Tracked

variable {span : Span} {condition value object : Expr} {body : List Stmt}

theorem assignField (hm : m.Holds p o) {c x : String} (ty : object.ty? = some (.object c))
    (known : (p.vocabulary f).HasField c x) (ho : object.Tracked m p n f)
    (hv : value.Tracked m p n f) : (assign span (.field object x) value).Tracked m p n f := by
  intro code hc k ls st rest l s w hl hw
  obtain ⟨c', slot, co, cv, hty, ⟨layout, hlayout, hslot⟩, hco, hcv, rfl⟩ :=
    Target.lower_field.mp hc
  obtain rfl : c = c' := by simpa [ty] using hty
  have hoffset := hm.elaborated.offset?_eq known hlayout hslot
  simp only [eval, Program.evaluator_program, Expr.class?, ty, Option.bind_some, Ty.className?,
    hoffset, Eval.known, pure_bind, Expr.fieldAddress, List.append_assoc]
  refine (ho hco hl hw).bind ?_
  rintro a w₁ _ ⟨s₁, hw₁, rfl⟩
  refine .step Machine.step_const (.step Machine.step_numeric ((hv hcv hl hw₁).bind ?_))
  rintro v w₂ _ ⟨s₂, hw₂, rfl⟩
  refine (store_follows hw₂).bind ?_
  rintro _ w₃ _ ⟨s₃, hw₃, rfl⟩
  exact .done ⟨ls, s₃, hl, hw₃, rfl⟩

theorem branch {elseIf : Option (Expr × List Stmt)} {otherwise : Option (List Stmt)}
    (hcond : condition.Tracked m p n f) (hbody : ∀ stmt ∈ body, stmt.Tracked m p n f)
    (hec : ∀ c b, elseIf = some (c, b) → c.Tracked m p n f)
    (heb : ∀ c b, elseIf = some (c, b) → ∀ stmt ∈ b, stmt.Tracked m p n f)
    (ho : ∀ b, otherwise = some b → ∀ stmt ∈ b, stmt.Tracked m p n f) :
    (Stmt.branch span condition body elseIf otherwise).Tracked m p n f := by
  intro code hc k ls st rest l s w hl hw
  obtain ⟨cb, co, ce, cc, hcb, hco, hce, hcc, rfl⟩ := lower_branch.mp hc
  rw [eval]
  have hother {k : Spot} {rest : List Instr} {w : World σ} {s : Store σ} (hw : w.Agrees p s) :
      Follows m p (n + 1) (.next (k.state ls st (co ++ rest) s))
        (evalOtherwise (p.evaluator m.host n) (p.vocabulary f).locals l otherwise w)
        (Flowed p k st rest (p.vocabulary f)) := by
    cases otherwise with
    | none =>
      cases hco
      exact .done ⟨ls, s, hl, hw, rfl⟩
    | some b => exact evalBody_follows (ho b rfl) hco hl hw
  refine arm_follows hcond hbody hcc hcb (fun hw' => ?_) hl hw
  rcases elseIf with _ | ⟨c, b⟩
  · cases hce
    exact hother hw'
  · obtain ⟨cc', cb', hcc', hcb', rfl⟩ := lowerElseIf_some.mp hce
    exact arm_follows (hec c b rfl) (heb c b rfl) hcc' hcb' hother hl hw'

end Tracked

/-- A round of a loop, after which the loop is left or another round is due. -/
theorem round_follows (hloops : LoopsTracked m p n) {span : Span} {condition : Expr}
    {body : List Stmt} {cc cb : List Instr}
    (hs : (Stmt.loop span condition body).StandsIn p f) (hcond : condition.Tracked m p n f)
    (hbody : ∀ stmt ∈ body, stmt.Tracked m p n f)
    (hcc : condition.lowerValue (p.site f) = .ok cc) (hcb : lowerBody (p.site f) body = .ok cb)
    (hl : l.Agrees (p.vocabulary f).locals ls) (hw : w.Agrees p s) :
    Follows m p (n + 1)
      (.next ((k.looping rest (roundCode cc cb)).state ls st (roundCode cc cb) s))
      ((Stmt.loop span condition body).eval (p.evaluator m.host n) (p.vocabulary f).locals l w)
      (Flowed p k st rest (p.vocabulary f)) := by
  rw [eval]
  refine (hcond hcc hl hw).bind ?_
  rintro a w₁ _ ⟨s₁, hw₁, rfl⟩
  refine .step Machine.step_eqz ?_
  by_cases ha : a = 0
  · simp only [ha, if_true, Word.ofBool, decide_true]
    exact .step ((Machine.step_brIf (by decide)).trans Machine.step_br_one)
      (.done ⟨ls, s₁, hl, hw₁, rfl⟩)
  · simp only [ha, if_false, Word.ofBool, decide_false, Bool.false_eq_true]
    refine .step Machine.step_brIf_zero ((evalBody_follows hbody hcb hl hw₁).bind
      fun flow w₂ q hq => ?_)
    cases flow with
    | next l' =>
      obtain ⟨ls', s₂, hl', hw₂, rfl⟩ := hq
      -- the branch back to the loop is the step that makes up for the fuel of the next round
      exact .step_succ Machine.step_br_zero (hloops hs hcc hcb hl' hw₂)
    | ret v => exact .done hq

theorem StandsIn.tracked (hm : m.Holds p o) (hcalls : CallsTracked m p n)
    (hloops : LoopsTracked m p n) {stmt : Stmt} (h : stmt.StandsIn p f) : stmt.Tracked m p n f := by
  have hmembers {body : List Stmt} (h : partsBody body ⊆ p.parts) {b : Stmt} (hb : b ∈ body) :
      b.parts ⊆ p.parts := fun q hq => h (mem_partsBody.mpr ⟨b, hb, hq⟩)
  obtain ⟨he, hparts, hscratch⟩ := h
  induction he with
  | assign ht hv =>
    rw [Stmt.parts, List.append_subset] at hparts
    cases ht with
    | name known =>
      intro code hc k ls st rest l s w hl hw
      rw [eval]
      exact (storeName_follows hm hcalls known hv hparts.2 hc hl hw).bind fun l' w' q hq => .done hq
    | field ty known ho =>
      exact .assignField hm ty known (ho.tracked hm hcalls hparts.1) (hv.tracked hm hcalls hparts.2)
  | branch hc _ hec _ _ ihb iheb iho =>
    simp only [Stmt.parts, List.append_subset] at hparts
    obtain ⟨⟨⟨hpc, hpb⟩, hpe⟩, hpo⟩ := hparts
    refine .branch (hc.tracked hm hcalls hpc) (fun b hb => ihb b hb (hmembers hpb hb)) ?_ ?_ ?_
    · rintro c b rfl
      rw [partsElseIf, List.append_subset] at hpe
      exact (hec c b rfl).tracked hm hcalls hpe.1
    · rintro c b rfl stmt hb
      rw [partsElseIf, List.append_subset] at hpe
      exact iheb c b rfl stmt hb (hmembers hpe.2 hb)
    · rintro b rfl stmt hb
      exact iho b rfl stmt hb (hmembers hpo hb)
  | loop hc hb ih =>
    have hs : StandsIn p f _ := ⟨.loop hc hb, hparts, hscratch⟩
    rw [Stmt.parts, List.append_subset] at hparts
    intro code hcode k ls st rest l s w hl hw
    obtain ⟨cc, cb, hcc, hcb, rfl⟩ := lower_loop.mp hcode
    rw [List.append_assoc, List.append_assoc]
    refine .step Machine.step_block (.step Machine.step_loop ?_)
    exact round_follows hloops hs (hc.tracked hm hcalls hparts.1)
      (fun b hb => ih b hb (hmembers hparts.2 hb)) hcc hcb hl hw
  | pass =>
    intro code hc k ls st rest l s w hl hw
    cases hc
    exact .step Machine.step_nop (.done ⟨ls, s, hl, hw, rfl⟩)
  | ret inside hv =>
    intro code hc k ls st rest l s w hl hw
    obtain ⟨c, hcv, rfl⟩ := lower_ret.mp hc
    rw [eval, List.append_assoc]
    refine (hv.tracked hm hcalls hparts hcv hl hw).bind ?_
    rintro v w' _ ⟨s', hw', rfl⟩
    exact .step Machine.step_ret (.done ⟨inside, ls, st, s', hw', rfl⟩)
  | expr hv =>
    intro code hc k ls st rest l s w hl hw
    obtain ⟨c, hcv, rfl⟩ := lower_expr.mp hc
    rw [eval, List.append_assoc]
    refine (hv.tracked hm hcalls hparts hcv hl hw).bind ?_
    rintro v w' _ ⟨s', hw', rfl⟩
    exact .step (Machine.step_localSet hl.scratch)
      (.done ⟨_, s', hl.insert_scratch hscratch v, hw', rfl⟩)
  | declare known hv =>
    intro code hc k ls st rest l s w hl hw
    rw [eval]
    exact (storeName_follows hm hcalls known hv hparts hc hl hw).bind fun l' w' q hq => .done hq

end Stmt

/-- What the code behind a body gives back when the body runs to its end. -/
theorem ending_follows (hm : m.Holds p o) {className : Option String} {g : FuncDef} {fuel : Nat}
    (hd : (className, g) ∈ p.definitions) (ho : k.outer = []) (hl : l.Agrees g.slots ls)
    (hw : w.Agrees p s) :
    Follows m p fuel (.next (k.state ls [] (g.ending className) s))
      (.ok (if className.isSome && g.name == constructorName then l receiverName else 0) w)
      (Returned p k) := by
  rw [FuncOf.ending]
  cases hk : className.isSome && g.name == constructorName with
  | true =>
    have hreceiver : receiverName ∈ g.slots := List.mem_append_left _
      (hm.elaborated.receiver_mem hd (Bool.and_eq_true_iff.mp hk).1)
    exact .step (Machine.step_localGet (hl.slots _ hreceiver))
      (.step Machine.step_ret (.done ⟨ls, [], s, hw, rfl⟩))
  | false =>
    exact .step Machine.step_const (.step (Machine.step_end_done ho) (.done ⟨ls, [], s, hw, rfl⟩))

theorem CallsTracked.succ (hcalls : CallsTracked m p n) (hloops : LoopsTracked m p n)
    (hm : m.Holds p o) : CallsTracked m p (n + 1) := by
  intro className g callee args hd hlower hn k s w ho hw
  obtain ⟨body, hbody, rfl⟩ := FuncOf.lower_eq_ok_iff.mp hlower
  have hg : g ∈ p.bodies := Program.mem_bodies.mpr ⟨className, hd⟩
  have hscratch := hm.dotless.scratch_notMem hg
  have hstands : ∀ stmt ∈ g.body, stmt.StandsIn p (some g) := fun stmt h =>
    ⟨hm.elaborated.bodies g hg stmt h, fun q hq => Program.mem_parts_of_body hg h hq, hscratch⟩
  rw [Evaluator.call]
  refine (Stmt.evalBody_follows (fun stmt h => (hstands stmt h).tracked hm hcalls hloops) hbody
    (Valuation.ofList_agrees rfl rfl hn hscratch) hw).bind fun flow w' q hq => ?_
  cases flow with
  | next l' =>
    obtain ⟨ls', s', hl', hw', rfl⟩ := hq
    exact ending_follows hm hd ho hl' hw'
  | ret v => exact .done hq.2

theorem LoopsTracked.succ (hloops : LoopsTracked m p n) (hcalls : CallsTracked m p n)
    (hm : m.Holds p o) : LoopsTracked m p (n + 1) := by
  intro f span condition body cc cb hs hcc hcb k ls st rest l s w hl hw
  have hparts : condition.parts ⊆ p.parts ∧ Stmt.partsBody body ⊆ p.parts :=
    List.append_subset.mp hs.parts
  cases hs.elaborated with
  | loop hc hb =>
    have hbody : ∀ stmt ∈ body, stmt.StandsIn p f := fun stmt h =>
      ⟨hb stmt h, fun q hq => hparts.2 (Stmt.mem_partsBody.mpr ⟨stmt, h, hq⟩), hs.scratch⟩
    rw [Program.runBody, ← Program.evaluator, Stmt.evalBody_singleton]
    exact Stmt.round_follows hloops hs (hc.tracked hm hcalls hparts.1)
      (fun stmt h => (hbody stmt h).tracked hm hcalls hloops) hcc hcb hl hw

/-- Whatever the fuel, the machine follows calls and loops. -/
theorem Machine.Holds.tracked (hm : m.Holds p o) (n : Nat) :
    CallsTracked m p n ∧ LoopsTracked m p n := by
  induction n with
  | zero =>
    -- without fuel nothing is asked of the machine
    constructor
    · unfold CallsTracked
      intros
      exact .inr rfl
    · unfold LoopsTracked
      intros
      exact .inr rfl
  | succ n ih => exact ⟨ih.1.succ ih.2 hm, ih.2.succ ih.1 hm⟩

end

end TypedScript
