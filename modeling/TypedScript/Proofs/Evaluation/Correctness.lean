import TypedScript.Proofs.Evaluation.Simulation
import TypedScript.Proofs.Machine.Safety

/-! # Modules mean what their programs mean

The entry of a module sets the global variables, runs the statements and gives the value of the last
one back. Its run on the machine and the evaluation of the program end alike. -/

namespace TypedScript

section

variable {σ : Type} {m : Machine σ} {p : Program} {o : Options} {n : Nat} {k : Spot}
  {ls : Bindings Word} {st : List Word} {rest : List Instr} {l : Valuation} {s : Store σ}
  {w : World σ}

theorem initVar_follows {d : VarDef} (hd : p.Dotless) (hx : d.name ∈ p.globalNames)
    (hw : w.Agrees p s) :
    Follows m p n (.next (k.state ls st (d.lower ++ rest) s)) (Program.initVar d w)
      (Passed p k ls st rest) := by
  rw [VarDef.lower, Program.initVar]
  split
  · exact .done ⟨s, hw, rfl⟩
  · obtain ⟨s', hs', hw'⟩ := hw.setGlobal hd.heapPointer_notMem hx d.value.word
    refine .step Machine.step_const (.step Machine.step_globalSet ?_)
    rw [hs']
    exact .done ⟨s', hw', rfl⟩

theorem initVars_follows {vars : List VarDef} (hd : p.Dotless)
    (hx : ∀ d ∈ vars, d.name ∈ p.globalNames) (hw : w.Agrees p s) :
    Follows m p n (.next (k.state ls st (vars.flatMap VarDef.lower ++ rest) s))
      (vars.forM Program.initVar w) (Passed p k ls st rest) := by
  induction vars generalizing s w with
  | nil => exact .done ⟨s, hw, rfl⟩
  | cons d vars ih =>
    rw [List.flatMap_cons, List.append_assoc]
    refine (initVar_follows hd (hx d List.mem_cons_self) hw).bind ?_
    rintro _ w' _ ⟨s', hw', rfl⟩
    exact ih (fun d' hd' => hx d' (List.mem_cons_of_mem d hd')) hw'

theorem runBody_follows (hm : m.Holds p o) {body : List Stmt} {code : List Instr}
    (hb : ∀ stmt ∈ body, stmt.StandsIn p none)
    (hc : Stmt.lowerBody (p.site none) body = .ok code) (hl : l.Agrees [] ls)
    (hw : w.Agrees p s) :
    Follows m p n (.next (k.state ls st (code ++ rest) s)) (p.runBody m.host n [] body l w)
      (Flowed p k st rest (p.vocabulary none)) := by
  cases n with
  | zero => exact .inr rfl
  | succ n =>
    obtain ⟨hcalls, hloops⟩ := hm.tracked n
    exact Stmt.evalBody_follows (fun stmt h => (hb stmt h).tracked hm hcalls hloops) hc hl hw

namespace Program

variable {host : Host σ}

theorem eval_of_getLast? {e : Expr} (h : p.stmts.getLast? = some (.expr e)) :
    p.eval host n = (do
      p.vars.forM initVar
      let _ ← p.runBody host n [] p.stmts.dropLast fun _ => 0
      return some (← e.eval (p.evaluator host n) [] fun _ => 0)) := by
  rw [eval]
  simp only [h]

theorem eval_of_not_endsWithExpr (h : p.endsWithExpr = false) :
    p.eval host n = (do
      p.vars.forM initVar
      let _ ← p.runBody host n [] p.stmts fun _ => 0
      return none) := by
  rw [eval]
  refine congrArg _ (funext fun _ => ?_)
  split
  · next e he => simp [endsWithExpr, he] at h
  · rfl

theorem getLast?_of_endsWithExpr (h : p.endsWithExpr = true) :
    ∃ e, p.stmts.getLast? = some (.expr e) := by
  rw [endsWithExpr] at h
  split at h
  · next e he => exact ⟨e, he⟩
  · cases h

end Program

/-- The outermost call is about to end, with a value or without one. -/
def Finished (p : Program) (k : Spot) (v : Option Word) (w : World σ) (q : State σ) : Prop :=
  ∃ ls st s, w.Agrees p s ∧ q = k.done ls st s ∧ (Frame.mk k.func ls st []).result = .ok v

/-- The statements of a program that ends with an expression. -/
theorem value_follows (hm : m.Holds p o) {e : Expr} {code : List Instr}
    (hb : ∀ stmt ∈ p.stmts, stmt.StandsIn p none) (he : p.stmts.getLast? = some (.expr e))
    (hc : Stmt.lowerBody (p.site none) p.stmts = .ok code)
    (hk : k.func.hasResult = p.endsWithExpr) (ho : k.outer = [])
    (hl : Valuation.Agrees (fun _ => 0) [] ls) (hw : w.Agrees p s) :
    Follows m p n (.next (k.state ls [] (code ++ p.ending) s))
      ((do
        let _ ← p.runBody m.host n [] p.stmts.dropLast fun _ => 0
        return some (← e.eval (p.evaluator m.host n) [] fun _ => 0) : Eval σ (Option Word)) w)
      (Finished p k) := by
  have hends : p.endsWithExpr = true := by rw [Program.endsWithExpr, he]
  have hlast : Stmt.expr e ∈ p.stmts := List.mem_of_getLast? he
  have hsplit : p.stmts.dropLast ++ [.expr e] = p.stmts := List.dropLast_append_getLast? _ he
  rw [← hsplit] at hc
  obtain ⟨cf, cb, hcf, hcb, rfl⟩ := Stmt.lowerBody_append.mp hc
  obtain ⟨c, cs, hce, hnil, rfl⟩ := Stmt.lowerBody_cons.mp hcb
  obtain rfl := Stmt.lowerBody_nil.mp hnil
  obtain ⟨cv, hcv, rfl⟩ := Stmt.lower_expr.mp hce
  rw [Program.ending, if_pos hends]
  simp only [List.append_assoc, List.append_nil]
  refine (runBody_follows hm (fun stmt h => hb stmt ((List.dropLast_subset _ h))) hcf hl hw).bind
    fun flow w₁ q hq => ?_
  cases flow with
  | ret v => exact absurd hq.1 Bool.false_ne_true
  | next l' =>
    obtain ⟨ls', s₁, hl', hw₁, rfl⟩ := hq
    -- the last value goes through the scratch variable, from where the entry gives it back
    have hv : e.Elaborated (p.vocabulary none) := by
      cases (hb _ hlast).elaborated with
      | expr hv => exact hv
    have htracked := hv.tracked hm (hm.tracked n).1 (hb _ hlast).parts
    refine ((htracked hcv ⟨by simp [Program.vocabulary], hl'.scratch⟩ hw₁).mono
      (Nat.le_succ n)).bind ?_
    rintro v w₂ _ ⟨s₂, hw₂, rfl⟩
    have hget := Bindings.find?_insert_self ls' Symbol.scratch v
    exact .step (Machine.step_localSet hl'.scratch) (.step (Machine.step_localGet hget)
      (.step (Machine.step_end_done ho)
        (.done ⟨_, [v], s₂, hw₂, rfl, by simp [Frame.result, hk, hends]⟩)))

theorem entry_follows (hm : m.Holds p o) {g : Func}
    (hg : p.lowerEntry (Layouts.ofClasses p.classes) o = .ok g) (hk : k.func = g)
    (ho : k.outer = []) (hw : w.Agrees p s) :
    Follows m p n (.next (k.state (Frame.enter g []).locals [] g.body s)) (p.eval m.host n w)
      (Finished p k) := by
  obtain ⟨code, hcode, rfl⟩ := Program.lowerEntry_eq_ok_iff.mp hg
  have hstands : ∀ stmt ∈ p.stmts, stmt.StandsIn p none := fun stmt h =>
    ⟨hm.elaborated.stmts stmt h, fun q hq => Program.mem_parts_of_stmts h hq, by
      simp [Program.vocabulary]⟩
  have hl : Valuation.Agrees (fun _ => 0) [] [(Symbol.scratch, (0 : Word))] :=
    ⟨by simp, by simp [Bindings.contains, Bindings.find?]⟩
  have hvars : ∀ d ∈ p.vars, d.name ∈ p.globalNames := fun d hd =>
    List.mem_append_left _ (List.mem_map.mpr ⟨d, hd, rfl⟩)
  rw [List.append_assoc]
  cases hends : p.endsWithExpr with
  | true =>
    obtain ⟨e, he⟩ := Program.getLast?_of_endsWithExpr hends
    rw [Program.eval_of_getLast? he]
    refine (initVars_follows hm.dotless hvars hw).bind ?_
    rintro _ w' _ ⟨s', hw', rfl⟩
    exact value_follows hm hstands he hcode (by rw [hk]) ho hl hw'
  | false =>
    rw [Program.eval_of_not_endsWithExpr hends]
    refine (initVars_follows hm.dotless hvars hw).bind ?_
    rintro _ w' _ ⟨s', hw', rfl⟩
    refine (runBody_follows hm hstands hcode hl hw').bind fun flow w'' q hq => ?_
    cases flow with
    | ret v => exact absurd hq.1 Bool.false_ne_true
    | next l' =>
      obtain ⟨ls', s'', hl', hw'', rfl⟩ := hq
      rw [Program.ending, if_neg (by simp [hends])]
      exact .step (Machine.step_end_done ho)
        (.done ⟨ls', [], s'', hw'', rfl, by simp [Frame.result, hk, hends]⟩)

theorem Finished.step (hk : k.callers = []) {v : Option Word} {q : State σ}
    (h : Finished p k v w q) : ∃ s, m.step q = .halt (.ok v) s ∧ w.Agrees p s := by
  obtain ⟨ls, st, s, hw, rfl, hv⟩ := h
  refine ⟨s, ?_, hw⟩
  simp only [Machine.step, Spot.done, hk, Machine.leave, hv]

end

/-- A program starts in the world that the machine is set up with. -/
theorem Emitted.initial_agrees {σ : Type} {p : Program} {o : Options} {m : Module} {c : Config}
    {s : σ} (h : Emitted p o m) (hd : p.Dotless)
    (hsmall : (Store.initial m c s).memory.size < 2 ^ 31) :
    (p.initialWorld o (Store.initial m c s).memory s).Agrees p (Store.initial m c s) := by
  have hheap := hd.heapPointer_notMem
  rw [← p.initialGlobals_names o] at hheap
  refine ⟨fun x hx => ?_, ?_, rfl, rfl, hsmall⟩
  · rw [← p.initialGlobals_names o] at hx
    rw [h.initial_globals]
    exact Bindings.find?_foldl_insert _ _ (fun _ => 0) (.inr hx)
  · rw [h.initial_globals, Bindings.ofList, List.foldl_cons,
      Bindings.find?_foldl_insert_of_notMem _ hheap, Bindings.find?_insert_self]
    rfl

namespace Program

variable {σ : Type}

variable {m : Machine σ} {p : Program} {n : Nat} {k : Spot} {q : Progress σ} {w : World σ}

/-- The machine ends as the evaluation that it follows. -/
theorem ends_of_follows {r : Except Trap (Option Word)} (hk : k.callers = [])
    (hx : ¬ m.Exhausts q) (h : Follows m p n q (Eval.outcome r w) (Finished p k)) :
    ∃ fuel s, m.runFrom fuel q = some (r, s) ∧ w.Agrees p s := by
  cases r with
  | ok v =>
    obtain ⟨q', ⟨steps, hreach⟩, hfinished⟩ := h.resolve_left hx
    obtain ⟨s, hstep, hw⟩ := hfinished.step hk
    exact ⟨steps + 1, s, by rw [hreach, Machine.runFrom, hstep, Machine.runFrom], hw⟩
  | error t => exact h.resolve_left hx

/-- An evaluation that the machine follows ends as the machine, given as much fuel as the machine
takes steps. -/
theorem follows_ends {r : Except Trap (Option Word)} {s : Store σ}
    {x : EStateM.Result Stop (World σ) (Option Word)} (hk : k.callers = [])
    (hx : ¬ m.Exhausts q) (h : Follows m p n q x (Finished p k))
    (hr : m.runFrom n q = some (r, s)) : ∃ w, x = Eval.outcome r w ∧ w.Agrees p s := by
  have hends (r' : Except Trap (Option Word)) (w : World σ) (hout : x = Eval.outcome r' w) :
      x = Eval.outcome r w ∧ w.Agrees p s := by
    obtain ⟨fuel, s', hr', hw⟩ := ends_of_follows hk hx (hout ▸ h)
    cases Machine.runFrom_unique hr hr'
    exact ⟨hout, hw⟩
  match x, h.resolve_left hx with
  | .ok v w, _ => exact ⟨w, hends (.ok v) w rfl⟩
  | .error (.trap t) w, _ => exact ⟨w, hends (.error t) w rfl⟩
  | .error .spent w, hspent =>
    -- out of fuel after `n` steps, but the machine has halted by then
    rw [hr] at hspent
    cases hspent

/-- The run of a module starts in a state from which the machine follows the program. -/
theorem run_follows {m : Module} {o : Options} {host : Host σ} {c : Config} {s : σ}
    (hm : (Machine.ofModule m c host).Holds p o)
    (hsmall : (Store.initial m c s).memory.size < 2 ^ 31) :
    ∃ q k, k.callers = [] ∧
      (∀ fuel, m.run fuel o host s c = (Machine.ofModule m c host).runFrom fuel q) ∧
      ∀ n, Follows (Machine.ofModule m c host) p n q
        (p.evalFrom o host (Store.initial m c s).memory s n) (Finished p k) := by
  obtain ⟨g, -, hg⟩ := hm.emitted.entry
  let k : Spot := ⟨g, none, [], [], c.maxCallDepth - 1⟩
  refine ⟨(Machine.ofModule m c host).enter ⟨[], c.maxCallDepth, Store.initial m c s⟩ g [], k, rfl,
    fun fuel => ?_, fun n => ?_⟩
  · rw [Module.run, Machine.run, hm.emitted.export_eq rfl hg]
    rfl
  · cases hdepth : c.maxCallDepth with
    | zero => exact .inl ⟨0, Store.initial m c s, by rw [Machine.ofModule, hdepth]; rfl⟩
    | succ room =>
      have hroom : k.room = room := by simp [k, hdepth]
      have hentry := entry_follows (k := k) (n := n) hm hg rfl rfl
        (hm.emitted.initial_agrees hm.dotless hsmall)
      rw [Spot.state, hroom] at hentry
      exact hentry

theorem run_unique {m : Module} {o : Options} {host : Host σ} {c : Config} {s : σ}
    {fuel fuel' : Nat} {r r' : Halted σ} (h : m.run fuel o host s c = some r)
    (h' : m.run fuel' o host s c = some r') : r = r' := by
  rw [Module.run, Machine.run] at h h'
  cases hg : (Machine.ofModule m c host).export? o.entryExport with
  | none =>
    rw [hg] at h h'
    exact Option.some.inj (h.symm.trans h')
  | some g =>
    rw [hg] at h h'
    exact Machine.runFrom_unique h h'

/-- Unless calls are nested too deep, the run of a module and the evaluation of its program end
alike: with the same value or the same trap, and with the same global variables, heap and host. If
one does not end, neither does the other. -/
theorem compile_correct {p : Program} {o : Options} {m : Module} {host : Host σ} {c : Config}
    {s : σ} (h : p.compile o = .ok m) (hd : p.Dotless)
    (hsmall : (Store.initial m c s).memory.size < 2 ^ 31)
    (hx : ∀ fuel store, m.run fuel o host s c ≠
      some (.error (.callStackExhausted c.maxCallDepth), store)) :
    ∃ t, p.check = .ok t ∧
      (∀ fuel r store, m.run fuel o host s c = some (r, store) → ∃ n w,
        t.evalFrom o host (Store.initial m c s).memory s n = Eval.outcome r w ∧
          w.Agrees t store) ∧
      (∀ n r w, t.evalFrom o host (Store.initial m c s).memory s n = Eval.outcome r w →
        ∃ fuel store, m.run fuel o host s c = some (r, store) ∧ w.Agrees t store) ∧
      ∀ n w, t.evalFrom o host (Store.initial m c s).memory s n ≠ .error .stuck w := by
  obtain ⟨t, ht, hlower⟩ := compile_eq_ok_iff.mp h
  have hchecked := check_elaborated ht
  have hdt := (check_sameOutline ht).dotless hd
  have hm : (Machine.ofModule m c host).Holds t o := ⟨hchecked, hdt, hchecked.emitted hdt hlower⟩
  obtain ⟨q, k, hk, hrun, hfollows⟩ := run_follows hm hsmall
  have hq : ¬ (Machine.ofModule m c host).Exhausts q := by
    rintro ⟨fuel, store, hend⟩
    exact hx fuel store ((hrun fuel).trans hend)
  refine ⟨t, ht, fun fuel r store hr => ?_, fun n r w hw => ?_, fun n w hw => ?_⟩
  · rw [hrun] at hr
    exact ⟨fuel, follows_ends hk hq (hfollows fuel) hr⟩
  · obtain ⟨fuel, store, hr, hagree⟩ := ends_of_follows hk hq (hw ▸ hfollows n)
    exact ⟨fuel, store, (hrun fuel).trans hr, hagree⟩
  · have hstuck := (hfollows n).resolve_left hq
    rw [hw] at hstuck
    exact hstuck

theorem evalFrom_countdown : ∃ m t n w, countdown.compile {} = .ok m ∧ countdown.Dotless ∧
    (Store.initial m {} Recording.empty).memory.size < 2 ^ 31 ∧
    (∀ fuel store, m.run fuel {} Recording.host .empty {} ≠
      some (.error (.callStackExhausted 512), store)) ∧
    countdown.check = .ok t ∧
    t.evalFrom {} Recording.host (Store.initial m {} Recording.empty).memory .empty n =
      .ok (some 0) w ∧
    w.host.args .printNum = [8, 2] := by
  have hdot : countdown.Dotless := by decide
  have hrun : ((countdown.compile {}).toOption.bind fun m =>
      (m.run 400 {} Recording.host .empty {}).map fun r =>
        (r.1.toOption, r.2.host.args .printNum,
          decide ((Store.initial m {} Recording.empty).memory.size < 2 ^ 31))) =
      some (some (some 0), [8, 2], true) := by
    decide +kernel
  cases hm : countdown.compile {} with
  | error e =>
    rw [hm] at hrun
    cases hrun
  | ok m =>
    rw [hm] at hrun
    obtain ⟨⟨r, store⟩, hr, heq⟩ := Option.map_eq_some_iff.mp hrun
    simp only [Prod.mk.injEq, decide_eq_true_eq] at heq
    obtain ⟨hvalue, hargs, hsize⟩ := heq
    obtain rfl : r = .ok (some 0) := by
      cases r with
      | error t => cases hvalue
      | ok v => exact congrArg Except.ok (Option.some.inj hvalue)
    have hx : ∀ fuel store, m.run fuel {} Recording.host .empty {} ≠
        some (.error (.callStackExhausted 512), store) := by
      intro fuel store' hend
      cases run_unique hr hend
    obtain ⟨t, ht, hends, -⟩ := compile_correct hm hdot hsize hx
    obtain ⟨n, w, heval, hw⟩ := hends 400 _ store hr
    exact ⟨m, t, n, w, rfl, hdot, hsize, hx, ht, heval, hw.host ▸ hargs⟩

end Program

end TypedScript
