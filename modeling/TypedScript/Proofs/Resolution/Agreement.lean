import TypedScript.Proofs.Lowering.Emitted
import TypedScript.Proofs.Resolution.Accesses

/-! # Where names lead

The checker looks a name up among the declarations in front of it, and code is given for it by all
declarations of the body. The two agree, except for a global variable whose name the body declares
further down. -/

namespace TypedScript

namespace FuncOf

variable {p : Program} {r : Registry} {className : Option String} {f f' : FuncDef}

def scope (r : Registry) (className : Option String) (f : FuncDef) : Checked Scope := do
  let locals ← f.paramLocals className
  return ⟨r.globals, r.classes, locals, some ⟨f.name, className, f.ret, false⟩⟩

theorem check_eq_ok (h : f.check r className = .ok f') :
    ∃ s s', f.scope r className = .ok s ∧ Stmt.checkBody s f.body = .ok (s', f'.body) ∧
      f' = { f with body := f'.body } := by
  obtain ⟨ls, hl, h⟩ := bind_eq_ok.mp h
  obtain ⟨⟨s', body⟩, hb, h⟩ := bind_eq_ok.mp h
  dsimp only at h
  split at h
  · simp only [pure_eq_ok, Except.ok.injEq] at h
    subst h
    exact ⟨_, s', bind_eq_ok.mpr ⟨ls, hl, rfl⟩, hb, rfl⟩
  · exact absurd h reject_ne_ok

def Declares (p : Program) (className : Option String) (f : FuncDef) (x : String) (ty : Ty) :
    Place → Prop
  | .slot => (∃ q ∈ f.params, q.name = x ∧ paramType className q = ty) ∨
      ∃ d ∈ f.declarations, d.name = x ∧ d.ty = ty
  | .global => ∃ d ∈ p.vars, d.name = x ∧ d.ty = ty

theorem Declares.mem_slots {x : String} {ty : Ty} (h : f.Declares p className x ty .slot) :
    x ∈ f.slots := by
  rw [slots, List.mem_append]
  rcases h with ⟨q, hq, hn, -⟩ | ⟨d, hd, hn, -⟩
  · exact .inl (List.mem_map.mpr ⟨q, hq, hn⟩)
  · exact .inr (List.mem_map.mpr ⟨d, hd, hn⟩)

structure Opens (r : Registry) (className : Option String) (f : FuncDef) (s : Scope) : Prop where
  globals : s.globals = r.globals
  inside : s.function.isSome = true
  receives : s.Receives
  locals : ∀ x ty, s.locals.find? x = some ty ↔
    ∃ q ∈ f.params, q.name = x ∧ paramType className q = ty

theorem scope_opens {s : Scope} (h : f.scope r className = .ok s)
    (hself : className.isSome = true → receiverName ∈ f.params.map (·.name)) :
    f.Opens r className s := by
  obtain ⟨ls, hl, h⟩ := bind_eq_ok.mp h
  simp only [pure_eq_ok, Except.ok.injEq] at h
  subst h
  have hlocals := paramLocals_find? hl
  refine ⟨rfl, rfl, ?_, hlocals⟩
  intro c hc
  have hsome : className = some c := hc
  obtain ⟨q, hq, hn⟩ := List.mem_map.mp (hself (by simp [hsome]))
  exact (hlocals _ _).mpr ⟨q, hq, hn, by simp [paramType, hsome, hn]⟩

/-- An occurrence and the declarations around it. The variable that the checker finds is declared
with the type that it uses, and code is given for that variable unless it is a global one of a name
that is declared behind the occurrence. -/
structure Resolved (p : Program) (className : Option String) (f : FuncDef) (s : Scope)
    (site : Site) (u : Occurrence) (before after : List Declaration) (place : Place) (ty : Ty) :
    Prop where
  split : f.declarations = before ++ after
  grows : s.Grows before u.scope
  found : u.scope.resolve? u.name = some (place, ty)
  declared : ∀ ty', f.Declares p className u.name ty' place ↔ ty' = ty
  agrees : site.place u.name = place ↔ (place = .global → u.name ∉ after.map (·.name))

section

variable {s s' : Scope} {ls : Layouts} {u : Occurrence} {before after : List Declaration} {ty : Ty}

/-- No name is declared in two slots. -/
theorem Opens.slot_unique (ho : f.Opens r className s) (hg : s.Grows f.declarations s')
    {x : String} (h : f.Declares p className x ty .slot) (ty' : Ty) :
    f.Declares p className x ty' .slot ↔ ty' = ty := by
  have hfinal : ∀ ty, f.Declares p className x ty .slot ↔ s'.locals.find? x = some ty := by
    intro ty
    rw [hg.locals, ho.locals]
    rfl
  rw [hfinal, (hfinal ty).mp h, Option.some.injEq, eq_comm]

theorem Opens.resolved_slot (ho : f.Opens r className s) (hg : s.Grows f.declarations s')
    (hsplit : f.declarations = before ++ after) (hu : s.Grows before u.scope)
    (hfound : u.scope.resolve? u.name = some (.slot, ty)) :
    f.Resolved p className s ⟨ls, f.slots⟩ u before after .slot ty := by
  have hdecl : f.Declares p className u.name ty .slot := by
    rcases (hu.locals _ _).mp (Scope.resolve?_slot.mp hfound) with hparam | ⟨d, hd, hn⟩
    · exact .inl ((ho.locals _ _).mp hparam)
    · exact .inr ⟨d, by rw [hsplit]; exact List.mem_append_left _ hd, hn⟩
  refine ⟨hsplit, hu, hfound, ho.slot_unique hg hdecl, ?_⟩
  simp [Site.place, hdecl.mem_slots]

/-- The checker has seen the parameters and the declarations in front, so what it takes for a
global variable can only be a slot by a declaration behind. -/
theorem Opens.resolved_global (hr : r.Records p) (ho : f.Opens r className s)
    (hsplit : f.declarations = before ++ after) (hu : s.Grows before u.scope)
    (hfound : u.scope.resolve? u.name = some (.global, ty)) :
    f.Resolved p className s ⟨ls, f.slots⟩ u before after .global ty := by
  obtain ⟨hnone, hglobal⟩ := Scope.resolve?_global.mp hfound
  rw [hu.globals, ho.globals] at hglobal
  have hlocal : ∀ ty', u.scope.locals.find? u.name ≠ some ty' := by
    intro ty'
    simp [hnone]
  have hparams : u.name ∉ f.params.map (·.name) := by
    intro hmem
    obtain ⟨q, hq, hn⟩ := List.mem_map.mp hmem
    exact hlocal _ ((hu.locals _ _).mpr (.inl ((ho.locals _ _).mpr ⟨q, hq, hn, rfl⟩)))
  have hbefore : u.name ∉ before.map (·.name) := by
    intro hmem
    obtain ⟨d, hd, hn⟩ := List.mem_map.mp hmem
    exact hlocal _ ((hu.locals _ _).mpr (.inr ⟨d, hd, hn, rfl⟩))
  have hslots : u.name ∈ f.slots ↔ u.name ∈ after.map (·.name) := by
    rw [slots, hsplit, List.map_append, List.mem_append, List.mem_append]
    simp [hparams, hbefore]
  refine ⟨hsplit, hu, hfound, fun ty' => ?_, ?_⟩
  · rw [Declares, ← hr.varTypes, hglobal, Option.some.injEq, eq_comm]
  · by_cases hmem : u.name ∈ f.slots
    · simp [Site.place, hmem, hslots.mp hmem]
    · simp [Site.place, hmem, mt hslots.mpr hmem]

theorem Opens.resolved (ls : Layouts) (hr : r.Records p) (ho : f.Opens r className s)
    (hg : s.Grows f.declarations s') (hu : u.Settled f.declarations s) :
    ∃ before after place ty, f.Resolved p className s ⟨ls, f.slots⟩ u before after place ty := by
  obtain ⟨⟨⟨place, ty⟩, hfound⟩, before, after, hsplit, hgu⟩ := hu
  cases place with
  | slot => exact ⟨before, after, .slot, ty, ho.resolved_slot hg hsplit hgu hfound⟩
  | global => exact ⟨before, after, .global, ty, ho.resolved_global hr hsplit hgu hfound⟩

end

/-- A name that is found is a name of the program. -/
theorem Resolved.mem_names {s : Scope} {site : Site} {u : Occurrence}
    {before after : List Declaration} {place : Place} {ty : Ty} (hf : f ∈ p.bodies)
    (h : f.Resolved p className s site u before after place ty) : u.name ∈ p.names := by
  have hdecl := (h.declared ty).mpr rfl
  rw [Program.names, List.mem_append]
  cases place with
  | slot =>
    right
    exact List.mem_flatMap.mpr ⟨f, hf, List.mem_cons_of_mem _ hdecl.mem_slots⟩
  | global =>
    obtain ⟨d, hd, hn, -⟩ := hdecl
    left
    exact List.mem_append_left _ (List.mem_append_left _ (List.mem_map.mpr ⟨d, hd, hn⟩))

end FuncOf

namespace Program

variable {p t : Program} {o : Options} {m : Module} {r : Registry}

theorem Dotless.notMem_ownVariables (hd : p.Dotless) {x : String} (hx : x ∈ p.names) :
    x ∉ Symbol.ownVariables := by
  have hdots : ∀ y ∈ Symbol.ownVariables, '.' ∈ y.toList := by decide
  intro hown
  exact hd x hx (hdots x hown)

theorem SameOutline.layouts (h : SameOutline p t) :
    Layouts.ofClasses t.classes = Layouts.ofClasses p.classes := by
  have hm := congrArg (List.map fun o => (o.1, (⟨o.1, o.2.1.mapIdx fun i d => ⟨d.name, i, d.value⟩,
    o.2.2.any (·.1 == constructorName)⟩ : ClassLayout))) h.classes
  simp only [List.map_map, Function.comp_def, ClassOf.outline, List.any_map, FuncOf.outline] at hm
  exact congrArg Bindings.ofList hm

/-- Each definition is checked into the definition that code is given for. -/
theorem check_definition (h : p.check = .ok t) (hreg : Registry.ofProgram p = .ok r)
    {d : Option String × FuncDef} (hd : d ∈ p.definitions) :
    ∃ f', d.2.check r d.1 = .ok f' ∧ (d.1, f') ∈ t.definitions := by
  obtain ⟨r', hreg', h⟩ := bind_eq_ok.mp h
  obtain ⟨funcs, hf, h⟩ := bind_eq_ok.mp h
  obtain ⟨classes, hc, h⟩ := bind_eq_ok.mp h
  obtain ⟨⟨s, stmts⟩, -, h⟩ := bind_eq_ok.mp h
  obtain rfl : r' = r := Except.ok.inj (hreg'.symm.trans hreg)
  simp only [pure_eq_ok, Except.ok.injEq] at h
  subst h
  rcases List.mem_append.mp hd with hd | hd
  · obtain ⟨f, hmem, rfl⟩ := List.mem_map.mp hd
    obtain ⟨f', hmem', hcheck⟩ := mapM_ok_mem_source hf hmem
    exact ⟨f', hcheck, List.mem_append_left _ (List.mem_map.mpr ⟨f', hmem', rfl⟩)⟩
  · obtain ⟨c, hmemc, hd⟩ := List.mem_flatMap.mp hd
    obtain ⟨f, hmem, rfl⟩ := List.mem_map.mp hd
    obtain ⟨c', hmemc', hcheck⟩ := mapM_ok_mem_source hc hmemc
    obtain ⟨ms, hms, hcheck⟩ := bind_eq_ok.mp hcheck
    simp only [pure_eq_ok, Except.ok.injEq] at hcheck
    subst hcheck
    obtain ⟨f', hmem', hcheck⟩ := mapM_ok_mem_source hms hmem
    exact ⟨f', hcheck, List.mem_append_right _
      (List.mem_flatMap.mpr ⟨_, hmemc', List.mem_map.mpr ⟨f', hmem', rfl⟩⟩)⟩

theorem definition_receives (hr : r.Records p) {d : Option String × FuncDef}
    (hd : d ∈ p.definitions) (hself : d.1.isSome = true) :
    receiverName ∈ d.2.params.map (·.name) := by
  rcases List.mem_append.mp hd with hd | hd
  · obtain ⟨f, -, rfl⟩ := List.mem_map.mp hd
    cases hself
  · obtain ⟨c, hmemc, hd⟩ := List.mem_flatMap.mp hd
    obtain ⟨f, hmem, rfl⟩ := List.mem_map.mp hd
    exact hr.receivers c hmemc f hmem

/-- The code of a function accesses the variables of its occurrences, one after the other, and each
occurrence is resolved. -/
theorem compile_resolution (h : p.compile o = .ok m) (hd : p.Dotless) :
    ∃ r, Registry.ofProgram p = .ok r ∧ ∀ d ∈ p.definitions,
      ∃ s, d.2.scope r d.1 = .ok s ∧ ∃ g ∈ m.functions, ∃ code,
        g.name = d.2.symbol d.1 ∧ g.body = code ++ d.2.ending d.1 ∧
        let site : Site := ⟨Layouts.ofClasses p.classes, d.2.slots⟩
        let us := Stmt.bodyOccurrences site.layouts s d.2.body
        Instr.bodyAccesses code = us.flatMap (·.emitted site) ∧
        ∀ u ∈ us, ∃ before after place ty,
          d.2.Resolved p d.1 s site u before after place ty := by
  obtain ⟨t, ht, hlower⟩ := compile_eq_ok_iff.mp h
  have hsame := check_sameOutline ht
  have hemit := (check_elaborated ht).emitted (hsame.dotless hd) hlower
  obtain ⟨r, hreg, -⟩ := bind_eq_ok.mp ht
  have hr := Registry.ofProgram_records hreg
  refine ⟨r, hreg, fun d hdef => ?_⟩
  obtain ⟨f', hcheck, hdef'⟩ := check_definition ht hreg hdef
  obtain ⟨s, s', hs, hbody, hf'⟩ := FuncOf.check_eq_ok hcheck
  have ho := FuncOf.scope_opens hs (definition_receives hr hdef)
  obtain ⟨g, hg, hlow⟩ := hemit.definitions _ hdef'
  obtain ⟨code, hcode, rfl⟩ := FuncOf.lower_eq_ok_iff.mp hlow
  obtain ⟨hgrows, hsettled⟩ := Stmt.checkBody_settles
    (fun st _ => Stmt.check_settles (Layouts.ofClasses p.classes) st) ho.inside ho.receives hbody
  have hresolved := fun u hu => ho.resolved (Layouts.ofClasses p.classes) hr hgrows (hsettled u hu)
  have hslots : f'.slots = d.2.slots :=
    congrArg (·.2.2) (FuncOf.check_elaborated hr (definition_receives hr hdef) hcheck).1
  rw [hsame.layouts, hslots] at hcode
  have hown : ∀ u ∈ Stmt.bodyOccurrences (Layouts.ofClasses p.classes) s d.2.body,
      u.name ∉ Symbol.ownVariables := by
    intro u hu
    obtain ⟨_, _, _, _, hu⟩ := hresolved u hu
    exact hd.notMem_ownVariables (hu.mem_names (mem_bodies.mpr ⟨d.1, hdef⟩))
  refine ⟨s, hs, _, hg, code, ?_, ?_, ?_, hresolved⟩
  · rw [hf']
    rfl
  · rw [hf']
    rfl
  · exact Stmt.checkBody_emits (fun st _ => Stmt.check_emits st) ho.inside ho.receives hbody hcode
      hown

/-- A function that prints a global variable and then declares a local one of the same name. -/
def lateDeclaration : Program :=
  let note : Note := ⟨default, none⟩
  let x : Expr := .name note (.plain "x")
  { vars := [⟨"x", .bool, .bool true, default⟩]
    funcs := [{
      name := "f", params := [], ret := .int, span := default
      body := [
        .expr (.print note [x]),
        .declare ⟨"x", .int, .literal note (.number 5), default⟩,
        .ret default x] }]
    classes := []
    stmts := [.expr (.call note "f" [])]
    ty := none }

theorem resolution_lateDeclaration : ∃ m, lateDeclaration.compile {} = .ok m ∧
    lateDeclaration.Dotless ∧ ∃ g ∈ m.functions, ∃ code, g.name = "f" ∧
      g.body = code ++ [.const 0] ∧
      Instr.bodyAccesses code = [(.slot, .get, "x"), (.slot, .set, "x"), (.slot, .get, "x")] := by
  have hdot : lateDeclaration.Dotless := by decide
  have hcompile : (lateDeclaration.compile {}).toOption.isSome = true := by decide +kernel
  have hemitted : ∀ d ∈ lateDeclaration.definitions,
      ((Registry.ofProgram lateDeclaration).toOption.bind fun r =>
        (d.2.scope r d.1).toOption.map fun s =>
          (Stmt.bodyOccurrences (Layouts.ofClasses lateDeclaration.classes) s d.2.body).flatMap
            (·.emitted ⟨Layouts.ofClasses lateDeclaration.classes, d.2.slots⟩)) =
      some [(.slot, .get, "x"), (.slot, .set, "x"), (.slot, .get, "x")] := by
    decide +kernel
  cases hm : lateDeclaration.compile {} with
  | error e =>
    rw [hm] at hcompile
    cases hcompile
  | ok m =>
    obtain ⟨r, hreg, hall⟩ := compile_resolution hm hdot
    obtain ⟨s, hs, g, hg, code, hname, hbody, hcode, -⟩ := hall _ List.mem_cons_self
    refine ⟨m, rfl, hdot, g, hg, code, hname, hbody, ?_⟩
    have hfirst := hemitted _ List.mem_cons_self
    simp only [hreg, hs, Except.toOption, Option.bind_some, Option.map_some] at hfirst
    exact hcode.trans (Option.some.inj hfirst)

/-- The checker takes the first `x` for the global variable, which holds `True`. The code reads the
slot, which nothing has been stored in, and prints `False`. -/
theorem lateDeclaration_prints_false :
    lateDeclaration.definitions.map (fun d =>
      (Registry.ofProgram lateDeclaration).toOption.bind fun r =>
        (d.2.scope r d.1).toOption.map fun s =>
          (Stmt.bodyOccurrences [] s d.2.body).map fun u => u.scope.resolve? u.name) =
      [some [some (.global, .bool), some (.slot, .int), some (.slot, .int)]] ∧
    ((lateDeclaration.compile {}).toOption.bind fun m =>
      (m.run 100 {} Recording.host .empty {}).map fun r =>
        (r.1.toOption, r.2.globals.find? "x", r.2.host.args .printBool)) =
      some (some (some 5), some 1, [0]) := by
  decide +kernel

end Program

end TypedScript
