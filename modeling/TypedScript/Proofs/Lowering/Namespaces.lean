import TypedScript.Proofs.Lowering.Emitted
import TypedScript.Proofs.Typing.Decision

/-! # Namespaces

Wherever a name of an accepted program is looked up, it stands for one thing. The functions of the
module are a namespace of their own: the name of a method there is put together from two names, and
these cannot be told from it. -/

namespace TypedScript

theorem Symbol.method_not_injective : ¬ Function.Injective2 Symbol.method := by
  intro h
  have hsame : Symbol.method "c" "a_b" = Symbol.method "b_c" "a" := by decide
  exact absurd (h hsame).1 (by decide)

namespace Program

/-- No two things share a name where one is looked up by its name. -/
structure DistinctNames (p : Program) : Prop where
  classes : (p.classes.map (·.name)).Nodup
  fields : ∀ c ∈ p.classes, (c.fields.map (·.name)).Nodup
  methods : ∀ c ∈ p.classes, (c.methods.map (·.name)).Nodup
  funcs : (p.funcs.map (·.name)).Nodup
  globals : p.globalNames.Nodup
  /-- The parameters of each function and method, with all that is declared anywhere in its body. -/
  slots : ∀ f ∈ p.bodies, f.slots.Nodup
  symbols : (Symbol.hostFunctions ++ p.symbols).Nodup

/-- What is declared anywhere in a well-typed body is new in it. -/
theorem slots_nodup {p : Program} {b : Body} {className : Option String} {f : FuncDef}
    (hf : f.Has p className b) (hb : b.WellTyped p) : f.slots.Nodup := by
  have hnames := hb.names
  rwa [hf.taken, hf.stmts] at hnames

theorem WellDeclared.globalNames_nodup {p : Program} (hp : p.WellDeclared) {r : Registry}
    (hr : r.Describes p) {s : Scope}
    (h : Stmt.Leads (Stmt.checkBody · p.stmts) r.topLevel s) : p.globalNames.Nodup := by
  have hdecides := Stmt.checkBody_decides (b := .main)
    (fun st (_ : st ∈ p.stmts) => Stmt.check_decides hp st) []
  exact ((hdecides.accepts (hr.reflects_topLevel hp)).mp ⟨s, h⟩).2

theorem distinctNames_of_check {p t : Program} (h : p.check = .ok t) : p.DistinctNames := by
  obtain ⟨r, hreg, hfuncs, hclasses, s, hs⟩ := check_isOk.mp ⟨t, h⟩
  obtain ⟨hp, hr⟩ := Registry.ofProgram_eq_ok hreg
  constructor
  case classes => exact hp.classNames
  case fields => exact fun c hc => (hp.classes c hc).fieldNames
  case methods => exact fun c hc => hp.methodNames hc
  case funcs => exact hp.symbols.of_append_right.of_append_left
  case globals => exact hp.globalNames_nodup hr hs
  case slots =>
    intro f hf
    rcases List.mem_append.mp hf with hf | hf
    · have hbody := (FuncOf.check_isOk_iff hr hp (FuncOf.has_func f)).mp (hfuncs f hf)
      exact slots_nodup (FuncOf.has_func f) hbody
    · obtain ⟨c, hc, hm⟩ := List.mem_flatMap.mp hf
      have hbody := (ClassOf.check_isOk_iff hr hp hc).mp (hclasses c hc) f hm
      exact slots_nodup (FuncOf.has_method ((hp.classes c hc).methods f hm)) hbody
  case symbols => exact hp.symbols

/-- In an accepted program no two classes share a name, and neither do the fields of a class, its
methods, the functions, the global variables, or the parameters and variables of a function or
method, however deep they are declared. The module imports the functions of the host and defines,
apart from its own, just the functions and methods of the program, and no two of all these have the
same name, although two methods may well come out under one. -/
theorem check_distinctNames {p t : Program} (h : p.check = .ok t) :
    p.DistinctNames ∧
      (∀ o m, t.lower o = .ok m →
        (∀ x, m.importsFunc x = true ↔ x ∈ Symbol.hostFunctions) ∧
        m.functions.map (·.name) =
          (Builtin.all.filter t.uses).map Builtin.symbol ++ p.symbols ++ [Symbol.entry]) ∧
      ¬ Function.Injective2 Symbol.method := by
  refine ⟨distinctNames_of_check h, ?_, Symbol.method_not_injective⟩
  intro o m hm
  constructor
  · obtain ⟨funcs, entry, -, -, rfl⟩ := lower_eq_ok hm
    exact Module.importsFunc_iff rfl
  · rw [functionNames_of_lower hm, functionNames, (check_sameOutline h).symbols]

/-- Two methods and a function whose names in the module are alike, and variables of one name in
different places. -/
def lookalikes : Program :=
  let note : Note := ⟨default, none⟩
  let method (c m : String) : FuncDef :=
    { name := m, params := [⟨receiverName, .object c, default⟩], ret := .none, span := default
      body := [.declare ⟨"x", .int, .literal note (.number 1), default⟩] }
  { vars := [⟨"x", .int, .number 1, default⟩]
    funcs := [{
      name := "a_b", params := [⟨"x", .int, default⟩], ret := .none, span := default
      body := [.loop default (.literal note (.bool false))
        [.declare ⟨"y", .int, .name note (.plain "x"), default⟩]] }]
    classes := [⟨"b_c", [⟨"x", .int, .number 2, default⟩], [method "b_c" "a"], default⟩,
      ⟨"c", [], [method "c" "a_d", method "c" "a"], default⟩]
    stmts := [.branch default (.literal note (.bool true))
      [.declare ⟨"y", .int, .literal note (.number 3), default⟩] none none]
    ty := none }

theorem check_lookalikes :
    (∃ t, lookalikes.check = .ok t) ∧
      lookalikes.symbols = ["a_b", "a_b_c", "a_d_c", "a_c"] ∧ lookalikes.symbols.Nodup ∧
      lookalikes.globalNames = ["x", "y"] ∧ lookalikes.globalNames.Nodup ∧
      ∀ f ∈ lookalikes.bodies, f.slots.Nodup := by
  have hok : lookalikes.check.toOption.isSome = true := by decide +kernel
  cases ht : lookalikes.check with
  | error e => simp [ht, Except.toOption] at hok
  | ok t =>
    have hnames := (check_distinctNames ht).1
    exact ⟨⟨t, rfl⟩, by decide +kernel, hnames.symbols.of_append_right, rfl, hnames.globals,
      hnames.slots⟩

end Program

end TypedScript
