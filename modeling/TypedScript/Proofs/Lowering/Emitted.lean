import TypedScript.Compile
import TypedScript.Proofs.Code.Validation
import TypedScript.Proofs.Lowering.Inversion
import TypedScript.Proofs.Typing.Elaboration
import Mathlib.Data.List.Perm.Basic

/-! # Emitted modules

What stands in the module of a program: each definition has its function, and each name calls one
function only. -/

namespace TypedScript

theorem filter_eq_singleton {α : Type} {name : α → String} {xs : List α} {x : α}
    (hn : (xs.map name).Nodup) (hx : x ∈ xs) : xs.filter (name · == name x) = [x] := by
  induction xs with
  | nil => simp at hx
  | cons y rest ih =>
    rw [List.map_cons, List.nodup_cons] at hn
    rcases List.mem_cons.mp hx with rfl | hx
    · have hrest : rest.filter (name · == name x) = [] := by
        rw [List.filter_eq_nil_iff]
        intro y hy heq
        exact hn.1 (List.mem_map.mpr ⟨y, hy, beq_iff_eq.mp heq⟩)
      simp [hrest]
    · have hne : name y ≠ name x := fun heq => hn.1 (List.mem_map.mpr ⟨x, hx, heq.symm⟩)
      rw [List.filter_cons_of_neg (by simpa using hne)]
      exact ih hn.2 hx

theorem Module.importsFunc_iff {m : Module} {o : Options} (h : m.imports = o.imports) (x : String) :
    m.importsFunc x = true ↔ x ∈ Symbol.hostFunctions := by
  simp [importsFunc, h, Options.imports]

namespace Program

theorem compile_eq_ok_iff {p : Program} {o : Options} {m : Module} :
    p.compile o = .ok m ↔ ∃ t, p.check = .ok t ∧ t.lower o = .ok m := by
  simp only [compile, bind_eq_ok]
  constructor
  · rintro ⟨t, ht, hm⟩
    exact ⟨t, mapError_eq_ok.mp ht, mapError_eq_ok.mp hm⟩
  · rintro ⟨t, ht, hm⟩
    exact ⟨t, mapError_eq_ok.mpr ht, mapError_eq_ok.mpr hm⟩

def functionNames (p : Program) : List String :=
  (Builtin.all.filter p.uses).map Builtin.symbol ++ p.symbols ++ [Symbol.entry]

def initialGlobals (p : Program) (o : Options) : List (String × Word) :=
  p.vars.map (fun d => (d.name, o.initial d.ty)) ++
    (Stmt.bodyDeclarations p.stmts).map fun d => (d.name, o.initial d.ty)

theorem initialGlobals_names (p : Program) (o : Options) :
    (p.initialGlobals o).map (·.1) = p.globalNames := by
  simp [initialGlobals, globalNames, Function.comp_def]

theorem exists_ty_of_mem_initialGlobals {p : Program} {o : Options} {g : String × Word}
    (h : g ∈ p.initialGlobals o) : ∃ ty, g.2 = o.initial ty := by
  rcases List.mem_append.mp h with h | h
  · obtain ⟨d, -, rfl⟩ := List.mem_map.mp h
    exact ⟨d.ty, rfl⟩
  · obtain ⟨d, -, rfl⟩ := List.mem_map.mp h
    exact ⟨d.ty, rfl⟩

theorem symbols_eq (p : Program) : p.symbols = p.definitions.map fun d => d.2.symbol d.1 := by
  simp [symbols, definitions, List.map_flatMap, Function.comp_def, FuncOf.symbol]

theorem lowered_names {p : Program} {layouts : Layouts} {funcs : List Func}
    (h : p.definitions.mapM (fun d => FuncOf.lower layouts d.1 d.2) = .ok funcs) :
    funcs.map (·.name) = p.symbols := by
  rw [p.symbols_eq]
  refine mapM_ok_map h fun d _ g hg => ?_
  obtain ⟨body, -, rfl⟩ := FuncOf.lower_eq_ok_iff.mp hg
  rfl

/-- The functions that are emitted have these names. -/
theorem functionNames_of_lower {p : Program} {o : Options} {m : Module} (h : p.lower o = .ok m) :
    m.functions.map (·.name) = p.functionNames := by
  obtain ⟨funcs, entry, hf, he, rfl⟩ := lower_eq_ok h
  have hentry : entry.name = Symbol.entry := by
    obtain ⟨body, -, rfl⟩ := lowerEntry_eq_ok_iff.mp he
    rfl
  simp [Builtin.funcs, functionNames, lowered_names hf, hentry, Builtin.func]

theorem Dotless.symbols {p : Program} (hd : p.Dotless) : ∀ x ∈ p.symbols, '.' ∉ x.toList := by
  intro x hx
  have hbody : ∀ f ∈ p.bodies, '.' ∉ f.name.toList := fun f hf =>
    hd f.name (List.mem_append_right _ (List.mem_flatMap.mpr ⟨f, hf, List.mem_cons_self⟩))
  rcases List.mem_append.mp hx with hx | hx
  · obtain ⟨f, hf, rfl⟩ := List.mem_map.mp hx
    exact hbody f (List.mem_append_left _ hf)
  · obtain ⟨c, hc, hx⟩ := List.mem_flatMap.mp hx
    obtain ⟨f, hf, rfl⟩ := List.mem_map.mp hx
    have hfn := hbody f (List.mem_append_right _ (List.mem_flatMap.mpr ⟨c, hc, hf⟩))
    have hcn := hd c.name
      (List.mem_append_left _ (List.mem_append_right _ (List.mem_map.mpr ⟨c, hc, rfl⟩)))
    simp [Symbol.method, hfn, hcn]

/-- The module's own functions have dots in their names, and so they are no function of the
program. -/
theorem Elaborated.functionNames_nodup {p : Program} (hp : p.Elaborated) (hd : p.Dotless) :
    (Symbol.hostFunctions ++ p.functionNames).Nodup := by
  have hown : ∀ x ∈ Builtin.all.map Builtin.symbol ++ [Symbol.entry], '.' ∈ x.toList := by decide
  have hhost : ∀ x ∈ Symbol.hostFunctions, '.' ∉ x.toList := by decide
  have hsub : ((Builtin.all.filter p.uses).map Builtin.symbol ++ [Symbol.entry]).Sublist
      (Builtin.all.map Builtin.symbol ++ [Symbol.entry]) :=
    (List.filter_sublist.map _).append (List.Sublist.refl _)
  have hperm : (Symbol.hostFunctions ++ p.functionNames).Perm
      ((Symbol.hostFunctions ++ p.symbols) ++
        ((Builtin.all.filter p.uses).map Builtin.symbol ++ [Symbol.entry])) := by
    rw [List.perm_iff_count]
    intro a
    simp only [functionNames, List.count_append]
    omega
  rw [hperm.nodup_iff, List.nodup_append]
  refine ⟨hp.symbols, List.Nodup.sublist hsub (by decide), ?_⟩
  rintro x hx _ hy rfl
  have hdot := hown x (hsub.subset hy)
  rcases List.mem_append.mp hx with hx | hx
  · exact hhost x hx hdot
  · exact hd.symbols x hx hdot

end Program

/-- The module of a program, as far as calls can tell. -/
structure Emitted (p : Program) (o : Options) (m : Module) : Prop where
  imports : m.imports = o.imports
  globals : m.globals = p.globals o
  names : (Symbol.hostFunctions ++ m.functions.map (·.name)).Nodup
  builtins : ∀ b, p.uses b = true → b.func ∈ m.functions
  definitions : ∀ d ∈ p.definitions, ∃ g ∈ m.functions,
    FuncOf.lower (Layouts.ofClasses p.classes) d.1 d.2 = .ok g
  entry : ∃ g ∈ m.functions, p.lowerEntry (Layouts.ofClasses p.classes) o = .ok g
  cases : ∀ g ∈ m.functions, (∃ b, p.uses b = true ∧ g = b.func) ∨
    (∃ d ∈ p.definitions, FuncOf.lower (Layouts.ofClasses p.classes) d.1 d.2 = .ok g) ∨
      p.lowerEntry (Layouts.ofClasses p.classes) o = .ok g

theorem Program.Elaborated.emitted {p : Program} {o : Options} {m : Module} (hp : p.Elaborated)
    (hd : p.Dotless) (h : p.lower o = .ok m) : Emitted p o m := by
  have hnames := Program.functionNames_of_lower h
  obtain ⟨funcs, entry, hf, he, rfl⟩ := Program.lower_eq_ok h
  refine ⟨rfl, rfl, ?_, ?_, ?_, ⟨entry, by simp, he⟩, ?_⟩
  · rw [hnames]
    exact hp.functionNames_nodup hd
  · intro b hb
    have hmem : b ∈ Builtin.all.filter p.uses := by
      rw [List.mem_filter]
      exact ⟨by cases b <;> decide, hb⟩
    simp only [List.mem_append]
    exact .inl (.inl (List.mem_map.mpr ⟨b, hmem, rfl⟩))
  · intro d hd
    obtain ⟨g, hg, hlower⟩ := mapM_ok_mem_source hf hd
    exact ⟨g, by simp [hg], hlower⟩
  · intro g hg
    simp only [List.mem_append, List.mem_singleton] at hg
    rcases hg with (hg | hg) | rfl
    · obtain ⟨b, hb, rfl⟩ := List.mem_map.mp hg
      exact .inl ⟨b, (List.mem_filter.mp hb).2, rfl⟩
    · exact .inr (.inl (mapM_ok_mem hf hg))
    · exact .inr (.inr he)

namespace Emitted

variable {p : Program} {o : Options} {m : Module}

theorem initial_globals {σ : Type} (h : Emitted p o m) (c : Config) (s : σ) :
    (Store.initial m c s).globals =
      Bindings.ofList ((Symbol.heapPointer, o.heapBase) :: p.initialGlobals o) := by
  simp [Store.initial, h.globals, Program.globals, Program.initialGlobals, Function.comp_def]

theorem importsFunc_iff (h : Emitted p o m) (x : String) :
    m.importsFunc x = true ↔ x ∈ Symbol.hostFunctions :=
  Module.importsFunc_iff h.imports x

theorem name_notMem_hostFunctions (h : Emitted p o m) {g : Func} (hg : g ∈ m.functions) :
    g.name ∉ Symbol.hostFunctions := by
  intro hhost
  have hdisjoint := (List.nodup_append.mp h.names).2.2
  exact hdisjoint g.name hhost g.name (List.mem_map.mpr ⟨g, hg, rfl⟩) rfl

theorem filter_functions (h : Emitted p o m) {g : Func} (hg : g ∈ m.functions) :
    m.functions.filter (·.name == g.name) = [g] :=
  filter_eq_singleton (List.nodup_append.mp h.names).2.1 hg

theorem arity_host (h : Emitted p o m) {x : String} (hx : x ∈ Symbol.hostFunctions) :
    m.arity? x = some (1, 1) := by
  simp [Module.arity?, Module.importsHost, (h.importsFunc_iff x).mpr hx, hx]

theorem arity_function (h : Emitted p o m) {g : Func} (hg : g ∈ m.functions) :
    m.arity? g.name = some (g.params.length, g.results) := by
  simp [Module.arity?, Module.importsHost, h.name_notMem_hostFunctions hg, h.filter_functions hg]

end Emitted

end TypedScript
