import TypedScript.Proofs.Evaluation.Actions
import TypedScript.Proofs.Lowering.Validity

/-! # Calls on the machine

Evaluation looks definitions up in the program and the machine looks functions up in the module.
What they find belongs together, and a call goes into the body of one with the other. -/

namespace TypedScript

theorem find?_eq_some_of_nodup {α : Type} {name : α → String} {xs : List α} {x : α}
    (hn : (xs.map name).Nodup) (hx : x ∈ xs) : xs.find? (name · == name x) = some x := by
  rw [← List.head?_filter, filter_eq_singleton hn hx]
  rfl

theorem ClassLayout.index_field? (ds : List VarDef) (f : String) (i : Nat) :
    ((ds.mapIdx fun j d => FieldSlot.mk d.name (j + i) d.value).find? (·.name == f)).map
      FieldSlot.index = (ds.findIdx? (·.name == f)).map (· + i) := by
  induction ds generalizing i with
  | nil => rfl
  | cons d ds ih =>
    rw [List.mapIdx_cons, List.find?_cons, List.findIdx?_cons]
    by_cases hf : d.name = f
    · simp [hf]
    · have hshift := ih (i + 1)
      simp only [← Nat.add_assoc, Nat.add_right_comm _ i 1] at hshift
      simp only [beq_false_of_ne hf, hshift, Option.map_map, Function.comp_def, Bool.false_eq_true,
        if_false]

namespace Program.Elaborated

variable {p : Program} {f : Option FuncDef}

theorem class?_eq (hp : p.Elaborated) {c : ClassDef} (hc : c ∈ p.classes) :
    p.class? c.name = some c :=
  find?_eq_some_of_nodup hp.classNames hc

theorem function?_eq (hp : p.Elaborated) {g : FuncDef} (hg : g ∈ p.funcs) :
    p.function? g.name = some g := by
  have hnames : (p.funcs.map (·.name)).Nodup :=
    (List.nodup_append.mp (List.nodup_append.mp hp.symbols).2.1).1
  exact find?_eq_some_of_nodup hnames hg

theorem method?_eq (hp : p.Elaborated) {c : ClassDef} (hc : c ∈ p.classes) {g : FuncDef}
    (hg : g ∈ c.methods) : p.method? c.name g.name = some g := by
  have hsymbols : (c.methods.map fun m => Symbol.method c.name m.name).Nodup := by
    have hall := (List.nodup_append.mp (List.nodup_append.mp hp.symbols).2.1).2.1
    exact (List.nodup_flatMap.mp hall).1 c hc
  have hnames : (c.methods.map (·.name)).Nodup := by
    have hmap : (c.methods.map fun m => Symbol.method c.name m.name) =
        (c.methods.map (·.name)).map (Symbol.method c.name) := by simp
    rw [hmap] at hsymbols
    exact hsymbols.of_map _
  rw [method?, hp.class?_eq hc]
  exact find?_eq_some_of_nodup hnames hg

/-- A function that is called by its name. -/
theorem find_function (hp : p.Elaborated) {x : String} {n : Nat}
    (h : (x, n) ∈ (p.vocabulary f).funcs) :
    ∃ g, p.function? x = some g ∧ (none, g) ∈ p.definitions ∧ g.symbol none = x ∧
      g.params.length = n := by
  obtain ⟨g, hg, heq⟩ := List.mem_map.mp h
  cases heq
  exact ⟨g, hp.function?_eq hg, List.mem_append_left _ (List.mem_map.mpr ⟨g, hg, rfl⟩), rfl, rfl⟩

/-- A method that is called on an object of its class. -/
theorem find_method (hp : p.Elaborated) {c x : String} {n : Nat}
    (h : (p.vocabulary f).HasMethod c x n) :
    ∃ g, p.method? c x = some g ∧ (some c, g) ∈ p.definitions ∧
      g.symbol (some c) = Symbol.method c x ∧ g.params.length = n := by
  obtain ⟨head, hhead, rfl, hx⟩ := h
  obtain ⟨d, hd, rfl⟩ := List.mem_map.mp hhead
  obtain ⟨g, hg, heq⟩ := List.mem_map.mp hx
  cases heq
  exact ⟨g, hp.method?_eq hd hg, List.mem_append_right _
    (List.mem_flatMap.mpr ⟨d, hd, List.mem_map.mpr ⟨g, hg, rfl⟩⟩), rfl, rfl⟩

/-- A class whose objects are constructed. -/
theorem find_class (hp : p.Elaborated) {c : String} (h : (p.vocabulary f).Constructs c) :
    ∃ d, p.class? c = some d ∧
      (Layouts.ofClasses p.classes).find? c = some (ClassLayout.ofClass d) := by
  obtain ⟨head, hhead, rfl, -⟩ := h
  obtain ⟨d, hd, rfl⟩ := List.mem_map.mp hhead
  exact ⟨d, hp.class?_eq hd, Layouts.find?_ofClasses hp.classNames hd⟩

/-- The constructor of a class, if it has one, takes the receiver alone. -/
theorem find_constructor (hp : p.Elaborated) {c : String} {d : ClassDef}
    (h : (p.vocabulary f).Constructs c) (hc : p.class? c = some d) :
    ((ClassLayout.ofClass d).hasConstructor = true ∧
      (p.vocabulary f).HasMethod c constructorName 1) ∨
    ((ClassLayout.ofClass d).hasConstructor = false ∧ p.method? c constructorName = none) := by
  obtain ⟨head, hhead, rfl, hone⟩ := h
  obtain ⟨d', hd', rfl⟩ := List.mem_map.mp hhead
  obtain rfl : d' = d := Option.some.inj ((hp.class?_eq hd').symm.trans hc)
  cases hk : (ClassLayout.ofClass d').hasConstructor with
  | true =>
    obtain ⟨g, hg, hname⟩ := List.any_eq_true.mp hk
    have hmem : constructorName ∈ (ClassOf.head d').methods.map (·.1) :=
      List.mem_map.mpr ⟨g.head, List.mem_map.mpr ⟨g, hg, rfl⟩, beq_iff_eq.mp hname⟩
    exact .inl ⟨rfl, _, hhead, rfl, hone hmem⟩
  | false =>
    refine .inr ⟨rfl, ?_⟩
    rw [method?, hc, Option.bind_some, List.find?_eq_none]
    exact List.any_eq_false.mp hk

/-- A field is where its layout has it. -/
theorem offset?_eq (hp : p.Elaborated) {c x : String} {l : ClassLayout} {slot : FieldSlot}
    (h : (p.vocabulary f).HasField c x) (hl : (Layouts.ofClasses p.classes).find? c = some l)
    (hs : l.field? x = some slot) : p.offset? c x = some (Int32.ofNat slot.offset) := by
  obtain ⟨head, hhead, rfl, -⟩ := h
  obtain ⟨d, hd, rfl⟩ := List.mem_map.mp hhead
  have hfound := Layouts.find?_ofClasses hp.classNames hd
  obtain rfl : ClassLayout.ofClass d = l := Option.some.inj (hfound.symm.trans hl)
  have hindex := ClassLayout.index_field? d.fields x 0
  simp only [Nat.add_zero, Option.map_id'] at hindex
  have hfield : (d.fields.mapIdx fun j d => FieldSlot.mk d.name j d.value).find? (·.name == x) =
      some slot := hs
  rw [hfield] at hindex
  rw [offset?, ClassOf.head, hp.class?_eq hd, Option.bind_some, ← hindex]
  rfl

end Program.Elaborated

namespace Emitted

variable {σ : Type} {m : Machine σ} {p : Program} {o : Options} {g : Func}

theorem function?_eq (h : Emitted p o m.module) (hg : g ∈ m.module.functions) :
    m.function? g.name = some g := by
  rw [m.function?_eq, h.filter_functions hg]
  rfl

theorem import?_eq_none (h : Emitted p o m.module) (hg : g ∈ m.module.functions) :
    m.import? g.name = none :=
  m.import?_eq_none (by simp [Module.importsHost, h.name_notMem_hostFunctions hg])

theorem import?_eq_some (h : Emitted p o m.module) (fn : HostFunction) :
    m.import? fn.name = some fn := by
  have hhost : fn.name ∈ Symbol.hostFunctions := by cases fn <;> decide
  rw [Machine.import?, (h.importsFunc_iff fn.name).mpr hhost, if_pos rfl]
  cases fn <;> decide

end Emitted

/-- Later entries do not look at the values of other names. -/
theorem Valuation.foldl_update_congr {g g' : Valuation} {x : String} (h : g x = g' x)
    (entries : List (String × Word)) :
    entries.foldl (fun l e => Function.update l e.1 e.2) g x =
      entries.foldl (fun l e => Function.update l e.1 e.2) g' x := by
  induction entries generalizing g g' with
  | nil => exact h
  | cons e rest ih =>
    refine ih ?_
    by_cases hx : x = e.1
    · simp [hx]
    · simp [hx, h]

/-- The values at the start of a body stand in the frame of its call. -/
theorem Valuation.ofList_agrees {g : Func} {f : FuncDef} {args : List Word}
    (hp : g.params = f.params.map (·.name))
    (hl : g.locals = Symbol.scratch :: f.declarations.map (·.name))
    (hn : args.length = f.params.length) (hs : Symbol.scratch ∉ f.slots) :
    (Valuation.ofList ((f.params.map (·.name)).zip args ++
      f.declarations.map fun d => (d.name, 0))).Agrees f.slots (Frame.enter g args).locals := by
  have hzip : ((f.params.map (·.name)).zip args).map (·.1) = f.params.map (·.name) :=
    List.map_fst_zip (by simp [hn])
  have hlocals : (Frame.enter g args).locals = Bindings.ofList ((f.params.map (·.name)).zip args ++
      (Symbol.scratch, 0) :: f.declarations.map fun d => (d.name, 0)) := by
    simp [Frame.enter, hp, hl, Function.comp_def]
  rw [hlocals]
  constructor
  · intro x hx
    have hne : x ≠ Symbol.scratch := by
      rintro rfl
      exact hs hx
    have hmem : x ∈ ((f.params.map (·.name)).zip args ++
        (Symbol.scratch, 0) :: f.declarations.map fun d => (d.name, (0 : Word))).map (·.1) := by
      rw [List.map_append, hzip, List.map_cons, List.map_map]
      rcases List.mem_append.mp hx with hx | hx
      · exact List.mem_append_left _ hx
      · exact List.mem_append_right _ (List.mem_cons_of_mem _ hx)
    rw [Bindings.ofList, Bindings.find?_foldl_insert _ [] (fun _ => 0) (.inr hmem), ofList,
      List.foldl_append, List.foldl_append, List.foldl_cons]
    exact congrArg some (foldl_update_congr (Function.update_of_ne hne _ _) _)
  · rw [Bindings.contains_ofList]
    simp

section

variable {σ : Type} {m : Machine σ} {p : Program} {fuel : Nat} {k : Spot} {ls : Bindings Word}
  {st : List Word} {rest : List Instr} {s : Store σ} {w : World σ}

/-- A call goes as the body of the function goes. -/
theorem call_follows {x : String} {callee : Func} {args : List Word}
    {r : EStateM.Result Stop (World σ) Word} (hi : m.import? x = none)
    (hf : m.function? x = some callee) (hn : args.length = callee.params.length)
    (hc : callee.hasResult = true)
    (h : ∀ room, Follows m p fuel
      (.next ((k.called ls st rest callee room).state (Frame.enter callee args).locals []
        callee.body s)) r (Returned p (k.called ls st rest callee room))) :
    Follows m p (fuel + 1) (.next (k.state ls (args.reverse ++ st) (.call x :: rest) s)) r
      (Pushed p k ls st rest) := by
  cases hr : k.room with
  | zero =>
    -- no call can be opened, whatever the callee would do
    left
    refine ⟨1, s, ?_⟩
    rw [Machine.runFrom, Machine.step_call_exhausted hi hf hn hr]
    rfl
  | succ room =>
    refine .step_succ (Machine.step_call_enter hi hf hn hr) ((h room).imp ?_)
    rintro v w' _ ⟨ls', st', s', hw', rfl⟩
    exact ⟨_, .step (Machine.step_done hc hr), s', hw', rfl⟩

theorem builtin_follows {o : Options} (h : Emitted p o m.module) {b : Builtin} {args : List Word}
    {v : Word} (hu : p.uses b = true) (hn : args.length = b.params.length)
    (hb : ∀ k : Spot, k.outer = [] → ∃ ls, m.Reaches
      (.next (k.state (Frame.enter b.func args).locals [] b.func.body s))
      (.next (k.done ls [v] s))) (hw : w.Agrees p s) :
    Follows m p (fuel + 1) (.next (k.state ls (args.reverse ++ st) (.call b.symbol :: rest) s))
      (.ok v w) (Pushed p k ls st rest) := by
  have hmem := h.builtins b hu
  refine call_follows (h.import?_eq_none hmem) (h.function?_eq hmem) hn rfl fun room => ?_
  obtain ⟨ls', hreach⟩ := hb (k.called ls st rest b.func room) rfl
  exact .reaches hreach (.done ⟨ls', [], s, hw, rfl⟩)

end

end TypedScript
