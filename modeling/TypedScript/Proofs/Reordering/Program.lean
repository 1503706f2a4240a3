import TypedScript.Proofs.Lowering.Emitted
import TypedScript.Proofs.Machine.Step
import TypedScript.Proofs.Reordering.Emission
import TypedScript.Proofs.Typing.Registry
import TypedScript.Proofs.Typing.Widening
import Mathlib.Data.List.Perm.Basic

/-! # Programs with their definitions in another order

Functions and classes may stand in any order. Main result: a program and any rearrangement of it are
accepted alike, their elaborations and modules are rearrangements of each other, and the modules run
alike on every host. -/

namespace TypedScript

/-- A permutation of `n` places: for each place of the new order the place it is filled from. -/
structure Arrangement (n : Nat) where
  places : List Nat
  perm : places.Perm (List.range n)

namespace Arrangement

variable {n : Nat} {α β : Type}

def apply (a : Arrangement n) (xs : List α) : List α := a.places.filterMap (xs[·]?)

theorem forall₂_range (xs : List α) :
    List.Forall₂ (fun x i => xs[i]? = some x) xs (List.range xs.length) := by
  rw [List.forall₂_iff_get]
  exact ⟨by simp, by simp⟩

theorem filterMap_places {xs ys : List α} {is : List Nat}
    (h : List.Forall₂ (fun x i => xs[i]? = some x) ys is) : is.filterMap (xs[·]?) = ys := by
  induction h with
  | nil => rfl
  | cons hx _ ih => rw [List.filterMap_cons, hx, ih]

theorem apply_perm (a : Arrangement n) {xs : List α} (h : xs.length = n) :
    (a.apply xs).Perm xs := by
  subst h
  have hperm := a.perm.filterMap (xs[·]?)
  rwa [filterMap_places (forall₂_range xs)] at hperm

/-- Lists that belong together place by place still do after both are arranged. -/
theorem forall₂_apply (a : Arrangement n) {R : α → β → Prop} {xs : List α} {ys : List β}
    (h : List.Forall₂ R xs ys) : List.Forall₂ R (a.apply xs) (a.apply ys) := by
  obtain ⟨hlength, hget⟩ := List.forall₂_iff_get.mp h
  unfold apply
  induction a.places with
  | nil => exact .nil
  | cons i rest ih =>
    by_cases hi : i < xs.length
    · have hi' : i < ys.length := hlength ▸ hi
      simp only [List.filterMap_cons, List.getElem?_eq_getElem hi, List.getElem?_eq_getElem hi']
      exact .cons (hget i hi hi') ih
    · have hi' : ¬ i < ys.length := hlength ▸ hi
      simp only [List.filterMap_cons, List.getElem?_eq_none (Nat.le_of_not_lt hi),
        List.getElem?_eq_none (Nat.le_of_not_lt hi')]
      exact ih

theorem mapM_apply {ε : Type} (a : Arrangement n) {f : α → Except ε β} {xs : List α} {ys : List β}
    (h : xs.mapM f = .ok ys) : (a.apply xs).mapM f = .ok (a.apply ys) :=
  mapM_of_forall₂ (a.forall₂_apply (mapM_ok h))

/-- Every permutation of a list is an arrangement of it. -/
theorem exists_apply_eq {xs ys : List α} (h : ys.Perm xs) :
    ∃ a : Arrangement xs.length, a.apply xs = ys := by
  obtain ⟨is, hplaces, hperm⟩ := List.perm_comp_forall₂ h (forall₂_range xs)
  exact ⟨⟨is, hperm⟩, filterMap_places hplaces⟩

end Arrangement

namespace Program

def reorder {m n : Nat} (p : Program) (cs : Arrangement m) (fs : Arrangement n) : Program :=
  { p with classes := cs.apply p.classes, funcs := fs.apply p.funcs }

/-- The second program has the definitions of the first in another order. -/
structure Rearranged (p p' : Program) : Prop where
  classes : p'.classes.Perm p.classes
  funcs : p'.funcs.Perm p.funcs
  vars : p'.vars = p.vars
  stmts : p'.stmts = p.stmts

theorem reorder_rearranged {p : Program} {m n : Nat} (cs : Arrangement m) (fs : Arrangement n)
    (hc : p.classes.length = m) (hf : p.funcs.length = n) : p.Rearranged (p.reorder cs fs) :=
  ⟨cs.apply_perm hc, fs.apply_perm hf, rfl, rfl⟩

namespace Rearranged

variable {p p' : Program}

theorem symbols (h : p.Rearranged p') : p'.symbols.Perm p.symbols :=
  (h.funcs.map _).append (h.classes.flatMap_right _)

theorem definitions (h : p.Rearranged p') : p'.definitions.Perm p.definitions :=
  (h.funcs.map _).append (h.classes.flatMap_right _)

theorem uses (h : p.Rearranged p') : p'.uses = p.uses := by
  have hbodies : p'.bodies.Perm p.bodies := h.funcs.append (h.classes.flatMap_right _)
  funext b
  rw [Bool.eq_iff_iff]
  simp only [Program.uses, parts, List.any_eq_true, List.mem_append, List.mem_flatMap, h.stmts,
    hbodies.mem_iff]

theorem known (h : p.Rearranged p') {ty : Ty} (hk : ty.Known p) : ty.Known p' := by
  intro c hc
  rw [(h.classes.map _).mem_iff]
  exact hk c hc

theorem varDef_wellTyped (h : p.Rearranged p') {d : VarDef} (hd : d.WellTyped p) :
    d.WellTyped p' :=
  ⟨h.known hd.known, hd.value⟩

theorem wellDeclared (h : p.Rearranged p') (hp : p.WellDeclared) : p'.WellDeclared where
  classNames := (h.classes.map _).nodup_iff.mpr hp.classNames
  symbols := (h.symbols.append_left _).nodup_iff.mpr hp.symbols
  varNames := h.vars ▸ hp.varNames
  classes := by
    intro c hc
    have hclass := hp.classes c (h.classes.mem_iff.mp hc)
    refine ⟨hclass.fieldNames, fun d hd => h.varDef_wellTyped (hclass.fields d hd), ?_⟩
    intro m hm
    have hmethod := hclass.methods m hm
    exact ⟨hmethod.receiver, fun q hq => h.known (hmethod.params q hq), h.known hmethod.ret,
      hmethod.constructor⟩
  funcs := by
    intro f hf
    have hfunc := hp.funcs f (h.funcs.mem_iff.mp hf)
    exact ⟨fun q hq => h.known (hfunc.params q hq), h.known hfunc.ret⟩
  vars := by
    intro d hd
    exact h.varDef_wellTyped (hp.vars d (h.vars ▸ hd))

theorem registries (h : p.Rearranged p') {r r' : Registry} (hr : r.Describes p)
    (hr' : r'.Describes p') : r.Alike r' := by
  constructor
  · refine .of_find?_iff fun x info => ?_
    rw [hr.classes, hr'.classes]
    simp only [h.classes.mem_iff]
  · refine .of_find?_iff fun x sig => ?_
    rw [hr.funcs, hr'.funcs]
    simp only [h.funcs.mem_iff]
  · refine .of_find?_iff fun x ty => ?_
    rw [hr.vars, hr'.vars, h.vars]

theorem registry (h : p.Rearranged p') {r : Registry} (hr : Registry.ofProgram p = .ok r) :
    ∃ r', Registry.ofProgram p' = .ok r' ∧ r.Alike r' := by
  obtain ⟨hp, hdescribes⟩ := Registry.ofProgram_eq_ok hr
  obtain ⟨r', hr'⟩ := Registry.ofProgram_total (h.wellDeclared hp)
  exact ⟨r', hr', h.registries hdescribes (Registry.ofProgram_eq_ok hr').2⟩

end Rearranged

/-- The elaboration of a rearranged program is the elaboration, rearranged. -/
theorem check_reorder {p t : Program} {m n : Nat} (cs : Arrangement m) (fs : Arrangement n)
    (hc : p.classes.length = m) (hf : p.funcs.length = n) (h : p.check = .ok t) :
    (p.reorder cs fs).check = .ok (t.reorder cs fs) := by
  simp only [check, bind_eq_ok, pure_eq_ok, Except.ok.injEq] at h
  obtain ⟨r, hr, funcs, hfuncs, classes, hclasses, ⟨s, stmts⟩, hstmts, rfl⟩ := h
  obtain ⟨r', hr', halike⟩ := (reorder_rearranged cs fs hc hf).registry hr
  obtain ⟨s', hstmts', -⟩ := halike.statements p.stmts s stmts hstmts
  have hfuncs' := Checked.Within.mapM (halike.wider.func_check none) p.funcs funcs hfuncs
  have hclasses' := Checked.Within.mapM halike.wider.class_check p.classes classes hclasses
  simp only [check, bind_eq_ok, pure_eq_ok, Except.ok.injEq]
  exact ⟨r', hr', _, fs.mapM_apply hfuncs', _, cs.mapM_apply hclasses', (s', stmts), hstmts', rfl⟩

/-- What has been rearranged can be put back. -/
theorem exists_reorder_reorder (p : Program) (cs : Arrangement p.classes.length)
    (fs : Arrangement p.funcs.length) :
    ∃ (cs' : Arrangement (p.reorder cs fs).classes.length)
      (fs' : Arrangement (p.reorder cs fs).funcs.length),
      (p.reorder cs fs).reorder cs' fs' = p := by
  have h := reorder_rearranged cs fs rfl rfl
  obtain ⟨cs', hc⟩ := Arrangement.exists_apply_eq h.classes.symm
  obtain ⟨fs', hf⟩ := Arrangement.exists_apply_eq h.funcs.symm
  refine ⟨cs', fs', ?_⟩
  rw [reorder, hc, hf]
  rfl

theorem Rearranged.layouts {p p' : Program} (h : p.Rearranged p')
    (hn : (p.classes.map (·.name)).Nodup) :
    Bindings.Agree (Layouts.ofClasses p.classes) (Layouts.ofClasses p'.classes) := by
  have hnames : ∀ cs : List ClassDef,
      (cs.map fun c => (c.name, ClassLayout.ofClass c)).map (·.1) = cs.map (·.name) := by
    intro cs
    rw [List.map_map]
    rfl
  refine .of_find?_iff fun x l => ?_
  rw [Layouts.ofClasses, Layouts.ofClasses, Bindings.find?_ofList_iff, Bindings.find?_ofList_iff,
    (h.classes.map _).mem_iff]
  · rw [hnames]
    exact (h.classes.map _).nodup_iff.mpr hn
  · rw [hnames]
    exact hn

theorem lower_reorder {p : Program} {m n : Nat} {o : Options} {out : Module} (cs : Arrangement m)
    (fs : Arrangement n) (hc : p.classes.length = m) (hf : p.funcs.length = n)
    (hn : (p.classes.map (·.name)).Nodup) (h : p.lower o = .ok out) :
    ∃ out', (p.reorder cs fs).lower o = .ok out' := by
  have hagree := (reorder_rearranged cs fs hc hf).layouts hn
  simp only [lower, bind_eq_ok] at h ⊢
  obtain ⟨funcs, hfuncs, methods, hmethods, entry, hentry, -⟩ := h
  rw [FuncOf.lower_congr hagree] at hfuncs
  rw [ClassOf.lower_congr hagree] at hmethods
  have hentry' := (lowerEntry_congr hagree rfl rfl o).trans hentry
  exact ⟨_, _, fs.mapM_apply hfuncs, _, cs.mapM_apply hmethods, entry, hentry', rfl⟩

/-- The module of a rearranged program differs in the order of the functions that stand between the
built-ins and the entry. -/
theorem Rearranged.lower {p p' : Program} {o : Options} {m m' : Module} (h : p.Rearranged p')
    (hp : p.Elaborated) (hm : p.lower o = .ok m) (hm' : p'.lower o = .ok m') :
    ∃ funcs funcs' entry,
      m = ⟨o.imports, p.globals o, Builtin.funcs p.uses ++ funcs ++ [entry]⟩ ∧
      m' = ⟨o.imports, p.globals o, Builtin.funcs p.uses ++ funcs' ++ [entry]⟩ ∧
      funcs'.Perm funcs ∧ (funcs.map (·.name)).Nodup ∧ ∀ g ∈ funcs, g.exportName = none := by
  have hagree := h.layouts hp.classNames
  obtain ⟨funcs, entry, hfuncs, hentry, rfl⟩ := lower_eq_ok hm
  obtain ⟨funcs', entry', hfuncs', hentry', rfl⟩ := lower_eq_ok hm'
  rw [← FuncOf.lower_congr hagree] at hfuncs'
  rw [lowerEntry_congr hagree h.vars h.stmts, hentry] at hentry'
  obtain rfl := Except.ok.inj hentry'
  refine ⟨funcs, funcs', entry, rfl, ?_, mapM_ok_perm h.definitions hfuncs hfuncs', ?_, ?_⟩
  · rw [h.uses, globals, h.vars, h.stmts, globals]
  · rw [lowered_names hfuncs]
    exact (List.nodup_append.mp hp.symbols).2.1
  · intro g hg
    obtain ⟨d, -, hlower⟩ := mapM_ok_mem hfuncs hg
    obtain ⟨body, -, rfl⟩ := FuncOf.lower_eq_ok_iff.mp hlower
    rfl

end Program

theorem filter_name_of_perm {α : Type} {name : α → String} {xs ys : List α} (h : ys.Perm xs)
    (hn : (xs.map name).Nodup) (x : String) :
    ys.filter (name · == x) = xs.filter (name · == x) := by
  have hperm := h.filter (name · == x)
  by_cases hx : x ∈ xs.map name
  · obtain ⟨a, ha, rfl⟩ := List.mem_map.mp hx
    rw [filter_eq_singleton hn ha] at hperm ⊢
    exact List.perm_singleton.mp hperm
  · have hnone : xs.filter (name · == x) = [] := by
      rw [List.filter_eq_nil_iff]
      intro a ha heq
      exact hx (List.mem_map.mpr ⟨a, ha, beq_iff_eq.mp heq⟩)
    rw [hnone] at hperm ⊢
    exact hperm.eq_nil

namespace Module

variable {imports : List Import} {globals : List Global} {front funcs funcs' back : List Func}
  {σ : Type}

/-- Calls find the same functions, however those with names of their own are ordered. -/
theorem alike_of_perm (h : funcs'.Perm funcs) (hn : (funcs.map (·.name)).Nodup) (c : Config)
    (host : Host σ) :
    Machine.Alike (.ofModule ⟨imports, globals, front ++ funcs' ++ back⟩ c host)
      (.ofModule ⟨imports, globals, front ++ funcs ++ back⟩ c host) := by
  refine ⟨rfl, rfl, fun _ => rfl, fun x => ?_⟩
  rw [Machine.function?_eq, Machine.function?_eq]
  simp only [Machine.ofModule, List.filter_append, filter_name_of_perm h hn x]

theorem run_of_perm (h : funcs'.Perm funcs) (hn : (funcs.map (·.name)).Nodup)
    (he : ∀ g ∈ funcs, g.exportName = none) (fuel : Nat) (o : Options) (host : Host σ) (s : σ)
    (c : Config) :
    run ⟨imports, globals, front ++ funcs' ++ back⟩ fuel o host s c =
      run ⟨imports, globals, front ++ funcs ++ back⟩ fuel o host s c := by
  have hexports : ∀ fs : List Func, (∀ g ∈ fs, g.exportName = none) →
      fs.filter (·.exportName == some o.entryExport) = [] := by
    intro fs hfs
    rw [List.filter_eq_nil_iff]
    intro g hg
    simp [hfs g hg]
  have he' : ∀ g ∈ funcs', g.exportName = none := fun g hg => he g (h.mem_iff.mp hg)
  apply (alike_of_perm h hn c host).run
  rw [Machine.export?_eq, Machine.export?_eq]
  simp only [Machine.ofModule, List.filter_append, hexports funcs he, hexports funcs' he']

end Module

namespace Program

theorem check_reorder_iff {p t' : Program} (cs : Arrangement p.classes.length)
    (fs : Arrangement p.funcs.length) :
    (p.reorder cs fs).check = .ok t' ↔ ∃ t, p.check = .ok t ∧ t' = t.reorder cs fs := by
  constructor
  · intro h'
    obtain ⟨cs', fs', hback⟩ := p.exists_reorder_reorder cs fs
    have h := check_reorder cs' fs' rfl rfl h'
    rw [hback] at h
    exact ⟨_, h, Except.ok.inj (h'.symm.trans (check_reorder cs fs rfl rfl h))⟩
  · rintro ⟨t, h, rfl⟩
    exact check_reorder cs fs rfl rfl h

theorem check_length {p t : Program} (h : p.check = .ok t) :
    t.classes.length = p.classes.length ∧ t.funcs.length = p.funcs.length := by
  have same := check_sameOutline h
  have hc := congrArg List.length same.classes
  have hf := congrArg List.length same.funcs
  rw [List.length_map, List.length_map] at hc hf
  exact ⟨hc, hf⟩

theorem compile_reorder_isOk {p : Program} {o : Options} {m : Module}
    (cs : Arrangement p.classes.length) (fs : Arrangement p.funcs.length)
    (h : p.compile o = .ok m) : ∃ m', (p.reorder cs fs).compile o = .ok m' := by
  obtain ⟨t, ht, hm⟩ := compile_eq_ok_iff.mp h
  obtain ⟨hc, hf⟩ := check_length ht
  obtain ⟨m', hm'⟩ := lower_reorder cs fs hc hf (check_elaborated ht).classNames hm
  exact ⟨m', compile_eq_ok_iff.mpr ⟨_, check_reorder cs fs rfl rfl ht, hm'⟩⟩

/-- The order of the definitions does not matter: a program is accepted in every order or in none,
its elaboration and the functions of its module are rearranged along with it, and what a run gives
back, prints, asks of its host and leaves in its store is the same. -/
theorem compile_reorder (p : Program) (cs : Arrangement p.classes.length)
    (fs : Arrangement p.funcs.length) :
    (∀ t', (p.reorder cs fs).check = .ok t' ↔ ∃ t, p.check = .ok t ∧ t' = t.reorder cs fs) ∧
    ∀ o, ((∃ m', (p.reorder cs fs).compile o = .ok m') ↔ ∃ m, p.compile o = .ok m) ∧
      ∀ m m', p.compile o = .ok m → (p.reorder cs fs).compile o = .ok m' →
        m'.imports = m.imports ∧ m'.globals = m.globals ∧ m'.functions.Perm m.functions ∧
        ∀ (σ : Type) (fuel : Nat) (host : Host σ) (s : σ) (c : Config),
          m'.run fuel o host s c = m.run fuel o host s c := by
  refine ⟨fun t' => check_reorder_iff cs fs, fun o => ⟨⟨?_, ?_⟩, ?_⟩⟩
  · rintro ⟨m', hm'⟩
    obtain ⟨cs', fs', hback⟩ := p.exists_reorder_reorder cs fs
    have h := compile_reorder_isOk cs' fs' hm'
    rwa [hback] at h
  · rintro ⟨m, hm⟩
    exact compile_reorder_isOk cs fs hm
  · intro m m' hm hm'
    obtain ⟨t, ht, hlower⟩ := compile_eq_ok_iff.mp hm
    obtain ⟨t', ht', hlower'⟩ := compile_eq_ok_iff.mp hm'
    obtain rfl := Except.ok.inj (ht'.symm.trans (check_reorder cs fs rfl rfl ht))
    obtain ⟨hc, hf⟩ := check_length ht
    obtain ⟨funcs, funcs', entry, rfl, rfl, hperm, hnames, hexports⟩ :=
      (reorder_rearranged cs fs hc hf).lower (check_elaborated ht) hlower hlower'
    refine ⟨rfl, rfl, (hperm.append_left _).append_right _, ?_⟩
    intro σ fuel host s c
    exact Module.run_of_perm hperm hnames hexports fuel o host s c

def forwardReferences : Program :=
  let note : Note := ⟨default, none⟩
  { vars := []
    funcs := [
      { name := "first", params := [], ret := .int, span := default
        body := [.ret default (.call note "second" [])] },
      { name := "second", params := [], ret := .int, span := default
        body := [.ret default (.literal note (.number 2))] }]
    classes := [
      { name := "Outer", fields := [⟨"inner", .object "Inner", .none, default⟩], methods := []
        span := default },
      { name := "Inner", fields := [⟨"value", .int, .number 1, default⟩], methods := []
        span := default }]
    stmts := [.expr (.print note [.call note "first" []])]
    ty := none }

theorem compile_reorder_forwardReferences :
    ∃ (swap : Arrangement 2) (m m' : Module), forwardReferences.compile {} = .ok m ∧
      (forwardReferences.reorder swap swap).compile {} = .ok m' ∧ m'.functions.Perm m.functions ∧
      m.functions.map (·.name) = ["first", "second", Symbol.entry] ∧
      m'.functions.map (·.name) = ["second", "first", Symbol.entry] ∧
      m'.run 100 {} Recording.host .empty {} = m.run 100 {} Recording.host .empty {} := by
  let swap : Arrangement 2 := ⟨[1, 0], by decide⟩
  have hnames : (forwardReferences.compile {}).toOption.map (fun m => m.functions.map (·.name)) =
      some ["first", "second", Symbol.entry] := by
    decide +kernel
  have hnames' : ((forwardReferences.reorder swap swap).compile {}).toOption.map
      (fun m => m.functions.map (·.name)) = some ["second", "first", Symbol.entry] := by
    decide +kernel
  obtain ⟨-, hcompile⟩ := compile_reorder forwardReferences swap swap
  obtain ⟨haccepts, halike⟩ := hcompile {}
  cases hm : forwardReferences.compile {} with
  | error e => simp [hm, Except.toOption] at hnames
  | ok m =>
    obtain ⟨m', hm'⟩ : ∃ m', (forwardReferences.reorder swap swap).compile {} = .ok m' :=
      haccepts.mpr ⟨m, hm⟩
    obtain ⟨-, -, hperm, hrun⟩ := halike m m' hm hm'
    rw [hm] at hnames
    rw [hm'] at hnames'
    exact ⟨swap, m, m', rfl, hm', hperm, Option.some.inj hnames, Option.some.inj hnames',
      hrun Recording 100 Recording.host .empty {}⟩

end Program

end TypedScript
