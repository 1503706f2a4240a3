import TypedScript.Proofs.Bindings
import TypedScript.Proofs.Faults
import TypedScript.Proofs.Typing.Rules
import Mathlib.Data.List.Nodup

/-! # What registration records

The definitions of a program are registered exactly if they fit together. The registry then knows
what they say: the members of the classes, the signatures of the functions, the types of the
variables, and that no symbol is taken twice. -/

namespace TypedScript

theorem Ty.accepts_iff {slot actual : Ty} : slot.accepts actual = true ↔ slot.Takes actual := by
  constructor
  · intro h
    simp only [Ty.accepts, Bool.or_eq_true, Bool.and_eq_true, beq_iff_eq] at h
    rcases h with rfl | ⟨ho, rfl⟩
    · exact .same
    · cases slot with
      | object c => exact .none
      | int => simp [Ty.isObject, Ty.className?] at ho
      | bool => simp [Ty.isObject, Ty.className?] at ho
      | none => simp [Ty.isObject, Ty.className?] at ho
  · intro h
    cases h with
    | same => simp [Ty.accepts]
    | none => rfl

theorem Literal.hasType_iff {l : Literal} {ty : Ty} : l.HasType ty ↔ ty = l.ty := by
  constructor
  · intro h
    cases h <;> rfl
  · rintro rfl
    cases l
    · exact .number
    · exact .bool
    · exact .none

theorem requireAccepts_eq_ok {slot actual : Ty} {context : String} {span : Span} {u : Unit} :
    requireAccepts slot actual context span = .ok u ↔ slot.Takes actual := by
  rw [← Ty.accepts_iff, requireAccepts]
  split
  · next h => simp [h]
  · next h => simp [h]

theorem VarDef.check_eq_ok {d : VarDef} {context : String} {u : Unit} :
    d.check context = .ok u ↔ ∃ ty, d.value.HasType ty ∧ d.ty.Takes ty := by
  rw [VarDef.check, requireAccepts_eq_ok]
  simp [Literal.hasType_iff]

/-- What comes next has a key that nothing before it has. -/
theorem notMem_of_nodup_map {α β : Type} {k : α → β} {xs done rest : List α} {a : α}
    (hn : (xs.map k).Nodup) (hx : xs = done ++ a :: rest) : k a ∉ done.map k := by
  rw [hx, List.map_append, List.nodup_append'] at hn
  exact fun hmem => hn.2.2 hmem (by simp)

namespace ClassInfo

def head (name : String) (c : ClassInfo) : ClassHead where
  name := name
  fields := c.fields.map (·.name)
  methods := c.methods.map fun m => (m.1, m.2.params.length)

theorem isSome_field? {c : ClassInfo} {x : String} :
    (c.field? x).isSome = true ↔ x ∈ c.fields.map (·.name) := by
  simp [field?, List.find?_isSome]

theorem isSome_method? {c : ClassInfo} {x : String} :
    (c.method? x).isSome = true ↔ x ∈ c.methods.map (·.1) :=
  Bindings.contains_iff_mem

end ClassInfo

namespace FuncOf

def signature (f : FuncDef) : Signature := ⟨f.params.map (·.ty), f.ret⟩

def signatureIn (c : String) (m : FuncDef) : Signature :=
  ⟨.object c :: m.params.tail.map (·.ty), m.ret⟩

end FuncOf

namespace ClassOf

def info (c : ClassDef) : ClassInfo where
  fields := c.fields.map fun d => ⟨d.name, d.ty, d.value⟩
  methods := c.methods.map fun m => (m.name, m.signatureIn c.name)

theorem fields_info (c : ClassDef) : c.info.fields.map (·.name) = c.fields.map (·.name) := by
  simp [info, Function.comp_def]

theorem methods_info (c : ClassDef) : c.info.methods.map (·.1) = c.methods.map (·.name) := by
  simp [info, Function.comp_def]

theorem head_info {c : ClassDef} (h : ∀ m ∈ c.methods, m.params ≠ []) :
    c.info.head c.name = c.head := by
  simp only [ClassInfo.head, fields_info, head, ClassHead.mk.injEq, true_and]
  simp only [info, List.map_map]
  refine List.map_congr_left fun m hm => ?_
  have hpos := List.length_pos_iff.mpr (h m hm)
  simp only [Function.comp_apply, FuncOf.signatureIn, FuncOf.head, List.length_cons,
    List.length_map, List.length_tail, Prod.mk.injEq, true_and]
  omega

end ClassOf

namespace Classes

theorem get_eq_ok {cs : Classes} {name : String} {span : Span} {info : ClassInfo} :
    cs.get name span = .ok info ↔ Bindings.find? cs name = some info := by
  unfold get
  split
  · next h => simp [h]
  · next h => simp [h, reject]

theorem addField_eq_ok {cs cs' : Classes} {c : String} {f : Field} {span : Span} :
    cs.addField c f span = .ok cs' ↔ ∃ info, Bindings.find? cs c = some info ∧
      f.name ∉ info.fields.map (·.name) ∧
      cs' = Bindings.insert cs c { info with fields := info.fields ++ [f] } := by
  simp only [addField, bind_eq_ok, get_eq_ok]
  refine exists_congr fun info => and_congr_right fun _ => ?_
  rw [← ClassInfo.isSome_field?]
  split
  · next h => simp [h]
  · next h => simp [h, eq_comm]

theorem addMethod_eq_ok {cs cs' : Classes} {c name : String} {sig : Signature} {span : Span} :
    cs.addMethod c name sig span = .ok cs' ↔ ∃ info, Bindings.find? cs c = some info ∧
      name ∉ info.methods.map (·.1) ∧
      cs' = Bindings.insert cs c { info with methods := info.methods ++ [(name, sig)] } := by
  simp only [addMethod, bind_eq_ok, get_eq_ok]
  refine exists_congr fun info => and_congr_right fun _ => ?_
  rw [← ClassInfo.isSome_method?]
  split
  · next h => simp [h]
  · next h => simp [h, eq_comm]

end Classes

namespace Registry

/-- The classes of the program, and no others, are known by their names. -/
def Knows (p : Program) (cs : Classes) : Prop :=
  ∀ x, Bindings.contains cs x = true ↔ x ∈ p.classes.map (·.name)

variable {p : Program}

theorem Knows.validate_eq_ok {cs : Classes} (hk : Knows p cs) {ty : Ty} {span : Span} {u : Unit} :
    cs.validate ty span = .ok u ↔ ty.Known p := by
  cases ty with
  | object c =>
    simp only [Classes.validate, Ty.Known, Ty.object.injEq, forall_eq', ← hk c]
    split
    · next h => simp [h]
    · next h => simp [h]
  | int => simp [Classes.validate, Ty.Known]
  | bool => simp [Classes.validate, Ty.Known]
  | none => simp [Classes.validate, Ty.Known]

/-- A class that is known already may be given other members. -/
theorem Knows.insert {cs : Classes} (hk : Knows p cs) {x : String}
    (h : Bindings.contains cs x = true) (info' : ClassInfo) :
    Knows p (Bindings.insert cs x info') := by
  intro y
  rw [Bindings.contains_insert, ← hk y]
  constructor
  · rintro (rfl | hy)
    · exact h
    · exact hy
  · exact .inr

theorem reserve_eq_ok {r r' : Registry} {name symbol : String} {span : Span} :
    r.reserve name symbol span = .ok r' ↔
      symbol ∉ r.symbols ∧ r' = { r with symbols := symbol :: r.symbols } := by
  rw [reserve]
  split
  · next h =>
    rw [List.contains_iff_mem] at h
    simp [h]
  · next h =>
    rw [List.contains_iff_mem] at h
    simp [h, eq_comm]

/-- A method takes its receiver first, and its signature has a type for every parameter. -/
theorem methodSignature_eq_ok {r : Registry} (hk : Knows p r.classes) {c : ClassDef} {m : FuncDef}
    {sig : Signature} :
    r.methodSignature c m = .ok sig ↔ m.WellDeclaredIn p c.name ∧ sig = m.signatureIn c.name := by
  rw [methodSignature]
  split
  · next hp =>
    constructor
    · intro h
      exact absurd h reject_ne_ok
    · rintro ⟨hm, -⟩
      obtain ⟨q, hq, -⟩ := hm.receiver
      simp [hp] at hq
  · next receiver params hp =>
    split
    · next hr =>
      constructor
      · intro h
        exact absurd h reject_ne_ok
      · rintro ⟨hm, -⟩
        obtain ⟨q, hq, hn⟩ := hm.receiver
        rw [hp, List.head?_cons, Option.some.injEq] at hq
        exact absurd (hq ▸ hn) hr
    · next hr =>
      split
      · next hc =>
        constructor
        · intro h
          exact absurd h reject_ne_ok
        · rintro ⟨hm, -⟩
          exact absurd (hm.constructor hc.1) hc.2
      · next hc =>
        simp only [bind_eq_ok, forM_eq_ok, hk.validate_eq_ok, pure_eq_ok, Except.ok.injEq]
        constructor
        · rintro ⟨-, hparams, -, hret, rfl⟩
          refine ⟨⟨⟨receiver, by rw [hp]; rfl, not_not.mp hr⟩, ?_, hret, ?_⟩, ?_⟩
          · rw [hp]
            exact hparams
          · intro hn
            by_contra hne
            exact hc ⟨hn, hne⟩
          · rw [FuncOf.signatureIn, hp]
            rfl
        · rintro ⟨hm, rfl⟩
          refine ⟨(), ?_, (), hm.ret, ?_⟩
          · simpa [hp] using hm.params
          · rw [FuncOf.signatureIn, hp]
            rfl

def setClass (r : Registry) (c : ClassDef) : Registry :=
  { r with classes := Bindings.insert r.classes c.name c.info }

/-- What adding the members of a class does to a registry that knows the class by its name alone. -/
structure Members (p : Program) (c : ClassDef) (r r' : Registry) : Prop where
  globals : r'.globals = r.globals
  others : ∀ x, x ≠ c.name → r'.classes.find? x = r.classes.find? x
  own : r'.classes.find? c.name = some c.info
  knows : Knows p r'.classes
  symbols : r'.symbols = (c.methods.map fun m => Symbol.method c.name m.name).reverse ++ r.symbols
  fresh : r'.symbols.Nodup
  declared : c.WellDeclared p

theorem Members.refl {c : ClassDef} {r : Registry} (hk : Knows p r.classes)
    (hc : r.classes.find? c.name = some .empty) (hs : r.symbols.Nodup) :
    Members p { c with fields := [], methods := [] } r r where
  globals := rfl
  others _ _ := rfl
  own := hc
  knows := hk
  symbols := rfl
  fresh := hs
  declared := ⟨by simp, by simp, by simp⟩

section

variable {c : ClassDef} {r r₁ r₂ : Registry} (hm : Members p c r r₁)
include hm

theorem Members.addField_iff {d : VarDef} :
    Registry.addField c r₁ d = .ok r₂ ↔ d.WellTyped p ∧ d.name ∉ c.fields.map (·.name) ∧
      r₂ = r₁.setClass { c with fields := c.fields ++ [d] } := by
  have hinfo : ClassOf.info { c with fields := c.fields ++ [d] } =
      { c.info with fields := c.info.fields ++ [⟨d.name, d.ty, d.value⟩] } := by
    simp [ClassOf.info]
  simp only [Registry.addField, bind_eq_ok, hm.knows.validate_eq_ok, VarDef.check_eq_ok,
    Classes.addField_eq_ok, hm.own, Option.some.injEq, exists_eq_left', pure_eq_ok,
    Except.ok.injEq, setClass, hinfo, c.fields_info]
  constructor
  · rintro ⟨-, hk, -, hv, _, ⟨hnew, rfl⟩, rfl⟩
    exact ⟨⟨hk, hv⟩, hnew, rfl⟩
  · rintro ⟨hd, hnew, rfl⟩
    exact ⟨(), hd.known, (), hd.value, _, ⟨hnew, rfl⟩, rfl⟩

theorem Members.addField {d : VarDef} (h : Registry.addField c r₁ d = .ok r₂) :
    Members p { c with fields := c.fields ++ [d] } r r₂ := by
  obtain ⟨hd, hnew, rfl⟩ := hm.addField_iff.mp h
  have hknown := Bindings.contains_iff.mpr ⟨_, hm.own⟩
  refine ⟨hm.globals, ?_, ?_, hm.knows.insert hknown _, hm.symbols, hm.fresh, ?_⟩
  · intro x hx
    exact (Bindings.find?_insert_of_ne r₁.classes _ hx).trans (hm.others x hx)
  · exact Bindings.find?_insert_self r₁.classes _ _
  · refine ⟨?_, ?_, hm.declared.methods⟩
    · rw [List.map_append, List.nodup_append']
      exact ⟨hm.declared.fieldNames, by simp, by simpa using hnew⟩
    · intro d' hd'
      rcases List.mem_append.mp hd' with hd' | hd'
      · exact hm.declared.fields d' hd'
      · rw [List.mem_singleton.mp hd']
        exact hd

theorem Members.addMethod_iff {m : FuncDef} :
    Registry.addMethod c r₁ m = .ok r₂ ↔ m.WellDeclaredIn p c.name ∧
      m.name ∉ c.methods.map (·.name) ∧ Symbol.method c.name m.name ∉ r₁.symbols ∧
      r₂ = { r₁.setClass { c with methods := c.methods ++ [m] } with
        symbols := Symbol.method c.name m.name :: r₁.symbols } := by
  have hinfo : ClassOf.info { c with methods := c.methods ++ [m] } =
      { c.info with methods := c.info.methods ++ [(m.name, m.signatureIn c.name)] } := by
    simp [ClassOf.info]
  simp only [Registry.addMethod, bind_eq_ok, methodSignature_eq_ok hm.knows,
    Classes.addMethod_eq_ok, hm.own, Option.some.injEq, exists_eq_left', reserve_eq_ok, setClass,
    hinfo, c.methods_info]
  constructor
  · rintro ⟨_, ⟨hd, rfl⟩, _, ⟨hnew, rfl⟩, hfree, rfl⟩
    exact ⟨hd, hnew, hfree, rfl⟩
  · rintro ⟨hd, hnew, hfree, rfl⟩
    exact ⟨_, ⟨hd, rfl⟩, _, ⟨hnew, rfl⟩, hfree, rfl⟩

theorem Members.addMethod {m : FuncDef} (h : Registry.addMethod c r₁ m = .ok r₂) :
    Members p { c with methods := c.methods ++ [m] } r r₂ := by
  obtain ⟨hd, hnew, hfree, rfl⟩ := hm.addMethod_iff.mp h
  have hknown := Bindings.contains_iff.mpr ⟨_, hm.own⟩
  refine ⟨hm.globals, ?_, ?_, hm.knows.insert hknown _, ?_, ?_, ?_⟩
  · intro x hx
    exact (Bindings.find?_insert_of_ne r₁.classes _ hx).trans (hm.others x hx)
  · exact Bindings.find?_insert_self r₁.classes _ _
  · simp [hm.symbols]
  · exact List.nodup_cons.mpr ⟨hfree, hm.fresh⟩
  · refine ⟨hm.declared.fieldNames, hm.declared.fields, ?_⟩
    intro m' hm'
    rcases List.mem_append.mp hm' with hm' | hm'
    · exact hm.declared.methods m' hm'
    · rw [List.mem_singleton.mp hm']
      exact hd

end

section

variable {c : ClassDef} {r r' : Registry} (hk : Knows p r.classes)
  (hc : r.classes.find? c.name = some .empty)
include hk hc

theorem addMembers_members (hs : r.symbols.Nodup) (h : r.addMembers c = .ok r') :
    Members p c r r' := by
  obtain ⟨r₁, hf, hm⟩ := bind_eq_ok.mp h
  have h₁ : Members p { c with methods := [] } r r₁ :=
    foldlM_ok (fun done r₁ => Members p { c with fields := done, methods := [] } r r₁)
      (.refl hk hc hs) (fun _ _ _ _ _ _ hd hs => hd.addField hs) hf
  exact foldlM_ok (fun done r₂ => Members p { c with methods := done } r r₂) h₁
    (fun _ _ _ _ _ _ hd hs => hd.addMethod hs) hm

/-- The members of a class can be added if they fit and their symbols are free. -/
theorem addMembers_total (hd : c.WellDeclared p)
    (hs : ((c.methods.map fun m => Symbol.method c.name m.name) ++ r.symbols).Nodup) :
    ∃ r', r.addMembers c = .ok r' := by
  obtain ⟨r₁, hf, h₁⟩ : ∃ r₁, c.fields.foldlM (Registry.addField c) r = .ok r₁ ∧
      Members p { c with methods := [] } r r₁ := by
    refine foldlM_total (fun done r₁ => Members p { c with fields := done, methods := [] } r r₁)
      (.refl hk hc hs.of_append_right) fun done d rest r₁ hx hm => ?_
    have hnew := notMem_of_nodup_map hd.fieldNames hx
    have h := hm.addField_iff.mpr ⟨hd.fields d (by rw [hx]; simp), hnew, rfl⟩
    exact ⟨_, h, hm.addField h⟩
  have hmethods : ∃ r₂, c.methods.foldlM (Registry.addMethod c) r₁ = .ok r₂ ∧ Members p c r r₂ := by
    refine foldlM_total (fun done r₂ => Members p { c with methods := done } r r₂) h₁
      fun done m rest r₂ hx hm => ?_
    have hn := hs.of_append_left
    rw [hx, List.map_append, List.map_cons, List.nodup_middle, List.nodup_cons] at hn
    have hnew : m.name ∉ done.map (·.name) := by
      intro hmem
      obtain ⟨m', hm', he⟩ := List.mem_map.mp hmem
      exact hn.1 (List.mem_append_left _ (List.mem_map.mpr ⟨m', hm', by rw [he]⟩))
    have hfree : Symbol.method c.name m.name ∉ r₂.symbols := by
      rw [hm.symbols, List.mem_append, List.mem_reverse]
      rintro (hmem | hmem)
      · exact hn.1 (List.mem_append_left _ hmem)
      · refine List.disjoint_of_nodup_append hs ?_ hmem
        rw [hx]
        simp
    have h := hm.addMethod_iff.mpr ⟨hd.methods m (by rw [hx]; simp), hnew, hfree, rfl⟩
    exact ⟨_, h, hm.addMethod h⟩
  obtain ⟨r₂, hm, -⟩ := hmethods
  exact ⟨r₂, bind_eq_ok.mpr ⟨r₁, hf, hm⟩⟩

end

/-- The classes have been declared, and nothing else is known. -/
structure Declared (cs : List ClassDef) (r : Registry) : Prop where
  globals : r.globals = Globals.empty
  symbols : r.symbols = Symbol.hostFunctions
  nodup : (cs.map (·.name)).Nodup
  classes : ∀ x info, r.classes.find? x = some info ↔ x ∈ cs.map (·.name) ∧ .empty = info

theorem Declared.nil : Declared [] empty :=
  ⟨rfl, rfl, by simp, by simp [empty, Bindings.find?]⟩

theorem Declared.contains {cs : List ClassDef} {r : Registry} (hd : Declared cs r) (x : String) :
    r.classes.contains x = true ↔ x ∈ cs.map (·.name) := by
  simp [Bindings.contains_iff, hd.classes]

theorem declareClass_eq_ok {r r' : Registry} {c : ClassDef} :
    r.declareClass c = .ok r' ↔ r.classes.contains c.name ≠ true ∧
      r' = { r with classes := Bindings.insert r.classes c.name .empty } := by
  simp only [declareClass, Classes.declare, bind_eq_ok, pure_eq_ok, Except.ok.injEq]
  split
  · next h => simp [h]
  · next h => simp [h, eq_comm]

theorem Declared.declareClass {done : List ClassDef} {c : ClassDef} {r r' : Registry}
    (hd : Declared done r) (h : r.declareClass c = .ok r') : Declared (done ++ [c]) r' := by
  obtain ⟨hnew, rfl⟩ := declareClass_eq_ok.mp h
  refine ⟨hd.globals, hd.symbols, ?_, ?_⟩
  · rw [ne_eq, hd.contains] at hnew
    rw [List.map_append, List.nodup_append']
    exact ⟨hd.nodup, by simp, by simpa using hnew⟩
  · intro x info
    change (Bindings.insert r.classes c.name .empty).find? x = some info ↔ _
    rw [Bindings.find?_insert_of_fresh hnew, hd.classes]
    simp [or_and_right, eq_comm]

theorem declareClass_total (cs : List ClassDef) (hn : (cs.map (·.name)).Nodup) :
    ∃ r, cs.foldlM declareClass empty = .ok r ∧ Declared cs r := by
  refine foldlM_total Declared .nil fun done c rest r hx hd => ?_
  have hnew : r.classes.contains c.name ≠ true := by
    rw [ne_eq, hd.contains]
    exact notMem_of_nodup_map hn hx
  have h := declareClass_eq_ok.mpr ⟨hnew, rfl⟩
  exact ⟨_, h, hd.declareClass h⟩

def methodSymbols (cs : List ClassDef) : List String :=
  cs.flatMap fun c => c.methods.map fun m => Symbol.method c.name m.name

/-- The members of the classes in `done` have been added. -/
structure Filled (p : Program) (done : List ClassDef) (r : Registry) : Prop where
  globals : r.globals = Globals.empty
  symbols : r.symbols = (methodSymbols done).reverse ++ Symbol.hostFunctions
  fresh : r.symbols.Nodup
  knows : Knows p r.classes
  filled : ∀ c ∈ done, r.classes.find? c.name = some c.info
  pending : ∀ c ∈ p.classes, c.name ∉ done.map (·.name) → r.classes.find? c.name = some .empty
  declared : ∀ c ∈ done, c.WellDeclared p

theorem Declared.filled {r : Registry} (hd : Declared p.classes r) : Filled p [] r where
  globals := hd.globals
  symbols := hd.symbols
  fresh := by
    rw [hd.symbols]
    decide
  knows := hd.contains
  filled := by simp
  pending c hc _ := (hd.classes c.name .empty).mpr ⟨List.mem_map_of_mem hc, rfl⟩
  declared := by simp

section

variable {done rest : List ClassDef} {c : ClassDef} {r r' : Registry}
  (hn : (p.classes.map (·.name)).Nodup) (hcs : p.classes = done ++ c :: rest)
  (hd : Filled p done r)
include hn hcs hd

theorem Filled.next : r.classes.find? c.name = some .empty := by
  refine hd.pending c ?_ (notMem_of_nodup_map hn hcs)
  rw [hcs]
  simp

theorem Filled.addMembers (h : r.addMembers c = .ok r') : Filled p (done ++ [c]) r' := by
  have hm := addMembers_members hd.knows (hd.next hn hcs) hd.fresh h
  have hnew : ∀ d ∈ done, d.name ≠ c.name := fun d hdm he =>
    notMem_of_nodup_map hn hcs (he ▸ List.mem_map_of_mem hdm)
  refine ⟨hm.globals.trans hd.globals, ?_, hm.fresh, hm.knows, ?_, ?_, ?_⟩
  · rw [hm.symbols, hd.symbols]
    simp [methodSymbols]
  · intro d hdm
    rcases List.mem_append.mp hdm with hdm | hdm
    · rw [hm.others d.name (hnew d hdm)]
      exact hd.filled d hdm
    · rw [List.mem_singleton.mp hdm]
      exact hm.own
  · intro d hdm hdn
    rw [List.map_append, List.mem_append, not_or] at hdn
    rw [hm.others d.name (by simpa using hdn.2)]
    exact hd.pending d hdm hdn.1
  · intro d hdm
    rcases List.mem_append.mp hdm with hdm | hdm
    · exact hd.declared d hdm
    · rw [List.mem_singleton.mp hdm]
      exact hm.declared

end

theorem addMembers_foldlM_total {r : Registry} (hp : p.WellDeclared) (hd : Filled p [] r) :
    ∃ r', p.classes.foldlM Registry.addMembers r = .ok r' ∧ Filled p p.classes r' := by
  refine foldlM_total (Filled p) hd fun done c rest r hx hd => ?_
  have hs : ((c.methods.map fun m => Symbol.method c.name m.name) ++ r.symbols).Nodup := by
    have hsub : (Symbol.hostFunctions ++ (methodSymbols done ++ methodSymbols [c])).Sublist
        (Symbol.hostFunctions ++ p.symbols) := by
      refine .append_left ((List.Sublist.trans ?_ (List.sublist_append_right _ _))) _
      rw [hx]
      simp [methodSymbols]
    rw [hd.symbols]
    refine (List.Perm.nodup_iff ?_).mp (hp.symbols.sublist hsub)
    rw [List.perm_iff_count]
    intro x
    simp [methodSymbols]
    omega
  obtain ⟨r', h⟩ := addMembers_total hd.knows (hd.next hp.classNames hx)
    (hp.classes c (by rw [hx]; simp)) hs
  exact ⟨r', h, hd.addMembers hp.classNames hx h⟩

/-- The functions in `done` have been added to a registry that held none. -/
structure WithFuncs (p : Program) (base : Registry) (done : List FuncDef) (r : Registry) :
    Prop where
  classes : r.classes = base.classes
  vars : r.globals.vars = base.globals.vars
  symbols : r.symbols = (done.map (·.name)).reverse ++ base.symbols
  fresh : r.symbols.Nodup
  funcs : ∀ x sig, r.globals.funcs.find? x = some sig ↔ ∃ f ∈ done, f.name = x ∧ f.signature = sig
  declared : ∀ f ∈ done, f.WellDeclared p

theorem WithFuncs.contains {base r : Registry} {done : List FuncDef}
    (hd : WithFuncs p base done r) (x : String) :
    r.globals.funcs.contains x = true ↔ x ∈ done.map (·.name) := by
  simp [Bindings.contains_iff, hd.funcs]

theorem addFunc_eq_ok {r r' : Registry} {f : FuncDef} (hk : Knows p r.classes) :
    r.addFunc f = .ok r' ↔ f.WellDeclared p ∧ r.globals.funcs.contains f.name ≠ true ∧
      f.name ∉ r.symbols ∧
      r' = { r with
        globals := { r.globals with funcs := r.globals.funcs.insert f.name f.signature }
        symbols := f.name :: r.symbols } := by
  simp only [addFunc, bind_eq_ok, forM_eq_ok, hk.validate_eq_ok, reserve_eq_ok,
    Globals.declareFunc]
  split
  · next h => simp [h]
  · next h =>
    simp only [Except.ok.injEq, exists_eq_left']
    constructor
    · rintro ⟨-, hparams, -, hret, hrest⟩
      exact ⟨⟨hparams, hret⟩, h, hrest⟩
    · rintro ⟨hf, -, hrest⟩
      exact ⟨(), hf.params, (), hf.ret, hrest⟩

theorem WithFuncs.addFunc {base r r' : Registry} {done : List FuncDef} {f : FuncDef}
    (hk : Knows p base.classes) (hd : WithFuncs p base done r) (h : r.addFunc f = .ok r') :
    WithFuncs p base (done ++ [f]) r' := by
  obtain ⟨hf, hnew, hfree, rfl⟩ := (addFunc_eq_ok (hd.classes ▸ hk)).mp h
  refine ⟨hd.classes, hd.vars, by simp [hd.symbols], List.nodup_cons.mpr ⟨hfree, hd.fresh⟩, ?_, ?_⟩
  · intro x sig
    change (Bindings.insert r.globals.funcs f.name f.signature).find? x = some sig ↔ _
    rw [Bindings.find?_insert_of_fresh hnew, hd.funcs]
    simp [or_and_right, exists_or]
  · intro g hg
    rcases List.mem_append.mp hg with hg | hg
    · exact hd.declared g hg
    · rw [List.mem_singleton.mp hg]
      exact hf

/-- The variables in `done` have been added to a registry that held none. -/
structure WithVars (p : Program) (base : Registry) (done : List VarDef) (r : Registry) : Prop where
  classes : r.classes = base.classes
  symbols : r.symbols = base.symbols
  funcs : r.globals.funcs = base.globals.funcs
  vars : ∀ x ty, r.globals.vars.find? x = some ty ↔ ∃ d ∈ done, d.name = x ∧ d.ty = ty
  nodup : (done.map (·.name)).Nodup
  typed : ∀ d ∈ done, d.WellTyped p

theorem WithVars.contains {base r : Registry} {done : List VarDef} (hd : WithVars p base done r)
    (x : String) : r.globals.vars.contains x = true ↔ x ∈ done.map (·.name) := by
  simp [Bindings.contains_iff, hd.vars]

theorem addVar_eq_ok {r r' : Registry} {d : VarDef} (hk : Knows p r.classes) :
    r.addVar d = .ok r' ↔ d.WellTyped p ∧ r.globals.vars.contains d.name ≠ true ∧
      r' = { r with globals := { r.globals with vars := r.globals.vars.insert d.name d.ty } } := by
  simp only [addVar, bind_eq_ok, hk.validate_eq_ok, VarDef.check_eq_ok, Globals.declareVar,
    pure_eq_ok, Except.ok.injEq]
  split
  · next h => simp [h]
  · next h =>
    simp only [Except.ok.injEq, exists_eq_left']
    constructor
    · rintro ⟨-, hk, -, hv, rfl⟩
      exact ⟨⟨hk, hv⟩, h, rfl⟩
    · rintro ⟨hd, -, rfl⟩
      exact ⟨(), hd.known, (), hd.value, rfl⟩

theorem WithVars.addVar {base r r' : Registry} {done : List VarDef} {d : VarDef}
    (hk : Knows p base.classes) (hd : WithVars p base done r) (h : r.addVar d = .ok r') :
    WithVars p base (done ++ [d]) r' := by
  obtain ⟨hdt, hnew, rfl⟩ := (addVar_eq_ok (hd.classes ▸ hk)).mp h
  refine ⟨hd.classes, hd.symbols, hd.funcs, ?_, ?_, ?_⟩
  · intro x ty
    change (Bindings.insert r.globals.vars d.name d.ty).find? x = some ty ↔ _
    rw [Bindings.find?_insert_of_fresh hnew, hd.vars]
    simp [or_and_right, exists_or]
  · rw [ne_eq, hd.contains] at hnew
    rw [List.map_append, List.nodup_append']
    exact ⟨hd.nodup, by simp, by simpa using hnew⟩
  · intro e he
    rcases List.mem_append.mp he with he | he
    · exact hd.typed e he
    · rw [List.mem_singleton.mp he]
      exact hdt

/-- A registry that says what the definitions of a program say. -/
structure Describes (r : Registry) (p : Program) : Prop where
  classes : ∀ x info, r.classes.find? x = some info ↔ ∃ c ∈ p.classes, c.name = x ∧ c.info = info
  funcs : ∀ x sig, r.globals.funcs.find? x = some sig ↔
    ∃ f ∈ p.funcs, f.name = x ∧ f.signature = sig
  vars : ∀ x ty, r.globals.vars.find? x = some ty ↔ ∃ d ∈ p.vars, d.name = x ∧ d.ty = ty

theorem Filled.withFuncs {r : Registry} (hf : Filled p p.classes r) : WithFuncs p r [] r := by
  refine ⟨rfl, rfl, rfl, hf.fresh, ?_, by simp⟩
  rw [hf.globals]
  simp [Globals.empty, Bindings.find?]

theorem WithFuncs.withVars {base r : Registry} {fs : List FuncDef} (hf : WithFuncs p base fs r)
    (hb : base.globals = Globals.empty) : WithVars p r [] r := by
  refine ⟨rfl, rfl, rfl, ?_, by simp, by simp⟩
  rw [hf.vars, hb]
  simp [Globals.empty, Bindings.find?]

/-- Definitions that are registered fit together, and the registry describes them. -/
theorem ofProgram_eq_ok {r : Registry} (h : ofProgram p = .ok r) :
    p.WellDeclared ∧ r.Describes p := by
  obtain ⟨r₁, h₁, h⟩ := bind_eq_ok.mp h
  obtain ⟨r₂, h₂, h⟩ := bind_eq_ok.mp h
  obtain ⟨r₃, h₃, h₄⟩ := bind_eq_ok.mp h
  have declared : Declared p.classes r₁ :=
    foldlM_ok Declared .nil (fun _ _ _ _ _ _ hd hs => hd.declareClass hs) h₁
  have filled : Filled p p.classes r₂ :=
    foldlM_ok (Filled p) declared.filled
      (fun _ _ _ _ _ hx hd hs => hd.addMembers declared.nodup hx hs) h₂
  have withFuncs : WithFuncs p r₂ p.funcs r₃ :=
    foldlM_ok (WithFuncs p r₂) filled.withFuncs
      (fun _ _ _ _ _ _ hd hs => hd.addFunc filled.knows hs) h₃
  have withVars : WithVars p r₃ p.vars r :=
    foldlM_ok (WithVars p r₃) (withFuncs.withVars filled.globals)
      (fun _ _ _ _ _ _ hd hs => hd.addVar (withFuncs.classes ▸ filled.knows) hs) h₄
  constructor
  · refine ⟨declared.nodup, ?_, withVars.nodup, filled.declared, withFuncs.declared,
      withVars.typed⟩
    refine (List.Perm.nodup_iff ?_).mp withFuncs.fresh
    rw [withFuncs.symbols, filled.symbols, List.perm_iff_count]
    intro x
    simp only [methodSymbols, Program.symbols, List.count_append, List.count_reverse]
    omega
  · refine ⟨?_, ?_, withVars.vars⟩
    · intro x info
      rw [withVars.classes, withFuncs.classes]
      constructor
      · intro hx
        have hmem := (filled.knows x).mp (Bindings.contains_iff.mpr ⟨info, hx⟩)
        obtain ⟨c, hc, rfl⟩ := List.mem_map.mp hmem
        exact ⟨c, hc, rfl, Option.some.inj ((filled.filled c hc).symm.trans hx)⟩
      · rintro ⟨c, hc, rfl, rfl⟩
        exact filled.filled c hc
    · intro x sig
      rw [withVars.funcs]
      exact withFuncs.funcs x sig

/-- Definitions that fit together can be registered. -/
theorem ofProgram_total (hp : p.WellDeclared) : ∃ r, ofProgram p = .ok r := by
  obtain ⟨r₁, h₁, declared⟩ := declareClass_total p.classes hp.classNames
  obtain ⟨r₂, h₂, filled⟩ := addMembers_foldlM_total hp declared.filled
  obtain ⟨-, hsymbols, hhost⟩ := List.nodup_append'.mp hp.symbols
  obtain ⟨hnames, -, hmethods⟩ := List.nodup_append'.mp hsymbols
  have hfuncs : ∃ r₃, p.funcs.foldlM addFunc r₂ = .ok r₃ ∧ WithFuncs p r₂ p.funcs r₃ := by
    refine foldlM_total (WithFuncs p r₂) filled.withFuncs fun done f rest r hx hd => ?_
    have hmem : f.name ∈ p.funcs.map (·.name) := List.mem_map_of_mem (by rw [hx]; simp)
    have hnew : f.name ∉ done.map (·.name) := notMem_of_nodup_map hnames hx
    have hfree : f.name ∉ r.symbols := by
      rw [hd.symbols, filled.symbols, List.mem_append, List.mem_append, List.mem_reverse,
        List.mem_reverse]
      rintro (h | h | h)
      · exact hnew h
      · exact hmethods hmem h
      · exact hhost h (List.mem_append_left _ hmem)
    rw [← hd.contains] at hnew
    have h := (addFunc_eq_ok (hd.classes ▸ filled.knows)).mpr
      ⟨hp.funcs f (by rw [hx]; simp), hnew, hfree, rfl⟩
    exact ⟨_, h, hd.addFunc filled.knows h⟩
  obtain ⟨r₃, h₃, withFuncs⟩ := hfuncs
  have hvars : ∃ r, p.vars.foldlM addVar r₃ = .ok r ∧ WithVars p r₃ p.vars r := by
    refine foldlM_total (WithVars p r₃) (withFuncs.withVars filled.globals)
      fun done d rest r hx hd => ?_
    have hk : Knows p r₃.classes := withFuncs.classes ▸ filled.knows
    have hnew : r.globals.vars.contains d.name ≠ true := by
      rw [ne_eq, hd.contains]
      exact notMem_of_nodup_map hp.varNames hx
    have h := (addVar_eq_ok (hd.classes ▸ hk)).mpr ⟨hp.vars d (by rw [hx]; simp), hnew, rfl⟩
    exact ⟨_, h, hd.addVar hk h⟩
  obtain ⟨r, h₄, -⟩ := hvars
  exact ⟨r, bind_eq_ok.mpr ⟨r₁, h₁, bind_eq_ok.mpr ⟨r₂, h₂, bind_eq_ok.mpr ⟨r₃, h₃, h₄⟩⟩⟩⟩

/-- What the users of a registry have to know of it. -/
structure Records (r : Registry) (p : Program) : Prop where
  classNames : (p.classes.map (·.name)).Nodup
  classes : ∀ x info, r.classes.find? x = some info →
    ∃ c ∈ p.classes, c.name = x ∧ info.head x = c.head
  receivers : ∀ c ∈ p.classes, ∀ m ∈ c.methods, receiverName ∈ m.params.map (·.name)
  symbols : (Symbol.hostFunctions ++ p.symbols).Nodup
  funcs : ∀ x sig, r.globals.funcs.find? x = some sig →
    (x, sig.params.length) ∈ p.funcs.map FuncOf.head
  varTypes : ∀ x ty, r.globals.vars.find? x = some ty ↔ ∃ d ∈ p.vars, d.name = x ∧ d.ty = ty

theorem Records.vars {r : Registry} {p : Program} (hr : r.Records p) (x : String)
    (h : r.globals.vars.contains x = true) : x ∈ p.vars.map (·.name) := by
  obtain ⟨ty, hty⟩ := Bindings.contains_iff.mp h
  obtain ⟨d, hd, hn, -⟩ := (hr.varTypes x ty).mp hty
  exact List.mem_map.mpr ⟨d, hd, hn⟩

theorem Records.methods_pos {r : Registry} {p : Program} (hr : r.Records p) :
    ∀ h ∈ p.classes.map ClassOf.head, ∀ m ∈ h.methods, 0 < m.2 := by
  intro h hh m hm
  obtain ⟨c, hc, rfl⟩ := List.mem_map.mp hh
  obtain ⟨f, hf, rfl⟩ := List.mem_map.mp hm
  obtain ⟨q, hq, -⟩ := List.mem_map.mp (hr.receivers c hc f hf)
  exact List.length_pos_of_mem hq

theorem ofProgram_records {r : Registry} (h : ofProgram p = .ok r) : r.Records p := by
  obtain ⟨hp, hr⟩ := ofProgram_eq_ok h
  have receivers : ∀ c ∈ p.classes, ∀ m ∈ c.methods, receiverName ∈ m.params.map (·.name) := by
    intro c hc m hm
    obtain ⟨q, hq, hn⟩ := ((hp.classes c hc).methods m hm).receiver
    rw [← hn]
    exact List.mem_map_of_mem (List.mem_of_mem_head? hq)
  refine ⟨hp.classNames, ?_, receivers, hp.symbols, ?_, hr.vars⟩
  · intro x info hx
    obtain ⟨c, hc, rfl, rfl⟩ := (hr.classes x info).mp hx
    refine ⟨c, hc, rfl, ClassOf.head_info fun m hm hnil => ?_⟩
    have := receivers c hc m hm
    simp [hnil] at this
  · intro x sig hx
    obtain ⟨f, hf, rfl, rfl⟩ := (hr.funcs x sig).mp hx
    refine List.mem_map.mpr ⟨f, hf, ?_⟩
    simp [FuncOf.head, FuncOf.signature]

end Registry

end TypedScript
