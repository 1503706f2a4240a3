import TypedScript.Proofs.Heap.Ledger
import TypedScript.Proofs.Machine.Safety

/-! # The heap of a program

Objects are put one behind the other from the heap's base on, and every run of a program keeps its
ledger. -/

namespace TypedScript

def Construction.OfClass {σ : Type} (m : Machine σ) (q : Progress σ) (d : ClassDef)
    (c : Construction) : Prop :=
  c.words = d.defaults ∧
    ∃ (k : Spot) (ls : Bindings Word) (st : List Word) (rest : List Instr) (s s' : Store σ),
      m.after c.start q = .next (k.state ls st ((ClassLayout.ofClass d).allocate ++ rest) s) ∧
      m.after c.finish q = .next (k.state ls (c.address :: st) rest s')

theorem Construction.ofClass_iff {σ : Type} {m : Machine σ} {q : Progress σ} {d : ClassDef}
    {c : Construction} : c.OfClass m q d ↔ c.words = d.defaults ∧ c.Completed m q := by
  rw [OfClass, Completed, allocate_ofClass]
  constructor
  · rintro ⟨hw, h⟩
    exact ⟨hw, by rwa [hw]⟩
  · rintro ⟨hw, h⟩
    exact ⟨hw, by rwa [← hw]⟩

theorem Program.SameOutline.fields {p t : Program} (h : SameOutline p t) :
    t.classes.map (·.fields) = p.classes.map (·.fields) := by
  have hc := congrArg (List.map fun o => o.2.1) h.classes
  simpa [Function.comp_def, ClassOf.outline] using hc

theorem Program.SameOutline.defaults {p t : Program} (h : SameOutline p t) :
    Defaults t.classes = Defaults p.classes := by
  have hwords : t.classes.map ClassOf.defaults = p.classes.map ClassOf.defaults := by
    have hf := congrArg (List.map (List.map fun d : VarDef => d.value.word)) h.fields
    rw [List.map_map, List.map_map] at hf
    exact hf
  funext ws
  have hmem := congrArg (ws ∈ ·) hwords
  simpa [Defaults, List.mem_map, eq_comm] using hmem

theorem Emitted.initial_heap {σ : Type} {p : Program} {o : Options} {m : Module} {c : Config}
    {s : σ} (h : Emitted p o m) (hd : p.Dotless) :
    (Store.initial m c s).globals.find? Symbol.heapPointer = some o.heapBase := by
  rw [h.initial_globals, Bindings.ofList, List.foldl_cons,
    Bindings.find?_foldl_insert_of_notMem _ (p.initialGlobals_names o ▸ hd.heapPointer_notMem),
    Bindings.find?_insert_self]

namespace Program

/-- A program's run is disciplined, and its heap begins at the base. -/
theorem thrifty {σ : Type} {p : Program} {o : Options} {m : Module} (h : p.compile o = .ok m)
    (hd : p.Dotless) (host : Host σ) (c : Config) (s : σ)
    (hmem : (Store.initial m c s).memory.size < 2 ^ 32) :
    (Machine.ofModule m c host).Thrifty
      ((Machine.ofModule m c host).start o.entryExport (Store.initial m c s))
      (Defaults p.classes) o.heapBase.address (Store.initial m c s).memory.size := by
  obtain ⟨t, ht, hm⟩ := compile_eq_ok_iff.mp h
  have helab := check_elaborated ht
  have hsame := check_sameOutline ht
  have hdt := hsame.dotless hd
  have hemit := helab.emitted hdt hm
  have hdisciplined := hemit.disciplined helab hdt
  rw [hsame.defaults] at hdisciplined
  obtain ⟨g, hg, hentry⟩ := hemit.entry
  refine ⟨hdisciplined, ?_, ⟨o.heapBase, ?_, rfl⟩, by rw [Machine.start_store], hmem⟩
  · rw [Machine.start, hemit.export_eq rfl hentry]
    exact Machine.enter_tidy (by simp [State.Tidy]) (hdisciplined g hg)
  · rw [Machine.start_store]
    exact hemit.initial_heap hdt

theorem allocates {σ : Type} {p : Program} {o : Options} {m : Module} (h : p.compile o = .ok m)
    (hd : p.Dotless) (hf : ∀ d ∈ p.classes, d.fields.length < 2 ^ 30) (host : Host σ) (c : Config)
    (s : σ) (hmem : (Store.initial m c s).memory.size < 2 ^ 32) :
    (Machine.ofModule m c host).Allocates
      ((Machine.ofModule m c host).start o.entryExport (Store.initial m c s))
      (Defaults p.classes) o.heapBase.address (Store.initial m c s).memory.size := by
  refine ⟨thrifty h hd host c s hmem, ?_⟩
  rintro ws ⟨d, hmemd, rfl⟩
  rw [ClassOf.defaults, List.length_map]
  exact hf d hmemd

/-- After every step there is a ledger of all objects of the classes. -/
theorem exists_ledger {σ : Type} {m : Machine σ} {q : Progress σ} {classes : List ClassDef}
    {base size : Nat} (ha : m.Allocates q (Defaults classes) base size) (n : Nat) :
    ∃ cs, m.Balanced q (Defaults classes) base size n cs ∧
      ∀ d, d ∈ cs ↔ (∃ cls ∈ classes, d.OfClass m q cls) ∧ d.finish ≤ n := by
  obtain ⟨cs, hcs⟩ := Machine.exists_built ha.toThrifty n
  have hbalanced := hcs.balanced ha.toThrifty
  refine ⟨cs, hbalanced, fun d => ⟨fun hmemd => ?_, ?_⟩⟩
  · obtain ⟨hplaced, cls, hcls, hwords⟩ := hbalanced.placed d hmemd
    exact ⟨⟨cls, hcls, Construction.ofClass_iff.mpr ⟨hwords, hplaced.completed⟩⟩,
      (hbalanced.past d hmemd).1⟩
  · rintro ⟨⟨cls, -, hof⟩, hfinish⟩
    exact hcs.complete ha (Construction.ofClass_iff.mp hof).2 hfinish

/-- The heap of a program over a whole run. After every step the constructions so far stand in a
ledger: the heap ends behind their words, nothing wraps around, each object was put where the heap
ended before, inside memory and apart from all others, and its fields started with their
defaults. -/
theorem heap_history {σ : Type} {p : Program} {o : Options} {m : Module}
    (h : p.compile o = .ok m) (hd : p.Dotless) (hf : ∀ d ∈ p.classes, d.fields.length < 2 ^ 30)
    (hbase : 0 ≤ o.heapBase) (host : Host σ) (c : Config) (s : σ)
    (hmem : (Store.initial m c s).memory.size ≤ 65535 * pageSize) :
    ∃ base : Nat, (base : Int) = o.heapBase.toInt ∧
      let mach := Machine.ofModule m c host
      let q := mach.start o.entryExport (Store.initial m c s)
      (∀ n, ∃ cs,
        mach.Balanced q (Defaults p.classes) base (Store.initial m c s).memory.size n cs ∧
        ∀ d, d ∈ cs ↔ (∃ cls ∈ p.classes, d.OfClass mach q cls) ∧ d.finish ≤ n) ∧
      ∀ n n' h h', n ≤ n' →
        (mach.after n q).store.globals.find? Symbol.heapPointer = some h →
        (mach.after n' q).store.globals.find? Symbol.heapPointer = some h' →
        h.address ≤ h'.address := by
  have hsize : 65535 * pageSize < 2 ^ 32 := by decide
  have ha := allocates h hd hf host c s (by omega)
  exact ⟨o.heapBase.address, (Word.toInt_of_nonneg hbase).symm, exists_ledger ha,
    fun n n' w w' hle hw hw' => Machine.heap_mono ha hle hw hw'⟩

def pair : ClassDef where
  name := "Pair"
  fields := [⟨"first", .int, .number 3, default⟩, ⟨"second", .int, .number 5, default⟩]
  methods := []
  span := default

def mark : ClassDef where
  name := "Mark"
  fields := [⟨"number", .int, .number 7, default⟩]
  methods := []
  span := default

def threeObjects : Program :=
  let construct (d : ClassDef) : Stmt := .expr (.call ⟨default, none⟩ d.name [])
  { vars := [], funcs := [], classes := [pair, mark]
    stmts := [construct pair, construct mark, construct pair], ty := none }

theorem heap_history_threeObjects : ∃ m base cs,
    threeObjects.compile {} = .ok m ∧ threeObjects.Dotless ∧
    (∀ d ∈ threeObjects.classes, d.fields.length < 2 ^ 30) ∧ 0 ≤ ({} : Options).heapBase ∧
    (Store.initial m {} Recording.empty).memory.size ≤ 65535 * pageSize ∧
    (Machine.ofModule m {} Recording.host).Balanced
      ((Machine.ofModule m {} Recording.host).start ({} : Options).entryExport
        (Store.initial m {} Recording.empty))
      (Defaults threeObjects.classes) base (Store.initial m {} Recording.empty).memory.size 42 cs ∧
    ⟨0, [3, 5], 4⟩ ∈ cs ∧ ⟨16, [7], 12⟩ ∈ cs ∧ ⟨27, [3, 5], 16⟩ ∈ cs ∧
    Construction.total cs = 2 + 1 + 2 := by
  have hdot : threeObjects.Dotless := by decide
  have hfields : ∀ d ∈ threeObjects.classes, d.fields.length < 2 ^ 30 := by decide
  have hbase : 0 ≤ ({} : Options).heapBase := by decide
  obtain ⟨m, hm, hmem, hend, hfirst, hsecond, hthird⟩ : ∃ m, threeObjects.compile {} = .ok m ∧
      (Store.initial m {} Recording.empty).memory.size ≤ 65535 * pageSize ∧
      let mach := Machine.ofModule m {} Recording.host
      let q := mach.start ({} : Options).entryExport (Store.initial m {} Recording.empty)
      (mach.after 42 q).store.globals.find? Symbol.heapPointer = some 24 ∧
      Construction.Completed mach q ⟨0, [3, 5], 4⟩ ∧ Construction.Completed mach q ⟨16, [7], 12⟩ ∧
      Construction.Completed mach q ⟨27, [3, 5], 16⟩ :=
    ⟨_, rfl, by decide, rfl, ⟨⟨_, none, [], [], 511⟩, _, _, _, _, _, rfl, rfl⟩,
      ⟨⟨_, none, [], [], 511⟩, _, _, _, _, _, rfl, rfl⟩,
      ⟨⟨_, none, [], [], 511⟩, _, _, _, _, _, rfl, rfl⟩⟩
  obtain ⟨base, hint, hledger, -⟩ :=
    heap_history hm hdot hfields hbase Recording.host {} .empty hmem
  obtain ⟨cs, hbalanced, hall⟩ := hledger 42
  have hmember {d : Construction} {cls : ClassDef} (hcls : cls ∈ threeObjects.classes)
      (hwords : d.words = cls.defaults) (hd : d.Completed _ _) (hle : d.finish ≤ 42) : d ∈ cs :=
    (hall d).mpr ⟨⟨cls, hcls, Construction.ofClass_iff.mpr ⟨hwords, hd⟩⟩, hle⟩
  have hpair : pair ∈ threeObjects.classes := by simp [threeObjects]
  have hmark : mark ∈ threeObjects.classes := by simp [threeObjects]
  refine ⟨m, base, cs, hm, hdot, hfields, hbase, hmem, hbalanced, ?_, ?_, ?_, ?_⟩
  · exact hmember hpair rfl hfirst (by decide)
  · exact hmember hmark rfl hsecond (by decide)
  · exact hmember hpair rfl hthird (by decide)
  · obtain ⟨h, hheap, haddr⟩ := hbalanced.heap
    obtain rfl : 24 = h := Option.some.inj (hend.symm.trans hheap)
    have hfour : (base : Int) = 4 := hint
    have haddress : Word.address 24 = 24 := rfl
    have hword : wordSize = 4 := rfl
    rw [haddress, hword] at haddr
    omega

end Program

end TypedScript
