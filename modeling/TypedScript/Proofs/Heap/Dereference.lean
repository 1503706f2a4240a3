import TypedScript.Proofs.Heap.History

/-! # Access through `None`

`None` is no address of an object, but the offset of a field is added to it all the same. Whether
the access is out of bounds depends on the word that stands for `None` and on the field. -/

namespace TypedScript

namespace Options

/-- The words that stand for `None`: zero wherever a value is used or a slot is fresh, and the
sentinel in a global variable that nothing has been stored in. -/
def noneWords (o : Options) : List Word := [0, o.objectSentinel]

theorem initial_mem_noneWords (o : Options) (ty : Ty) : o.initial ty ∈ o.noneWords := by
  rw [initial, noneWords]
  split
  · exact List.mem_cons_of_mem 0 List.mem_cons_self
  · exact List.mem_cons_self

end Options

/-- The word of memory, counted from its start, that a field of `None` lies at. The sentinel is two
words below the start of memory. -/
def noneTarget (r : Word) (index : Nat) : Option Nat :=
  if r = 0 then some index else if index < 2 then none else some (index - 2)

namespace Word

theorem address_zero : address 0 = 0 := rfl

theorem address_objectSentinel : address ({} : Options).objectSentinel = 2 ^ 32 - 8 := rfl

theorem address_of_noneTarget {r : Word} {i j : Nat} (hr : r ∈ ({} : Options).noneWords)
    (hi : i < 2 ^ 30) (h : noneTarget r i = some j) :
    address (r + Int32.ofNat (i * wordSize)) = j * wordSize := by
  have hword : i * wordSize = i * 4 := rfl
  have hword' : j * wordSize = j * 4 := rfl
  simp only [Options.noneWords, List.mem_cons, List.not_mem_nil, or_false] at hr
  rcases hr with rfl | rfl
  · obtain rfl : i = j := by simpa [noneTarget] using h
    rw [address_add_ofNat_mod, address_zero]
    omega
  · have hne : ¬ ({} : Options).objectSentinel = 0 := by decide
    rw [noneTarget, if_neg hne] at h
    split at h
    · cases h
    · next hge =>
      cases h
      rw [address_add_ofNat_mod, address_objectSentinel]
      omega

/-- Below the start of memory addresses are at the very end of the range. -/
theorem le_address_of_noneTarget {r : Word} {i : Nat} (hr : r ∈ ({} : Options).noneWords)
    (h : noneTarget r i = none) : 2 ^ 32 - 8 ≤ address (r + Int32.ofNat (i * wordSize)) := by
  have hword : i * wordSize = i * 4 := rfl
  simp only [Options.noneWords, List.mem_cons, List.not_mem_nil, or_false] at hr
  rcases hr with rfl | rfl
  · simp [noneTarget] at h
  · have hne : ¬ ({} : Options).objectSentinel = 0 := by decide
    rw [noneTarget, if_neg hne] at h
    split at h
    · rw [address_add_ofNat_mod, address_objectSentinel]
      omega
    · cases h

/-- An address of the upper half reads as a negative number. -/
theorem not_le_of_address {h a : Word} (hh : h.address < 2 ^ 31) (ha : 2 ^ 31 ≤ a.address) :
    ¬ h ≤ a := by
  have hlt := a.address_lt
  have hbits : a.toBitVec.toNat = a.address := rfl
  rw [Int32.le_iff_toInt_le, toInt_eq_address hh, Int32.toInt, BitVec.toInt_eq_toNat_cond, hbits]
  split
  · omega
  · omega

end Word

namespace Construction

/-- Objects that lie one behind the other take no more room than there is. -/
theorem total_le {cs : List Construction} {base limit : Nat} (hle : base ≤ limit)
    (hbase : ∀ c ∈ cs, base ≤ c.address.address)
    (hlimit : ∀ c ∈ cs, c.address.address + c.size ≤ limit)
    (hordered : cs.Pairwise fun c d => c.address.address + c.size ≤ d.address.address) :
    base + total cs * wordSize ≤ limit := by
  induction cs generalizing base with
  | nil => simpa [total] using hle
  | cons c rest ih =>
    obtain ⟨hfirst, hrest⟩ := List.pairwise_cons.mp hordered
    have hc := hbase c List.mem_cons_self
    have hsum := ih (hlimit c List.mem_cons_self) hfirst
      (fun d hd => hlimit d (List.mem_cons_of_mem c hd)) hrest
    have htotal : total (c :: rest) * wordSize = c.size + total rest * wordSize := by
      simp [total, size, Nat.add_mul]
    omega

/-- Where objects take all the room that there is, every word of it belongs to one of them. -/
theorem exists_word {cs : List Construction} {base j : Nat}
    (hbase : ∀ c ∈ cs, base ≤ c.address.address)
    (hlimit : ∀ c ∈ cs, c.address.address + c.size ≤ base + total cs * wordSize)
    (hordered : cs.Pairwise fun c d => c.address.address + c.size ≤ d.address.address)
    (hj : j < total cs) :
    ∃ c ∈ cs, ∃ i < c.words.length, c.address.address + i * wordSize = base + j * wordSize := by
  induction cs generalizing base j with
  | nil => simp [total] at hj
  | cons c rest ih =>
    obtain ⟨hfirst, hrest⟩ := List.pairwise_cons.mp hordered
    have htotal : total (c :: rest) = c.words.length + total rest := by simp [total]
    have hsize : c.size = c.words.length * wordSize := rfl
    rw [htotal, Nat.add_mul, ← hsize] at hlimit
    -- The room behind the first object is no smaller than the others need.
    have hroom := total_le (hlimit c List.mem_cons_self) hfirst
      (fun d hd => hlimit d (List.mem_cons_of_mem c hd)) hrest
    have hc := hbase c List.mem_cons_self
    have haddress : c.address.address = base := by omega
    by_cases hlt : j < c.words.length
    · exact ⟨c, List.mem_cons_self, j, hlt, by rw [haddress]⟩
    · obtain ⟨d, hd, i, hi, heq⟩ := @ih (base + c.size) (j - c.words.length)
        (fun d hd => haddress ▸ hfirst d hd)
        (fun d hd => by have := hlimit d (List.mem_cons_of_mem c hd); omega) hrest (by omega)
      refine ⟨d, List.mem_cons_of_mem c hd, i, hi, ?_⟩
      have hsub : (j - c.words.length) * wordSize = j * wordSize - c.size := by
        rw [Nat.sub_mul, hsize]
      have hmul : c.words.length * wordSize ≤ j * wordSize :=
        Nat.mul_le_mul_right _ (Nat.le_of_not_lt hlt)
      omega

end Construction

namespace Machine

variable {σ : Type} {m : Machine σ} {q : Progress σ} {n size : Nat} {a : Word}

/-- An access that is made to the address after `n` steps traps. A store at or above the end of the
heap is taken for an allocation that does not fit. -/
structure Misses (m : Machine σ) (q : Progress σ) (n size : Nat) (a : Word) : Prop where
  read : ∀ (k : Spot) (ls : Bindings Word) (st : List Word) (rest : List Instr) (s : Store σ),
    m.after n q = .next (k.state ls (a :: st) (.load :: rest) s) →
      m.after (n + 1) q = .halt (.error (.outOfBounds a.address size)) s
  write : ∀ (k : Spot) (ls : Bindings Word) (st : List Word) (rest : List Instr) (s : Store σ)
    (w h : Word), s.globals.find? Symbol.heapPointer = some h →
    m.after n q = .next (k.state ls (w :: a :: st) (.store :: rest) s) →
      m.after (n + 1) q =
        .halt (.error (if h ≤ a then .outOfMemory h size else .outOfBounds a.address size)) s

/-- An access that is made to the address after `n` steps reads the word there, or replaces it. -/
structure Serves (m : Machine σ) (q : Progress σ) (n : Nat) (a : Word) : Prop where
  read : ∀ (k : Spot) (ls : Bindings Word) (st : List Word) (rest : List Instr) (s : Store σ),
    m.after n q = .next (k.state ls (a :: st) (.load :: rest) s) →
      ∃ w, s.memory.load a = .ok w ∧ m.after (n + 1) q = .next (k.state ls (w :: st) rest s)
  write : ∀ (k : Spot) (ls : Bindings Word) (st : List Word) (rest : List Instr) (s : Store σ)
    (w : Word), m.after n q = .next (k.state ls (w :: a :: st) (.store :: rest) s) →
      ∃ memory, s.memory.store a w = .ok memory ∧
        m.after (n + 1) q = .next (k.state ls st rest { s with memory })

theorem misses (hsize : (m.after n q).store.memory.size = size)
    (hout : size < a.address + wordSize) : m.Misses q n size a := by
  constructor
  · intro k ls st rest s hat
    rw [hat, Progress.store_state] at hsize
    subst hsize
    rw [after_succ, hat, advance, step_load, Memory.load_of_not_fits hout]
  · intro k ls st rest s w h hh hat
    rw [hat, Progress.store_state] at hsize
    subst hsize
    have hstore : s.storeWord a w = .error
        (if h ≤ a then .outOfMemory h s.memory.size
          else .outOfBounds a.address s.memory.size) := by
      simp only [Store.storeWord, Memory.store_of_not_fits hout, hh]
    rw [after_succ, hat, advance, step_store, hstore]

theorem serves (hin : a.address + wordSize ≤ (m.after n q).store.memory.size) :
    m.Serves q n a := by
  constructor
  · intro k ls st rest s hat
    rw [hat, Progress.store_state] at hin
    obtain ⟨w, hload⟩ := Memory.load_of_fits hin
    refine ⟨w, hload, ?_⟩
    rw [after_succ, hat, advance, step_load, hload]
  · intro k ls st rest s w hat
    rw [hat, Progress.store_state] at hin
    obtain ⟨memory, hstore⟩ := Memory.store_of_fits hin w
    refine ⟨memory, hstore, ?_⟩
    rw [after_succ, hat, advance, step_store, Store.storeWord, hstore]

/-- What an access to a field comes to, after `n` steps and with the constructions in `cs`, if its
receiver is a word that stands for `None`. -/
structure NoneAccess (m : Machine σ) (q : Progress σ) (n size : Nat) (cs : List Construction)
    (r : Word) (f : FieldSlot) : Prop where
  address : ∀ (k : Spot) (ls : Bindings Word) (st : List Word) (rest : List Instr) (s : Store σ),
    m.after n q = .next (k.state ls (r :: st) (Expr.fieldAddress [] f ++ rest) s) →
      m.after (n + 2) q = .next (k.state ls ((r + Int32.ofNat f.offset) :: st) rest s)
  below : noneTarget r f.index = none →
    m.Misses q n size (r + Int32.ofNat f.offset) ∧
      ∀ h, (m.after n q).store.globals.find? Symbol.heapPointer = some h →
        ¬ h ≤ r + Int32.ofNat f.offset
  beyond : ∀ j, noneTarget r f.index = some j → size < (j + 1) * wordSize →
    m.Misses q n size (r + Int32.ofNat f.offset)
  inside : ∀ j, noneTarget r f.index = some j → (j + 1) * wordSize ≤ size →
    Word.address (r + Int32.ofNat f.offset) = j * wordSize ∧
      m.Serves q n (r + Int32.ofNat f.offset) ∧
      ((∃ c ∈ cs, ∃ i < c.words.length, c.address.address + i * wordSize = j * wordSize) ↔
        0 < j ∧ j ≤ Construction.total cs)

section

variable {P : List Word → Prop} {base : Nat} {cs : List Construction}

/-- The end of the heap lies in the lower half, as memory does. -/
theorem Balanced.heap_lt (hb : m.Balanced q P base size n cs) (hbase : base < 2 ^ 31)
    (hsize : size < 2 ^ 31) {h : Word}
    (hh : (m.after n q).store.globals.find? Symbol.heapPointer = some h) :
    h.address < 2 ^ 31 := by
  obtain ⟨h', hheap, haddr⟩ := hb.heap
  obtain rfl : h' = h := Option.some.inj (hheap.symm.trans hh)
  by_cases hnil : cs = []
  · rw [haddr, hnil]
    simpa [Construction.total] using hbase
  · have hle := hb.bounded hnil
    omega

/-- The words between the base and the end of the heap are those of objects. -/
theorem Balanced.exists_word_iff (hb : m.Balanced q P base size n cs) (j : Nat) :
    (∃ c ∈ cs, ∃ i < c.words.length, c.address.address + i * wordSize = base + j * wordSize) ↔
      j < Construction.total cs := by
  have hword : wordSize = 4 := rfl
  constructor
  · rintro ⟨c, hc, i, hi, heq⟩
    have hend := (hb.past c hc).2
    rw [Construction.size, hword] at hend
    rw [hword] at heq
    omega
  · intro hj
    exact Construction.exists_word (fun c hc => (hb.placed c hc).1.base_le)
      (fun c hc => (hb.past c hc).2) (hb.ordered.imp And.right) hj

/-- No object has a word below the base. -/
theorem Balanced.word_of_none (hb : m.Balanced q P wordSize size n cs) (j : Nat) :
    (∃ c ∈ cs, ∃ i < c.words.length, c.address.address + i * wordSize = j * wordSize) ↔
      0 < j ∧ j ≤ Construction.total cs := by
  have hword : wordSize = 4 := rfl
  cases j with
  | zero =>
    simp only [Nat.zero_mul, Nat.lt_irrefl, false_and, iff_false]
    rintro ⟨c, hc, i, hi, heq⟩
    have hle := (hb.placed c hc).1.base_le
    omega
  | succ j =>
    have hsucc : (j + 1) * wordSize = wordSize + j * wordSize := by rw [Nat.succ_mul, Nat.add_comm]
    rw [hsucc, hb.exists_word_iff j]
    omega

theorem after_fieldAddress {k : Spot} {ls : Bindings Word} {st : List Word} {rest : List Instr}
    {s : Store σ} {r : Word} {f : FieldSlot}
    (hat : m.after n q = .next (k.state ls (r :: st) (Expr.fieldAddress [] f ++ rest) s)) :
    m.after (n + 2) q = .next (k.state ls ((r + Int32.ofNat f.offset) :: st) rest s) := by
  rw [after_add, hat, Expr.fieldAddress, List.nil_append, List.cons_append, after_next, step_const,
    List.cons_append, after_next, step_numeric]
  rfl

theorem Balanced.noneAccess {r : Word} {f : FieldSlot} (hb : m.Balanced q P wordSize size n cs)
    (hsize : size < 2 ^ 31) (hr : r ∈ ({} : Options).noneWords) (hf : f.index < 2 ^ 30) :
    m.NoneAccess q n size cs r f := by
  have hword : wordSize = 4 := rfl
  refine ⟨fun k ls st rest s hat => after_fieldAddress hat, ?_, ?_, ?_⟩
  · intro hnone
    have hge := Word.le_address_of_noneTarget hr hnone
    rw [← FieldSlot.offset] at hge
    refine ⟨misses hb.memory (by omega), fun h hh => ?_⟩
    apply Word.not_le_of_address (hb.heap_lt (by decide) hsize hh)
    omega
  · intro j hj hout
    have haddr := Word.address_of_noneTarget hr hf hj
    rw [← FieldSlot.offset] at haddr
    apply misses hb.memory
    rw [haddr, ← Nat.succ_mul]
    exact hout
  · intro j hj hin
    have haddr := Word.address_of_noneTarget hr hf hj
    rw [← FieldSlot.offset] at haddr
    refine ⟨haddr, serves ?_, hb.word_of_none j⟩
    rw [hb.memory, haddr, ← Nat.succ_mul]
    exact hin

end

end Machine

theorem ClassLayout.index_lt {cls : ClassDef} {f : FieldSlot}
    (hf : f ∈ (ClassLayout.ofClass cls).fields) : f.index < cls.fields.length := by
  obtain ⟨i, hi, rfl⟩ := List.mem_mapIdx.mp hf
  exact hi

/-- Where `None` comes from in a run: it is a value, or a variable holds it because nothing has been
stored in it. -/
structure NoneOrigins {σ : Type} (p : Program) (o : Options) (m : Module) (s : Store σ) : Prop where
  value : ∀ (e : Expr) (site : Site), e.isNone = true → e.lowerValue site = .ok [.const 0]
  slot : ∀ g ∈ m.functions, ∀ args : List Word, ∀ x ∈ g.locals,
    (Frame.enter g args).locals.find? x = some 0
  global : ∀ x ∈ p.globalNames, ∃ w ∈ o.noneWords, s.globals.find? x = some w

theorem Frame.enter_find? {f : Func} (args : List Word) {x : String} (hx : x ∈ f.locals) :
    (Frame.enter f args).locals.find? x = some 0 := by
  have hmem : x ∈ (f.locals.map (·, (0 : Word))).map (·.1) := by simpa using hx
  rw [Frame.enter, Bindings.ofList, List.foldl_append]
  obtain ⟨w, hw, hfind⟩ := Bindings.exists_find?_foldl_insert _ hmem
  obtain ⟨y, -, heq⟩ := List.mem_map.mp hw
  cases heq
  exact hfind

theorem Emitted.noneOrigins {σ : Type} {p : Program} {o : Options} {m : Module}
    (h : Emitted p o m) (c : Config) (s : σ) : NoneOrigins p o m (Store.initial m c s) := by
  refine ⟨fun e site he => ?_, fun g _ args x hx => Frame.enter_find? args hx, fun x hx => ?_⟩
  · simp [Expr.lowerValue, Expr.lower_of_isNone he]
  · rw [← p.initialGlobals_names o] at hx
    obtain ⟨w, hw, hfind⟩ := Bindings.exists_find?_foldl_insert
      (Bindings.insert [] Symbol.heapPointer o.heapBase) hx
    obtain ⟨ty, hty⟩ := Program.exists_ty_of_mem_initialGlobals hw
    have hmem := o.initial_mem_noneWords ty
    rw [← hty] at hmem
    refine ⟨w, hmem, ?_⟩
    rw [h.initial_globals]
    exact hfind

namespace Program

/-- An access through `None` traps exactly if the word that it comes to is not in memory. That is so
for the first two fields if `None` is the sentinel. Otherwise it reads or replaces a word, and the
word belongs to an object if the heap reaches that far. -/
theorem none_access {σ : Type} {p : Program} {m : Module} (h : p.compile {} = .ok m)
    (hd : p.Dotless) (hf : ∀ d ∈ p.classes, d.fields.length < 2 ^ 30) (host : Host σ) (c : Config)
    (s : σ) (hmem : (Store.initial m c s).memory.size < 2 ^ 31) :
    let mach := Machine.ofModule m c host
    let q := mach.start ({} : Options).entryExport (Store.initial m c s)
    let size := (Store.initial m c s).memory.size
    NoneOrigins p {} m (Store.initial m c s) ∧
      ∀ n, ∃ cs, mach.Balanced q (Defaults p.classes) wordSize size n cs ∧
        (∀ d, d ∈ cs ↔ (∃ cls ∈ p.classes, d.OfClass mach q cls) ∧ d.finish ≤ n) ∧
        ∀ cls ∈ p.classes, ∀ f ∈ (ClassLayout.ofClass cls).fields, ∀ r ∈ ({} : Options).noneWords,
          mach.NoneAccess q n size cs r f := by
  intro mach q size
  obtain ⟨t, ht, hlower⟩ := compile_eq_ok_iff.mp h
  have hsame := check_sameOutline ht
  have horigins := ((check_elaborated ht).emitted (hsame.dotless hd) hlower).noneOrigins c s
  refine ⟨⟨horigins.value, horigins.slot, hsame.globalNames ▸ horigins.global⟩, fun n => ?_⟩
  have ha := allocates h hd hf host c s (by omega)
  obtain ⟨cs, hbalanced, hledger⟩ := exists_ledger ha n
  refine ⟨cs, hbalanced, hledger, ?_⟩
  intro cls hcls f hfield r hr
  exact hbalanced.noneAccess hmem hr (Nat.lt_trans (ClassLayout.index_lt hfield) (hf cls hcls))

/-- A program that has an object and sets a field of a variable that was declared with `None`. -/
def noneWriter : Program :=
  let note : Note := ⟨default, none⟩
  let var (x : String) : Expr := .name note (.plain x)
  { vars := []
    funcs := [{
      name := "touch", params := [], ret := .int, span := default
      body := [
        .declare ⟨"p", .object "Pair", .literal note .none, default⟩,
        .assign default (.field (var "p") "b") (.literal note (.number 99)),
        .ret default (.field note (var "p") "b")] }]
    classes := [{
      name := "Pair", methods := [], span := default
      fields := [⟨"a", .int, .number 1, default⟩, ⟨"b", .int, .number 2, default⟩] }]
    stmts := [
      .declare ⟨"q", .object "Pair", .call note "Pair" [], default⟩,
      .expr (.call note "touch" []),
      .expr (.field note (var "q") "a")]
    ty := none }

/-- At its end the second field of `None` is a word of an object. -/
theorem none_access_noneWriter : ∃ m cs, noneWriter.compile {} = .ok m ∧ noneWriter.Dotless ∧
    (∀ d ∈ noneWriter.classes, d.fields.length < 2 ^ 30) ∧
    (Store.initial m {} Recording.empty).memory.size < 2 ^ 31 ∧
    (Machine.ofModule m {} Recording.host).NoneAccess
      ((Machine.ofModule m {} Recording.host).start ({} : Options).entryExport
        (Store.initial m {} Recording.empty))
      200 (Store.initial m {} Recording.empty).memory.size cs 0 ⟨"b", 1, .number 2⟩ ∧
    ∃ c ∈ cs, ∃ i < c.words.length, c.address.address + i * wordSize = wordSize := by
  have hdot : noneWriter.Dotless := by decide
  have hfields : ∀ d ∈ noneWriter.classes, d.fields.length < 2 ^ 30 := by decide
  have hfield : ∀ cls ∈ noneWriter.classes,
      (⟨"b", 1, .number 2⟩ : FieldSlot) ∈ (ClassLayout.ofClass cls).fields := by decide
  have hrun : (noneWriter.compile {}).toOption.bind (fun m =>
      (m.run 200 {} Recording.host .empty {}).map fun r =>
        (r.2.globals.find? Symbol.heapPointer, (Store.initial m {} Recording.empty).memory.size)) =
      some (some 12, 6553600) := by
    decide +kernel
  cases hm : noneWriter.compile {} with
  | error e =>
    rw [hm] at hrun
    cases hrun
  | ok m =>
    rw [hm] at hrun
    obtain ⟨⟨r, store⟩, hr, hstore⟩ := Option.map_eq_some_iff.mp hrun
    simp only [Prod.mk.injEq] at hstore
    obtain ⟨hheap, hsize⟩ := hstore
    have hmem : (Store.initial m {} Recording.empty).memory.size < 2 ^ 31 := by omega
    obtain ⟨cs, hbalanced, -, haccess⟩ :=
      (none_access hm hdot hfields Recording.host {} .empty hmem).2 200
    have hnone := haccess _ List.mem_cons_self _ (hfield _ List.mem_cons_self) 0 (by decide)
    refine ⟨m, cs, rfl, hdot, hfields, hmem, hnone, ?_⟩
    obtain ⟨h, hend, haddr⟩ := hbalanced.heap
    rw [Machine.run_eq_some_iff.mp hr, Progress.store_halt, hheap] at hend
    obtain rfl : 12 = h := Option.some.inj hend
    have hword : wordSize = 4 := rfl
    have htwelve : Word.address 12 = 12 := rfl
    rw [htwelve, hword] at haddr
    have hinside := (hnone.inside 1 rfl (by rw [hsize]; decide)).2.2
    rw [Nat.one_mul] at hinside
    exact hinside.mpr ⟨by omega, by omega⟩

/-- Nothing traps: the store through `None` sets the first field of the object. -/
theorem noneWriter_overwrites :
    ((noneWriter.compile {}).toOption.bind fun m =>
      (m.run 200 {} Recording.host .empty {}).map fun r =>
        (r.1.toOption, r.2.globals.find? "q", (r.2.memory.load 4).toOption)) =
      some (some (some 99), some 4, some 99) := by
  decide +kernel

end Program

end TypedScript
