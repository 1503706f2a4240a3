import TypedScript.Proofs.Heap.Delivery

/-! # Object identity

Programs tell objects apart by their addresses. Objects with fields have an address of their own. An
object without fields takes no room, and the object that is constructed next has its address. What
is stored in place of an object by its constructor is told apart in the same way. -/

namespace TypedScript

theorem Word.address_inj {a b : Word} (h : a.address = b.address) : a = b := by
  have hsame : a.toUInt32 = b.toUInt32 := UInt32.toNat_inj.mp h
  rw [← Int32.toInt32_toUInt32 a, hsame, Int32.toInt32_toUInt32]

theorem Word.address_pos {w : Word} (h : 0 < w) : 0 < w.address := by
  rw [Nat.pos_iff_ne_zero]
  intro hzero
  exact Int32.ne_of_lt h (address_inj (b := w) hzero.symm)

namespace Machine

variable {σ : Type} {m : Machine σ} {q : Progress σ} {P : List Word → Prop} {base size n : Nat}
  {c d : Construction}

/-- A construction that is completed has moved the end of the heap from its address to behind the
object. -/
theorem Thrifty.completed (ha : m.Thrifty q P base size) (hc : c.Completed m q) :
    (m.after c.start q).store.globals.find? Symbol.heapPointer = some c.address ∧
    c.address.address + c.size ≤ size ∧
    ∃ h, (m.after c.finish q).store.globals.find? Symbol.heapPointer = some h ∧
      h.address = c.address.address + c.size := by
  obtain ⟨cs, hcs⟩ := exists_built ha c.start
  have hbalanced := hcs.balanced ha
  obtain ⟨h, hheap, -⟩ := hbalanced.heap
  have hsize := ha.addressable
  obtain ⟨rfl, halloc⟩ := completed_allocated hc hheap (by rw [hbalanced.memory]; exact hsize)
  have hfits : c.address.address + c.size ≤ size := hbalanced.memory ▸ halloc.fits
  refine ⟨hheap, hfits, c.address + Int32.ofNat c.size, ?_, ?_⟩
  · rw [halloc.globals]
    exact Bindings.find?_insert_self _ _ _
  · exact Word.address_add_ofNat (by omega)

/-- Of two constructions that are completed, one comes to its end before the other begins. -/
theorem Thrifty.finish_le (ha : m.Thrifty q P base size) (hc : c.Completed m q)
    (hd : d.Completed m q) (hlt : c.start < d.start) : c.finish ≤ d.start := by
  have hfits := (ha.completed hc).2.1
  have hsize := ha.addressable
  have hword : c.size = c.words.length * 4 := rfl
  exact le_of_atAllocation (by omega) hc.atAllocation hd.atAllocation hlt

/-- Later objects lie behind earlier ones. -/
theorem Thrifty.address_le (ha : m.Thrifty q P base size) (hc : c.Completed m q)
    (hd : d.Completed m q) (hlt : c.start < d.start) :
    c.address.address + c.size ≤ d.address.address := by
  obtain ⟨-, -, h, hheap, haddr⟩ := ha.completed hc
  obtain ⟨j, hj⟩ := Nat.exists_eq_add_of_le (ha.finish_le hc hd hlt)
  have hheap' := (ha.completed hd).1
  rw [hj] at hheap'
  rw [← haddr]
  exact ha.heap_le j hheap hheap'

theorem Thrifty.base_le (ha : m.Thrifty q P base size) (hc : c.Completed m q) :
    base ≤ c.address.address := by
  obtain ⟨h, hheap, rfl⟩ := ha.heap
  have hstart := (ha.completed hc).1
  rw [← Nat.zero_add c.start] at hstart
  exact ha.heap_le (n := 0) c.start hheap hstart

theorem Thrifty.address_ne_zero (ha : m.Thrifty q P base size) (hbase : 0 < base)
    (hc : c.Completed m q) : c.address ≠ 0 := by
  intro hzero
  have hle := ha.base_le hc
  rw [hzero] at hle
  exact absurd hbase (Nat.not_lt.mpr hle)

/-- While only objects without fields are constructed, the end of the heap stays where it is. -/
theorem Thrifty.heap_eq (ha : m.Thrifty q P base size) (hc : c.Completed m q) (stop : Nat)
    (hempty : ∀ d : Construction, d.Completed m q → P d.words → c.start ≤ d.start →
      d.start < stop → d.words = [])
    (j : Nat) (hj : c.start + j ≤ stop) {h : Word}
    (hh : (m.after (c.start + j) q).store.globals.find? Symbol.heapPointer = some h) :
    h.address = c.address.address := by
  induction j generalizing h with
  | zero =>
    obtain rfl : c.address = h := Option.some.inj ((ha.completed hc).1.symm.trans hh)
    rfl
  | succ j ih =>
    obtain ⟨cs, hcs⟩ := exists_built ha (c.start + j)
    obtain ⟨w, hw, haddr⟩ := (hcs.balanced ha).heap
    have hbefore := ih (by omega) hw
    rcases hcs.succ ha with hnext | ⟨d, hfinish, hnext⟩
    · rw [hnext.address_eq ha hh, ← haddr, hbefore]
    · obtain ⟨hplaced, hP⟩ := (hnext.balanced ha).placed d (by simp)
      have hd := hplaced.completed
      -- an earlier construction would have come to its end before this one began
      have hstart : c.start ≤ d.start := by
        by_contra hlt
        have hapart := ha.finish_le hd hc (by omega)
        omega
      have hlen := length_allocation d.words
      have hnone : d.words = [] := by
        apply hempty d hd hP hstart
        rw [Construction.finish] at hfinish
        omega
      rw [hnext.address_eq ha hh, Construction.total_snoc, hnone, List.length_nil, Nat.add_zero,
        ← haddr, hbefore]

/-- Two objects have the same address exactly if all objects from the first one up to the second are
without fields. -/
theorem Thrifty.address_ne_iff (ha : m.Thrifty q P base size) (hc : c.Completed m q)
    (hd : d.Completed m q) (hlt : c.start < d.start) :
    c.address ≠ d.address ↔ ∃ e : Construction, e.Completed m q ∧ P e.words ∧ e.words ≠ [] ∧
      c.start ≤ e.start ∧ e.start < d.start := by
  constructor
  · intro hne
    by_contra hnone
    apply hne
    apply Word.address_inj
    obtain ⟨j, hj⟩ := Nat.exists_eq_add_of_le (Nat.le_of_lt hlt)
    have hheap := (ha.completed hd).1
    rw [hj] at hheap
    refine (ha.heap_eq hc d.start (fun e he hP hle hlt => ?_) j (by omega) hheap).symm
    by_contra hwords
    exact hnone ⟨e, he, hP, hwords, hle, hlt⟩
  · rintro ⟨e, he, -, hwords, hle, hbefore⟩ heq
    have hpos : 0 < e.size := Nat.mul_pos (List.length_pos_iff.mpr hwords) (by decide)
    have hlast := ha.address_le he hd hbefore
    have hfirst : c.address.address ≤ e.address.address := by
      rcases Nat.lt_or_eq_of_le hle with hlt | hstart
      · have hbelow := ha.address_le hc he hlt
        omega
      · exact Nat.le_of_eq (by rw [completed_unique hc he hstart])
    rw [heq] at hfirst
    omega

/-- What the machine makes of `==` and `!=` on two words. -/
def Compares (m : Machine σ) (l r : Word) (same : Bool) : Prop :=
  ∀ (k : Spot) (ls : Bindings Word) (st : List Word) (rest : List Instr) (s : Store σ),
    m.step (k.state ls (r :: l :: st) (.numeric BinaryOp.equal.numeric :: rest) s) =
      .next (k.state ls (Word.ofBool same :: st) rest s) ∧
    m.step (k.state ls (r :: l :: st) (.numeric BinaryOp.notEqual.numeric :: rest) s) =
      .next (k.state ls (Word.ofBool (!same) :: st) rest s)

theorem compares_of_ne {l r : Word} (h : l ≠ r) : m.Compares l r false := by
  intro k ls st rest s
  simp [step_numeric, BinaryOp.numeric, NumericOp.eval, h]

theorem compares_self (m : Machine σ) (w : Word) : m.Compares w w true := by
  intro k ls st rest s
  simp [step_numeric, BinaryOp.numeric, NumericOp.eval]

end Machine

/-- An object with a field was constructed from the earlier of two constructions on and before the
later one. -/
def Construction.Separated {σ : Type} (m : Machine σ) (q : Progress σ) (classes : List ClassDef)
    (a b : Construction) : Prop :=
  ∃ cls ∈ classes, cls.fields ≠ [] ∧ ∃ d : Construction, d.OfClass m q cls ∧
    min a.start b.start ≤ d.start ∧ d.start < max a.start b.start

namespace Construction

variable {σ : Type} {m : Machine σ} {q : Progress σ} {classes : List ClassDef} {a b : Construction}

theorem separated_comm : a.Separated m q classes b ↔ b.Separated m q classes a := by
  rw [Separated, Separated, Nat.min_comm, Nat.max_comm]

theorem separated_iff (hlt : a.start < b.start) :
    a.Separated m q classes b ↔ ∃ d : Construction, d.Completed m q ∧ Defaults classes d.words ∧
      d.words ≠ [] ∧ a.start ≤ d.start ∧ d.start < b.start := by
  rw [Separated, Nat.min_eq_left (by omega), Nat.max_eq_right (by omega)]
  constructor
  · rintro ⟨cls, hcls, hfields, d, hd, hle, hbefore⟩
    obtain ⟨hwords, hcompleted⟩ := ofClass_iff.mp hd
    refine ⟨d, hcompleted, ⟨cls, hcls, hwords⟩, ?_, hle, hbefore⟩
    rw [hwords]
    simpa [ClassOf.defaults] using hfields
  · rintro ⟨d, hcompleted, ⟨cls, hcls, hwords⟩, hne, hle, hbefore⟩
    refine ⟨cls, hcls, ?_, d, ofClass_iff.mpr ⟨hwords, hcompleted⟩, hle, hbefore⟩
    rw [hwords] at hne
    simpa [ClassOf.defaults] using hne

/-- Of two constructions of a class with a field, the earlier one is between them itself. -/
theorem separated_of_fields {cls : ClassDef} (hcls : cls ∈ classes) (hfields : cls.fields ≠ [])
    (ha : a.OfClass m q cls) (hb : b.OfClass m q cls) (hne : a ≠ b) :
    a.Separated m q classes b := by
  have hstart : a.start ≠ b.start :=
    fun heq => hne (Machine.completed_unique (ofClass_iff.mp ha).2 (ofClass_iff.mp hb).2 heq)
  rcases Nat.lt_or_gt_of_ne hstart with hlt | hlt
  · exact ⟨cls, hcls, hfields, a, ha, Nat.min_le_left _ _, by omega⟩
  · exact ⟨cls, hcls, hfields, b, hb, Nat.min_le_right _ _, by omega⟩

/-- Objects are separated exactly if their addresses differ. -/
theorem address_ne_iff {base size : Nat} (ha : m.Thrifty q (Defaults classes) base size)
    (hc : a.Completed m q) (hd : b.Completed m q) (hne : a ≠ b) :
    a.address ≠ b.address ↔ a.Separated m q classes b := by
  have hstart : a.start ≠ b.start := fun heq => hne (Machine.completed_unique hc hd heq)
  rcases Nat.lt_or_gt_of_ne hstart with hlt | hlt
  · rw [separated_iff hlt]
    exact ha.address_ne_iff hc hd hlt
  · rw [separated_comm, separated_iff hlt, ne_comm]
    exact ha.address_ne_iff hd hc hlt

end Construction

namespace Program

/-- Comparing objects of a run. Two constructions of one class give different addresses, and `==`
and `!=` tell them apart, if and only if an object with a field was constructed from the earlier one
on and before the later one, and that is so whenever the class has a field. What the constructions
deliver are these addresses if the constructor returns only its receiver. If it returns `None`, that
is delivered in place of an object: it differs from all objects and is the same for both. -/
theorem constructions_compare {σ : Type} {p t : Program} {o : Options} {md : Module}
    (ht : p.check = .ok t) (hm : t.lower o = .ok md) (hd : p.Dotless) (host : Host σ) (c : Config)
    (s : σ) (hmem : (Store.initial md c s).memory.size ≤ 65535 * pageSize) {cls : ClassDef}
    (hcls : cls ∈ t.classes) {a b : Construction} (hne : a ≠ b) :
    let mach := Machine.ofModule md c host
    let q := mach.start o.entryExport (Store.initial md c s)
    let site (slots : List String) : Site := ⟨Layouts.ofClasses t.classes, slots⟩
    a.OfClass mach q cls → b.OfClass mach q cls →
      (cls.fields ≠ [] → a.Separated mach q t.classes b) ∧
      (a.Separated mach q t.classes b →
        a.address ≠ b.address ∧ mach.Compares a.address b.address false) ∧
      (¬ a.Separated mach q t.classes b →
        a.address = b.address ∧ mach.Compares a.address b.address true) ∧
      ∀ slots slots' pos pos' v w, a.Delivers mach q (site slots) cls pos v →
        b.Delivers mach q (site slots') cls pos' w →
        (cls.ReturnsReceiver false → v = a.address ∧ w = b.address) ∧
        (cls.ReturnsReceiver true → (v = a.address ∨ v = 0) ∧ (w = b.address ∨ w = 0)) ∧
        (v = 0 ∧ w = 0 → mach.Compares v w true) ∧
        (0 < o.heapBase → v = a.address ∧ w = 0 ∨ v = 0 ∧ w = b.address →
          mach.Compares v w false) := by
  intro mach q site ha hb
  have hsize : 65535 * pageSize < 2 ^ 32 := by decide
  have hthrifty : mach.Thrifty q (Defaults t.classes) o.heapBase.address
      (Store.initial md c s).memory.size := by
    rw [(check_sameOutline ht).defaults]
    exact thrifty (compile_eq_ok_iff.mpr ⟨t, ht, hm⟩) hd host c s (by omega)
  have hca := (Construction.ofClass_iff.mp ha).2
  have hcb := (Construction.ofClass_iff.mp hb).2
  have hiff := Construction.address_ne_iff hthrifty hca hcb hne
  refine ⟨fun hfields => ?_, fun hsep => ?_, fun hsep => ?_, ?_⟩
  · exact Construction.separated_of_fields hcls hfields ha hb hne
  · exact ⟨hiff.mpr hsep, Machine.compares_of_ne (hiff.mpr hsep)⟩
  · have heq : a.address = b.address := by
      by_contra hdiffer
      exact hsep (hiff.mp hdiffer)
    rw [heq]
    exact ⟨rfl, mach.compares_self b.address⟩
  · intro slots slots' pos pos' v w hv hw
    have hdeliver {zero : Bool} (hkeeps : cls.ReturnsReceiver zero) :
        Yieldable zero a.address v ∧ Yieldable zero b.address w :=
      ⟨delivers_yieldable ht hm hd hcls hkeeps hv, delivers_yieldable ht hm hd hcls hkeeps hw⟩
    refine ⟨fun hkeeps => ?_, fun hkeeps => ?_, ?_, fun hbase hone => ?_⟩
    · simpa [Yieldable] using hdeliver hkeeps
    · simpa [Yieldable] using hdeliver hkeeps
    · rintro ⟨rfl, rfl⟩
      exact mach.compares_self 0
    · -- no object lies at zero, which is below the base
      have hpositive := Word.address_pos hbase
      rcases hone with ⟨rfl, rfl⟩ | ⟨rfl, rfl⟩
      · exact Machine.compares_of_ne (hthrifty.address_ne_zero hpositive hca)
      · exact Machine.compares_of_ne (hthrifty.address_ne_zero hpositive hcb).symm

/-- Stores two cells under names and compares what is stored. -/
def twoCells : Program :=
  let ty : Ty := .object "Cell"
  let construct : Expr := .construct ⟨default, some ty⟩ "Cell"
  { vars := [], funcs := [], classes := [cell]
    stmts := [
      .declare ⟨"c", ty, construct, default⟩,
      .declare ⟨"d", ty, construct, default⟩,
      .expr (.binary ⟨default, some .bool⟩ .equal (.name ⟨default, some ty⟩ (.plain "c"))
        (.name ⟨default, some ty⟩ (.plain "d")))]
    ty := some .bool }

/-- The machine constructs a cell after `n` steps, at `a`, and stores it under a name. Its
constructor gives back zero, and that is stored in place of the cell. -/
def StoresCell (m : Machine Recording) (q : Progress Recording) (site : Site) (x : String) (n : Nat)
    (a : Word) : Prop :=
  ∃ init k room ls rest s s₁ s₂ s₃ s₄, m.import? "__init___Cell" = none ∧
    m.function? "__init___Cell" = some init ∧ init.params.length = 1 ∧
    m.after n q = .next (Spot.state k ls [] ((Position.stored x).code site cell ++ rest) s) ∧
    m.after (n + 10) q = .next (Spot.state k ls [a]
      (site.set x :: site.get x :: .call "__init___Cell" :: site.set x :: rest) s₁) ∧
    m.after (n + 12) q = .next (Spot.state k ls [a]
      (.call "__init___Cell" :: site.set x :: rest) s₂) ∧
    room + 1 + k.depth = m.maxCallDepth ∧
    m.after 8 (.next ⟨[Frame.enter init [a]], room, s₂⟩) = .halt (.ok (some 0)) s₃ ∧
    m.step (Spot.state k ls [0] (site.set x :: rest) s₃) = .next (Spot.state k ls [] rest s₄)

theorem StoresCell.delivers {m : Machine Recording} {q : Progress Recording} {site : Site}
    {x : String} {n : Nat} {a : Word} (h : StoresCell m q site x n a)
    (hl : site.layouts.find? "Cell" = some (ClassLayout.ofClass cell)) :
    Construction.OfClass m q cell ⟨n, [0], a⟩ ∧
      Construction.Delivers m q site cell ⟨n, [0], a⟩ (.stored x) 0 := by
  obtain ⟨init, k, room, ls, rest, s, s₁, s₂, s₃, s₄, hi, hf, hn, hstart, hput, hready, hdepth,
    hown, hset⟩ := h
  have hc : Construction.OfClass m q cell ⟨n, [0], a⟩ := ⟨rfl, k, ls, [], _, s, s₁, hstart, hput⟩
  exact ⟨hc, Construction.delivers_of_calls hl rfl hi hf hn hc hstart hready
    (Machine.calls_of_after hdepth hown) hset⟩

/-- Two cells have addresses of their own. What is stored in their places is the same. -/
theorem constructions_compare_twoCells : ∃ md, ∃ a b : Construction,
    twoCells.check = .ok twoCells ∧ twoCells.lower {} = .ok md ∧ twoCells.Dotless ∧
    (Store.initial md {} Recording.empty).memory.size ≤ 65535 * pageSize ∧
    cell ∈ twoCells.classes ∧ cell.fields ≠ [] ∧ a ≠ b ∧
    let mach := Machine.ofModule md {} Recording.host
    let q := mach.start ({} : Options).entryExport (Store.initial md {} Recording.empty)
    let site : Site := ⟨Layouts.ofClasses twoCells.classes, []⟩
    a.OfClass mach q cell ∧ b.OfClass mach q cell ∧
      mach.Compares a.address b.address false ∧
      a.Delivers mach q site cell (.stored "c") 0 ∧ b.Delivers mach q site cell (.stored "d") 0 ∧
      mach.Compares 0 0 true := by
  have ht : twoCells.check = .ok twoCells := rfl
  have hd : twoCells.Dotless := by decide
  obtain ⟨md, hm, hmem, hfirst, hsecond⟩ : ∃ md, twoCells.lower {} = .ok md ∧
      (Store.initial md {} Recording.empty).memory.size ≤ 65535 * pageSize ∧
      let mach := Machine.ofModule md {} Recording.host
      let q := mach.start ({} : Options).entryExport (Store.initial md {} Recording.empty)
      let site : Site := ⟨Layouts.ofClasses twoCells.classes, []⟩
      StoresCell mach q site "c" 0 4 ∧ StoresCell mach q site "d" 22 8 := by
    refine ⟨_, rfl, by decide, ?_, ?_⟩
    · exact ⟨_, ⟨_, none, [], [], 511⟩, 510, _, _, _, _, _, _, _, rfl, rfl, rfl, rfl, rfl, rfl, rfl,
        rfl, rfl⟩
    · exact ⟨_, ⟨_, none, [], [], 511⟩, 510, _, _, _, _, _, _, _, rfl, rfl, rfl, rfl, rfl, rfl, rfl,
        rfl, rfl⟩
  have hcls : cell ∈ twoCells.classes := List.mem_singleton.mpr rfl
  have hne : (⟨0, [0], 4⟩ : Construction) ≠ ⟨22, [0], 8⟩ := by simp
  obtain ⟨ha, hva⟩ := hfirst.delivers rfl
  obtain ⟨hb, hvb⟩ := hsecond.delivers rfl
  obtain ⟨hsep, hdiffer, -, hdelivered⟩ :=
    constructions_compare ht hm hd Recording.host {} .empty hmem hcls hne ha hb
  have hfields : cell.fields ≠ [] := by decide
  have hnone := (hdelivered [] [] _ _ 0 0 hva hvb).2.2.1 ⟨rfl, rfl⟩
  exact ⟨md, _, _, ht, hm, hd, hmem, hcls, hfields, hne, ha, hb, (hdiffer (hsep hfields)).2, hva,
    hvb, hnone⟩

def compareNew (fields : List VarDef) : Program :=
  let note : Note := ⟨default, none⟩
  { vars := [], funcs := []
    classes := [{ name := "Mark", fields, methods := [], span := default }]
    stmts := [.expr (.binary note .equal (.call note "Mark" []) (.call note "Mark" []))]
    ty := none }

/-- Objects without fields are all the same to a program. -/
theorem compareNew_nil_equal :
    (((compareNew []).compile {}).toOption.bind fun m =>
      (m.run 40 {} Recording.host .empty {}).map fun r => r.1.toOption) = some (some (some 1)) := by
  decide +kernel

end Program

end TypedScript
