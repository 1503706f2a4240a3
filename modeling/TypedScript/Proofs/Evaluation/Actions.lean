import TypedScript.Proofs.Evaluation.Builtins
import TypedScript.Proofs.Lowering.Emitted

/-! # Actions on the machine

Variables, memory, the host and calls: what evaluation does to them, the instructions do as well. -/

namespace TypedScript

namespace Program.Dotless

variable {p : Program}

theorem heapPointer_notMem (hd : p.Dotless) : Symbol.heapPointer ∉ p.globalNames := by
  intro h
  exact hd Symbol.heapPointer (List.mem_append_left _ (List.mem_append_left _ h)) (by decide)

theorem scratch_notMem (hd : p.Dotless) {f : FuncDef} (hf : f ∈ p.bodies) :
    Symbol.scratch ∉ f.slots := by
  intro h
  exact hd Symbol.scratch (List.mem_append_right _
    (List.mem_flatMap.mpr ⟨f, hf, List.mem_cons_of_mem _ h⟩)) (by decide)

end Program.Dotless

namespace Memory

variable {mem mem' : Memory} {a v : Word}

theorem store_size (h : mem.store a v = .ok mem') : mem'.size = mem.size := by
  rw [store_eq] at h
  split at h
  · cases h
    rfl
  · cases h

theorem contains_iff : mem.contains a = true ↔ a.address + wordSize ≤ mem.size :=
  decide_eq_true_iff

theorem fits_of_store (h : mem.store a v = .ok mem') : a.address + wordSize ≤ mem.size := by
  rw [store_eq] at h
  split at h
  · next hc => exact contains_iff.mp hc
  · cases h

theorem not_fits_of_store {t : Trap} (h : mem.store a v = .error t) :
    mem.size < a.address + wordSize := by
  rw [store_eq] at h
  split at h
  · cases h
  · next hc => exact Nat.lt_of_not_le fun hle => hc (contains_iff.mpr hle)

theorem fill_size (ws : List Word) : (mem.fill a ws).size = mem.size := by
  induction ws generalizing mem a with
  | nil => rfl
  | cons v ws ih =>
    rw [fill]
    split
    · next h => rw [ih, store_size h]
    · rfl

end Memory

namespace Eval

variable {σ : Type} {w : World σ} {a v : Word}

@[simp] theorem pure_run {α : Type} (x : α) : (pure x : Eval σ α) w = .ok x w := rfl

@[simp] theorem throw_run {α : Type} (e : Stop) : (throw e : Eval σ α) w = .error e w := rfl

@[simp] theorem set_run (w' : World σ) : (set w' : Eval σ PUnit) w = .ok () w' := rfl

@[simp] theorem get_bind {α : Type} (f : World σ → Eval σ α) :
    ((get : Eval σ (World σ)) >>= f) w = f w w := rfl

@[simp] theorem set_bind {α : Type} (w' : World σ) (f : PUnit → Eval σ α) :
    ((set w' : Eval σ PUnit) >>= f) w = f () w' := rfl

theorem modify_bind {α : Type} (g : World σ → World σ) (f : PUnit → Eval σ α) :
    ((modify g : Eval σ PUnit) >>= f) w = f () (g w) := rfl

theorem store_of_ok {mem : Memory} (h : w.memory.store a v = .ok mem) :
    store a v w = .ok () { w with memory := mem } := by
  simp [store, h]

theorem store_of_error {t : Trap} (h : w.memory.store a v = .error t) :
    store a v w =
      .error (.trap (if w.heap ≤ a then .outOfMemory w.heap w.memory.size else t)) w := by
  simp [store, h]

theorem allocate_run (ws : List Word) :
    allocate ws w =
      let w' := { w with memory := w.memory.fill w.heap ws }
      if w.heap.address + ws.length * wordSize ≤ w.memory.size then
        .ok w.heap { w' with heap := w.heap + Int32.ofNat (ws.length * wordSize) }
      else .error (.trap (.outOfMemory w.heap w.memory.size)) w' := by
  by_cases h : w.heap.address + ws.length * wordSize ≤ w.memory.size <;>
    simp only [allocate, get_bind, set_bind, modify_bind, pure_run, throw_run, h, if_true, if_false]

end Eval

namespace Valuation.Agrees

variable {l : Valuation} {slots : List String} {ls : Bindings Word} {x : String}

theorem update (h : l.Agrees slots ls) (v : Word) :
    Valuation.Agrees (Function.update l x v) slots (ls.insert x v) := by
  refine ⟨fun y hy => ?_, by simp [Bindings.contains_insert, h.scratch]⟩
  rw [Bindings.find?_insert]
  by_cases hyx : y = x
  · simp [hyx]
  · simp [hyx, h.slots y hy]

theorem insert_scratch (h : l.Agrees slots ls) (hs : Symbol.scratch ∉ slots) (v : Word) :
    l.Agrees slots (ls.insert Symbol.scratch v) := by
  refine ⟨fun y hy => ?_, by simp [Bindings.contains_insert]⟩
  have hne : y ≠ Symbol.scratch := by
    rintro rfl
    exact hs hy
  rw [Bindings.find?_insert, if_neg hne, h.slots y hy]

end Valuation.Agrees

namespace World.Agrees

variable {σ : Type} {p : Program} {w : World σ} {s : Store σ}

theorem setGlobal (h : w.Agrees p s) (hp : Symbol.heapPointer ∉ p.globalNames) {x : String}
    (hx : x ∈ p.globalNames) (v : Word) :
    ∃ s', s.setGlobal x v = .ok s' ∧
      World.Agrees p { w with globals := Function.update w.globals x v } s' := by
  have hne : x ≠ Symbol.heapPointer := by
    rintro rfl
    exact hp hx
  have hc : s.globals.contains x = true := Bindings.contains_iff.mpr ⟨_, h.globals x hx⟩
  refine ⟨{ s with globals := s.globals.insert x v }, by simp [Store.setGlobal, hne, hc], ?_⟩
  refine ⟨fun y hy => ?_, ?_, h.memory, h.host, h.small⟩
  · rw [Bindings.find?_insert]
    by_cases hyx : y = x
    · simp [hyx]
    · simp [hyx, h.globals y hy]
  · rw [Bindings.find?_insert, if_neg hne.symm]
    exact h.heap

theorem setHeap (h : w.Agrees p s) (hp : Symbol.heapPointer ∉ p.globalNames) (a : Word) :
    World.Agrees p { w with heap := a }
      { s with globals := s.globals.insert Symbol.heapPointer a } := by
  refine ⟨fun y hy => ?_, by simp, h.memory, h.host, h.small⟩
  have hne : y ≠ Symbol.heapPointer := by
    rintro rfl
    exact hp hy
  rw [Bindings.find?_insert, if_neg hne]
  exact h.globals y hy

theorem setMemory (h : w.Agrees p s) {mem : Memory} (hs : mem.size = w.memory.size) :
    World.Agrees p { w with memory := mem } { s with memory := mem } :=
  ⟨h.globals, h.heap, rfl, h.host, hs ▸ h.small⟩

theorem setHost (h : w.Agrees p s) (host : σ) :
    World.Agrees p { w with host } { s with host } :=
  ⟨h.globals, h.heap, h.memory, rfl, h.small⟩

end World.Agrees

section

variable {σ : Type} {m : Machine σ} {p : Program} {fuel : Nat} {k : Spot} {ls : Bindings Word}
  {st : List Word} {rest : List Instr} {s : Store σ} {w : World σ} {slots : List String}
  {l : Valuation} {x : String} {v a b : Word}

theorem get_follows {layouts : Layouts} (hl : l.Agrees slots ls) (hw : w.Agrees p s)
    (hx : x ∈ slots ∨ x ∈ p.globalNames) :
    Follows m p fuel (.next (k.state ls st (Site.get ⟨layouts, slots⟩ x :: rest) s))
      (Eval.getVar slots l x w) (Pushed p k ls st rest) := by
  by_cases hs : x ∈ slots
  · simp only [Site.get, Eval.getVar, List.contains_iff_mem, hs, if_true]
    exact .step (Machine.step_localGet (hl.slots x hs)) (.done ⟨s, hw, rfl⟩)
  · simp only [Site.get, Eval.getVar, List.contains_iff_mem, hs, if_false]
    exact .step (Machine.step_globalGet (hw.globals x (hx.resolve_left hs))) (.done ⟨s, hw, rfl⟩)

theorem set_follows {layouts : Layouts} (hd : p.Dotless) (hl : l.Agrees slots ls)
    (hw : w.Agrees p s) (hx : x ∈ slots ∨ x ∈ p.globalNames) :
    Follows m p fuel (.next (k.state ls (v :: st) (Site.set ⟨layouts, slots⟩ x :: rest) s))
      (Eval.setVar slots l x v w) (Arrived p k slots st rest) := by
  by_cases hs : x ∈ slots
  · simp only [Site.set, Eval.setVar, List.contains_iff_mem, hs, if_true]
    have hc : ls.contains x = true := Bindings.contains_iff.mpr ⟨_, hl.slots x hs⟩
    exact .step (Machine.step_localSet hc) (.done ⟨_, s, hl.update v, hw, rfl⟩)
  · simp only [Site.set, Eval.setVar, List.contains_iff_mem, hs, if_false]
    have hg : x ∈ p.globalNames := hx.resolve_left hs
    obtain ⟨s', hs', hw'⟩ := hw.setGlobal hd.heapPointer_notMem hg v
    refine .step Machine.step_globalSet ?_
    rw [hs']
    exact .done ⟨ls, s', hl, hw', rfl⟩

/-- A step that computes a value or traps. -/
theorem lift_follows {q : State σ} {r : Except Trap Word} (hw : w.Agrees p s)
    (h : m.step q = match r with
      | .ok v => .next (k.state ls (v :: st) rest s)
      | .error t => .halt (.error t) s) :
    Follows m p fuel (.next q) (Eval.lift r w) (Pushed p k ls st rest) := by
  refine .step h ?_
  cases r with
  | ok v => exact .done ⟨s, hw, rfl⟩
  | error t => exact .trap hw

theorem numeric_follows (op : BinaryOp) (hw : w.Agrees p s) :
    Follows m p fuel (.next (k.state ls (b :: a :: st) (.numeric op.numeric :: rest) s))
      (Eval.lift (op.apply a b) w) (Pushed p k ls st rest) := by
  rw [← op.eval_numeric]
  exact lift_follows hw Machine.step_numeric

theorem load_follows (hw : w.Agrees p s) :
    Follows m p fuel (.next (k.state ls (a :: st) (.load :: rest) s)) (Eval.load a w)
      (Pushed p k ls st rest) := by
  have hload : (Eval.load a : Eval σ Word) w = Eval.lift (s.memory.load a) w := by
    rw [hw.memory]
    rfl
  rw [hload]
  exact lift_follows hw Machine.step_load

theorem store_follows (hw : w.Agrees p s) :
    Follows m p fuel (.next (k.state ls (v :: a :: st) (.store :: rest) s)) (Eval.store a v w)
      (Passed p k ls st rest) := by
  refine .step Machine.step_store ?_
  cases hm : w.memory.store a v with
  | ok mem =>
    rw [Eval.store_of_ok hm, Store.storeWord, hw.memory, hm]
    exact .done ⟨_, hw.setMemory (Memory.store_size hm), rfl⟩
  | error t =>
    rw [Eval.store_of_error hm, Store.storeWord, hw.memory, hm, hw.heap]
    exact .trap hw

theorem host_follows {fn : HostFunction} (hi : m.import? x = some fn) (hw : w.Agrees p s) :
    Follows m p fuel (.next (k.state ls (v :: st) (.call x :: rest) s))
      (Eval.hostCall m.host fn v w) (Pushed p k ls st rest) := by
  refine .step (Machine.step_import hi) ?_
  rw [hw.host]
  have heval : (Eval.hostCall m.host fn v : Eval σ Word) w =
      Eval.lift (m.host.call fn v w.host).1 { w with host := (m.host.call fn v w.host).2 } := rfl
  rw [heval]
  cases hc : m.host.call fn v w.host with
  | mk r host =>
    cases r with
    | ok v => exact .done ⟨_, hw.setHost host, rfl⟩
    | error t => exact .trap (hw.setHost host)

theorem initField_follows (f : FieldSlot) (hw : w.Agrees p s) :
    Follows m p fuel (.next (k.state ls st (ClassLayout.initField f ++ rest) s))
      (Eval.store (w.heap + Int32.ofNat f.offset) f.default.word w) (Passed p k ls st rest) :=
  .step (Machine.step_globalGet hw.heap) (.step Machine.step_const
    (.step Machine.step_numeric (.step Machine.step_const (store_follows hw))))

/-- Code that writes the defaults of fields, those before index `i` being written. The words lie in
memory one by one until the first that does not, which is past the heap pointer. -/
theorem fill_follows (ds : List VarDef) (i : Nat) (hw : w.Agrees p s)
    (hi : i = 0 ∨ w.heap.address + i * wordSize ≤ w.memory.size) :
    Follows m p fuel
      (.next (k.state ls st
        ((ds.mapIdx fun j d => FieldSlot.mk d.name (j + i) d.value).flatMap
          ClassLayout.initField ++ rest) s))
      (let w' := { w with
        memory := w.memory.fill (w.heap + Int32.ofNat (i * wordSize)) (ds.map (·.value.word)) }
      if ds = [] ∨ w.heap.address + (i + ds.length) * wordSize ≤ w.memory.size then .ok () w'
      else .error (.trap (.outOfMemory w.heap w.memory.size)) w')
      (Passed p k ls st rest) := by
  induction ds generalizing i s w with
  | nil => exact .done ⟨s, hw, rfl⟩
  | cons d ds ih =>
    have hsmall : w.memory.size < 2 ^ 31 := hw.small
    -- what was written so far lies in memory, so the address has not wrapped around
    have hbound : w.heap.address + i * wordSize < 2 ^ 32 := by
      rcases hi with rfl | hi
      · simpa [Word.address] using UInt32.toNat_lt w.heap.toUInt32
      · omega
    have haddress := Word.address_add_ofNat hbound
    have hnext : i * wordSize + wordSize = (i + 1) * wordSize := (Nat.succ_mul i wordSize).symm
    have hlength : i + (d :: ds).length = i + 1 + ds.length := by
      rw [List.length_cons]
      omega
    have hhead (tail : List Instr) : Follows m p fuel
        (.next (k.state ls st (ClassLayout.initField ⟨d.name, i, d.value⟩ ++ tail) s))
        (Eval.store (w.heap + Int32.ofNat (i * wordSize)) d.value.word w)
        (Passed p k ls st tail) := initField_follows ⟨d.name, i, d.value⟩ hw
    rw [List.mapIdx_cons, List.flatMap_cons, List.append_assoc, hlength]
    simp only [Nat.zero_add, List.map_cons, Memory.fill, reduceCtorEq, false_or]
    cases hm : w.memory.store (w.heap + Int32.ofNat (i * wordSize)) d.value.word with
    | ok mem =>
      rw [Eval.store_of_ok hm] at hhead
      refine (hhead _).trans ?_
      rintro _ ⟨s', hw', rfl⟩
      have hfits := Memory.fits_of_store hm
      have hsize := Memory.store_size hm
      rw [haddress, Nat.add_assoc, hnext] at hfits
      have hlast : ds = [] → w.heap.address + (i + 1 + ds.length) * wordSize ≤ w.memory.size := by
        rintro rfl
        exact hfits
      have hrest := ih (i + 1) hw' (.inr (hsize ▸ hfits))
      simp only [or_iff_right_of_imp hlast, hsize, ← hnext, Int32.ofNat_add, ← Int32.add_assoc,
        ← Nat.add_assoc, Nat.add_right_comm _ i 1] at hrest ⊢
      exact hrest
    | error t =>
      have hfits := Memory.not_fits_of_store hm
      rw [haddress, Nat.add_assoc, hnext] at hfits
      -- addresses are compared as signed words, which is why memory has to be small
      have hle : w.heap ≤ w.heap + Int32.ofNat (i * wordSize) := by
        rcases hi with rfl | hi
        · simp
        · exact Word.le_add_ofNat (by omega)
      have hcond : ¬ w.heap.address + (i + 1 + ds.length) * wordSize ≤ w.memory.size := by
        have : (i + 1) * wordSize ≤ (i + 1 + ds.length) * wordSize :=
          Nat.mul_le_mul_right wordSize (by omega)
        omega
      rw [Eval.store_of_error hm, if_pos hle] at hhead
      rw [if_neg hcond]
      exact (hhead _).error

/-- Code that moves the heap pointer up and leaves where it was. -/
theorem moveHeap_follows (hd : p.Dotless) (n : Nat) (hw : w.Agrees p s) :
    Follows m p fuel
      (.next (k.state ls st ([.globalGet Symbol.heapPointer, .globalGet Symbol.heapPointer,
        .const (Int32.ofNat n), .numeric .add, .globalSet Symbol.heapPointer] ++ rest) s))
      (if (w.heap + Int32.ofNat n).address ≤ w.memory.size then
        .ok w.heap { w with heap := w.heap + Int32.ofNat n }
      else .error (.trap (.outOfMemory (w.heap + Int32.ofNat n) w.memory.size)) w)
      (Pushed p k ls st rest) := by
  have hbound : s.globals.contains Symbol.heapPointer = true :=
    Bindings.contains_iff.mpr ⟨_, hw.heap⟩
  refine .step (Machine.step_globalGet hw.heap) (.step (Machine.step_globalGet hw.heap)
    (.step Machine.step_const (.step Machine.step_numeric (.step Machine.step_globalSet ?_))))
  simp only [Store.setGlobal, hw.memory, true_and, ← Nat.not_le, hbound, if_true]
  by_cases hfits : (w.heap + Int32.ofNat n).address ≤ w.memory.size
  · simp only [hfits, not_true_eq_false, if_true, if_false]
    exact .done ⟨_, hw.setHeap hd.heapPointer_notMem _, by rw [hw.memory]; rfl⟩
  · simp only [hfits, not_false_eq_true, if_true, if_false]
    exact .trap hw

theorem allocate_follows (hd : p.Dotless) (c : ClassDef) (hw : w.Agrees p s) :
    Follows m p fuel (.next (k.state ls st ((ClassLayout.ofClass c).allocate ++ rest) s))
      (Eval.allocate (c.fields.map (·.value.word)) w) (Pushed p k ls st rest) := by
  have hsmall : w.memory.size < 2 ^ 31 := hw.small
  have hzero : Int32.ofNat 0 = 0 := rfl
  have hsize : (ClassLayout.ofClass c).size = c.fields.length * wordSize := by
    simp [ClassLayout.size, ClassLayout.ofClass]
  have hfill (tail : List Instr) : Follows m p fuel _ _ (Passed p k ls st tail) :=
    fill_follows c.fields 0 hw (.inl rfl)
  simp only [Nat.add_zero, Nat.zero_add, Nat.zero_mul, hzero, Int32.add_zero] at hfill
  rw [ClassLayout.allocate, List.append_assoc, Eval.allocate_run, List.length_map, hsize]
  by_cases hfits : w.heap.address + c.fields.length * wordSize ≤ w.memory.size
  · simp only [hfits, or_true, if_true] at hfill ⊢
    refine (hfill _).trans ?_
    rintro _ ⟨s', hw', rfl⟩
    have hmove : Follows m p fuel _ _ (Pushed p k ls st rest) :=
      moveHeap_follows hd (c.fields.length * wordSize) hw'
    have hroom : (w.heap + Int32.ofNat (c.fields.length * wordSize)).address ≤ w.memory.size := by
      rw [Word.address_add_ofNat (by omega)]
      exact hfits
    rw [Memory.fill_size, if_pos hroom] at hmove
    exact hmove
  · by_cases hnil : c.fields = []
    · have hlength : c.fields.length * wordSize = 0 := by simp [hnil]
      have hempty : c.fields = [] ∨ w.heap.address + c.fields.length * wordSize ≤ w.memory.size :=
        .inl hnil
      simp only [hempty, if_true] at hfill
      refine (hfill _).trans ?_
      rintro _ ⟨s', hw', rfl⟩
      have hmove : Follows m p fuel _ _ (Pushed p k ls st rest) := moveHeap_follows hd 0 hw'
      rw [hlength, Nat.add_zero] at hfits
      rw [Memory.fill_size, hzero, Int32.add_zero, if_neg hfits] at hmove
      rw [hlength, Nat.add_zero, if_neg hfits]
      exact hmove
    · simp only [hfits, hnil, or_self, if_false] at hfill ⊢
      exact (hfill _).error

end

end TypedScript
