import TypedScript.Proofs.Machine.Trace
import TypedScript.Proofs.Memory

/-! # Allocations

The code that constructs an object, as a function of the words that its fields start with. It writes
the words where the heap ends and then moves the end of the heap behind them. -/

namespace TypedScript

/-- Code that writes words behind the end of the heap, the first one at the given index. -/
def writeWords (i : Nat) : List Word → List Instr
  | [] => []
  | w :: ws =>
    [.globalGet Symbol.heapPointer, .const (Int32.ofNat (i * wordSize)), .numeric .add, .const w,
      .store] ++ writeWords (i + 1) ws

/-- Code that moves the end of the heap up by so many words and leaves where it was. -/
def moveHeap (n : Nat) : List Instr :=
  [.globalGet Symbol.heapPointer, .globalGet Symbol.heapPointer,
    .const (Int32.ofNat (n * wordSize)), .numeric .add, .globalSet Symbol.heapPointer]

def allocation (ws : List Word) : List Instr := writeWords 0 ws ++ moveHeap ws.length

/-- The words that the fields of an object start with. -/
def ClassOf.defaults (c : ClassDef) : List Word := c.fields.map (·.value.word)

theorem flatMap_initField (ds : List VarDef) (i : Nat) :
    (ds.mapIdx fun j d => FieldSlot.mk d.name (j + i) d.value).flatMap ClassLayout.initField =
      writeWords i (ds.map (·.value.word)) := by
  induction ds generalizing i with
  | nil => rfl
  | cons d ds ih =>
    rw [List.mapIdx_cons, List.flatMap_cons, List.map_cons, writeWords, ← ih (i + 1)]
    simp only [Nat.zero_add, Nat.add_assoc, Nat.add_comm 1 i]
    rfl

theorem allocate_ofClass (c : ClassDef) :
    (ClassLayout.ofClass c).allocate = allocation c.defaults := by
  have hwords := flatMap_initField c.fields 0
  simp only [Nat.add_zero] at hwords
  rw [ClassLayout.allocate, allocation, ClassOf.defaults, ← hwords]
  simp [ClassLayout.ofClass, ClassLayout.size, moveHeap]

theorem length_writeWords (i : Nat) (ws : List Word) :
    (writeWords i ws).length = 5 * ws.length := by
  induction ws generalizing i with
  | nil => rfl
  | cons w ws ih =>
    rw [writeWords, List.length_append, ih, List.length_cons]
    simp only [List.length_cons, List.length_nil]
    omega

theorem length_allocation (ws : List Word) : (allocation ws).length = 5 * ws.length + 5 := by
  rw [allocation, List.length_append, length_writeWords]
  rfl

def allocationFront (ws : List Word) : List Instr :=
  writeWords 0 ws ++ [.globalGet Symbol.heapPointer, .globalGet Symbol.heapPointer,
    .const (Int32.ofNat (ws.length * wordSize)), .numeric .add]

theorem allocation_eq (ws : List Word) :
    allocation ws = allocationFront ws ++ [.globalSet Symbol.heapPointer] := by
  simp [allocation, allocationFront, moveHeap]

theorem ofNat_mul_wordSize_ne_zero {n : Nat} (hpos : 0 < n) (hlt : n < 2 ^ 30) :
    Int32.ofNat (n * wordSize) ≠ 0 := by
  intro h
  have hmul : n * wordSize = n * 4 := rfl
  have hzero : (0 : Word).address = 0 := rfl
  have haddr : Word.address (0 + Int32.ofNat (n * wordSize)) = Word.address 0 + n * wordSize :=
    Word.address_add_ofNat (by omega)
  rw [h, show (0 + 0 : Word) = 0 from rfl] at haddr
  omega

/-- An allocation can be read off the code that it stands in front of. -/
theorem writeWords_append_inj {ws ws' : List Word} {i n n' : Nat} {rest rest' : List Instr}
    (h : writeWords i ws ++ (moveHeap n ++ rest) = writeWords i ws' ++ (moveHeap n' ++ rest')) :
    ws = ws' ∧ rest = rest' := by
  induction ws generalizing ws' i with
  | nil =>
    cases ws' with
    | nil =>
      simp only [writeWords, moveHeap, List.nil_append, List.cons_append, List.cons.injEq] at h
      exact ⟨rfl, h.2.2.2.2.2⟩
    | cons w' ws' => simp [writeWords, moveHeap] at h
  | cons w ws ih =>
    cases ws' with
    | nil => simp [writeWords, moveHeap] at h
    | cons w' ws' =>
      simp only [writeWords, List.cons_append, List.nil_append,
        List.cons.injEq, Instr.const.injEq, true_and] at h
      obtain ⟨rfl, h⟩ := h
      obtain ⟨rfl, hrest⟩ := ih h
      exact ⟨rfl, hrest⟩

theorem allocation_append_inj {ws ws' : List Word} {rest rest' : List Instr}
    (h : allocation ws ++ rest = allocation ws' ++ rest') : ws = ws' ∧ rest = rest' := by
  rw [allocation, allocation, List.append_assoc, List.append_assoc] at h
  exact writeWords_append_inj h

/-- Whether code may begin with an allocation. The first offset is zero, and so is the way that the
end of the heap moves for an object without fields. -/
def beginsAllocation : List Instr → Bool
  | .globalGet _ :: .globalGet _ :: .const w :: _ => w = 0
  | .globalGet _ :: .const w :: .numeric _ :: .const _ :: _ => w = 0
  | _ => false

theorem beginsAllocation_allocation (ws : List Word) (rest : List Instr) :
    beginsAllocation (allocation ws ++ rest) = true := by
  cases ws with
  | nil => rfl
  | cons w ws => rfl

theorem beginsAllocation_drop {ws : List Word} {i j : Nat} {rest : List Instr}
    (hij : 0 < i ∨ 0 < j) (hlen : i + ws.length < 2 ^ 30) (hj : j < 5 * ws.length + 5) :
    beginsAllocation ((writeWords i ws ++ moveHeap (i + ws.length)).drop j ++ rest) = false := by
  have hoffset : 0 < i → Int32.ofNat (i * wordSize) ≠ 0 := fun hi =>
    ofNat_mul_wordSize_ne_zero hi (by omega)
  induction ws generalizing i j with
  | nil =>
    rcases j with _ | _ | _ | _ | _ | j
    · exact decide_eq_false (hoffset (by omega))
    · rfl
    · rfl
    · rfl
    · rfl
    · rw [List.length_nil] at hj
      omega
  | cons w ws ih =>
    rw [List.length_cons] at hlen hj
    rcases j with _ | _ | _ | _ | _ | j
    · exact decide_eq_false (hoffset (by omega))
    · rfl
    · rfl
    · rfl
    · rfl
    · have hrest := ih (i := i + 1) (j := j) (.inl (by omega)) (by omega) (by omega)
        fun hi => ofNat_mul_wordSize_ne_zero hi (by omega)
      rw [Nat.add_assoc, Nat.add_comm 1] at hrest
      exact hrest

/-- No allocation begins inside another one. -/
theorem drop_allocation_ne {ws ws' : List Word} {j : Nat} {rest rest' : List Instr}
    (hj : 0 < j) (hlen : ws.length < 2 ^ 30) (hlt : j < (allocation ws).length) :
    (allocation ws).drop j ++ rest ≠ allocation ws' ++ rest' := by
  rw [length_allocation] at hlt
  have hdrop : beginsAllocation ((allocation ws).drop j ++ rest) = false := by
    have h : beginsAllocation ((writeWords 0 ws ++ moveHeap (0 + ws.length)).drop j ++ rest) =
        false := beginsAllocation_drop (.inr hj) (by omega) hlt
    rwa [Nat.zero_add] at h
  intro heq
  rw [heq, beginsAllocation_allocation] at hdrop
  cases hdrop

/-- Whether an instruction works on the operands and on memory only. -/
def Instr.isQuiet : Instr → Bool
  | .const _ | .globalGet _ | .numeric _ | .store => true
  | _ => false

/-- A store with the same global variables and as much memory. -/
structure Store.Keeps {σ : Type} (s s' : Store σ) : Prop where
  globals : s'.globals = s.globals
  size : s'.memory.size = s.memory.size

/-- What an allocation leaves behind: the words at the old end of the heap, and the new end behind
them. -/
structure Store.Allocated {σ : Type} (s : Store σ) (h : Word) (ws : List Word) (s' : Store σ) :
    Prop where
  globals : s'.globals =
    s.globals.insert Symbol.heapPointer (h + Int32.ofNat (ws.length * wordSize))
  size : s'.memory.size = s.memory.size
  fits : h.address + ws.length * wordSize ≤ s.memory.size
  written : ∀ j w, ws[j]? = some w →
    s'.memory.load (h + Int32.ofNat (j * wordSize)) = .ok w

/-- The machine stands in front of the code `code`, or it has halted on its way there, and the
global variables are as they were. -/
inductive Progress.Quiet {σ : Type} (k : Spot) (ls : Bindings Word) (s : Store σ)
    (code : List Instr) : Progress σ → Prop
  | next {st : List Word} {s' : Store σ} (h : s.Keeps s') :
      Quiet k ls s code (.next (k.state ls st code s'))
  | halt {r : Except Trap (Option Word)} {s' : Store σ} (h : s.Keeps s') :
      Quiet k ls s code (.halt r s')

section

variable {σ : Type} {m : Machine σ} {k : Spot} {ls : Bindings Word} {st : List Word}
  {s s' s'' : Store σ} {code rest : List Instr} {q : Progress σ}

namespace Store.Keeps

theorem refl (s : Store σ) : s.Keeps s := ⟨rfl, rfl⟩

theorem trans (h : s.Keeps s') (h' : s'.Keeps s'') : s.Keeps s'' :=
  ⟨h'.globals.trans h.globals, h'.size.trans h.size⟩

theorem storeWord {a w : Word} (h : s.storeWord a w = .ok s') : s.Keeps s' := by
  rw [Store.storeWord] at h
  split at h
  · next mem hmem =>
    cases h
    exact ⟨rfl, Memory.store_size hmem⟩
  · cases h
  · cases h

end Store.Keeps

namespace Progress.Quiet

theorem store (h : q.Quiet k ls s code) : s.Keeps q.store := by
  cases h with
  | next h => exact h
  | halt h => exact h

theorem weaken (h : s.Keeps s') (hq : q.Quiet k ls s' code) : q.Quiet k ls s code := by
  cases hq with
  | next h' => exact .next (h.trans h')
  | halt h' => exact .halt (h.trans h')

end Progress.Quiet

namespace Machine

theorem step_quiet {i : Instr} (hi : i.isQuiet = true) :
    (m.step (k.state ls st (i :: code) s)).Quiet k ls s code := by
  cases i with
  | const w => exact .next (.refl s)
  | globalGet x =>
    cases hx : s.globals.find? x with
    | none =>
      have hstep : m.step (k.state ls st (.globalGet x :: code) s) =
          .halt (.error (.unknownGlobal x)) s := by
        simp [step, Spot.state, exec, Store.getGlobal, hx]
      rw [hstep]
      exact .halt (.refl s)
    | some w =>
      rw [step_globalGet hx]
      exact .next (.refl s)
  | numeric op =>
    rcases st with _ | ⟨r, _ | ⟨l, st⟩⟩
    · exact .halt (.refl s)
    · exact .halt (.refl s)
    · rw [step_numeric]
      cases op.eval l r with
      | ok w => exact .next (.refl s)
      | error t => exact .halt (.refl s)
  | store =>
    rcases st with _ | ⟨w, _ | ⟨a, st⟩⟩
    · exact .halt (.refl s)
    · exact .halt (.refl s)
    · rw [step_store]
      cases hw : s.storeWord a w with
      | ok s' => exact .next (.storeWord hw)
      | error t => exact .halt (.refl s)
  | _ => cases hi

/-- A trace goes through quiet code instruction by instruction. -/
theorem after_quiet {j : Nat} (hc : ∀ i ∈ code, i.isQuiet = true) (hj : j ≤ code.length) :
    (m.after j (.next (k.state ls st (code ++ rest) s))).Quiet k ls s (code.drop j ++ rest) := by
  induction j generalizing code st s with
  | zero => exact .next (.refl s)
  | succ j ih =>
    cases code with
    | nil => cases hj
    | cons i code =>
      have hstep : (m.step (k.state ls st (i :: (code ++ rest)) s)).Quiet k ls s (code ++ rest) :=
        step_quiet (hc i List.mem_cons_self)
      rw [List.cons_append, after_next, List.drop_succ_cons]
      generalize m.step (k.state ls st (i :: (code ++ rest)) s) = q at hstep
      cases hstep with
      | halt h =>
        rw [after_halt]
        exact .halt h
      | next h =>
        refine .weaken h (ih (fun i' hi' => hc i' (List.mem_cons_of_mem i hi')) ?_)
        exact Nat.le_of_succ_le_succ hj

theorem writeWords_quiet (i : Nat) (ws : List Word) :
    ∀ instr ∈ writeWords i ws, instr.isQuiet = true := by
  induction ws generalizing i with
  | nil => simp [writeWords]
  | cons w ws ih =>
    intro instr hmem
    rcases List.mem_append.mp hmem with hmem | hmem
    · simp only [List.mem_cons, List.not_mem_nil, or_false] at hmem
      rcases hmem with rfl | rfl | rfl | rfl | rfl <;> rfl
    · exact ih (i + 1) instr hmem

theorem allocationFront_quiet (ws : List Word) :
    ∀ instr ∈ allocationFront ws, instr.isQuiet = true := by
  intro instr hmem
  rcases List.mem_append.mp hmem with hmem | hmem
  · exact writeWords_quiet 0 ws instr hmem
  · simp only [List.mem_cons, List.not_mem_nil, or_false] at hmem
    rcases hmem with rfl | rfl | rfl | rfl <;> rfl

/-- Until its last instruction, an allocation changes no global variable. -/
theorem after_allocation (m : Machine σ) (k : Spot) (ls : Bindings Word) (st : List Word)
    (rest : List Instr) (s : Store σ) {ws : List Word} {j : Nat}
    (hj : j < (allocation ws).length) :
    (m.after j (.next (k.state ls st (allocation ws ++ rest) s))).Quiet k ls s
      ((allocation ws).drop j ++ rest) := by
  rw [allocation_eq, List.length_append, List.length_singleton] at hj
  rw [allocation_eq, List.drop_append_of_le_length (by omega), List.append_assoc,
    List.append_assoc]
  exact after_quiet (allocationFront_quiet ws) (by omega)

/-- An allocation that traps changes no global variable. -/
theorem allocation_halts {ws : List Word} {r : Except Trap (Option Word)}
    (h : m.after (allocation ws).length (.next (k.state ls st (allocation ws ++ rest) s)) =
      .halt r s') : s.Keeps s' := by
  have hlen : (allocation ws).length = (allocationFront ws).length + 1 := by
    rw [allocation_eq, List.length_append, List.length_singleton]
  have hquiet := after_allocation m k ls st rest s
    (show (allocationFront ws).length < (allocation ws).length by omega)
  have hdrop : (allocation ws).drop (allocationFront ws).length =
      [.globalSet Symbol.heapPointer] := by
    rw [allocation_eq, List.drop_left]
  rw [hlen, after_succ] at h
  rw [hdrop] at hquiet
  generalize m.after (allocationFront ws).length
    (.next (k.state ls st (allocation ws ++ rest) s)) = q at h hquiet
  cases hquiet with
  | halt hk =>
    cases h
    exact hk
  | @next st' s₁ hk =>
    cases st' with
    | nil =>
      cases h
      exact hk
    | cons w st' =>
      rw [List.singleton_append, advance, step_globalSet] at h
      cases hw : s₁.setGlobal Symbol.heapPointer w with
      | ok s₂ =>
        rw [hw] at h
        cases h
      | error t =>
        rw [hw] at h
        cases h
        exact hk

variable {h : Word}

theorem after_writeWord {i : Nat} {w : Word} (hh : s.globals.find? Symbol.heapPointer = some h) :
    m.after 5 (.next (k.state ls st (writeWords i [w] ++ rest) s)) =
      match s.storeWord (h + Int32.ofNat (i * wordSize)) w with
      | .ok s' => .next (k.state ls st rest s')
      | .error t => .halt (.error t) s := by
  simp only [writeWords, List.cons_append, List.nil_append, List.append_nil]
  rw [after_next, step_globalGet hh, after_next, step_const, after_next, step_numeric,
    NumericOp.eval, after_next, step_const, after_next, step_store]
  cases s.storeWord (h + Int32.ofNat (i * wordSize)) w <;> rfl

theorem after_writeWords (m : Machine σ) (k : Spot) (ls : Bindings Word) (st : List Word)
    (rest : List Instr) (ws : List Word) {i : Nat}
    (hh : s.globals.find? Symbol.heapPointer = some h)
    (hi : i = 0 ∨ h.address + i * wordSize ≤ s.memory.size) (hsize : s.memory.size < 2 ^ 32) :
    (∃ r s', m.after (5 * ws.length) (.next (k.state ls st (writeWords i ws ++ rest) s)) =
      .halt r s') ∨
    ∃ mem, m.after (5 * ws.length) (.next (k.state ls st (writeWords i ws ++ rest) s)) =
        .next (k.state ls st rest { s with memory := mem }) ∧
      mem.size = s.memory.size ∧
      (ws = [] ∨ h.address + (i + ws.length) * wordSize ≤ s.memory.size) ∧
      (∀ j w, ws[j]? = some w → mem.load (h + Int32.ofNat ((i + j) * wordSize)) = .ok w) ∧
      ∀ a : Word, a.address + wordSize ≤ h.address + i * wordSize →
        mem.load a = s.memory.load a := by
  induction ws generalizing i s with
  | nil => exact .inr ⟨s.memory, rfl, rfl, .inl rfl, by simp, fun _ _ => rfl⟩
  | cons w ws ih =>
    -- what was written so far lies in memory, so the address has not wrapped around
    have hbound : h.address + i * wordSize < 2 ^ 32 := by
      rcases hi with rfl | hi
      · simpa using h.address_lt
      · omega
    have haddress := Word.address_add_ofNat hbound
    have hsucc : i * wordSize + wordSize = (i + 1) * wordSize := (Nat.succ_mul i wordSize).symm
    have hcode : writeWords i (w :: ws) ++ rest =
        writeWords i [w] ++ (writeWords (i + 1) ws ++ rest) := by
      simp [writeWords]
    have hlen : 5 * (w :: ws).length = 5 + 5 * ws.length := by
      rw [List.length_cons]
      omega
    rw [hcode, hlen, after_add, after_writeWord hh, Store.storeWord]
    cases hmem : s.memory.store (h + Int32.ofNat (i * wordSize)) w with
    | error t =>
      rw [hh]
      exact .inl ⟨_, s, after_halt⟩
    | ok mem₁ =>
      have hfits := Memory.fits_of_store hmem
      have hsame := Memory.store_size hmem
      rw [haddress, Nat.add_assoc, hsucc] at hfits
      rcases ih (s := { s with memory := mem₁ }) (i := i + 1) hh (.inr (hsame ▸ hfits))
        (hsame ▸ hsize) with hhalt | ⟨mem, hrun, hms, hin, hloads, hframe⟩
      · exact .inl hhalt
      · refine .inr ⟨mem, hrun, hms.trans hsame, .inr ?_, ?_, ?_⟩
        · have hlast : i + (w :: ws).length = i + 1 + ws.length := by
            rw [List.length_cons]
            omega
          rw [hlast]
          rcases hin with rfl | hin
          · exact hfits
          · exact hsame ▸ hin
        · intro j v hv
          cases j with
          | zero =>
            obtain rfl : w = v := Option.some.inj hv
            rw [Nat.add_zero, hframe _ (by omega)]
            exact Memory.load_store hmem
          | succ j =>
            rw [← Nat.add_assoc, Nat.add_right_comm]
            exact hloads j v hv
        · intro a ha
          rw [hframe a (by omega)]
          exact Memory.load_store_of_apart hmem (.inr (by omega))

theorem after_moveHeap {n : Nat} (hh : s.globals.find? Symbol.heapPointer = some h) :
    m.after 5 (.next (k.state ls st (moveHeap n ++ rest) s)) =
      match s.setGlobal Symbol.heapPointer (h + Int32.ofNat (n * wordSize)) with
      | .ok s' => .next (k.state ls (h :: st) rest s')
      | .error t => .halt (.error t) s := by
  simp only [moveHeap, List.cons_append, List.nil_append]
  rw [after_next, step_globalGet hh, after_next, step_globalGet hh, after_next, step_const,
    after_next, step_numeric, NumericOp.eval, after_next, step_globalSet]
  cases s.setGlobal Symbol.heapPointer (h + Int32.ofNat (n * wordSize)) <;> rfl

/-- An allocation traps, or it puts the words at the end of the heap. -/
theorem allocation_run (m : Machine σ) (k : Spot) (ls : Bindings Word) (st : List Word)
    (rest : List Instr) (ws : List Word) (hh : s.globals.find? Symbol.heapPointer = some h)
    (hsize : s.memory.size < 2 ^ 32) :
    (∃ r s', m.after (allocation ws).length (.next (k.state ls st (allocation ws ++ rest) s)) =
      .halt r s') ∨
    ∃ s', m.after (allocation ws).length (.next (k.state ls st (allocation ws ++ rest) s)) =
        .next (k.state ls (h :: st) rest s') ∧ s.Allocated h ws s' := by
  rw [length_allocation, after_add, allocation, List.append_assoc]
  rcases after_writeWords m k ls st (moveHeap ws.length ++ rest) ws hh (.inl rfl) hsize with
    ⟨r, s', hhalt⟩ | ⟨mem, hrun, hms, hin, hloads, -⟩
  · rw [hhalt]
    exact .inl ⟨r, s', after_halt⟩
  · have hc : s.globals.contains Symbol.heapPointer = true := Bindings.contains_iff.mpr ⟨h, hh⟩
    rw [hrun, after_moveHeap (s := { s with memory := mem }) hh, Store.setGlobal, hms]
    by_cases hover : s.memory.size < (h + Int32.ofNat (ws.length * wordSize)).address
    · rw [if_pos ⟨rfl, hover⟩]
      exact .inl ⟨_, _, rfl⟩
    · rw [if_neg (fun hand => hover hand.2), if_pos hc]
      refine .inr ⟨_, rfl, rfl, hms, ?_, ?_⟩
      · rcases hin with rfl | hin
        · simpa using hover
        · rwa [Nat.zero_add] at hin
      · intro j w hw
        rw [← Nat.zero_add j]
        exact hloads j w hw

end Machine

end

end TypedScript
