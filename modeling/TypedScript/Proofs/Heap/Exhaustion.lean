import TypedScript.Compile
import TypedScript.Proofs.Heap.Initialization

/-! # Exhausted memory

An allocation goes through if and only if its object lies in memory as a whole. Otherwise the first
word that misses memory stops it, and only words behind the end of the heap have changed. -/

namespace TypedScript

namespace Word

/-- Addresses of the upper half are read as negative numbers. -/
theorem toInt_eq_address_sub {w : Word} (h : 2 ^ 31 ≤ w.address) :
    w.toInt = (w.address : Int) - 2 ^ 32 := by
  have hbits : w.toBitVec.toNat = w.address := rfl
  rw [Int32.toInt, BitVec.toInt_eq_toNat_cond, hbits, if_neg (by omega)]
  rfl

/-- Words are compared as signed numbers, so an address in the upper half is below every address in
the lower half. -/
theorem le_add_ofNat_iff {w : Word} {n : Nat} (h : w.address + n < 2 ^ 32) :
    w ≤ w + Int32.ofNat n ↔ ¬ (w.address < 2 ^ 31 ∧ 2 ^ 31 ≤ w.address + n) := by
  have hsum := address_add_ofNat h
  rw [Int32.le_iff_toInt_le]
  by_cases hw : w.address < 2 ^ 31
  · rw [toInt_eq_address hw]
    by_cases hn : w.address + n < 2 ^ 31
    · rw [toInt_eq_address (by omega), hsum]
      omega
    · rw [toInt_eq_address_sub (by omega), hsum]
      omega
  · rw [toInt_eq_address_sub (by omega), toInt_eq_address_sub (by omega), hsum]
    omega

end Word

/-- The address of the first word behind the end of the heap that does not lie in memory. -/
def brink (size : Nat) (h : Word) : Nat := h.address + (size - h.address) / wordSize * wordSize

/-- How an allocation that does not fit is reported. The address at which memory ends is compared
with the end of the heap as a signed word, and one that has become negative is taken for an access
to memory in use. -/
def overflowTrap (size : Nat) (h : Word) : Trap :=
  if h.address < 2 ^ 31 ∧ 2 ^ 31 ≤ brink size h then .outOfBounds (brink size h) size
  else .outOfMemory h size

section

variable {σ : Type} {s : Store σ} {h : Word} {i : Nat}

/-- The store at the brink is the one that misses memory. -/
theorem Store.storeWord_brink {w : Word} (hh : s.globals.find? Symbol.heapPointer = some h)
    (hsize : s.memory.size < 2 ^ 32) (hi : h.address + i * wordSize ≤ s.memory.size)
    (hmiss : s.memory.size < h.address + i * wordSize + wordSize) :
    s.storeWord (h + Int32.ofNat (i * wordSize)) w = .error (overflowTrap s.memory.size h) := by
  have hword : wordSize = 4 := rfl
  have hbound : h.address + i * wordSize < 2 ^ 32 := by omega
  have haddress := Word.address_add_ofNat hbound
  have hbrink : brink s.memory.size h = h.address + i * wordSize := by
    have hdiv : (s.memory.size - h.address) / wordSize = i := by
      rw [hword] at hi hmiss ⊢
      omega
    rw [brink, hdiv]
  have hmem : s.memory.store (h + Int32.ofNat (i * wordSize)) w =
      .error (.outOfBounds (h + Int32.ofNat (i * wordSize)).address s.memory.size) :=
    Memory.store_of_not_fits (by omega) w
  rw [Store.storeWord, hmem, hh, overflowTrap, hbrink, haddress]
  simp only [Word.le_add_ofNat_iff hbound, ite_not]

namespace Machine

/-- Words that do not all fit into memory are written up to the brink, where the machine traps. -/
theorem after_writeWords_full (m : Machine σ) (k : Spot) (ls : Bindings Word) (st : List Word)
    (rest : List Instr) (ws : List Word) (hh : s.globals.find? Symbol.heapPointer = some h)
    (hsize : s.memory.size < 2 ^ 32) (hi : h.address + i * wordSize ≤ s.memory.size)
    (hfull : s.memory.size < h.address + (i + ws.length) * wordSize) :
    ∃ s', m.after (5 * ws.length) (.next (k.state ls st (writeWords i ws ++ rest) s)) =
        .halt (.error (overflowTrap s.memory.size h)) s' ∧
      s.Keeps s' ∧
      ∀ a : Word, a.address + wordSize ≤ h.address + i * wordSize →
        s'.memory.load a = s.memory.load a := by
  induction ws generalizing i s with
  | nil =>
    rw [List.length_nil, Nat.add_zero] at hfull
    omega
  | cons w ws ih =>
    have hcode : writeWords i (w :: ws) ++ rest =
        writeWords i [w] ++ (writeWords (i + 1) ws ++ rest) := by
      simp [writeWords]
    have hlen : 5 * (w :: ws).length = 5 + 5 * ws.length := by
      rw [List.length_cons]
      omega
    have hsucc : i * wordSize + wordSize = (i + 1) * wordSize := (Nat.succ_mul i wordSize).symm
    rw [hcode, hlen, after_add, after_writeWord hh]
    by_cases hmiss : s.memory.size < h.address + i * wordSize + wordSize
    · rw [Store.storeWord_brink hh hsize hi hmiss]
      exact ⟨s, after_halt, .refl s, fun _ _ => rfl⟩
    · have haddress := Word.address_add_ofNat (by omega : h.address + i * wordSize < 2 ^ 32)
      obtain ⟨mem, hmem⟩ : ∃ mem, s.memory.store (h + Int32.ofNat (i * wordSize)) w = .ok mem :=
        Memory.store_of_fits (by omega) w
      have hsame := Memory.store_size hmem
      have hfirst : s.Keeps { s with memory := mem } := ⟨rfl, hsame⟩
      have hend : (i + (w :: ws).length) * wordSize = (i + 1 + ws.length) * wordSize := by
        rw [List.length_cons, Nat.add_assoc i 1, Nat.add_comm 1]
      rw [Store.storeWord, hmem]
      obtain ⟨s', hrun, hkeeps, hframe⟩ := ih (s := { s with memory := mem }) (i := i + 1) hh
        (by rw [hsame]; exact hsize) (by rw [hsame]; omega) (by rw [hsame, ← hend]; exact hfull)
      rw [hsame] at hrun
      refine ⟨s', hrun, hfirst.trans hkeeps, fun a ha => ?_⟩
      rw [hframe a (by omega)]
      exact Memory.load_store_of_apart hmem (.inr (by omega))

end Machine

end

/-- The code of a construction goes through exactly if the object fits between the end of the heap
and the end of memory. If it does not, the machine traps, the heap ends where it did, and every word
in use is as it was. -/
theorem Machine.allocate_iff_fits {σ : Type} (m : Machine σ) (d : ClassDef) (k : Spot)
    (ls : Bindings Word) (st : List Word) (rest : List Instr) (s : Store σ)
    (hmem : s.memory.size ≤ 65535 * pageSize) {h : Word}
    (hheap : s.globals.find? Symbol.heapPointer = some h) (hh : h.address ≤ s.memory.size) :
    let code := (ClassLayout.ofClass d).allocate
    let q := m.after code.length (.next (k.state ls st (code ++ rest) s))
    let fits := h.address + 4 * d.fields.length ≤ s.memory.size
    ((∃ s', q = .next (k.state ls (h :: st) rest s')) ↔ fits) ∧
    (¬ fits → ∃ s', q = .halt (.error (overflowTrap s.memory.size h)) s' ∧
      s'.globals.find? Symbol.heapPointer = some h ∧
      ∀ a : Word, a.address + wordSize ≤ h.address → s'.memory.load a = s.memory.load a) := by
  intro code q fits
  have hsize : s.memory.size < 2 ^ 32 := Nat.lt_of_le_of_lt hmem (by decide)
  have hlen : d.defaults.length = d.fields.length := List.length_map _
  have hword : d.fields.length * wordSize = 4 * d.fields.length := Nat.mul_comm _ _
  have hcode : code = allocation d.defaults := allocate_ofClass d
  have htraps : ¬ fits → ∃ s', q = .halt (.error (overflowTrap s.memory.size h)) s' ∧
      s.Keeps s' ∧
      ∀ a : Word, a.address + wordSize ≤ h.address → s'.memory.load a = s.memory.load a := by
    intro hfull
    obtain ⟨s', hrun, hkeeps, hframe⟩ := after_writeWords_full m k ls st
      (moveHeap d.defaults.length ++ rest) d.defaults (i := 0) hheap hsize
      (by simpa using hh) (by rw [Nat.zero_add, hlen]; omega)
    refine ⟨s', ?_, hkeeps, fun a ha => hframe a (by simpa using ha)⟩
    rw [show q = m.after code.length (.next (k.state ls st (code ++ rest) s)) from rfl, hcode,
      length_allocation, after_add, allocation, List.append_assoc, hrun, after_halt]
  refine ⟨⟨?_, fun hfits => ?_⟩, fun hfull => ?_⟩
  · rintro ⟨s', hnext⟩
    by_contra hfull
    obtain ⟨s₁, hhalt, -⟩ := htraps hfull
    rw [hnext] at hhalt
    cases hhalt
  · rcases allocation_grows m k ls st rest d.defaults hheap with ⟨hfull, -⟩ | ⟨s', hrun, -⟩
    · rw [hlen] at hfull
      omega
    · exact ⟨s', by rw [← hcode] at hrun; exact hrun⟩
  · obtain ⟨s', hhalt, hkeeps, hframe⟩ := htraps hfull
    exact ⟨s', hhalt, by rw [hkeeps.globals, hheap], hframe⟩

namespace Program

def twoFields : ClassDef where
  name := "Pair"
  fields := [⟨"a", .int, .number 1, default⟩, ⟨"b", .int, .number 2, default⟩]
  methods := []
  span := default

def onePair : Program where
  vars := []
  funcs := []
  classes := [twoFields]
  stmts := [.declare ⟨"p", .object "Pair", .call ⟨default, none⟩ "Pair" [], default⟩]
  ty := none

/-- The heap ends one word before the upper half of the addresses, which is where memory ends. -/
def halfMemory : Options := { memoryPages := 32768, heapBase := 2147483644 }

/-- One word is left in a page, and a pair takes two. -/
theorem allocate_twoFields :
    let m : Machine Recording := ⟨⟨[], [], []⟩, Recording.host, 1⟩
    let k : Spot := ⟨⟨"make", none, [], true, [], []⟩, none, [], [], 0⟩
    let s : Store Recording := ⟨[(Symbol.heapPointer, 65532)], .ofPages 1, .empty⟩
    s.memory.size ≤ 65535 * pageSize ∧ s.globals.find? Symbol.heapPointer = some 65532 ∧
    Word.address 65532 ≤ s.memory.size ∧
    ∃ s', m.after 15 (.next (k.state [] [] ((ClassLayout.ofClass twoFields).allocate ++ []) s)) =
        .halt (.error (.outOfMemory 65532 65536)) s' ∧
      s'.globals.find? Symbol.heapPointer = some 65532 := by
  intro m k s
  have hmem : s.memory.size ≤ 65535 * pageSize := by decide
  have hheap : s.globals.find? Symbol.heapPointer = some 65532 := rfl
  have hh : Word.address 65532 ≤ s.memory.size := by decide
  have htrap : overflowTrap s.memory.size 65532 = .outOfMemory 65532 65536 := by decide
  obtain ⟨-, htraps⟩ := m.allocate_iff_fits twoFields k [] [] [] s hmem hheap hh
  obtain ⟨s', hhalt, hkept, -⟩ := htraps (by decide)
  rw [htrap] at hhalt
  exact ⟨hmem, hheap, hh, s', hhalt, hkept⟩

/-- The pair does not fit, and yet memory is not reported as full. -/
theorem onePair_out_of_bounds :
    ((onePair.compile halfMemory).toOption.bind fun m =>
      (m.run 40 halfMemory Recording.host .empty {}).map fun r =>
        (r.1, r.2.globals.find? Symbol.heapPointer, r.2.memory.size)) =
      some (.error (.outOfBounds 2147483648 2147483648), some 2147483644, 2147483648) := by
  decide +kernel

end Program

end TypedScript
