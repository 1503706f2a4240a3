import TypedScript.Memory
import TypedScript.Proofs.Evaluation.Actions

/-! # Laws of memory

A word that was stored is loaded again, and words that lie apart from it are left as they were. A
word that overlaps it takes over the bytes that both have. These laws hold after any accesses. -/

namespace TypedScript

namespace Bytes

theorem get_eq (t : Bytes) (x : Nat) :
    t.get x = if x = 0 then t.here
      else if x % 2 = 1 then t.left.get ((x - 1) / 2) else t.right.get ((x - 1) / 2) := by
  cases t with
  | zeros => simp [get, here, left, right]
  | node b l r => rw [get, here, left, right]

/-- A byte that is written changes no other byte. -/
theorem get_set (t : Bytes) (a x : Nat) (b : UInt8) :
    (t.set a b).get x = if x = a then b else t.get x := by
  induction a using Nat.strongRecOn generalizing t x with
  | ind a ih =>
    rw [set, t.get_eq x]
    by_cases ha : a = 0
    · rw [if_pos ha, get, ha]
      split <;> rfl
    · have hlt : (a - 1) / 2 < a := by omega
      rw [if_neg ha]
      by_cases hodd : a % 2 = 1
      · rw [if_pos hodd, get, ih _ hlt]
        by_cases hx : x = a
        · simp [hx, ha, hodd]
        · have hne : x % 2 = 1 → (x - 1) / 2 ≠ (a - 1) / 2 := by omega
          grind
      · rw [if_neg hodd, get, ih _ hlt]
        by_cases hx : x = a
        · simp [hx, ha, hodd]
        · have hne : x ≠ 0 → x % 2 ≠ 1 → (x - 1) / 2 ≠ (a - 1) / 2 := by omega
          grind

end Bytes

namespace Word

theorem address_lt (w : Word) : w.address < 2 ^ 32 := UInt32.toNat_lt w.toUInt32

theorem toInt_of_nonneg {w : Word} (h : 0 ≤ w) : w.toInt = w.address := by
  have hlt := w.address_lt
  have hpos : 0 ≤ w.toInt := Int32.le_iff_toInt_le.mp h
  have heq : w.toInt = if 2 * w.address < 2 ^ 32 then (w.address : Int)
      else (w.address : Int) - (2 ^ 32 : Nat) := BitVec.toInt_eq_toNat_cond _
  split at heq
  · exact heq
  · omega

/-- A word is put together from its bytes. -/
theorem ofBytes_byte (w : Word) : ofBytes (w.byte 0) (w.byte 1) (w.byte 2) (w.byte 3) = w := by
  have hw := w.address_lt
  have hsum : (w.byte 0).toNat + 256 * (w.byte 1).toNat + 65536 * (w.byte 2).toNat +
      16777216 * (w.byte 3).toNat = w.address := by
    simp only [byte, UInt8.toNat_ofNat', Nat.shiftRight_eq_div_pow]
    omega
  rw [ofBytes, hsum, address, UInt32.ofNat_toNat]
  exact Int32.toInt32_toUInt32 w

theorem byte_ofBytes (b₀ b₁ b₂ b₃ : UInt8) {i : Nat} (hi : i < 4) :
    (ofBytes b₀ b₁ b₂ b₃).byte i = [b₀, b₁, b₂, b₃].getD i 0 := by
  have h₀ := b₀.toNat_lt
  have h₁ := b₁.toNat_lt
  have h₂ := b₂.toNat_lt
  have h₃ := b₃.toNat_lt
  have haddress : (ofBytes b₀ b₁ b₂ b₃).address =
      b₀.toNat + 256 * b₁.toNat + 65536 * b₂.toNat + 16777216 * b₃.toNat := by
    simp only [address, ofBytes, UInt32.toUInt32_toInt32, UInt32.toNat_ofNat']
    omega
  apply UInt8.toNat_inj.mp
  simp only [byte, haddress, UInt8.toNat_ofNat', Nat.shiftRight_eq_div_pow]
  obtain rfl | rfl | rfl | rfl : i = 0 ∨ i = 1 ∨ i = 2 ∨ i = 3 := by omega
  all_goals simp; omega

/-- The byte at position `i` of the word at `b`, when `v` is put at `a` and `w` was at `b` before:
addresses that both words have get the bytes of `v`. -/
def overlaidByte (a b v w : Word) (i : Nat) : UInt8 :=
  if a.address ≤ b.address + i ∧ b.address + i < a.address + 4
  then v.byte (b.address + i - a.address) else w.byte i

/-- The word at `b` when `v` is put at `a` and `w` was at `b` before. -/
def overlaid (a b v w : Word) : Word :=
  ofBytes (overlaidByte a b v w 0) (overlaidByte a b v w 1) (overlaidByte a b v w 2)
    (overlaidByte a b v w 3)

end Word

namespace Memory

variable {mem mem' : Memory} {a b v : Word}

theorem load_of_fits (h : a.address + wordSize ≤ mem.size) : ∃ w, mem.load a = .ok w := by
  rw [load, if_pos (contains_iff.mpr h)]
  exact ⟨_, rfl⟩

theorem store_of_fits (h : a.address + wordSize ≤ mem.size) (v : Word) :
    ∃ mem', mem.store a v = .ok mem' := by
  rw [store_eq, if_pos (contains_iff.mpr h)]
  exact ⟨_, rfl⟩

theorem load_of_not_fits (h : mem.size < a.address + wordSize) :
    mem.load a = .error (.outOfBounds a.address mem.size) := by
  rw [load, if_neg]
  rw [contains_iff]
  exact Nat.not_le_of_lt h

theorem store_of_not_fits (h : mem.size < a.address + wordSize) (v : Word) :
    mem.store a v = .error (.outOfBounds a.address mem.size) := by
  rw [store_eq, if_neg]
  rw [contains_iff]
  exact Nat.not_le_of_lt h

theorem byte_store (h : mem.store a v = .ok mem') (x : Nat) :
    mem'.byte x =
      if x = a.address + 3 then v.byte 3
      else if x = a.address + 2 then v.byte 2
      else if x = a.address + 1 then v.byte 1
      else if x = a.address then v.byte 0
      else mem.byte x := by
  rw [store_eq] at h
  split at h
  · cases h
    simp only [byte, Bytes.get_set]
  · cases h

theorem byte_store_of_shared (h : mem.store a v = .ok mem') {x : Nat} (hlo : a.address ≤ x)
    (hhi : x < a.address + 4) : mem'.byte x = v.byte (x - a.address) := by
  obtain ⟨k, rfl⟩ := Nat.exists_eq_add_of_le hlo
  rw [byte_store h, Nat.add_sub_cancel_left]
  obtain rfl | rfl | rfl | rfl : k = 0 ∨ k = 1 ∨ k = 2 ∨ k = 3 := by omega
  all_goals simp

theorem byte_store_of_apart (h : mem.store a v = .ok mem') {x : Nat}
    (hx : x < a.address ∨ a.address + 4 ≤ x) : mem'.byte x = mem.byte x := by
  rw [byte_store h, if_neg (by omega), if_neg (by omega), if_neg (by omega), if_neg (by omega)]

theorem contains_store (h : mem.store a v = .ok mem') (x : Word) :
    mem'.contains x = mem.contains x := by
  rw [contains, contains, store_size h]

theorem load_store (h : mem.store a v = .ok mem') : mem'.load a = .ok v := by
  have hc : mem'.contains a = true := by
    rw [contains_store h, contains_iff]
    exact fits_of_store h
  simp only [load, hc, if_true, byte_store h]
  simp [Word.ofBytes_byte]

/-- Words that do not overlap are loaded as before. -/
theorem load_store_of_apart (h : mem.store a v = .ok mem')
    (hab : a.address + wordSize ≤ b.address ∨ b.address + wordSize ≤ a.address) :
    mem'.load b = mem.load b := by
  have hw : wordSize = 4 := rfl
  have hbyte : ∀ i < 4, mem'.byte (b.address + i) = mem.byte (b.address + i) := by
    intro i hi
    exact byte_store_of_apart h (by omega)
  have hzero := hbyte 0 (by decide)
  rw [Nat.add_zero] at hzero
  rw [load, load, contains_store h, store_size h, hzero, hbyte 1 (by decide), hbyte 2 (by decide),
    hbyte 3 (by decide)]

theorem contains_of_load {w : Word} (h : mem.load b = .ok w) : mem.contains b = true := by
  rw [load] at h
  split at h
  · assumption
  · cases h

theorem byte_of_load {w : Word} (h : mem.load b = .ok w) {i : Nat} (hi : i < 4) :
    mem.byte (b.address + i) = w.byte i := by
  rw [load] at h
  split at h
  · cases h
    rw [Word.byte_ofBytes _ _ _ _ hi]
    obtain rfl | rfl | rfl | rfl : i = 0 ∨ i = 1 ∨ i = 2 ∨ i = 3 := by omega
    all_goals rfl
  · cases h

/-- A word that overlaps the stored one has its bytes at the addresses they share, and the old ones
elsewhere. -/
theorem load_store_overlaid {w : Word} (h : mem.store a v = .ok mem') (hw : mem.load b = .ok w) :
    mem'.load b = .ok (Word.overlaid a b v w) := by
  have hbyte : ∀ i < 4, mem'.byte (b.address + i) = Word.overlaidByte a b v w i := by
    intro i hi
    rw [Word.overlaidByte]
    split
    · next hs => exact byte_store_of_shared h hs.1 hs.2
    · next hs => rw [byte_store_of_apart h (by omega), byte_of_load hw hi]
  have hc : mem'.contains b = true := by
    rw [contains_store h]
    exact contains_of_load hw
  have hzero := hbyte 0 (by decide)
  rw [Nat.add_zero] at hzero
  rw [load, if_pos hc, hzero, hbyte 1 (by decide), hbyte 2 (by decide), hbyte 3 (by decide)]
  rfl

/-! ## Sequences of accesses -/

inductive Access
  | load (a : Word)
  | store (a v : Word)
  deriving DecidableEq, Repr

/-- What an access answers, and the memory it leaves behind. -/
def access (mem : Memory) : Access → Except Trap (Option Word) × Memory
  | .load a => ((mem.load a).map some, mem)
  | .store a v =>
    match write a v mem with
    | .ok _ mem' => (.ok none, mem')
    | .error t mem' => (.error t, mem')

def after (mem : Memory) (xs : List Access) : Memory := xs.foldl (fun m x => (m.access x).2) mem

/-- The laws of a store of words: which accesses succeed, that a failed one changes nothing, and
what every load gives after a store. -/
structure WordStore (mem : Memory) (size : Nat) : Prop where
  load_iff : ∀ a, (∃ w, mem.load a = .ok w) ↔ a.address + 4 ≤ size
  store_iff : ∀ a v, (∃ mem', mem.store a v = .ok mem') ↔ a.address + 4 ≤ size
  failed : ∀ x t, (mem.access x).1 = .error t → (mem.access x).2 = mem
  same : ∀ a v mem', mem.store a v = .ok mem' → mem'.load a = .ok v
  apart : ∀ a b v mem', mem.store a v = .ok mem' →
    4 ≤ ((a.address : Int) - b.address).natAbs → mem'.load b = mem.load b
  overlapping : ∀ a b v w mem', mem.store a v = .ok mem' → mem.load b = .ok w →
    mem'.load b = .ok (Word.overlaid a b v w)

theorem access_size (mem : Memory) (x : Access) : (mem.access x).2.size = mem.size := by
  cases x with
  | load a => rfl
  | store a v =>
    cases h : mem.store a v with
    | ok mem' => simpa only [access, write_eq, h] using store_size h
    | error t => simp only [access, write_eq, h]

theorem after_size (mem : Memory) (xs : List Access) : (mem.after xs).size = mem.size := by
  induction xs generalizing mem with
  | nil => rfl
  | cons x xs ih => exact (ih _).trans (access_size mem x)

theorem access_of_error {x : Access} {t : Trap} (h : (mem.access x).1 = .error t) :
    (mem.access x).2 = mem := by
  cases x with
  | load a => rfl
  | store a v =>
    cases hs : mem.store a v with
    | ok mem' => simp [access, write_eq, hs] at h
    | error t => simp only [access, write_eq, hs]

theorem load_isOk_iff : (∃ w, mem.load a = .ok w) ↔ a.address + 4 ≤ mem.size := by
  constructor
  · rintro ⟨w, hw⟩
    exact contains_iff.mp (contains_of_load hw)
  · exact load_of_fits

theorem store_isOk_iff : (∃ mem', mem.store a v = .ok mem') ↔ a.address + 4 ≤ mem.size := by
  constructor
  · rintro ⟨mem', hs⟩
    exact fits_of_store hs
  · exact fun h => store_of_fits h v

/-- A memory of any size obeys the laws at every alignment, whatever accesses came before. -/
theorem after_wordStore (mem : Memory) (xs : List Access) : (mem.after xs).WordStore mem.size where
  load_iff a := by rw [load_isOk_iff, after_size]
  store_iff a v := by rw [store_isOk_iff, after_size]
  failed x t h := access_of_error h
  same a v mem' h := load_store h
  apart a b v mem' h hab := load_store_of_apart h (by simp only [wordSize]; omega)
  overlapping a b v w mem' h hw := load_store_overlaid h hw

theorem after_wordStore_unaligned :
    ∃ mem', ((ofPages 1).after [.load 9]).store 8 0x01020304 = .ok mem' ∧
      mem'.load 9 = .ok 0x00010203 := by
  have laws := after_wordStore (ofPages 1) [.load 9]
  obtain ⟨mem', h⟩ := (laws.store_iff 8 0x01020304).mpr (by decide)
  have hload := laws.overlapping 8 9 0x01020304 0 mem' h rfl
  exact ⟨mem', h, hload.trans (by decide)⟩

end Memory

end TypedScript
