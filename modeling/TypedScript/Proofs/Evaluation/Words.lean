import TypedScript.Machine.Step
import TypedScript.Proofs.Evaluation.Evaluator
import Mathlib.Data.Int.Order.Basic

/-! # Words as numbers

What the machine computes on words, told with integers, and addresses that do not wrap around. -/

namespace TypedScript

namespace BinaryOp

/-- The operation of an operator computes its value. -/
theorem eval_numeric (op : BinaryOp) (l r : Word) : op.numeric.eval l r = op.apply l r := by
  have hl := l.minValue_le_toInt
  have hl' := l.toInt_le
  have hr := r.minValue_le_toInt
  have hr' := r.toInt_le
  cases op with
  | add => simp [numeric, NumericOp.eval, apply, Int32.ofInt_add]
  | sub => simp [numeric, NumericOp.eval, apply, Int32.ofInt_sub]
  | mul => simp [numeric, NumericOp.eval, apply, Int32.ofInt_mul]
  | floorDiv => simp [numeric, NumericOp.eval, apply, Int32.ofInt_tdiv hl hl' hr hr']
  | mod => simp [numeric, NumericOp.eval, apply, Int32.ofInt_tmod hl hl' hr hr']
  | less => simp [numeric, NumericOp.eval, apply, Int32.lt_iff_toInt_lt]
  | lessEqual => simp [numeric, NumericOp.eval, apply, Int32.le_iff_toInt_le]
  | greater => simp [numeric, NumericOp.eval, apply, Int32.lt_iff_toInt_lt]
  | greaterEqual => simp [numeric, NumericOp.eval, apply, Int32.le_iff_toInt_le]
  | equal => simp [numeric, NumericOp.eval, apply]
  | notEqual => simp [numeric, NumericOp.eval, apply]
  | is => simp [numeric, NumericOp.eval, apply]

end BinaryOp

namespace Word

theorem zero_sub_eq (w : Word) : 0 - w = Int32.ofInt (-w.toInt) := by
  simp [Int32.ofInt_neg]

/-- Addresses of the lower half are the numbers that they read as. -/
theorem toInt_eq_address {w : Word} (h : w.address < 2 ^ 31) : w.toInt = w.address := by
  have hbits : w.toBitVec.toNat = w.address := rfl
  rw [Int32.toInt, BitVec.toInt_eq_toNat_cond, hbits, if_pos (by omega)]

/-- Addresses wrap around. -/
theorem address_add_ofNat_mod (w : Word) (n : Nat) :
    (w + Int32.ofNat n).address = (w.address + n) % 2 ^ 32 := by
  have hw : w.toUInt32.toNat = w.address := rfl
  rw [address, Int32.toUInt32_add, Int32.toUInt32_ofNat', UInt32.toNat_add, UInt32.toNat_ofNat',
    hw, Nat.add_mod_mod]

theorem address_add_ofNat {w : Word} {n : Nat} (h : w.address + n < 2 ^ 32) :
    (w + Int32.ofNat n).address = w.address + n := by
  rw [address_add_ofNat_mod, Nat.mod_eq_of_lt h]

theorem le_add_ofNat {w : Word} {n : Nat} (h : w.address + n < 2 ^ 31) :
    w ≤ w + Int32.ofNat n := by
  have hsum := address_add_ofNat (by omega : w.address + n < 2 ^ 32)
  rw [Int32.le_iff_toInt_le, toInt_eq_address (by omega), toInt_eq_address (by omega), hsum]
  omega

end Word

end TypedScript
