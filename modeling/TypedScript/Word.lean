/-! # Words

Every run-time value is a signed 32-bit integer, and arithmetic on it wraps around.
-/

namespace TypedScript

abbrev Word := Int32

namespace Word

def ofBool (b : Bool) : Word := if b then 1 else 0

/-- The word read as an unsigned number, which is how it addresses memory. -/
def address (w : Word) : Nat := w.toUInt32.toNat

/-- The word in decimal, with a minus sign when it is negative. -/
def text (w : Word) : String := toString w.toInt

def ofInt? (n : Int) : Option Word :=
  if -2147483648 ≤ n ∧ n ≤ 2147483647 then some (Int32.ofInt n) else none

/-- The opposite word, if it is not the least one. -/
def neg? (w : Word) : Option Word := ofInt? (-w.toInt)

/-- The value of a nonempty run of decimal digits. -/
def digits? (cs : List Char) : Option Nat :=
  if cs ≠ [] ∧ cs.all Char.isDigit then
    some (cs.foldl (fun n c => 10 * n + (c.toNat - '0'.toNat)) 0)
  else none

/-- Reads an optional sign followed by decimal digits and nothing else. -/
def ofText? (s : String) : Option Word :=
  match s.toList with
  | '-' :: cs => (digits? cs).bind fun n => ofInt? (-(n : Int))
  | '+' :: cs => (digits? cs).bind fun n => ofInt? n
  | cs => (digits? cs).bind fun n => ofInt? n

/-- The byte at position `k`, the least significant one first. -/
def byte (w : Word) (k : Nat) : UInt8 := UInt8.ofNat (w.address >>> (8 * k))

/-- The word with the given bytes, the least significant one first. -/
def ofBytes (b₀ b₁ b₂ b₃ : UInt8) : Word :=
  (UInt32.ofNat
    (b₀.toNat + 256 * b₁.toNat + 65536 * b₂.toNat + 16777216 * b₃.toNat)).toInt32

end Word

end TypedScript
