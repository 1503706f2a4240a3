import TypedScript.Error

/-! # Memory

Linear memory: bytes that are zero at first, addressed by unsigned words. Words are stored with the
least significant byte first, at any address.
-/

namespace TypedScript

/-- Bytes at all addresses, as a tree of those that were written. Address `2 * k + 1` is address `k`
of the left branch and `2 * k + 2` address `k` of the right one. -/
inductive Bytes
  | zeros
  | node (here : UInt8) (left right : Bytes)
  deriving Repr

namespace Bytes

def get : Bytes → Nat → UInt8
  | zeros, _ => 0
  | node here left right, a =>
    if a = 0 then here
    else if a % 2 = 1 then left.get ((a - 1) / 2)
    else right.get ((a - 1) / 2)

def here : Bytes → UInt8
  | zeros => 0
  | node b _ _ => b

def left : Bytes → Bytes
  | zeros => zeros
  | node _ l _ => l

def right : Bytes → Bytes
  | zeros => zeros
  | node _ _ r => r

def set (t : Bytes) (a : Nat) (b : UInt8) : Bytes :=
  if a = 0 then node b t.left t.right
  else if a % 2 = 1 then node t.here (t.left.set ((a - 1) / 2) b) t.right
  else node t.here t.left (t.right.set ((a - 1) / 2) b)
  termination_by a

end Bytes

def pageSize : Nat := 65536

structure Memory where
  /-- The number of bytes. -/
  size : Nat
  bytes : Bytes
  deriving Repr

namespace Memory

def ofPages (pages : Nat) : Memory := ⟨pages * pageSize, .zeros⟩

/-- The word at an address has to lie inside the memory. -/
def contains (m : Memory) (a : Word) : Bool := a.address + 4 ≤ m.size

def byte (m : Memory) (a : Nat) : UInt8 := m.bytes.get a

def load (m : Memory) (a : Word) : Except Trap Word :=
  if m.contains a then
    .ok (Word.ofBytes (m.byte a.address) (m.byte (a.address + 1)) (m.byte (a.address + 2))
      (m.byte (a.address + 3)))
  else .error (.outOfBounds a.address m.size)

def write (a w : Word) : EStateM Trap Memory Unit := fun m =>
  if m.contains a then
    .ok () { m with
      bytes := (((m.bytes.set a.address (w.byte 0)).set (a.address + 1) (w.byte 1)).set
        (a.address + 2) (w.byte 2)).set (a.address + 3) (w.byte 3) }
  else .error (.outOfBounds a.address m.size) m

/-- The memory that a write leaves behind if it succeeds. -/
def store (m : Memory) (a w : Word) : Except Trap Memory :=
  match write a w m with
  | .ok _ m => .ok m
  | .error t _ => .error t

end Memory

end TypedScript
