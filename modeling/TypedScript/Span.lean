/-! # Spans

Where a piece of source text starts, as a line and a column counted from one, and how many bytes it
covers.
-/

namespace TypedScript

structure Span where
  line : UInt32
  col : UInt32
  len : UInt32
  deriving DecidableEq, Repr

namespace Span

instance : Inhabited Span := ⟨⟨0, 0, 0⟩⟩

/-- The line that a scan of bytes has come to, and the index at which it starts. -/
structure Line where
  number : UInt32
  start : Nat

/-- A line feed ends the line. -/
def Line.scan (l : Line) (byte : UInt8 × Nat) : Line :=
  if byte.1 = 10 then ⟨l.number + 1, byte.2 + 1⟩ else l

def Line.ofBytes (bs : List UInt8) : Line := bs.zipIdx.foldl Line.scan ⟨1, 0⟩

/-- The span of a byte range. Offsets past the end of the source count as the end, and a range that
stops before it starts is empty. -/
def ofOffsets (source : String) (start stop : Nat) : Span :=
  let start := min start source.utf8ByteSize
  let stop := max start (min stop source.utf8ByteSize)
  let line := Line.ofBytes (source.toByteArray.data.toList.take start)
  { line := line.number
    col := UInt32.ofNat (start - line.start) + 1
    len := UInt32.ofNat (stop - start) }

def isEmpty (s : Span) : Bool := s.len == 0

def text (s : Span) : String := toString s.line.toNat ++ ":" ++ toString s.col.toNat

end Span

structure Located (ε : Type) where
  fault : ε
  span : Span
  deriving DecidableEq, Repr

end TypedScript
