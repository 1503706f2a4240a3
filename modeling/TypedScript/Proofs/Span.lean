import Mathlib.Algebra.Group.Nat.Defs
import Mathlib.Algebra.GroupWithZero.Nat
import Mathlib.Data.List.Induction
import TypedScript.Span

/-! # Lines and columns

The scan for the line of an offset counts the line feeds and keeps the place behind the last one. It
locates the offset exactly: the lines before it and the columns before it on its own line add up to
the offset. So positions are in the order of the offsets, and no two offsets share one. -/

namespace TypedScript

namespace Text

def bytes (source : String) : List UInt8 := source.toByteArray.data.toList

theorem length_bytes (source : String) : (bytes source).length = source.utf8ByteSize := by
  rw [← String.size_toByteArray]
  rfl

/-- How many bytes the first `n` lines take up, each with the line feed that ends it. -/
def lineStart (bs : List UInt8) (n : Nat) : Nat :=
  (((bs.splitOn 10).take n).map (·.length + 1)).sum

theorem lineStart_zero (bs : List UInt8) : lineStart bs 0 = 0 := by
  simp [lineStart]

theorem lineStart_lineFeed (bs : List UInt8) (n : Nat) :
    lineStart (10 :: bs) (n + 1) = lineStart bs n + 1 := by
  simp [lineStart, List.splitOn, List.splitOnP_cons_eq_if_modifyHead, Nat.add_comm]

theorem lineStart_cons {b : UInt8} (hb : b ≠ 10) (bs : List UInt8) (n : Nat) :
    lineStart (b :: bs) (n + 1) = lineStart bs (n + 1) + 1 := by
  cases h : bs.splitOn 10 with
  | nil => exact absurd h (List.splitOnP_ne_nil _ _)
  | cons l ls =>
    have hcons : (b :: bs).splitOn 10 = (b :: l) :: ls := by
      rw [List.splitOn] at h
      simp [List.splitOn, List.splitOnP_cons_eq_if_modifyHead, hb, h]
    simp only [lineStart, hcons, h, List.take_succ_cons, List.map_cons, List.sum_cons,
      List.length_cons]
    omega

/-- The line after a line feed starts right behind it. -/
theorem lineStart_append (front rest : List UInt8) :
    lineStart (front ++ 10 :: rest) (front.count 10 + 1) = front.length + 1 := by
  induction front with
  | nil => rw [List.nil_append, List.count_nil, lineStart_lineFeed, lineStart_zero, List.length_nil]
  | cons b front ih =>
    by_cases hb : b = 10
    · rw [hb, List.cons_append, List.count_cons_self, lineStart_lineFeed, ih, List.length_cons]
    · rw [List.cons_append, List.count_cons_of_ne hb, lineStart_cons hb, ih, List.length_cons]

/-- How many bytes stand behind the last line feed. -/
def column (bs : List UInt8) : Nat := (bs.reverse.takeWhile (· ≠ 10)).length

theorem column_lineFeed (bs : List UInt8) : column (bs ++ [10]) = 0 := by
  simp [column]

theorem column_concat {b : UInt8} (hb : b ≠ 10) (bs : List UInt8) :
    column (bs ++ [b]) = column bs + 1 := by
  simp [column, hb]

/-- The lines up to the last line feed and the bytes behind it are all there is. -/
theorem lineStart_add_column (before rest : List UInt8) :
    lineStart (before ++ rest) (before.count 10) + column before = before.length := by
  induction before using List.reverseRecOn generalizing rest with
  | nil => exact lineStart_zero rest
  | append_singleton bs b ih =>
    rw [List.append_assoc, List.singleton_append, List.length_append, List.length_singleton,
      List.count_append]
    by_cases hb : b = 10
    · rw [hb, List.count_singleton_self, lineStart_append, column_lineFeed]
    · rw [List.count_singleton, if_neg (by simpa using hb), column_concat hb, ← ih (b :: rest)]
      rfl

end Text

namespace Span

namespace Line

/-! ## The scan -/

theorem ofBytes_concat (bs : List UInt8) (b : UInt8) :
    ofBytes (bs ++ [b]) = (ofBytes bs).scan (b, bs.length) := by
  simp [ofBytes, List.zipIdx_append]

theorem scan_lineFeed (l : Line) (i : Nat) : l.scan (10, i) = ⟨l.number + 1, i + 1⟩ := rfl

theorem scan_of_ne {b : UInt8} (hb : b ≠ 10) (l : Line) (i : Nat) : l.scan (b, i) = l := if_neg hb

/-- The line counts the line feeds that the scan has passed. -/
theorem number_ofBytes (bs : List UInt8) :
    (ofBytes bs).number = UInt32.ofNat (1 + bs.count 10) := by
  induction bs using List.reverseRecOn with
  | nil => rfl
  | append_singleton bs b ih =>
    rw [ofBytes_concat, List.count_append]
    by_cases hb : b = 10
    · rw [hb, scan_lineFeed, ih, List.count_singleton_self, ← Nat.add_assoc,
        UInt32.ofNat_add (1 + bs.count 10)]
      rfl
    · rw [scan_of_ne hb, ih, List.count_singleton, if_neg (by simpa using hb), Nat.add_zero]

/-- The bytes that the scan has passed on its line are those behind the last line feed. -/
theorem start_add_column (bs : List UInt8) :
    (ofBytes bs).start + Text.column bs = bs.length := by
  induction bs using List.reverseRecOn with
  | nil => rfl
  | append_singleton bs b ih =>
    rw [ofBytes_concat, List.length_append, List.length_singleton]
    by_cases hb : b = 10
    · rw [hb, scan_lineFeed, Text.column_lineFeed]
    · rw [scan_of_ne hb, Text.column_concat hb, ← ih, Nat.add_assoc]

end Line

def Before (s s' : Span) : Prop := s.line < s'.line ∨ s.line = s'.line ∧ s.col < s'.col

section

variable {source : String} {start stop start' stop' : Nat}

def bytesBefore (source : String) (start : Nat) : List UInt8 :=
  (Text.bytes source).take (min start source.utf8ByteSize)

theorem length_bytesBefore :
    (bytesBefore source start).length = min start source.utf8ByteSize := by
  rw [bytesBefore, List.length_take, Text.length_bytes]
  omega

/-- What the scan comes to. -/
theorem ofOffsets_eq (source : String) (start stop : Nat) :
    ofOffsets source start stop =
      { line := UInt32.ofNat (1 + (bytesBefore source start).count 10)
        col := UInt32.ofNat (1 + Text.column (bytesBefore source start))
        len := UInt32.ofNat (max (min start source.utf8ByteSize) (min stop source.utf8ByteSize) -
          min start source.utf8ByteSize) } := by
  have hnumber := Line.number_ofBytes (bytesBefore source start)
  have hstart := Line.start_add_column (bytesBefore source start)
  rw [length_bytesBefore] at hstart
  have hcol : UInt32.ofNat (min start source.utf8ByteSize -
      (Line.ofBytes (bytesBefore source start)).start) + 1 =
        UInt32.ofNat (1 + Text.column (bytesBefore source start)) := by
    rw [← hstart, Nat.add_sub_cancel_left, Nat.add_comm 1, UInt32.ofNat_add]
    rfl
  rw [← hnumber, ← hcol]
  rfl

theorem line_ofOffsets (h : source.utf8ByteSize < 2 ^ 32 - 1) :
    (ofOffsets source start stop).line.toNat = 1 + (bytesBefore source start).count 10 := by
  have hcount : (bytesBefore source start).count 10 ≤ (bytesBefore source start).length :=
    List.count_le_length
  rw [length_bytesBefore] at hcount
  rw [ofOffsets_eq, UInt32.toNat_ofNat', Nat.mod_eq_of_lt]
  exact Nat.lt_of_le_of_lt (Nat.add_le_add_left hcount 1) (by omega)

theorem lineStart_bytesBefore (source : String) (start : Nat) :
    Text.lineStart (Text.bytes source) ((bytesBefore source start).count 10) +
      Text.column (bytesBefore source start) = min start source.utf8ByteSize := by
  have hsum := Text.lineStart_add_column (bytesBefore source start)
    ((Text.bytes source).drop (min start source.utf8ByteSize))
  rwa [length_bytesBefore, bytesBefore, List.take_append_drop] at hsum

theorem col_ofOffsets (h : source.utf8ByteSize < 2 ^ 32 - 1) :
    (ofOffsets source start stop).col.toNat = 1 + Text.column (bytesBefore source start) := by
  have hsum := lineStart_bytesBefore source start
  have hcol : Text.column (bytesBefore source start) ≤ min start source.utf8ByteSize := by omega
  rw [ofOffsets_eq, UInt32.toNat_ofNat', Nat.mod_eq_of_lt]
  exact Nat.lt_of_le_of_lt (Nat.add_le_add_left hcol 1) (by omega)

theorem len_ofOffsets (h : source.utf8ByteSize < 2 ^ 32 - 1) :
    min start source.utf8ByteSize + (ofOffsets source start stop).len.toNat =
      max (min start source.utf8ByteSize) (min stop source.utf8ByteSize) := by
  rw [ofOffsets_eq, UInt32.toNat_ofNat']
  omega

/-- The position is exact: the lines before it and the columns before it add up to the offset. -/
theorem lineStart_ofOffsets (h : source.utf8ByteSize < 2 ^ 32 - 1) :
    Text.lineStart (Text.bytes source) ((ofOffsets source start stop).line.toNat - 1) +
      ((ofOffsets source start stop).col.toNat - 1) = min start source.utf8ByteSize := by
  rw [line_ofOffsets h, col_ofOffsets h, Nat.add_sub_cancel_left, Nat.add_sub_cancel_left,
    lineStart_bytesBefore]

theorem count_bytesBefore_le (h : min start source.utf8ByteSize ≤ min start' source.utf8ByteSize) :
    (bytesBefore source start).count 10 ≤ (bytesBefore source start').count 10 :=
  (List.take_prefix_take_left h).sublist.count_le 10

theorem before_ofOffsets (h : source.utf8ByteSize < 2 ^ 32 - 1)
    (hlt : min start source.utf8ByteSize < min start' source.utf8ByteSize) :
    Before (ofOffsets source start stop) (ofOffsets source start' stop') := by
  have hle := count_bytesBefore_le (Nat.le_of_lt hlt)
  rcases Nat.lt_or_eq_of_le hle with hline | hline
  · left
    rw [UInt32.lt_iff_toNat_lt, line_ofOffsets h, line_ofOffsets h]
    omega
  · -- On one line the columns differ as the offsets do.
    have hsum := lineStart_bytesBefore source start
    have hsum' := lineStart_bytesBefore source start'
    rw [hline] at hsum
    right
    rw [← UInt32.toNat_inj, UInt32.lt_iff_toNat_lt, line_ofOffsets h, line_ofOffsets h,
      col_ofOffsets h, col_ofOffsets h]
    omega

theorem Before.ne {s s' : Span} (h : Before s s') : (s.line, s.col) ≠ (s'.line, s'.col) := by
  intro heq
  obtain ⟨hline, hcol⟩ := Prod.mk.inj heq
  rcases h with h | ⟨-, h⟩
  · exact UInt32.ne_of_lt h hline
  · exact UInt32.ne_of_lt h hcol

end

/-- In a source of less than `2 ^ 32 - 1` bytes the line counts the line feeds in front of the
start, the lines before it and the columns before it add up to the start, and the length leads to
the end of the range. So a later start has a later position, and another start another one. -/
theorem ofOffsets_locates (source : String) (h : source.utf8ByteSize < 2 ^ 32 - 1) :
    (∀ start stop,
      (ofOffsets source start stop).line.toNat = 1 + (bytesBefore source start).count 10 ∧
      1 ≤ (ofOffsets source start stop).col.toNat ∧
      Text.lineStart (Text.bytes source) ((ofOffsets source start stop).line.toNat - 1) +
        ((ofOffsets source start stop).col.toNat - 1) = min start source.utf8ByteSize ∧
      min start source.utf8ByteSize + (ofOffsets source start stop).len.toNat =
        max (min start source.utf8ByteSize) (min stop source.utf8ByteSize)) ∧
    ∀ start stop start' stop',
      (min start source.utf8ByteSize < min start' source.utf8ByteSize →
        Before (ofOffsets source start stop) (ofOffsets source start' stop')) ∧
      (min start source.utf8ByteSize ≠ min start' source.utf8ByteSize →
        ((ofOffsets source start stop).line, (ofOffsets source start stop).col) ≠
          ((ofOffsets source start' stop').line, (ofOffsets source start' stop').col)) := by
  constructor
  · intro start stop
    refine ⟨line_ofOffsets h, ?_, lineStart_ofOffsets h, len_ofOffsets h⟩
    rw [col_ofOffsets h]
    omega
  · intro start stop start' stop'
    refine ⟨before_ofOffsets h, fun hne => ?_⟩
    rcases Nat.lt_or_gt_of_ne hne with hlt | hgt
    · exact (before_ofOffsets h hlt).ne
    · exact (before_ofOffsets h hgt).ne.symm

theorem ofOffsets_locates_lineFeed :
    "né\nb".utf8ByteSize < 2 ^ 32 - 1 ∧
      Before (ofOffsets "né\nb" 3 1) (ofOffsets "né\nb" 4 99) ∧
      Before (ofOffsets "né\nb" 4 4) (ofOffsets "né\nb" 7 0) := by
  have h : "né\nb".utf8ByteSize < 2 ^ 32 - 1 := by decide
  have hsize : "né\nb".utf8ByteSize = 5 := by decide
  refine ⟨h, ((ofOffsets_locates _ h).2 3 1 4 99).1 ?_, ((ofOffsets_locates _ h).2 4 4 7 0).1 ?_⟩
  · rw [hsize]
    decide
  · rw [hsize]
    decide

end Span

end TypedScript
