import TypedScript.Code.Module

/-! # Words and brackets

A text falls into round brackets and words, which blanks and line ends only keep apart. Words and
brackets are those of at most one sequence of bracketed forms, so a text that is written from forms
gives them back, however it is broken into lines. -/

namespace TypedScript

inductive Token
  | opening
  | closing
  | word (s : String)
  deriving DecidableEq, Repr

namespace Token

/-- Brackets and blanks are no part of a word. -/
def separates (c : Char) : Bool := c = '(' || c = ')' || c.isWhitespace

def ofSeparator (c : Char) : List Token :=
  if c = '(' then [opening] else if c = ')' then [closing] else []

def ofWord (cs : List Char) : List Token := if cs = [] then [] else [word (String.ofList cs)]

/-- The word that a text begins with, which may be empty, and the tokens behind it. -/
def split : List Char → List Char × List Token
  | [] => ([], [])
  | c :: cs =>
    if separates c then ([], ofSeparator c ++ (ofWord (split cs).1 ++ (split cs).2))
    else (c :: (split cs).1, (split cs).2)

def scan (cs : List Char) : List Token := ofWord (split cs).1 ++ (split cs).2

def ofText (s : String) : List Token := scan s.toList

/-! ## Separators -/

theorem split_append_separator {c : Char} (h : separates c = true) (as bs : List Char) :
    split (as ++ c :: bs) = ((split as).1, (split as).2 ++ (ofSeparator c ++ scan bs)) := by
  induction as with
  | nil => simp [split, scan, h]
  | cons a as ih => cases ha : separates a <;> simp [split, ih, ha]

/-- A separator ends one word and begins the next. -/
theorem scan_append_separator {c : Char} (h : separates c = true) (as bs : List Char) :
    scan (as ++ c :: bs) = scan as ++ (ofSeparator c ++ scan bs) := by
  simp [scan, split_append_separator h]

theorem scan_separator {c : Char} (h : separates c = true) (cs : List Char) :
    scan (c :: cs) = ofSeparator c ++ scan cs :=
  scan_append_separator h [] cs

theorem scan_blanks (n : Nat) (cs : List Char) : scan (List.replicate n ' ' ++ cs) = scan cs := by
  induction n with
  | zero => rfl
  | succ n ih => exact (scan_separator rfl _).trans ih

theorem ofText_append_separator {c : Char} (h : separates c = true) (s t : String) :
    ofText (s ++ (String.singleton c ++ t)) = ofText s ++ (ofSeparator c ++ ofText t) := by
  simp [ofText, scan_append_separator h]

/-- The tokens of a text, whatever stands behind it. -/
def Spells (s : String) (ts : List Token) : Prop := ∀ t, ofText (s ++ t) = ts ++ ofText t

namespace Spells

variable {s s' : String} {ts ts' : List Token}

theorem ofText_eq (h : Spells s ts) : ofText s = ts := by
  have hempty : ofText (s ++ "") = ts ++ [] := h ""
  simpa using hempty

theorem empty : Spells "" [] := fun t => by simp

theorem append (h : Spells s ts) (h' : Spells s' ts') : Spells (s ++ s') (ts ++ ts') := by
  intro t
  rw [String.append_assoc, h, h', List.append_assoc]

theorem join {α : Type} {f : α → String} {g : α → List Token} (xs : List α)
    (h : ∀ x ∈ xs, Spells (f x) (g x)) : Spells (String.join (xs.map f)) (xs.flatMap g) := by
  induction xs with
  | nil => exact empty
  | cons x xs ih =>
    rw [List.map_cons, String.join_cons]
    exact (h x List.mem_cons_self).append (ih fun y hy => h y (List.mem_cons_of_mem x hy))

end Spells

theorem spells_separator {c : Char} (h : separates c = true) (s : String) :
    Spells (s ++ String.singleton c) (ofText s ++ ofSeparator c) := by
  intro t
  rw [String.append_assoc, ofText_append_separator h, List.append_assoc]

theorem spells_open : Spells "(" [opening] := spells_separator (c := '(') rfl ""

theorem spells_close (s : String) : Spells (s ++ ")") (ofText s ++ [closing]) :=
  spells_separator (c := ')') rfl s

theorem spells_newline (s : String) : Spells (s ++ "\n") (ofText s) := by
  simpa [ofSeparator] using spells_separator (c := '\n') rfl s

theorem spells_pad (d : Nat) : Spells (Text.pad d) [] := by
  intro t
  rw [ofText, String.toList_append, Text.pad, String.toList_ofList]
  exact scan_blanks _ _

/-! ## Words -/

/-- No character of the text separates words. -/
def Plain (s : String) : Prop := ∀ c ∈ s.toList, separates c = false

instance (s : String) : Decidable (Plain s) :=
  decidable_of_iff (s.toList.all (!separates ·) = true) (by simp [Plain])

def IsWord (s : String) : Prop := s ≠ "" ∧ Plain s

instance (s : String) : Decidable (IsWord s) := inferInstanceAs (Decidable (s ≠ "" ∧ Plain s))

theorem split_of_plain {cs : List Char} (h : ∀ c ∈ cs, separates c = false) :
    split cs = (cs, []) := by
  induction cs with
  | nil => rfl
  | cons c cs ih =>
    have hcs : ∀ d ∈ cs, separates d = false := fun d hd => h d (List.mem_cons_of_mem c hd)
    simp [split, h c List.mem_cons_self, ih hcs]

theorem ofText_word {s : String} (h : IsWord s) : ofText s = [word s] := by
  have hne : s.toList ≠ [] := by simpa using h.1
  simp [ofText, scan, split_of_plain h.2, ofWord, hne]

theorem Plain.append {s t : String} (hs : Plain s) (ht : Plain t) : Plain (s ++ t) := by
  intro c hc
  rw [String.toList_append, List.mem_append] at hc
  exact hc.elim (hs c) (ht c)

theorem IsWord.append {s t : String} (hs : IsWord s) (ht : Plain t) : IsWord (s ++ t) :=
  ⟨by simp [hs.1], hs.2.append ht⟩

theorem not_isDigit_of_separates {c : Char} (h : separates c = true) : c.isDigit = false := by
  simp only [separates, Char.isWhitespace, Bool.or_eq_true, decide_eq_true_eq] at h
  rcases h with (rfl | rfl) | ((rfl | rfl) | rfl) | rfl <;> rfl

theorem isWord_repr (n : Nat) : IsWord n.repr := by
  refine ⟨Nat.repr_ne_empty, ?_⟩
  intro c hc
  rw [Nat.toList_repr] at hc
  have hdigit : c.isDigit = true := Nat.isDigit_of_mem_toDigits (by decide) (by decide) hc
  cases hsep : separates c with
  | false => rfl
  | true => simp [not_isDigit_of_separates hsep] at hdigit

theorem isWord_text (w : Word) : IsWord w.text := by
  rw [Word.text, Int.toString_eq_repr, Int.repr_eq_if]
  split
  · exact isWord_repr _
  · exact IsWord.append (by decide) (isWord_repr _).2

/-! ## Lines -/

/-- Line ends separate words, so the words and brackets of a text are those of its pieces. -/
theorem split_pieces (cs : List Char) :
    ∃ line lines, Text.pieces cs = line :: lines ∧
      split cs = ((split line).1, (split line).2 ++ lines.flatMap scan) := by
  induction cs with
  | nil => exact ⟨[], [], rfl, rfl⟩
  | cons c cs ih =>
    obtain ⟨line, lines, hpieces, hsplit⟩ := ih
    rw [Text.pieces] at hpieces ⊢
    by_cases hc : c = '\n'
    · subst hc
      refine ⟨[], line :: lines, by simp [hpieces], ?_⟩
      rw [← List.nil_append ('\n' :: cs), split_append_separator rfl [] cs]
      simp [ofSeparator, scan, hsplit]
    · -- the character may prolong the word that the first piece begins with
      refine ⟨c :: line, lines, by simp [hpieces, hc], ?_⟩
      cases hs : separates c <;> simp [split, hs, hsplit]

theorem flatMap_scan_pieces (cs : List Char) : (Text.pieces cs).flatMap scan = scan cs := by
  obtain ⟨line, lines, hpieces, hsplit⟩ := split_pieces cs
  simp [hpieces, scan, hsplit]

theorem scan_dropReturn (line : List Char) : scan (Text.dropReturn line) = scan line := by
  rw [Text.dropReturn]
  split
  · next h =>
    obtain ⟨front, rfl⟩ := List.getLast?_eq_some_iff.1 h
    rw [List.dropLast_concat, scan_append_separator rfl]
    exact (List.append_nil _).symm
  · rfl

theorem flatMap_scan_last (all : List (List Char)) :
    (all.getLast?.filter (· ≠ [])).toList.flatMap scan = all.getLast?.toList.flatMap scan := by
  cases all.getLast? with
  | none => rfl
  | some last => cases last <;> simp [Option.filter, scan, split, ofWord]

/-- A text has the words and brackets of its lines. -/
theorem flatMap_ofText_lines (s : String) : (Text.lines s).flatMap ofText = ofText s := by
  have hends (ls : List (List Char)) : (ls.map Text.dropReturn).flatMap scan = ls.flatMap scan := by
    simp [List.flatMap_map, scan_dropReturn]
  have hjoin (all : List (List Char)) : all.dropLast ++ all.getLast?.toList = all := by
    cases h : all.getLast? with
    | none => simp_all
    | some last =>
      obtain ⟨front, rfl⟩ := List.getLast?_eq_some_iff.1 h
      simp
  calc (Text.lines s).flatMap ofText
      = (Text.pieces s.toList).dropLast.flatMap scan ++
          (Text.pieces s.toList).getLast?.toList.flatMap scan := by
        rw [Text.lines, List.flatMap_map, ← hends, ← flatMap_scan_last, ← List.flatMap_append]
        simp [ofText]
    _ = (Text.pieces s.toList).flatMap scan := by rw [← List.flatMap_append, hjoin]
    _ = ofText s := flatMap_scan_pieces s.toList

theorem spells_indented (lines : List String) :
    Spells (Module.indented lines) (lines.flatMap ofText) := by
  refine Spells.join lines ?_
  intro line _
  rw [String.append_assoc]
  exact (spells_pad 1).append (spells_newline line)

end Token

/-! ## Forms -/

/-- A word, or a bracket around forms. -/
inductive Form
  | word (s : String)
  | group (parts : List Form)
  deriving Repr

namespace Form

mutual
def tokens : Form → List Token
  | word s => [.word s]
  | group parts => .opening :: (listTokens parts ++ [.closing])

def listTokens : List Form → List Token
  | [] => []
  | f :: fs => f.tokens ++ listTokens fs
end

mutual
def line : Form → String
  | word s => s
  | group [] => "()"
  | group (f :: fs) => "(" ++ f.line ++ spaced fs ++ ")"

def spaced : List Form → String
  | [] => ""
  | f :: fs => " " ++ f.line ++ spaced fs
end

/-- Every word of the form reads as one word. -/
inductive Legible : Form → Prop
  | word {s : String} (h : Token.IsWord s) : Legible (word s)
  | group {parts : List Form} (h : ∀ f ∈ parts, Legible f) : Legible (group parts)

theorem legible_word {s : String} : (word s).Legible ↔ Token.IsWord s := by
  constructor
  · rintro (h | h)
    exact h
  · exact .word

/-- Reads on from the forms read so far in the innermost open bracket and in those around it. -/
def read (inner : List Form) : List (List Form) → List Token → Option (List Form)
  | [], [] => some inner
  | _ :: _, [] => none
  | outer, .word s :: ts => read (inner ++ [word s]) outer ts
  | outer, .opening :: ts => read [] (inner :: outer) ts
  | [], .closing :: _ => none
  | around :: outer, .closing :: ts => read (around ++ [group inner]) outer ts

def ofText? (s : String) : Option Form :=
  match read [] [] (Token.ofText s) with
  | some [f] => some f
  | _ => none

theorem listTokens_eq_flatMap (fs : List Form) : listTokens fs = fs.flatMap tokens := by
  induction fs with
  | nil => rfl
  | cons f fs ih => simp [listTokens, ih]

@[simp]
theorem listTokens_append (fs gs : List Form) :
    listTokens (fs ++ gs) = listTokens fs ++ listTokens gs := by
  simp [listTokens_eq_flatMap]

mutual
theorem read_tokens (inner : List Form) (outer : List (List Form)) (ts : List Token) :
    ∀ f : Form, read inner outer (f.tokens ++ ts) = read (inner ++ [f]) outer ts
  | word s => by cases outer <;> rfl
  | group parts => by
    have hopen : read inner outer ((group parts).tokens ++ ts) =
        read [] (inner :: outer) (listTokens parts ++ .closing :: ts) := by
      cases outer <;> simp [tokens, read]
    rw [hopen, read_listTokens [] (inner :: outer) (.closing :: ts) parts]
    rfl

theorem read_listTokens (inner : List Form) (outer : List (List Form)) (ts : List Token) :
    ∀ fs : List Form, read inner outer (listTokens fs ++ ts) = read (inner ++ fs) outer ts
  | [] => by simp [listTokens]
  | f :: fs => by
    rw [listTokens, List.append_assoc, read_tokens inner outer _ f,
      read_listTokens (inner ++ [f]) outer ts fs, List.append_assoc]
    rfl
end

theorem ofText?_of_tokens {s : String} {f : Form} (h : Token.ofText s = f.tokens) :
    ofText? s = some f := by
  have hread : read [] [] (Token.ofText s) = some [f] := by
    rw [h, ← List.append_nil f.tokens, read_tokens]
    rfl
  rw [ofText?, hread]

mutual
theorem ofText_line : ∀ f : Form, f.Legible → Token.ofText f.line = f.tokens
  | word s, .word h => Token.ofText_word h
  | group [], _ => rfl
  | group (f :: fs), .group h => by
    have hparts : Token.ofText (f.line ++ spaced fs) = listTokens (f :: fs) := by
      rw [ofText_spaced fs f.line fun g hg => h g (List.mem_cons_of_mem f hg),
        ofText_line f (h f List.mem_cons_self), listTokens]
    have hclose := Token.spells_close (f.line ++ spaced fs)
    rw [hparts] at hclose
    simpa [line, tokens, String.append_assoc] using (Token.spells_open.append hclose).ofText_eq

theorem ofText_spaced : ∀ (fs : List Form) (s : String), (∀ f ∈ fs, f.Legible) →
    Token.ofText (s ++ spaced fs) = Token.ofText s ++ listTokens fs
  | [], s, _ => by simp [spaced, listTokens]
  | f :: fs, s, h => by
    have hblank := Token.ofText_append_separator (c := ' ') rfl s (f.line ++ spaced fs)
    rw [ofText_spaced fs f.line fun g hg => h g (List.mem_cons_of_mem f hg),
      ofText_line f (h f List.mem_cons_self)] at hblank
    rw [spaced, String.append_assoc]
    exact hblank
end

theorem spells_indented (fs : List Form) (h : ∀ f ∈ fs, f.Legible) :
    Token.Spells (Module.indented (fs.map line)) (listTokens fs) := by
  have hlines : (fs.map line).flatMap Token.ofText = listTokens fs := by
    induction fs with
    | nil => rfl
    | cons f fs ih =>
      have hfs := ih fun g hg => h g (List.mem_cons_of_mem f hg)
      rw [List.map_cons, List.flatMap_cons, ofText_line f (h f List.mem_cons_self), hfs, listTokens]
  rw [← hlines]
  exact Token.spells_indented (fs.map line)

end Form

end TypedScript
