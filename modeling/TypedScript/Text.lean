/-! # Text cut by byte offsets and by lines -/

namespace TypedScript.Text

/-- What is left after `n` bytes; none if the cut falls outside the text or inside a character. -/
def dropBytes : Nat → List Char → Option (List Char)
  | 0, cs => some cs
  | _ + 1, [] => none
  | n + 1, c :: cs => if c.utf8Size ≤ n + 1 then dropBytes (n + 1 - c.utf8Size) cs else none

/-- The first `n` bytes; none if the cut falls outside the text or inside a character. -/
def takeBytes : Nat → List Char → Option (List Char)
  | 0, _ => some []
  | _ + 1, [] => none
  | n + 1, c :: cs =>
    if c.utf8Size ≤ n + 1 then (takeBytes (n + 1 - c.utf8Size) cs).map (c :: ·) else none

/-- The text between two byte offsets that are in order, inside the text and between characters. -/
def slice? (source : String) (start stop : Nat) : Option String :=
  if start ≤ stop then
    ((dropBytes start source.toList).bind (takeBytes (stop - start))).map String.ofList
  else none

/-- The pieces between line feeds, the last one included even when it is empty. -/
def pieces (cs : List Char) : List (List Char) :=
  cs.foldr (fun c rest =>
    if c = '\n' then [] :: rest
    else match rest with
      | [] => [[c]]
      | line :: lines => (c :: line) :: lines) [[]]

def dropReturn (line : List Char) : List Char :=
  if line.getLast? = some '\r' then line.dropLast else line

/-- The lines of a text. A line feed ends a line and takes a carriage return before it along;
what follows the last line feed is a line if it is not empty. -/
def lines (s : String) : List String :=
  let all := pieces s.toList
  let ended := all.dropLast.map dropReturn
  let last := (all.getLast?.filter (· ≠ [])).toList
  (ended ++ last).map String.ofList

/-- Two blanks for each level. -/
def pad (depth : Nat) : String := String.ofList (List.replicate (2 * depth) ' ')

end TypedScript.Text
