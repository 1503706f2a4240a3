import TypedScript.Tree.Stacks

/-! # Positions in a tree

A path of child indices denotes a node and the way to it from the root. A cursor is always on the
way that its path denotes, and a move leads to the path it asks for or is not possible. A cursor
that keeps two stacks moves in the same way. -/

namespace TypedScript

namespace Node

/-- The node that a path of child indices leads to. -/
def at? : List Nat → Node → Option Node
  | [], n => some n
  | i :: path, n => n.children[i]?.bind (at? path)

/-- The nodes on the way that a path leads, both ends included. -/
def along : List Nat → Node → Option (List Node)
  | [], n => some [n]
  | i :: path, n => (n.children[i]?.bind (along path)).map (n :: ·)

theorem at?_concat (path : List Nat) (i : Nat) (n : Node) :
    n.at? (path ++ [i]) = (n.at? path).bind fun m => m.children[i]? := by
  induction path generalizing n with
  | nil => simp [at?]
  | cons j path ih =>
    simp only [List.cons_append, at?, Option.bind_assoc]
    exact congrArg _ (funext ih)

theorem along_concat {path : List Nat} {i : Nat} {n m k : Node} {ns : List Node}
    (hns : n.along path = some ns) (hm : n.at? path = some m) (hk : m.children[i]? = some k) :
    n.along (path ++ [i]) = some (ns ++ [k]) := by
  induction path generalizing n ns with
  | nil =>
    cases hns
    cases hm
    simp [along, hk]
  | cons j path ih =>
    obtain ⟨child, hchild, hm⟩ := Option.bind_eq_some_iff.mp hm
    simp only [along, hchild, Option.bind_some, Option.map_eq_some_iff] at hns
    obtain ⟨rest, hrest, rfl⟩ := hns
    simp [along, hchild, ih hrest hm]

end Node

namespace Cursor

/-- The trail leads from the root to a node: each entry has the next node as the child it notes. -/
def Leads (root : Node) : List (Node × Nat) → Node → Prop
  | [], n => n = root
  | (above, i) :: trail, n => above.children[i]? = some n ∧ Leads root trail above

@[simp] theorem path_cons (source : String) (above n : Node) (i : Nat)
    (trail : List (Node × Nat)) :
    path ⟨source, (above, i) :: trail, n⟩ = path ⟨source, trail, above⟩ ++ [i] := by
  simp [path]

theorem ancestors_cons (source : String) (above n : Node) (i : Nat) (trail : List (Node × Nat)) :
    ancestors ⟨source, (above, i) :: trail, n⟩ = ancestors ⟨source, trail, above⟩ ++ [n] := by
  simp [ancestors]

namespace Leads

variable {root n : Node} {source : String} {trail : List (Node × Nat)}

theorem at?_path (h : Leads root trail n) : root.at? (path ⟨source, trail, n⟩) = some n := by
  induction trail generalizing n with
  | nil =>
    cases h
    rfl
  | cons entry trail ih =>
    rw [path_cons, Node.at?_concat, ih h.2]
    exact h.1

theorem along_path (h : Leads root trail n) :
    root.along (path ⟨source, trail, n⟩) = some (ancestors ⟨source, trail, n⟩) := by
  induction trail generalizing n with
  | nil =>
    cases h
    rfl
  | cons entry trail ih =>
    rw [path_cons, ancestors_cons]
    exact Node.along_concat (ih h.2) h.2.at?_path h.1

end Leads

/-- The path that a move asks for. The root has no sibling and no parent. -/
def Move.goal? : Move → List Nat → Option (List Nat)
  | .child, path => some (path ++ [0])
  | .next, path => path.getLast?.map fun i => path.dropLast ++ [i + 1]
  | .parent, path => if path = [] then none else some path.dropLast

/-- What each move does where it is possible. -/
inductive Moves : Cursor → Move → Cursor → Prop
  | child {source : String} {trail : List (Node × Nat)} {focus n : Node}
      (h : focus.children[0]? = some n) :
      Moves ⟨source, trail, focus⟩ .child ⟨source, (focus, 0) :: trail, n⟩
  | next {source : String} {trail : List (Node × Nat)} {above focus n : Node} {i : Nat}
      (h : above.children[i + 1]? = some n) :
      Moves ⟨source, (above, i) :: trail, focus⟩ .next ⟨source, (above, i + 1) :: trail, n⟩
  | parent {source : String} {trail : List (Node × Nat)} {above focus : Node} {i : Nat} :
      Moves ⟨source, (above, i) :: trail, focus⟩ .parent ⟨source, trail, above⟩

section

variable {root : Node} {c d : Cursor} {m : Move}

theorem move?_eq_some_iff : c.move? m = some d ↔ Moves c m d := by
  constructor
  · intro hd
    obtain ⟨source, trail, focus⟩ := c
    cases m with
    | child =>
      obtain ⟨n, hn, rfl⟩ := Option.map_eq_some_iff.mp hd
      exact .child (List.head?_eq_getElem? ▸ hn)
    | next =>
      rcases trail with _ | ⟨⟨above, i⟩, trail⟩
      · cases hd
      · obtain ⟨n, hn, rfl⟩ := Option.map_eq_some_iff.mp hd
        exact .next hn
    | parent =>
      rcases trail with _ | ⟨⟨above, i⟩, trail⟩
      · cases hd
      · cases hd
        exact .parent
  · intro hd
    cases hd with
    | child h => simp [move?, firstChild?, List.head?_eq_getElem?, h]
    | next h => simp [move?, nextSibling?, h]
    | parent => rfl

theorem Moves.leads (hd : Moves c m d) (h : Leads root c.trail c.focus) :
    Leads root d.trail d.focus := by
  cases hd with
  | child hn => exact ⟨hn, h⟩
  | next hn => exact ⟨hn, h.2⟩
  | parent => exact h.2

theorem Moves.goal? (hd : Moves c m d) : m.goal? c.path = some d.path := by
  cases hd with
  | child hn =>
    rw [path_cons]
    rfl
  | next hn => simp [Move.goal?]
  | parent => simp [Move.goal?]

theorem Moves.back (hd : Moves c .child d) : Moves d .parent c := by
  cases hd with
  | child hn => exact .parent

/-- A move is possible if the path it asks for denotes a node. -/
theorem exists_moves {goal : List Nat} (h : Leads root c.trail c.focus)
    (hgoal : m.goal? c.path = some goal) (hat : (root.at? goal).isSome = true) :
    ∃ d, Moves c m d := by
  obtain ⟨n, hn⟩ := Option.isSome_iff_exists.mp hat
  obtain ⟨source, trail, focus⟩ := c
  cases m with
  | child =>
    cases hgoal
    rw [Node.at?_concat, h.at?_path] at hn
    exact ⟨_, .child hn⟩
  | next =>
    rcases trail with _ | ⟨⟨above, i⟩, trail⟩
    · cases hgoal
    · obtain rfl : path ⟨source, trail, above⟩ ++ [i + 1] = goal := by
        simpa [Move.goal?] using hgoal
      rw [Node.at?_concat, h.2.at?_path] at hn
      exact ⟨_, .next hn⟩
  | parent =>
    rcases trail with _ | ⟨⟨above, i⟩, trail⟩
    · cases hgoal
    · exact ⟨_, .parent⟩

theorem isSome_move?_iff (h : Leads root c.trail c.focus) :
    (c.move? m).isSome = true ↔
      ∃ goal, m.goal? c.path = some goal ∧ (root.at? goal).isSome = true := by
  constructor
  · intro hm
    obtain ⟨d, hd⟩ := Option.isSome_iff_exists.mp hm
    have hmoves := move?_eq_some_iff.mp hd
    have hat : root.at? d.path = some d.focus := (hmoves.leads h).at?_path
    exact ⟨d.path, hmoves.goal?, by rw [hat]; rfl⟩
  · rintro ⟨goal, hgoal, hat⟩
    obtain ⟨d, hd⟩ := exists_moves h hgoal hat
    rw [move?_eq_some_iff.mpr hd]
    rfl

theorem move_of_some (hd : c.move? m = some d) : c.move m = d := by
  rw [move, hd]
  rfl

theorem move_of_none (hd : c.move? m = none) : c.move m = c := by
  rw [move, hd]
  rfl

/-- A move is made, or the cursor stays where it is. -/
theorem moves_or_eq (c : Cursor) (m : Move) : Moves c m (c.move m) ∨ c.move m = c := by
  cases hd : c.move? m with
  | none => exact .inr (move_of_none hd)
  | some d =>
    rw [move_of_some hd]
    exact .inl (move?_eq_some_iff.mp hd)

theorem leads_move (h : Leads root c.trail c.focus) (m : Move) :
    Leads root (c.move m).trail (c.move m).focus := by
  rcases moves_or_eq c m with hd | hd
  · exact hd.leads h
  · rwa [hd]

theorem move_source (c : Cursor) (m : Move) : (c.move m).source = c.source := by
  rcases moves_or_eq c m with hd | hd
  · generalize c.move m = d at hd
    cases hd <;> rfl
  · rw [hd]

/-- Going on among the children of a node never leaves them, so the way up leads to the node. -/
theorem moves_parent_of_nexts (k : Nat) (hd : Moves d .parent c) :
    Moves ((List.replicate k Move.next).foldl move d) .parent c := by
  induction k generalizing d with
  | zero => exact hd
  | succ k ih =>
    rw [List.replicate_succ, List.foldl_cons]
    apply ih
    rcases moves_or_eq d .next with hn | hn
    · generalize d.move .next = e at hn
      cases hn with
      | next h =>
        cases hd
        exact .parent
    · rwa [hn]

end

/-! ## Two stacks -/

def toStacks (c : Cursor) : StackCursor :=
  ⟨c.source, c.focus :: c.trail.map (·.1), c.trail.map (·.2)⟩

/-- A move of the stacks is made just if the move of the cursor is, and leads to its stacks. -/
theorem toStacks_move (c : Cursor) (m : Move) :
    c.toStacks.move m = ((c.move? m).isSome, (c.move m).toStacks) := by
  obtain ⟨source, trail, focus⟩ := c
  cases m with
  | child =>
    cases hn : focus.children.head? with
    | none =>
      simp [toStacks, StackCursor.move, StackCursor.firstChild, move, move?, firstChild?, hn]
    | some n =>
      simp [toStacks, StackCursor.move, StackCursor.firstChild, move, move?, firstChild?, hn]
  | next =>
    rcases trail with _ | ⟨⟨above, i⟩, trail⟩
    · rfl
    · cases hn : above.children[i + 1]? with
      | none =>
        simp [toStacks, StackCursor.move, StackCursor.nextSibling, move, move?, nextSibling?, hn]
      | some n =>
        simp [toStacks, StackCursor.move, StackCursor.nextSibling, move, move?, nextSibling?, hn]
  | parent =>
    rcases trail with _ | ⟨⟨above, i⟩, trail⟩
    · rfl
    · rfl

/-- Whether each of some moves is possible once those before it have been tried. -/
def answers (c : Cursor) : List Move → List Bool
  | [] => []
  | m :: ms => (c.move? m).isSome :: (c.move m).answers ms

theorem toStacks_run (c : Cursor) (ms : List Move) :
    c.toStacks.run ms = (c.answers ms, (ms.foldl move c).toStacks) := by
  induction ms generalizing c with
  | nil => rfl
  | cons m ms ih => rw [StackCursor.run, toStacks_move, ih, answers, List.foldl_cons]

/-! ## Whole runs -/

/-- Where some moves lead from the root of a tree. -/
def reach (t : Tree) (ms : List Move) : Cursor := ms.foldl move (ofTree t)

theorem reach_source (t : Tree) (ms : List Move) : (reach t ms).source = t.source := by
  suffices h : ∀ c : Cursor, (ms.foldl move c).source = c.source from h (ofTree t)
  induction ms with
  | nil => exact fun _ => rfl
  | cons m ms ih =>
    intro c
    rw [List.foldl_cons, ih, move_source]

theorem leads_reach (t : Tree) (ms : List Move) :
    Leads t.root (reach t ms).trail (reach t ms).focus := by
  suffices h : ∀ c : Cursor, Leads t.root c.trail c.focus →
      Leads t.root (ms.foldl move c).trail (ms.foldl move c).focus from h (ofTree t) rfl
  induction ms with
  | nil => exact fun _ h => h
  | cons m ms ih => exact fun c h => ih (c.move m) (leads_move h m)

/-- Wherever moves have led, the nodes above the cursor are those on the way that its path denotes.
A move is possible just if the path it asks for denotes a node; it then leads to that path, and
otherwise nowhere. From a first child, and from any sibling reached from there, the way up leads
back to the very same place. A cursor that keeps its ancestors and its path on two stacks has always
those of this one, and answers each move by whether it is possible. -/
theorem reach_position (t : Tree) (ms : List Move) :
    t.root.along (reach t ms).path = some (reach t ms).ancestors ∧
    t.root.at? (reach t ms).path = some (reach t ms).focus ∧
    (∀ m, ((reach t ms).move? m).isSome = true ↔
      ∃ goal, m.goal? (reach t ms).path = some goal ∧ (t.root.at? goal).isSome = true) ∧
    (∀ m, ((reach t ms).move? m).isSome = true →
      m.goal? (reach t ms).path = some ((reach t ms).move m).path) ∧
    (∀ m, ((reach t ms).move? m).isSome = false → (reach t ms).move m = reach t ms) ∧
    (((reach t ms).move? .child).isSome = true → ∀ k,
      ((List.replicate k Move.next).foldl move ((reach t ms).move .child)).move? .parent =
        some (reach t ms)) ∧
    (StackCursor.ofTree t).run ms = ((ofTree t).answers ms, (reach t ms).toStacks) ∧
    (reach t ms).toStacks.ancestors.reverse = (reach t ms).ancestors ∧
    (reach t ms).toStacks.path = (reach t ms).path ∧
    (∀ m, (reach t ms).toStacks.move m =
      (((reach t ms).move? m).isSome, ((reach t ms).move m).toStacks)) := by
  have h := leads_reach t ms
  refine ⟨h.along_path, h.at?_path, fun m => isSome_move?_iff h, fun m hm => ?_, fun m hm => ?_,
    fun hm k => ?_, toStacks_run (ofTree t) ms, rfl, rfl, toStacks_move _⟩
  · obtain ⟨d, hd⟩ := Option.isSome_iff_exists.mp hm
    rw [move_of_some hd]
    exact (move?_eq_some_iff.mp hd).goal?
  · exact move_of_none (Option.not_isSome_iff_eq_none.mp (by simp [hm]))
  · obtain ⟨d, hd⟩ := Option.isSome_iff_exists.mp hm
    rw [move_of_some hd, move?_eq_some_iff]
    exact moves_parent_of_nexts k (move?_eq_some_iff.mp hd).back

def oneAssignment : Tree :=
  ⟨"x = 1", ⟨"Script", 0, 5, [⟨"AssignStatement", 0, 5,
    [⟨"VariableName", 0, 1, []⟩, ⟨"AssignOp", 2, 3, []⟩, ⟨"Number", 4, 5, []⟩]⟩]⟩⟩

theorem reach_position_oneAssignment :
    (((reach oneAssignment []).move? .parent).isSome = false ∧
      (reach oneAssignment []).move .parent = reach oneAssignment []) ∧
    ((reach oneAssignment [.child]).move? .child).isSome = true ∧
    ∀ k, ((List.replicate k Move.next).foldl move
      ((reach oneAssignment [.child]).move .child)).move? .parent =
        some (reach oneAssignment [.child]) :=
  ⟨⟨rfl, (reach_position oneAssignment []).2.2.2.2.1 .parent rfl⟩, rfl,
    (reach_position oneAssignment [.child]).2.2.2.2.2.1 rfl⟩

end Cursor

end TypedScript
