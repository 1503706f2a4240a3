import TypedScript.Proofs.Walk.Trivia

/-! # Growing trees

A tree grows when a node is put behind the last child of one of its nodes. The walk of a node goes
along its children and stops at some of them; a node that is put in behind is met, or it is not. -/

namespace TypedScript

namespace Node

/-- Kinds that some walk has a case for. -/
def knownKinds : List String :=
  triviaKinds ++ ["Script", "FunctionDefinition", "ClassDefinition", "AssignStatement",
    "IfStatement", "WhileStatement", "PassStatement", "ReturnStatement", "ExpressionStatement",
    "Body", "ParamList", "ArgList", "TypeDef", "Number", "Boolean", "None", "VariableName",
    "PropertyName", "UnaryExpression", "BinaryExpression", "ParenthesizedExpression",
    "CallExpression", "MemberExpression", "AssignOp", "def", "class", "if", "elif", "else", "while",
    "return", "not", "in", "(", ")", ",", ":", "->", "=", "."]

def innerKinds : List String :=
  ["Script", "Body", "ParamList", "ArgList", "TypeDef", "FunctionDefinition", "ClassDefinition",
    "IfStatement", "WhileStatement", "ReturnStatement", "AssignStatement", "ExpressionStatement",
    "UnaryExpression", "BinaryExpression", "CallExpression", "MemberExpression",
    "ParenthesizedExpression"]

/-- The tree with one more child, behind the others, for the node at the end of a path. -/
def grow : List Nat → Node → Node → Node
  | [], n, x => { n with children := n.children ++ [x] }
  | i :: path, n, x => { n with children := n.children.modify i (grow path · x) }

/-- The children that a walk stops at: trivia is left out, but for a first child in nodes of most
kinds. -/
def line (kind : String) (ns : List Node) : List Node :=
  if kind ∈ looseKinds then meaningful ns else ns.take 1 ++ meaningful (ns.drop 1)

def place? (n : Node) (i : Nat) : Option Nat :=
  match n.children[i]? with
  | some m =>
    if m.isTrivia && (i ≠ 0 || looseKinds.contains n.kind) then none
    else some (line n.kind (n.children.take i)).length
  | none => none

def hasKindAt (n : Node) (place : Nat) (kind : String) : Bool :=
  (line n.kind n.children)[place]?.any (·.kind == kind)

/-- The places in the line of a node whose nodes are read in turn. -/
def looksAt (n : Node) (place : Nat) : Bool :=
  match n.kind with
  | "Script" | "Body" | "ParamList" | "ArgList" | "AssignStatement" | "IfStatement" => true
  | "UnaryExpression" | "ParenthesizedExpression" | "ReturnStatement" => place == 1
  | "BinaryExpression" => place == 0 || place == 2
  | "CallExpression" => place == 0 || place == 1
  | "MemberExpression" | "ExpressionStatement" => place == 0
  | "WhileStatement" => place == 1 || place == 2
  | "FunctionDefinition" =>
    place == 2 || place == 3 || (place == 4 && n.hasKindAt 3 "TypeDef")
  | "ClassDefinition" => place == 2 || (place == 3 && n.hasKindAt 2 "ArgList")
  | _ => false

/-- Whether the walk of a node goes on to the end of its line. A `return` without a value does. -/
def closes (n : Node) : Bool :=
  match n.kind with
  | "Script" | "Body" | "ParamList" | "ArgList" | "AssignStatement" | "IfStatement" => true
  | "ReturnStatement" => (line n.kind n.children).length == 1
  | _ => false

/-- Whether reading a tree goes into the node at the end of a path. -/
def visits : List Nat → Node → Bool
  | [], n => innerKinds.contains n.kind
  | i :: path, n =>
    (n.place? i).any n.looksAt && n.children[i]?.any (visits path)

/-- Whether reading a tree meets a node that is put behind the children at the end of a path. -/
def meets : List Nat → Node → Bool
  | [], n => n.closes
  | i :: path, n =>
    (n.place? i).any n.looksAt && n.children[i]?.any (meets path)

theorem closes_kind {n : Node} (h : n.closes = true) : innerKinds.contains n.kind = true := by
  unfold closes at h
  split at h <;> simp_all [innerKinds]

/-- What is put in is met just at the nodes that are gone into and walked to the end. -/
theorem meets_iff {path : List Nat} {n m : Node} (h : n.at? path = some m) :
    n.meets path = true ↔ n.visits path = true ∧ m.closes = true := by
  induction path generalizing n with
  | nil =>
    cases h
    rw [meets, visits]
    exact ⟨fun hc => ⟨closes_kind hc, hc⟩, fun hc => hc.2⟩
  | cons i path ih =>
    obtain ⟨child, hchild, hm⟩ := Option.bind_eq_some_iff.mp h
    simp only [meets, visits, hchild, Option.any_some, Bool.and_eq_true, ih hm, and_assoc]

/-! ## Lines of a tree and of the grown one -/

/-- Two lines whose nodes are related one by one. What `bits` says of a place is said of the nodes
there, and if `more` holds, the second line goes on with one more node. -/
inductive Row (x : Node) (R : Prop → Node → Node → Prop) :
    (Nat → Prop) → Prop → List Node → List Node → Prop
  | done {bits : Nat → Prop} {more : Prop} (hbits : ∀ j, ¬ bits j) (hmore : ¬ more) :
      Row x R bits more [] []
  | extra {bits : Nat → Prop} {more : Prop} (hbits : ∀ j, ¬ bits j) (hmore : more) :
      Row x R bits more [] [x]
  | cons {bits : Nat → Prop} {more : Prop} {m m' : Node} {ms ms' : List Node}
      (head : R (bits 0) m m') (tail : Row x R (fun j => bits (j + 1)) more ms ms') :
      Row x R bits more (m :: ms) (m' :: ms')

/-- Nodes that show the same and whose lines are related. The walk of the first meets what the
second has more just if it does so at a place that it looks at, or behind a line that it walks to
the end. -/
structure Grown (x : Node) (R : Prop → Node → Node → Prop) (B : Prop) (n n' : Node) : Prop where
  kind : n'.kind = n.kind
  start : n'.start = n.start
  stop : n'.stop = n.stop
  row : ∃ bits more, Row x R bits more (line n.kind n.children) (line n.kind n'.children) ∧
    (B ↔ (∃ j, n.looksAt j = true ∧ bits j) ∨ (more ∧ n.closes = true))

variable {x : Node} {R S : Prop → Node → Node → Prop} {B : Prop} {n n' : Node} {ns ns' : List Node}
  {bits : Nat → Prop} {more : Prop}

@[simp] theorem meaningful_nil : meaningful [] = [] := rfl

theorem Row.mono (h : Row x R bits more ns ns')
    (hRS : ∀ B, ∀ m ∈ ns, ∀ m' ∈ ns', R B m m' → S B m m') : Row x S bits more ns ns' := by
  induction h with
  | done hbits hmore => exact .done hbits hmore
  | extra hbits hmore => exact .extra hbits hmore
  | cons head tail ih =>
    refine .cons (hRS _ _ List.mem_cons_self _ List.mem_cons_self head) (ih ?_)
    exact fun B m hm m' hm' => hRS B m (.tail _ hm) m' (.tail _ hm')

theorem Row.congr {bits' : Nat → Prop} (h : Row x R bits more ns ns')
    (hbits : ∀ j, bits j ↔ bits' j) : Row x R bits' more ns ns' := by
  obtain rfl : bits = bits' := funext fun j => propext (hbits j)
  exact h

theorem Row.refl (hR : ∀ m, R False m m) (ns : List Node) :
    Row x R (fun _ => False) False ns ns := by
  induction ns with
  | nil => exact .done (fun _ h => h) fun h => h
  | cons m ms ih => exact .cons (hR m) ih

theorem Row.append (hR : ∀ m, R False m m) (ns : List Node) :
    Row x R (fun _ => False) True ns (ns ++ [x]) := by
  induction ns with
  | nil => exact .extra (fun _ h => h) trivial
  | cons m ms ih => exact .cons (hR m) ih

theorem isTrivia_grow (path : List Nat) (n x : Node) :
    (n.grow path x).isTrivia = n.isTrivia := by
  cases path <;> rfl

/-- Among the nodes that are no trivia, one has changed. -/
theorem Row.meaningful_modify (hR : ∀ m, R False m m) {f : Node → Node} {b : Prop} {m : Node}
    {i : Nat} (hm : ns[i]? = some m) (hf : (f m).isTrivia = m.isTrivia) (hb : R b m (f m)) :
    Row x R (fun j => m.isTrivia = false ∧ j = (meaningful (ns.take i)).length ∧ b) False
      (meaningful ns) (meaningful (ns.modify i f)) := by
  induction ns generalizing i with
  | nil => simp at hm
  | cons n ns ih =>
    cases i with
    | zero =>
      obtain rfl : n = m := by simpa using hm
      by_cases ht : n.isTrivia = true
      · simp only [List.modify_zero_cons, meaningful_of_isTrivia ht,
          meaningful_of_isTrivia (hf.trans ht)]
        exact (Row.refl hR _).congr (by simp [ht])
      · simp only [List.modify_zero_cons, meaningful_of_not_isTrivia ht,
          meaningful_of_not_isTrivia (hf ▸ ht)]
        refine .cons ?_ ((Row.refl hR _).congr ?_)
        · simpa [ht, meaningful] using hb
        · simp [meaningful]
    | succ i =>
      have htail := ih (i := i) (by simpa using hm)
      by_cases ht : n.isTrivia = true
      · simpa only [List.modify_succ_cons, List.take_succ_cons, meaningful_of_isTrivia ht]
          using htail
      · simp only [List.modify_succ_cons, List.take_succ_cons, meaningful_of_not_isTrivia ht]
        refine .cons ?_ (htail.congr ?_)
        · simpa using hR n
        · simp

theorem Row.line_modify (hR : ∀ m, R False m m) {f : Node → Node} {b : Prop} {m : Node} {i : Nat}
    (hm : n.children[i]? = some m) (hf : (f m).isTrivia = m.isTrivia) (hb : R b m (f m)) :
    Row x R (fun j => n.place? i = some j ∧ b) False (line n.kind n.children)
      (line n.kind (n.children.modify i f)) := by
  by_cases hk : n.kind ∈ looseKinds
  · simp only [line, place?, hm, hk, if_true]
    refine (Row.meaningful_modify hR hm hf hb).congr fun j => ?_
    cases ht : m.isTrivia <;> simp [hk, eq_comm]
  · rcases n with ⟨kind, start, stop, _ | ⟨head, ns⟩⟩
    · simp at hm
    · dsimp only at hm hk
      simp only [line, place?, hm, hk, if_false]
      cases i with
      | zero =>
        obtain rfl : head = m := by simpa using hm
        refine .cons ?_ ((Row.refl hR _).congr ?_)
        · simpa [hk] using hb
        · simp [hk]
      | succ i =>
        refine .cons ?_ ((Row.meaningful_modify hR (by simpa using hm) hf hb).congr fun j => ?_)
        · cases ht : m.isTrivia <;> simpa using hR head
        · cases ht : m.isTrivia <;> simp [eq_comm]

theorem line_append (hx : x.isTrivia = false) (kind : String) (ns : List Node) :
    line kind (ns ++ [x]) = line kind ns ++ [x] := by
  have happend : ∀ ms, meaningful (ms ++ [x]) = meaningful ms ++ [x] := by
    simp [meaningful, hx]
  by_cases hk : kind ∈ looseKinds
  · simp only [line, hk, if_true, happend]
  · cases ns with
    | nil => simp [line, hk, meaningful]
    | cons n ns => simp [line, hk, happend]

theorem line_subset (kind : String) (ns : List Node) : line kind ns ⊆ ns := by
  intro m hm
  by_cases hk : kind ∈ looseKinds
  · rw [line, if_pos hk] at hm
    exact (List.mem_filter.mp hm).1
  · rw [line, if_neg hk, List.mem_append] at hm
    obtain hm | hm := hm
    · exact List.mem_of_mem_take hm
    · exact List.mem_of_mem_drop (List.mem_filter.mp hm).1

/-- The second node is the first one as it is or grown, and `B` says that what it has more is
met. -/
inductive Sprout (x : Node) : Prop → Node → Node → Prop
  | same {n : Node} : Sprout x False n n
  | grown {n : Node} (path : List Nat) : Sprout x (n.meets path = true) n (n.grow path x)

structure SproutTo (x : Node) (h h' : Nat) (B : Prop) (n n' : Node) : Prop where
  sprout : Sprout x B n n'
  height : n.height ≤ h
  height' : n'.height ≤ h'

theorem Sprout.opened (hx : x.isTrivia = false) (h : Sprout x B n n') :
    Grown x (Sprout x) B n n' := by
  cases h with
  | same => exact ⟨rfl, rfl, rfl, _, _, Row.refl (fun _ => .same) _, by simp⟩
  | grown path =>
    cases path with
    | nil =>
      refine ⟨rfl, rfl, rfl, fun _ => False, True, ?_, by simp [meets]⟩
      rw [grow, line_append hx]
      exact Row.append (fun _ => .same) _
    | cons i path =>
      cases hm : n.children[i]? with
      | none =>
        have hsame : n.children.modify i (grow path · x) = n.children := by
          rw [List.modify_eq_self]
          exact List.getElem?_eq_none_iff.mp hm
        refine ⟨rfl, rfl, rfl, fun _ => False, False, ?_, by simp [meets, hm]⟩
        rw [grow, hsame]
        exact Row.refl (fun _ => .same) _
      | some m =>
        refine ⟨rfl, rfl, rfl, _, _, Row.line_modify (fun _ => .same) hm (isTrivia_grow path m x)
          (.grown path), ?_⟩
        simp only [meets, hm, Option.any_some, Bool.and_eq_true, Option.any_eq_true, false_and,
          or_false]
        constructor
        · rintro ⟨⟨j, hj, hlook⟩, hmeets⟩
          exact ⟨j, hlook, hj, hmeets⟩
        · rintro ⟨j, hlook, hj, hmeets⟩
          exact ⟨⟨j, hj, hlook⟩, hmeets⟩

theorem SproutTo.opened {h h' : Nat} (hx : x.isTrivia = false)
    (hn : SproutTo x (h + 1) (h' + 1) B n n') : Grown x (SproutTo x h h') B n n' := by
  obtain ⟨hkind, hstart, hstop, bits, more, hrow, hB⟩ := hn.sprout.opened hx
  refine ⟨hkind, hstart, hstop, bits, more, hrow.mono fun B m hm m' hm' hs => ⟨hs, ?_, ?_⟩, hB⟩
  · exact height_le_succ.mp hn.height m (line_subset _ _ hm)
  · exact height_le_succ.mp hn.height' m' (line_subset _ _ hm')

theorem SproutTo.succ {h h' : Nat} (hn : SproutTo x h h' B n n') :
    SproutTo x (h + 1) (h' + 1) B n n' :=
  ⟨hn.sprout, Nat.le_succ_of_le hn.height, Nat.le_succ_of_le hn.height'⟩

theorem looksAt_kind {j : Nat} (h : n.looksAt j = true) : innerKinds.contains n.kind = true := by
  unfold looksAt at h
  split at h <;> simp_all [innerKinds]

theorem Grown.isTrivia (h : Grown x R B n n') : n'.isTrivia = n.isTrivia := by
  rw [Node.isTrivia, Node.isTrivia, h.kind]

theorem Grown.text (h : Grown x R B n n') (source : String) : n'.text source = n.text source := by
  rw [Node.text, Node.text, h.start, h.stop]

theorem Grown.span (h : Grown x R B n n') (source : String) : n'.span source = n.span source := by
  rw [Node.span, Node.span, h.start, h.stop]

/-- In nodes that no walk goes into nothing is met. -/
theorem Grown.not_of_outer (h : Grown x R B n n') (hk : innerKinds.contains n.kind = false) :
    ¬ B := by
  obtain ⟨bits, more, -, hB⟩ := h.row
  rw [hB]
  rintro (⟨j, hj, -⟩ | ⟨-, hc⟩)
  · rw [looksAt_kind hj] at hk
    cases hk
  · rw [closes_kind hc] at hk
    cases hk

def Somewhere (bits : Nat → Prop) (more : Prop) : Prop := (∃ j, bits j) ∨ more

theorem somewhere_iff : Somewhere bits more ↔ bits 0 ∨ Somewhere (fun j => bits (j + 1)) more := by
  constructor
  · rintro (⟨j, hj⟩ | hmore)
    · cases j with
      | zero => exact .inl hj
      | succ j => exact .inr (.inl ⟨j, hj⟩)
    · exact .inr (.inr hmore)
  · rintro (h | ⟨j, hj⟩ | hmore)
    · exact .inl ⟨0, h⟩
    · exact .inl ⟨j + 1, hj⟩
    · exact .inr hmore

theorem not_somewhere (hbits : ∀ j, ¬ bits j) (hmore : ¬ more) : ¬ Somewhere bits more := by
  rintro (⟨j, hj⟩ | h)
  · exact hbits j hj
  · exact hmore h

/-- In nodes whose walk goes along the whole line, what is anywhere in it is met. -/
theorem Grown.somewhere (h : Grown x R B n n')
    (hk : n.kind ∈ ["Script", "Body", "ParamList", "ArgList", "AssignStatement", "IfStatement"]) :
    ∃ bits more, Row x R bits more (line n.kind n.children) (line n.kind n'.children) ∧
      (B ↔ Somewhere bits more) := by
  obtain ⟨bits, more, hrow, hB⟩ := h.row
  refine ⟨bits, more, hrow, ?_⟩
  simp only [List.mem_cons, List.not_mem_nil, or_false] at hk
  rcases hk with hk | hk | hk | hk | hk | hk <;> simpa [looksAt, closes, hk, Somewhere] using hB

end Node

end TypedScript
