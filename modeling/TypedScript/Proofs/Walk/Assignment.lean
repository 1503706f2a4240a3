import TypedScript.Proofs.Walk.Trivia

/-! # What an assignment is made of

The children of an assignment, told by their kinds and texts: a target, perhaps a type, and a value,
which may stand for a literal. The walks find exactly what stands there. -/

namespace TypedScript

theorem Word.ofInt?_eq_some_iff {n : Int} {w : Word} : Word.ofInt? n = some w ↔ w.toInt = n := by
  have hlow := w.le_toInt
  have hhigh := w.toInt_lt
  rw [Word.ofInt?]
  split
  · rw [Option.some.injEq]
    constructor
    · intro hw
      rw [← hw, Int32.toInt_ofInt_of_le] <;> omega
    · intro hw
      rw [← hw]
      exact Int32.ofInt_toInt w
  · constructor
    · intro hw
      cases hw
    · intro hw
      omega

/-- Neither a literal nor a name nor an operator with one operand. -/
def Expr.isCompound : Expr → Bool
  | .literal .. | .name .. | .unary .. => false
  | _ => true

theorem Assignment.literal?_of_isCompound {x : Expr} (h : x.isCompound = true) :
    literal? x = none := by
  cases x <;> first | rfl | cases h

/-- Of the operators with one operand, only a minus sign in front of a number gives a literal. -/
theorem Assignment.literal?_unary {note : Note} {op : UnaryOp} {o : Expr} {l : Literal}
    (h : literal? (.unary note op o) = some l) : ∃ note' k, ∃ k' : Word,
      op = .neg ∧ o = .literal note' (.number k) ∧ k'.toInt = -k.toInt ∧ l = .number k' := by
  unfold literal? at h
  split at h
  · next heq => cases heq
  · next heq => cases heq
  · next heq =>
    cases heq
    obtain ⟨k', hk, rfl⟩ := Option.map_eq_some_iff.mp h
    exact ⟨_, _, k', rfl, rfl, Word.ofInt?_eq_some_iff.mp hk, rfl⟩
  · cases h

theorem Name.ofIdent_eq_none_iff {ident : String} :
    ofIdent ident = .none ↔ ident = "none" ∨ ident = "None" := by
  unfold ofIdent
  split
  · next h => simp [h, receiverName]
  · split
    · next h => simp [h]
    · next h => simp [h]

theorem UnaryOp.symbol_of_ofSymbol? {s : String} {op : UnaryOp} (h : ofSymbol? s = some op) :
    op.symbol = s := by
  simpa using List.find?_some h

namespace Node

/-! ## Literals -/

/-- The second node is the first one without the parentheses around it. -/
inductive Bare : Node → Node → Prop
  | refl {n} : Bare n n
  | inside {n bracket rest inner more m} (hk : n.kind = "ParenthesizedExpression")
      (hn : n.children = bracket :: rest) (hb : bracket.kind = "(")
      (hr : meaningful rest = inner :: more) (h : Bare inner m) : Bare n m

def IsNumber (source : String) (n : Node) (k : Word) : Prop :=
  ∃ m, n.Bare m ∧ m.kind = "Number" ∧ Word.ofText? (m.text source) = some k

/-- The literal that a node stands for: itself, `None` by its name, or a number with a minus sign,
if the negated number is one. -/
inductive Denotes (source : String) (n : Node) : Literal → Prop
  | number {k} (h : n.IsNumber source k) : Denotes source n (.number k)
  | bool {m} {b : Bool} (h : n.Bare m) (hk : m.kind = "Boolean")
      (ht : m.text source = if b then "True" else "False") : Denotes source n (.bool b)
  | none {m} (h : n.Bare m) (hk : m.kind = "None") : Denotes source n .none
  | name {m} (h : n.Bare m) (hk : m.kind = "VariableName")
      (ht : m.text source = "none" ∨ m.text source = "None") : Denotes source n .none
  | negated {m sign rest operand more} {k k' : Word} (h : n.Bare m)
      (hk : m.kind = "UnaryExpression") (hm : m.children = sign :: rest)
      (hs : sign.text source = "-") (hr : meaningful rest = operand :: more)
      (ho : operand.IsNumber source k) (hn : k'.toInt = -k.toInt) : Denotes source n (.number k')

/-! ## Assignments -/

/-- A type is named behind the marks of its annotation. -/
def Annotates (source : String) (n : Node) (ty : Ty) : Prop :=
  n.kind = "TypeDef" ∧ ∃ marks name rest, n.children = marks ++ name :: rest ∧
    (∀ m ∈ marks, m.kind ∈ [":", "->"] ∨ m.isTrivia = true) ∧
    name.kind ∈ ["VariableName", "None"] ∧ Ty.ofName (name.text source) = ty

/-- A value, perhaps behind a sign. -/
inductive Valued : List Node → Node → Prop
  | plain {value} : Valued [value] value
  | signed {sign value} (hs : sign.kind ∈ ["AssignOp", "="]) : Valued [sign, value] value

/-- A value, perhaps behind a type. -/
inductive Typed (source : String) : List Node → Option Ty → Node → Prop
  | untyped {ns value} (hv : Valued ns value) : Typed source ns none value
  | typed {t ns ty value} (ht : t.Annotates source ty) (hv : Valued ns value) :
      Typed source (t :: ns) (some ty) value

def Assigns (source : String) (n target : Node) (ty : Option Ty) (value : Node) : Prop :=
  n.kind = "AssignStatement" ∧
    ∃ rest, n.children = target :: rest ∧ Typed source (meaningful rest) ty value

def Selects (source : String) (n object : Node) (member : String) : Prop :=
  n.kind = "MemberExpression" ∧ ∃ rest dot property more, n.children = object :: rest ∧
    meaningful rest = dot :: property :: more ∧ dot.kind = "." ∧
    property.kind = "PropertyName" ∧ property.text source = member

/-- What stands first among the children, and what follows it, trivia apart. -/
def Opens (n : Node) (P : Node → List Node → Prop) : Prop :=
  ∃ m ms, n.children = m :: ms ∧ P m (meaningful ms)

def Goes (ns : List Node) (P : Node → List Node → Prop) : Prop := ∃ m ms, ns = m :: ms ∧ P m ms

theorem goes_nil {P : Node → List Node → Prop} : ¬ Goes [] P := by
  rintro ⟨m, ms, h, -⟩
  cases h

theorem goes_cons {P : Node → List Node → Prop} {m : Node} {ms : List Node} :
    Goes (m :: ms) P ↔ P m ms := by
  constructor
  · rintro ⟨m', ms', h, hP⟩
    cases h
    exact hP
  · exact fun hP => ⟨m, ms, rfl, hP⟩

end Node

namespace Walk

variable {α β : Type} {w : Walk α} {f : α → Walk β} {c : Cursor} {e : Walk Expr}

/-- The walk ends well from the cursor on, with the value. -/
def Finds (w : Walk α) (c : Cursor) (a : α) : Prop := ∃ d, w c = .ok a d

theorem finds_reading {source : String} {n : Node} {a : α} :
    w.reading source n = .ok a ↔ w.Finds ⟨source, [], n⟩ a := reading_eq_ok

theorem finds_of_steady (hw : Steady w) {a : α} :
    w.Finds c a ↔ w.reading c.source c.focus = .ok a := by
  rw [Finds, hw c]
  exact exit_eq_ok

theorem finds_pure {a b : α} : (pure a : Walk α).Finds c b ↔ a = b := by
  constructor
  · rintro ⟨d, h⟩
    cases h
    rfl
  · rintro rfl
    exact ⟨c, rfl⟩

theorem not_finds_unexpected {context : String} {a : α} :
    ¬ (unexpected context : Walk α).Finds c a := by
  rintro ⟨d, h⟩
  cases h

theorem finds_bind (hw : Steady w) {b : β} :
    (w >>= f).Finds c b ↔ ∃ a, w.reading c.source c.focus = .ok a ∧ (f a).Finds c b := by
  have hc := hw c
  cases hr : w.reading c.source c.focus with
  | ok a =>
    rw [hr] at hc
    rw [Finds, bind_of_ok hc]
    simp [Finds]
  | error err =>
    rw [hr] at hc
    rw [Finds, bind_of_error hc]
    simp

theorem finds_expect {kind context : String} {f : Unit → Walk β} {b : β} :
    (expect kind context >>= f).Finds c b ↔ c.focus.kind = kind ∧ (f ()).Finds c b := by
  by_cases hk : c.kind = kind
  · rw [Finds, bind_of_ok (expect_of_eq hk)]
    exact (and_iff_right hk).symm
  · obtain ⟨err, herr⟩ := expect_of_ne context hk
    have hk' : c.focus.kind ≠ kind := hk
    rw [Finds, bind_of_error herr]
    simp [hk']

theorem finds_kind {f : String → Walk β} {b : β} :
    (kind >>= f).Finds c b ↔ (f c.focus.kind).Finds c b := Iff.rfl

theorem finds_text {f : String → Walk β} {b : β} :
    (text >>= f).Finds c b ↔ (f (c.focus.text c.source)).Finds c b := Iff.rfl

theorem finds_note {f : Note → Walk β} {b : β} :
    (note >>= f).Finds c b ↔ (f ⟨c.focus.span c.source, none⟩).Finds c b := Iff.rfl

theorem finds_span {f : Span → Walk β} {b : β} :
    (span >>= f).Finds c b ↔ (f (c.focus.span c.source)).Finds c b := Iff.rfl

section

variable {P : Node → List Node → Prop}

/-- Among the children a walk starts on the first one. -/
theorem finds_within {context : String} {a : α}
    (hw : ∀ d : Cursor, d.source = c.source →
      (w.Finds d a ↔ P d.focus (Node.meaningful d.rest))) :
    (within context w).Finds c a ↔ c.focus.Opens P := by
  cases hc : c.focus.children with
  | nil =>
    rw [Finds, within_of_nil hc]
    simp [Node.Opens, hc]
  | cons m ms =>
    have hrest : (⟨c.source, (c.focus, 0) :: c.trail, m⟩ : Cursor).rest = ms := by
      simp [Cursor.rest, hc]
    have hm := hw ⟨c.source, (c.focus, 0) :: c.trail, m⟩ rfl
    rw [hrest] at hm
    rw [Finds, within_eq_ok hc]
    refine hm.trans ⟨fun h => ⟨m, ms, hc, h⟩, ?_⟩
    rintro ⟨m', ms', heq, h⟩
    cases hc.symm.trans heq
    exact h

theorem finds_tryAdvance {f : Bool → Walk β} {b : β} {Q : Prop}
    (ht : ∀ d : Cursor, d.source = c.source →
      ((f true).Finds d b ↔ P d.focus (Node.meaningful d.rest)))
    (hf : ∀ d, (f false).Finds d b ↔ Q) :
    (tryAdvance >>= f).Finds c b ↔
      Node.Goes (Node.meaningful c.rest) P ∨ Node.meaningful c.rest = [] ∧ Q := by
  cases hrest : Node.meaningful c.rest with
  | nil =>
    rw [Finds, bind_of_ok (tryAdvance_of_none (Node.next?_of_nil hrest))]
    exact (hf _).trans (by simp [Node.goes_nil])
  | cons m ms =>
    obtain ⟨rest, hnext, rfl⟩ := Node.next?_of_cons hrest
    obtain ⟨d, hd, hsource, rfl, rfl⟩ := tryAdvance_of_some hnext
    rw [Finds, bind_of_ok hd, Node.goes_cons]
    exact (ht d hsource).trans (by simp)

theorem finds_alone {x b : β} {v : Walk β} (hv : ∀ d, ¬ v.Finds d b) :
    (tryAdvance >>= fun more => if more then v else pure x).Finds c b ↔
      Node.meaningful c.rest = [] ∧ x = b := by
  have h := finds_tryAdvance (c := c) (P := fun _ _ => False) (Q := x = b)
    (f := fun more => if more then v else pure x) (b := b)
    (fun d _ => iff_false_intro (hv d)) fun d => finds_pure
  exact h.trans (or_iff_right fun ⟨_, _, _, h⟩ => h)

/-- A walk goes on at the next sibling that is no trivia. -/
theorem finds_advance {context expected : String} {f : Unit → Walk β} {b : β}
    (hf : ∀ d : Cursor, d.source = c.source →
      ((f ()).Finds d b ↔ P d.focus (Node.meaningful d.rest))) :
    (advance context expected >>= f).Finds c b ↔ Node.Goes (Node.meaningful c.rest) P := by
  rw [advance, bind_assoc, finds_tryAdvance (Q := False) hf]
  · simp
  · intro d
    refine iff_false_intro ?_
    rintro ⟨d', h⟩
    cases h

end

section

variable {P : β → Prop}

/-- What the walk finds has a property, wherever it starts. -/
def Gives (P : α → Prop) (w : Walk α) : Prop := ∀ c a d, w c = .ok a d → P a

namespace Gives

theorem pure {b : β} (h : P b) : Gives P (Pure.pure b : Walk β) := by
  intro c a d hw
  cases hw
  exact h

theorem fail (err : ParseError) (s : Span) : Gives P (Walk.fail err s) := by
  intro c a d hw
  cases hw

theorem unexpected (context : String) : Gives P (Walk.unexpected context) := by
  intro c a d hw
  cases hw

theorem bind (hf : ∀ a, Gives P (f a)) : Gives P (w >>= f) := by
  intro c b d hw
  obtain ⟨a, c', -, hb⟩ := bind_eq_ok.mp hw
  exact hf a c' b d hb

theorem ite {p : Prop} [Decidable p] {v v' : Walk β} (hv : Gives P v) (hv' : Gives P v') :
    Gives P (if p then v else v') := by
  split
  · exact hv
  · exact hv'

theorem within {v : Walk β} (hv : Gives P v) (context : String) :
    Gives P (Walk.within context v) := by
  intro c a d hw
  cases hc : c.focus.children with
  | nil =>
    rw [within_of_nil hc] at hw
    cases hw
  | cons m ms =>
    obtain ⟨d', hd⟩ := (within_eq_ok hc).mp ⟨d, hw⟩
    exact hv _ a d' hd

theorem reading {v : Walk β} (hv : Gives P v) {source : String} {n : Node} {b : β}
    (h : v.reading source n = .ok b) : P b := by
  obtain ⟨d, hd⟩ := reading_eq_ok.mp h
  exact hv _ b d hd

end Gives

end

/-! ## The walks -/

theorem number_finds {x : Expr} :
    number.Finds c x ↔ ∃ k, Word.ofText? (c.focus.text c.source) = some k ∧
      .literal ⟨c.focus.span c.source, none⟩ (.number k) = x := by
  rw [number, finds_note, finds_text]
  cases Word.ofText? (c.focus.text c.source) with
  | none =>
    refine iff_of_false ?_ (by simp)
    rintro ⟨d, h⟩
    cases h
  | some k => exact finds_pure.trans (by simp)

theorem boolean_finds {x : Expr} :
    boolean.Finds c x ↔ ∃ b : Bool, c.focus.text c.source = (if b then "True" else "False") ∧
      .literal ⟨c.focus.span c.source, none⟩ (.bool b) = x := by
  rw [boolean, finds_note, finds_text]
  generalize c.focus.text c.source = text
  split
  · exact finds_pure.trans (by simp)
  · exact finds_pure.trans (by simp)
  · next htrue hfalse =>
    refine iff_of_false not_finds_unexpected ?_
    rintro ⟨_ | _, h, -⟩
    · exact hfalse h
    · exact htrue h

theorem unary_finds (he : Steady e) {x : Expr} :
    (unary e).Finds c x ↔ c.focus.Opens fun sign line =>
      ∃ op, UnaryOp.ofSymbol? (sign.text c.source) = some op ∧ Node.Goes line fun operand _ =>
        ∃ o, e.reading c.source operand = .ok o ∧
          .unary ⟨c.focus.span c.source, none⟩ op o = x := by
  rw [unary, finds_note]
  refine finds_within fun d hd => ?_
  rw [finds_text, hd]
  cases UnaryOp.ofSymbol? (d.focus.text c.source) with
  | none =>
    refine iff_of_false ?_ (by simp)
    rintro ⟨d', h⟩
    cases h
  | some op =>
    simp only [Option.some.injEq, exists_eq_left']
    refine finds_advance fun d' hd' => ?_
    rw [finds_bind he, hd', hd]
    exact exists_congr fun o => and_congr_right fun _ => finds_pure

theorem parenthesized_finds (he : Steady e) {x : Expr} :
    (parenthesized e).Finds c x ↔ c.focus.Opens fun bracket line =>
      bracket.kind = "(" ∧ Node.Goes line fun inner _ => e.reading c.source inner = .ok x := by
  refine finds_within fun d hd => ?_
  refine finds_expect.trans (and_congr_right fun _ => finds_advance fun d' hd' => ?_)
  rw [finds_of_steady he, hd', hd]

theorem member_finds (he : Steady e) {found : Expr × String} :
    (member e).Finds c found ↔ c.focus.Opens fun object line =>
      ∃ o, e.reading c.source object = .ok o ∧ Node.Goes line fun dot line => dot.kind = "." ∧
        Node.Goes line fun property _ =>
          property.kind = "PropertyName" ∧ (o, property.text c.source) = found := by
  refine finds_within fun d hd => ?_
  rw [finds_bind he, hd]
  refine exists_congr fun o => and_congr_right fun _ => finds_advance fun d₁ hd₁ => ?_
  refine finds_expect.trans (and_congr_right fun _ => finds_advance fun d₂ hd₂ => ?_)
  refine finds_expect.trans (and_congr_right fun _ => ?_)
  rw [finds_text, finds_pure, hd₂, hd₁, hd]

theorem binary_compound : Gives (·.isCompound = true) (binary e) := by
  refine .bind fun note => .within (.bind fun left => .bind fun _ => .bind fun span => ?_) _
  refine .bind fun symbol => .bind fun _ => .bind fun kind => .ite (.bind fun _ => .fail _ _) ?_
  split
  · exact .fail _ _
  · exact .bind fun right => .pure rfl

theorem callOf_compound {note : Note} {name : String} {args : List Expr} {x : Expr}
    (h : callOf note name args = .ok x) : x.isCompound = true := by
  unfold callOf at h
  extract_lets wrongCount at h
  split at h
  · cases h
    rfl
  · split at h <;> cases h <;> rfl

theorem call_compound : Gives (·.isCompound = true) (call e) := by
  refine .bind fun note => .within (.bind fun kind => ?_) _
  split
  · refine .bind fun name => .bind fun _ => .bind fun args => ?_
    split
    · next h => exact .pure (callOf_compound h)
    · exact .fail _ _
  · exact .bind fun found => .bind fun _ => .bind fun args => .pure rfl
  · exact .unexpected _

theorem field_compound : Gives (·.isCompound = true) (do
    let note ← note
    let (object, field) ← member e
    return .field note object field : Walk Expr) :=
  .bind fun _ => .bind fun _ => .pure rfl

/-- The type is that of the first child that is no mark. -/
theorem annotation?_eq_some_iff {source : String} {ns : List Node} {ty : Ty} :
    annotation? source ns = some ty ↔ ∃ marks name rest, ns = marks ++ name :: rest ∧
      (∀ m ∈ marks, m.kind ∈ [":", "->"] ∨ m.isTrivia = true) ∧
      name.kind ∈ ["VariableName", "None"] ∧ Ty.ofName (name.text source) = ty := by
  induction ns with
  | nil => simp [annotation?]
  | cons n ns ih =>
    have hapart : n.kind ∈ ["VariableName", "None"] →
        ¬ (n.kind ∈ [":", "->"] ∨ n.isTrivia = true) := by
      intro hk
      simp only [List.mem_cons, List.not_mem_nil, or_false] at hk
      rcases hk with hk | hk <;> simp [Node.isTrivia, hk, Node.triviaKinds]
    constructor
    · intro h
      simp only [annotation?, Bool.or_eq_true, List.contains_iff_mem] at h
      split at h
      · next hmark =>
        obtain ⟨marks, name, rest, rfl, hmarks, hname⟩ := ih.mp h
        exact ⟨n :: marks, name, rest, rfl, List.forall_mem_cons.mpr ⟨hmark, hmarks⟩, hname⟩
      · split at h
        · next hk =>
          exact ⟨[], n, ns, rfl, by simp, hk, Option.some.inj h⟩
        · cases h
    · rintro ⟨marks, name, rest, heq, hmarks, hk, hty⟩
      simp only [annotation?, Bool.or_eq_true, List.contains_iff_mem]
      cases marks with
      | nil =>
        cases heq
        rw [if_neg (hapart hk), if_pos hk, hty]
      | cons m marks =>
        cases heq
        obtain ⟨hmark, hmarks⟩ := List.forall_mem_cons.mp hmarks
        rw [if_pos hmark]
        exact ih.mpr ⟨marks, name, rest, rfl, hmarks, hk, hty⟩

theorem typeDef_reading {source : String} {n : Node} (hk : n.kind = "TypeDef") {ty : Ty} :
    typeDef.reading source n = .ok ty ↔ n.Annotates source ty := by
  rw [reading_eq_ok, typeDef_eq_ok, annotation?_eq_some_iff]
  exact (and_iff_right hk).symm

/-- What stands in front of a value. -/
def markKinds : List String := ["TypeDef", "AssignOp", "="]

section

variable {source : String} {m : Node} {ms : List Node}

theorem valued_iff {Q : Node → Prop} (hQ : ∀ m, m.kind ∈ markKinds → ¬ Q m) :
    (∃ value, Node.Valued (m :: ms) value ∧ Q value) ↔
      if m.kind ∈ ["AssignOp", "="] then Node.Goes ms fun value more => more = [] ∧ Q value
      else ms = [] ∧ Q m := by
  split
  · next hk =>
    constructor
    · rintro ⟨value, hvalued, hv⟩
      cases hvalued with
      | plain => exact absurd hv (hQ m (.tail _ hk))
      | signed _ => exact ⟨value, [], rfl, rfl, hv⟩
    · rintro ⟨value, more, rfl, rfl, hv⟩
      exact ⟨value, .signed hk, hv⟩
  · next hk =>
    constructor
    · rintro ⟨value, hvalued, hv⟩
      cases hvalued with
      | plain => exact ⟨rfl, hv⟩
      | signed hs => exact absurd hs hk
    · rintro ⟨rfl, hv⟩
      exact ⟨m, .plain, hv⟩

theorem typed_iff {Q : Option Ty → Node → Prop} (hQ : ∀ m, m.kind ∈ markKinds → ¬ Q none m) :
    (∃ ty value, Node.Typed source (m :: ms) ty value ∧ Q ty value) ↔
      if m.kind = "TypeDef" then
        ∃ t, m.Annotates source t ∧ ∃ value, Node.Valued ms value ∧ Q (some t) value
      else ∃ value, Node.Valued (m :: ms) value ∧ Q none value := by
  split
  · next hk =>
    constructor
    · rintro ⟨ty, value, htyped, hv⟩
      cases htyped with
      | untyped hvalued =>
        cases hvalued with
        | plain => exact absurd hv (hQ m (by simp [markKinds, hk]))
        | signed hs => simp [hk] at hs
      | typed ht hvalued => exact ⟨_, ht, value, hvalued, hv⟩
    · rintro ⟨t, ht, value, hvalued, hv⟩
      exact ⟨some t, value, .typed ht hvalued, hv⟩
  · next hk =>
    constructor
    · rintro ⟨ty, value, htyped, hv⟩
      cases htyped with
      | untyped hvalued => exact ⟨value, hvalued, hv⟩
      | typed ht _ => exact absurd ht.1 hk
    · rintro ⟨value, hvalued, hv⟩
      exact ⟨none, value, .untyped hvalued, hv⟩

theorem goes_valued {Q : Node → Prop} :
    Node.Goes ms (fun m ms => ∃ value, Node.Valued (m :: ms) value ∧ Q value) ↔
      ∃ value, Node.Valued ms value ∧ Q value := by
  cases ms with
  | cons m ms => exact Node.goes_cons
  | nil =>
    refine iff_of_false Node.goes_nil ?_
    rintro ⟨value, hvalued, -⟩
    cases hvalued

theorem goes_typed {Q : Option Ty → Node → Prop} :
    Node.Goes ms (fun m ms => ∃ ty value, Node.Typed source (m :: ms) ty value ∧ Q ty value) ↔
      ∃ ty value, Node.Typed source ms ty value ∧ Q ty value := by
  cases ms with
  | cons m ms => exact Node.goes_cons
  | nil =>
    refine iff_of_false Node.goes_nil ?_
    rintro ⟨ty, value, htyped, -⟩
    cases htyped with
    | untyped hvalued => cases hvalued

end

/-- An assignment is its target, its type and its value, and nothing follows. -/
theorem assignment_finds (he : Steady e)
    (hmarks : ∀ m : Node, m.kind ∈ markKinds → ∀ v, e.reading c.source m ≠ .ok v)
    {a : Assignment} :
    (assignment e).Finds c a ↔ c.focus.Opens fun target line =>
      ∃ t, (target.kind = "VariableName" ∧ t = .name (target.text c.source) ∨
          target.kind = "MemberExpression" ∧ ∃ found,
            (member e).reading c.source target = .ok found ∧ t = .field found.1 found.2) ∧
        ∃ ty value, Node.Typed c.source line ty value ∧
          ∃ v, e.reading c.source value = .ok v ∧ ⟨t, ty, v, c.focus.span c.source⟩ = a := by
  rw [assignment, finds_span]
  refine finds_within fun d hd => ?_
  rw [finds_kind]
  extract_lets afterTarget
  have htarget : ∀ t, (afterTarget t).Finds d a ↔ ∃ ty value,
      Node.Typed c.source (Node.meaningful d.rest) ty value ∧
        ∃ v, e.reading c.source value = .ok v ∧ ⟨t, ty, v, c.focus.span c.source⟩ = a := by
    intro t
    have hQ (ty : Option Ty) (m : Node) (hm : m.kind ∈ markKinds) : ¬ ∃ v,
        e.reading c.source m = .ok v ∧ ⟨t, ty, v, c.focus.span c.source⟩ = a := by
      rintro ⟨v, hv, -⟩
      exact hmarks m hm v hv
    rw [← goes_typed]
    refine finds_advance fun d₁ hd₁ => ?_
    rw [finds_kind, typed_iff (hQ none)]
    extract_lets afterType
    have htype : ∀ ty (d : Cursor), d.source = c.source → ((afterType ty).Finds d a ↔ ∃ value,
        Node.Valued (d.focus :: Node.meaningful d.rest) value ∧
          ∃ v, e.reading c.source value = .ok v ∧ ⟨t, ty, v, c.focus.span c.source⟩ = a) := by
      intro ty d hd
      rw [valued_iff (hQ ty)]
      change (kind >>= _).Finds d a ↔ _
      rw [finds_kind]
      extract_lets afterSign
      have hsign : ∀ u (d : Cursor), d.source = c.source → ((afterSign u).Finds d a ↔
          Node.meaningful d.rest = [] ∧
            ∃ v, e.reading c.source d.focus = .ok v ∧ ⟨t, ty, v, c.focus.span c.source⟩ = a) := by
        intro u d hd
        change (e >>= _).Finds d a ↔ _
        rw [finds_bind he, hd]
        rw [← exists_and_left]
        refine exists_congr fun v => Iff.trans (and_congr_right fun _ => ?_) and_left_comm
        exact finds_alone fun d' => by
          rintro ⟨d'', h⟩
          cases h
      simp only [List.contains_iff_mem]
      split
      · exact finds_advance fun d' hd' => hsign () d' (hd'.trans hd)
      · exact hsign () d hd
    split
    · next hk =>
      rw [finds_bind typeDef_steady]
      refine exists_congr fun ty => and_congr ?_ ?_
      · rw [typeDef_reading hk, hd₁, hd]
      · rw [← goes_valued]
        exact finds_advance fun d₂ hd₂ => htype (some ty) d₂ (hd₂.trans (hd₁.trans hd))
    · exact htype none d₁ (hd₁.trans hd)
  split
  · next hk =>
    refine (htarget (.name (d.focus.text d.source))).trans ?_
    simp [hk, hd]
  · next hk =>
    rw [finds_bind (member_steady he), hd]
    constructor
    · rintro ⟨found, hfound, h⟩
      exact ⟨_, .inr ⟨hk, found, hfound, rfl⟩, (htarget _).mp h⟩
    · rintro ⟨t, ⟨hname, -⟩ | ⟨-, found, hfound, rfl⟩, h⟩
      · exact absurd (hname.symm.trans hk) (by decide)
      · exact ⟨found, hfound, (htarget _).mpr h⟩
  · next hk hk' =>
    refine iff_of_false ?_ ?_
    · rintro ⟨d', h⟩
      cases h
    · rintro ⟨t, ⟨hname, -⟩ | ⟨hmember, -⟩, -⟩
      · exact hk hname
      · exact hk' hmember

end Walk

namespace Node

mutual

theorem Padded.refl : ∀ n : Node, Padded n n
  | ⟨_, _, _, []⟩ => .empty
  | ⟨_, _, _, m :: ms⟩ => .headed (Padded.refl m) (Interleaved.refl ms)

theorem Interleaved.refl : ∀ ns : List Node, Interleaved Padded ns ns
  | [] => .nil
  | n :: ns => .cons (Padded.refl n) (Interleaved.refl ns)

end

def expr (source : String) (n : Node) : Except (Located ParseError) Expr :=
  (Walk.expr n.height).reading source n

variable {source : String} {n m : Node} {x : Expr}

/-- How deep the walk may go makes no difference if it may go deep enough. -/
theorem expr_depth {h : Nat} (hh : n.height ≤ h) :
    (Walk.expr h).reading source n = .ok x ↔ n.expr source = .ok x :=
  (Walk.expr_parallel h n.height).reading ⟨.refl n, hh, Nat.le_refl _⟩ source x

/-- The expressions that a node is read as. Those that are compound are no literals. -/
inductive Reads (source : String) (n : Node) : Expr → Prop
  | number {k} (hk : n.kind = "Number") (ht : Word.ofText? (n.text source) = some k) :
      Reads source n (.literal ⟨n.span source, none⟩ (.number k))
  | bool {b : Bool} (hk : n.kind = "Boolean")
      (ht : n.text source = if b then "True" else "False") :
      Reads source n (.literal ⟨n.span source, none⟩ (.bool b))
  | none (hk : n.kind = "None") : Reads source n (.literal ⟨n.span source, Option.none⟩ .none)
  | name (hk : n.kind = "VariableName") :
      Reads source n (.name ⟨n.span source, Option.none⟩ (Name.ofIdent (n.text source)))
  | unary {sign rest op operand more o} (hk : n.kind = "UnaryExpression")
      (hn : n.children = sign :: rest) (hs : UnaryOp.ofSymbol? (sign.text source) = some op)
      (hr : meaningful rest = operand :: more) (ho : operand.expr source = .ok o) :
      Reads source n (.unary ⟨n.span source, Option.none⟩ op o)
  | parenthesized {bracket rest inner more e} (hk : n.kind = "ParenthesizedExpression")
      (hn : n.children = bracket :: rest) (hb : bracket.kind = "(")
      (hr : meaningful rest = inner :: more) (he : inner.expr source = .ok e) : Reads source n e
  | compound {e} (hk : n.kind ∈ ["BinaryExpression", "CallExpression", "MemberExpression"])
      (hc : e.isCompound = true) (he : n.expr source = .ok e) : Reads source n e

theorem mem_of_line {head : Node} {rest more : List Node} (hn : n.children = head :: rest)
    (hr : meaningful rest = m :: more) : m ∈ n.children := by
  have hm : m ∈ meaningful rest := by simp [hr]
  rw [hn]
  exact .tail head (List.mem_of_mem_filter hm)

theorem expr_eq_ok_iff : n.expr source = .ok x ↔ n.Reads source x := by
  obtain ⟨d, hd⟩ := Nat.exists_eq_add_one_of_ne_zero (Nat.ne_of_gt n.height_pos)
  have hchild {m : Node} {y : Expr} (hm : m ∈ n.children) :
      (Walk.expr d).reading source m = .ok y ↔ m.expr source = .ok y :=
    expr_depth (height_le_succ.mp (Nat.le_of_eq hd) m hm)
  constructor
  · intro h
    have hread := h
    rw [expr, hd, Walk.expr, Walk.finds_reading, Walk.finds_kind] at hread
    dsimp only at hread
    split at hread
    · next hk =>
      obtain ⟨k, ht, rfl⟩ := Walk.number_finds.mp hread
      exact .number hk ht
    · next hk =>
      obtain ⟨b, ht, rfl⟩ := Walk.boolean_finds.mp hread
      exact .bool hk ht
    · next hk =>
      rw [Walk.finds_note, Walk.finds_pure] at hread
      exact hread ▸ .none hk
    · next hk =>
      rw [Walk.finds_note, Walk.finds_text, Walk.finds_pure] at hread
      exact hread ▸ .name hk
    · next hk =>
      obtain ⟨sign, rest, hn, op, hs, operand, more, hr, o, ho, rfl⟩ :=
        (Walk.unary_finds (Walk.expr_steady d)).mp hread
      exact .unary hk hn hs hr ((hchild (mem_of_line hn hr)).mp ho)
    · next hk => exact .compound (by simp [hk]) (Walk.binary_compound _ _ _ hread.choose_spec) h
    · next hk =>
      obtain ⟨bracket, rest, hn, hb, inner, more, hr, hx⟩ :=
        (Walk.parenthesized_finds (Walk.expr_steady d)).mp hread
      exact .parenthesized hk hn hb hr ((hchild (mem_of_line hn hr)).mp hx)
    · next hk => exact .compound (by simp [hk]) (Walk.call_compound _ _ _ hread.choose_spec) h
    · next hk => exact .compound (by simp [hk]) (Walk.field_compound _ _ _ hread.choose_spec) h
    · exact absurd hread Walk.not_finds_unexpected
  · intro h
    cases h
    case compound hk hc he => exact he
    all_goals rw [expr, hd, Walk.expr, Walk.finds_reading, Walk.finds_kind]
    case number hk ht =>
      simp only [hk]
      exact Walk.number_finds.mpr ⟨_, ht, rfl⟩
    case bool hk ht =>
      simp only [hk]
      exact Walk.boolean_finds.mpr ⟨_, ht, rfl⟩
    case none hk =>
      simp only [hk]
      exact Walk.finds_pure.mpr rfl
    case name hk =>
      simp only [hk]
      exact Walk.finds_pure.mpr rfl
    case unary hk hn hs hr ho =>
      simp only [hk]
      exact (Walk.unary_finds (Walk.expr_steady d)).mpr
        ⟨_, _, hn, _, hs, _, _, hr, _, (hchild (mem_of_line hn hr)).mpr ho, rfl⟩
    case parenthesized hk hn hb hr he =>
      simp only [hk]
      exact (Walk.parenthesized_finds (Walk.expr_steady d)).mpr
        ⟨_, _, hn, hb, _, _, hr, (hchild (mem_of_line hn hr)).mpr he⟩

/-- Parentheses make no difference. -/
theorem Bare.expr_eq_ok (h : n.Bare m) (hx : m.expr source = .ok x) : n.expr source = .ok x := by
  induction h with
  | refl => exact hx
  | inside hk hn hb hr _ ih => exact expr_eq_ok_iff.mpr (.parenthesized hk hn hb hr (ih hx))

theorem height_lt_of_mem (hm : m ∈ n.children) : m.height < n.height := by
  obtain ⟨d, hd⟩ := Nat.exists_eq_add_one_of_ne_zero (Nat.ne_of_gt n.height_pos)
  have hle := height_le_succ.mp (Nat.le_of_eq hd) m hm
  omega

theorem exists_bare (hx : n.expr source = .ok x) :
    ∃ m, n.Bare m ∧ m.kind ≠ "ParenthesizedExpression" ∧ m.expr source = .ok x := by
  induction hh : n.height using Nat.strongRecOn generalizing n with
  | ind h ih =>
    cases expr_eq_ok_iff.mp hx with
    | number hk | bool hk | none hk | name hk | unary hk =>
      exact ⟨n, .refl, by rw [hk]; decide, hx⟩
    | compound hk =>
      refine ⟨n, .refl, fun hparen => ?_, hx⟩
      simp [hparen] at hk
    | parenthesized hk hn hb hr he =>
      obtain ⟨m, hbare, hm⟩ := ih _ (hh ▸ height_lt_of_mem (mem_of_line hn hr)) he rfl
      exact ⟨m, .inside hk hn hb hr hbare, hm⟩

/-- A number is read as a literal. -/
theorem isNumber_iff {k : Word} :
    n.IsNumber source k ↔ ∃ note, n.expr source = .ok (.literal note (.number k)) := by
  constructor
  · rintro ⟨m, hbare, hk, ht⟩
    exact ⟨_, hbare.expr_eq_ok (expr_eq_ok_iff.mpr (.number hk ht))⟩
  · rintro ⟨note, hx⟩
    obtain ⟨m, hbare, hparen, hm⟩ := exists_bare hx
    cases expr_eq_ok_iff.mp hm with
    | number hk ht => exact ⟨m, hbare, hk, ht⟩
    | parenthesized hk => exact absurd hk hparen
    | compound _ hc _ => cases hc

/-- A node stands for the literal that its expression stands for. -/
theorem denotes_iff {l : Literal} :
    n.Denotes source l ↔ ∃ x, n.expr source = .ok x ∧ Assignment.literal? x = some l := by
  constructor
  · intro h
    cases h with
    | number h =>
      obtain ⟨note, hx⟩ := isNumber_iff.mp h
      exact ⟨_, hx, rfl⟩
    | bool h hk ht => exact ⟨_, h.expr_eq_ok (expr_eq_ok_iff.mpr (.bool hk ht)), rfl⟩
    | none h hk => exact ⟨_, h.expr_eq_ok (expr_eq_ok_iff.mpr (.none hk)), rfl⟩
    | name h hk ht =>
      refine ⟨_, h.expr_eq_ok (expr_eq_ok_iff.mpr (.name hk)), ?_⟩
      rw [Name.ofIdent_eq_none_iff.mpr ht]
      rfl
    | negated h hk hm hs hr ho hn =>
      obtain ⟨note, hx⟩ := isNumber_iff.mp ho
      refine ⟨_, h.expr_eq_ok (expr_eq_ok_iff.mpr (.unary hk hm (by rw [hs]; rfl) hr hx)), ?_⟩
      exact Option.map_eq_some_iff.mpr ⟨_, Word.ofInt?_eq_some_iff.mpr hn, rfl⟩
  · rintro ⟨x, hx, hl⟩
    obtain ⟨m, hbare, hparen, hm⟩ := exists_bare hx
    cases expr_eq_ok_iff.mp hm with
    | number hk ht =>
      cases hl
      exact .number ⟨m, hbare, hk, ht⟩
    | bool hk ht =>
      cases hl
      exact .bool hbare hk ht
    | none hk =>
      cases hl
      exact .none hbare hk
    | name hk =>
      cases hname : Name.ofIdent (m.text source) with
      | none =>
        rw [hname] at hl
        cases hl
        exact .name hbare hk (Name.ofIdent_eq_none_iff.mp hname)
      | self | plain =>
        rw [hname] at hl
        cases hl
    | @unary _ _ op _ _ o hk hn hs hr ho =>
      obtain ⟨note, k, k', rfl, rfl, hneg, rfl⟩ := Assignment.literal?_unary hl
      have hsign := UnaryOp.symbol_of_ofSymbol? hs
      exact .negated hbare hk hn hsign.symm hr (isNumber_iff.mpr ⟨note, ho⟩) hneg
    | parenthesized hk => exact absurd hk hparen
    | compound _ hc _ =>
      rw [Assignment.literal?_of_isCompound hc] at hl
      cases hl

/-! ## Reading assignments -/

def assignment (source : String) (n : Node) : Except (Located ParseError) Assignment :=
  (Walk.assignment (Walk.expr n.height)).reading source n

inductive Aims (source : String) (n : Node) : Target → Prop
  | name (hk : n.kind = "VariableName") : Aims source n (.name (n.text source))
  | field {object o x} (h : n.Selects source object x) (ho : object.expr source = .ok o) :
      Aims source n (.field o x)

theorem expr_ne_ok_of_mark {h : Nat} (hm : m.kind ∈ Walk.markKinds) (v : Expr) :
    (Walk.expr h).reading source m ≠ .ok v := by
  intro hv
  cases h with
  | zero => cases hv
  | succ h =>
    rw [Walk.expr, Walk.finds_reading, Walk.finds_kind] at hv
    simp only [Walk.markKinds, List.mem_cons, List.not_mem_nil, or_false] at hm
    rcases hm with hm | hm | hm <;> simp only [hm] at hv <;>
      exact Walk.not_finds_unexpected hv

theorem member_eq_ok_iff {h : Nat} (hh : n.height ≤ h) (hk : n.kind = "MemberExpression")
    (found : Expr × String) :
    (Walk.member (Walk.expr h)).reading source n = .ok found ↔
      ∃ object, n.Selects source object found.2 ∧ object.expr source = .ok found.1 := by
  have hchild {m : Node} {x : Expr} (hm : m ∈ n.children) :
      (Walk.expr h).reading source m = .ok x ↔ m.expr source = .ok x :=
    expr_depth (Nat.le_trans (Nat.le_of_lt (height_lt_of_mem hm)) hh)
  rw [Walk.finds_reading, Walk.member_finds (Walk.expr_steady h)]
  constructor
  · rintro ⟨object, rest, hn, o, ho, dot, line, hr, hdot, property, more, rfl, hp, rfl⟩
    exact ⟨object, ⟨hk, rest, dot, property, more, hn, hr, hdot, hp, rfl⟩,
      (hchild (by rw [hn]; exact .head rest)).mp ho⟩
  · rintro ⟨object, ⟨-, rest, dot, property, more, hn, hr, hdot, hp, hx⟩, ho⟩
    exact ⟨object, rest, hn, found.1, (hchild (by rw [hn]; exact .head rest)).mpr ho, dot, _, hr,
      hdot, property, more, rfl, hp, by rw [hx]⟩

theorem Typed.mem {ns : List Node} {ty : Option Ty} {value : Node}
    (h : Typed source ns ty value) : value ∈ ns := by
  cases h with
  | untyped hv => cases hv <;> simp
  | typed _ hv => cases hv <;> simp

/-- An assignment is read as what its children are read as. -/
theorem assignment_eq_ok_iff (hk : n.kind = "AssignStatement") {a : Assignment} :
    n.assignment source = .ok a ↔ ∃ target value, n.Assigns source target a.ty value ∧
      target.Aims source a.target ∧ value.expr source = .ok a.value ∧ n.span source = a.span := by
  have hchild {m : Node} (hm : m ∈ n.children) : m.height ≤ n.height :=
    Nat.le_of_lt (height_lt_of_mem hm)
  rw [assignment, Walk.finds_reading,
    Walk.assignment_finds (Walk.expr_steady _) fun m hm v => expr_ne_ok_of_mark hm v]
  constructor
  · rintro ⟨target, rest, hn, t, ht, ty, value, htyped, v, hv, rfl⟩
    have hvalue : value ∈ n.children := by
      rw [hn]
      exact .tail target (List.mem_of_mem_filter htyped.mem)
    refine ⟨target, value, ⟨hk, rest, hn, htyped⟩, ?_, (expr_depth (hchild hvalue)).mp hv, rfl⟩
    rcases ht with ⟨hname, rfl⟩ | ⟨hmember, found, hfound, rfl⟩
    · exact .name hname
    · have htarget : target ∈ n.children := by
        rw [hn]
        exact .head rest
      obtain ⟨object, hselects, ho⟩ := (member_eq_ok_iff (hchild htarget) hmember found).mp hfound
      exact .field hselects ho
  · obtain ⟨t, ty, v, span⟩ := a
    rintro ⟨target, value, ⟨-, rest, hn, htyped⟩, ht, hv, hspan⟩
    dsimp only at htyped ht hv hspan
    have hvalue : value ∈ n.children := by
      rw [hn]
      exact .tail target (List.mem_of_mem_filter htyped.mem)
    refine ⟨target, rest, hn, t, ?_, ty, value, htyped, v,
      (expr_depth (hchild hvalue)).mpr hv, by rw [← hspan]⟩
    cases ht with
    | name hname => exact .inl ⟨hname, rfl⟩
    | @field object o x hselects ho =>
      have htarget : target ∈ n.children := by
        rw [hn]
        exact .head rest
      have hfound := (member_eq_ok_iff (hchild htarget) hselects.1 (o, x)).mpr
        ⟨object, hselects, ho⟩
      exact .inr ⟨hselects.1, (o, x), hfound, rfl⟩

end Node

end TypedScript
