import TypedScript.Proofs.Code.Tokens

/-! # Modules read back from their text

The text of a module is written from a form, and a reader of forms gets the module back. Names must
not hold blanks or brackets; anything else may stand in them, quotation marks included. -/

namespace TypedScript

/-! ## Numbers -/

namespace Word

theorem digits?_toDigits (n : Nat) : digits? (Nat.toDigits 10 n) = some n := by
  have hdigits : (Nat.toDigits 10 n).all Char.isDigit = true := by
    rw [List.all_eq_true]
    intro c hc
    exact Nat.isDigit_of_mem_toDigits (by decide) (by decide) hc
  rw [digits?, if_pos ⟨Nat.toDigits_ne_nil, hdigits⟩, ← Nat.ofDigitChars_eq_foldl,
    Nat.ofDigitChars_toDigits (by decide) (by decide)]

theorem ofText?_repr (n : Nat) : ofText? n.repr = ofInt? n := by
  have hread := digits?_toDigits n
  have hdigit : ∀ c ∈ Nat.toDigits 10 n, c.isDigit = true := fun c hc =>
    Nat.isDigit_of_mem_toDigits (by decide) (by decide) hc
  rw [ofText?, Nat.toList_repr]
  -- A sign is no digit, so the digits are read without one.
  split
  · next h => exact absurd (hdigit '-' (h ▸ List.mem_cons_self)) (by decide)
  · next h => exact absurd (hdigit '+' (h ▸ List.mem_cons_self)) (by decide)
  · rw [hread]
    rfl

theorem ofText?_neg_repr (n : Nat) : ofText? ("-" ++ n.repr) = ofInt? (-n) := by
  simp [ofText?, Nat.toList_repr, digits?_toDigits]

theorem ofInt?_toInt (w : Word) : ofInt? w.toInt = some w := by
  have hlow := Int32.le_toInt w
  have hhigh := Int32.toInt_lt w
  rw [ofInt?, if_pos (by omega), Int32.ofInt_toInt]

/-- A word is read back from its text. -/
theorem ofText?_text (w : Word) : ofText? w.text = some w := by
  rw [text, Int.toString_eq_repr, Int.repr_eq_if]
  split
  · rw [ofText?_repr, Int.toNat_of_nonneg (by assumption), ofInt?_toInt]
  · rw [ofText?_neg_repr, Int.toNat_of_nonneg (by omega), Int.neg_neg, ofInt?_toInt]

end Word

/-! ## Instructions -/

namespace Form

def symbol (name : String) : Form := word ("$" ++ name)

def symbol? (s : String) : Option String :=
  match s.toList with
  | '$' :: cs => some (String.ofList cs)
  | _ => none

theorem symbol?_append (name : String) : symbol? ("$" ++ name) = some name := by
  simp [symbol?]

theorem filterMap_symbol? (names : List String) :
    (names.map ("$" ++ ·)).filterMap symbol? = names := by
  have hsome : symbol? ∘ ("$" ++ ·) = some := funext symbol?_append
  rw [List.filterMap_map, hsome, List.filterMap_some]

theorem isWord_symbol {name : String} (h : Token.Plain name) : Token.IsWord ("$" ++ name) :=
  Token.IsWord.append (by decide) h

/-- A bracket around words. -/
def flat (ws : List String) : Form := group (ws.map word)

theorem legible_flat {ws : List String} (h : ∀ w ∈ ws, Token.IsWord w) : (flat ws).Legible := by
  refine .group ?_
  rw [List.forall_mem_map]
  exact fun w hw => .word (h w hw)

end Form

namespace Instr

mutual
def form : Instr → Form
  | const w => .flat ["i32.const", w.text]
  | localGet name => .flat ["local.get", "$" ++ name]
  | localSet name => .flat ["local.set", "$" ++ name]
  | globalGet name => .flat ["global.get", "$" ++ name]
  | globalSet name => .flat ["global.set", "$" ++ name]
  | call name => .flat ["call", "$" ++ name]
  | numeric op => .flat [op.mnemonic]
  | eqz => .flat ["i32.eqz"]
  | load => .flat ["i32.load"]
  | store => .flat ["i32.store"]
  | ite body [] => .group [.word "if", .group (.word "then" :: forms body)]
  | ite body (i :: otherwise) =>
    .group [.word "if", .group (.word "then" :: forms body),
      .group (.word "else" :: i.form :: forms otherwise)]
  | block body => .group (.word "block" :: forms body)
  | loop body => .group (.word "loop" :: forms body)
  | br d => .flat ["br", toString d]
  | brIf d => .flat ["br_if", toString d]
  | ret => .flat ["return"]
  | nop => .flat ["nop"]

def forms : List Instr → List Form
  | [] => []
  | i :: is => i.form :: forms is
end

mutual
def names : Instr → List String
  | localGet name | localSet name | globalGet name | globalSet name | call name => [name]
  | ite body otherwise => bodyNames body ++ bodyNames otherwise
  | block body | loop body => bodyNames body
  | const _ | numeric _ | eqz | load | store | br _ | brIf _ | ret | nop => []

def bodyNames : List Instr → List String
  | [] => []
  | i :: is => i.names ++ bodyNames is
end

def ofMnemonic? : String → Option Instr
  | "i32.eqz" => some eqz
  | "i32.load" => some load
  | "i32.store" => some store
  | "return" => some ret
  | "nop" => some nop
  | s => (NumericOp.ofMnemonic? s).map numeric

def ofOperand? (operand : String) : String → Option Instr
  | "i32.const" => (Word.ofText? operand).map const
  | "local.get" => (Form.symbol? operand).map localGet
  | "local.set" => (Form.symbol? operand).map localSet
  | "global.get" => (Form.symbol? operand).map globalGet
  | "global.set" => (Form.symbol? operand).map globalSet
  | "call" => (Form.symbol? operand).map call
  | "br" => (Word.digits? operand.toList).map br
  | "br_if" => (Word.digits? operand.toList).map brIf
  | _ => none

mutual
/-- Bodies are looked for first, since an empty one leaves a single word in its bracket. -/
def ofForm? : Form → Option Instr
  | .group (.word "block" :: body) => (ofForms? body).map block
  | .group (.word "loop" :: body) => (ofForms? body).map loop
  | .group [.word "if", .group (.word "then" :: body)] => (ofForms? body).map (ite · [])
  | .group [.word "if", .group (.word "then" :: body), .group (.word "else" :: otherwise)] => do
    return ite (← ofForms? body) (← ofForms? otherwise)
  | .group [.word s] => ofMnemonic? s
  | .group [.word s, .word operand] => ofOperand? operand s
  | _ => none

def ofForms? : List Form → Option (List Instr)
  | [] => some []
  | f :: fs => do return (← ofForm? f) :: (← ofForms? fs)
end

attribute [local simp] form forms Form.flat ofForm? ofForms? ofOperand? Form.symbol?_append in
mutual
/-- An instruction is read back from its form. -/
theorem ofForm?_form : ∀ i : Instr, ofForm? i.form = some i
  | const w => by simp [Word.ofText?_text]
  | localGet name => by simp
  | localSet name => by simp
  | globalGet name => by simp
  | globalSet name => by simp
  | call name => by simp
  | numeric op => by cases op <;> rfl
  | eqz => rfl
  | load => rfl
  | store => rfl
  | ite body [] => by simp [ofForms?_forms body]
  | ite body (i :: otherwise) => by
    simp [ofForms?_forms body, ofForm?_form i, ofForms?_forms otherwise]
  | block body => by simp [ofForms?_forms body]
  | loop body => by simp [ofForms?_forms body]
  | br d => by simp [Word.digits?_toDigits]
  | brIf d => by simp [Word.digits?_toDigits]
  | ret => rfl
  | nop => rfl

theorem ofForms?_forms : ∀ is : List Instr, ofForms? (forms is) = some is
  | [] => rfl
  | i :: is => by simp [ofForm?_form i, ofForms?_forms is]
end

theorem spells_line {f : Form} {content : String} (d : Nat) (h : "(" ++ content ++ ")" = f.line)
    (hf : f.Legible) : Token.Spells (line d content) f.tokens := by
  have hline : line d content = Text.pad d ++ (f.line ++ "\n") := by
    rw [← h, line, String.append_assoc, String.append_assoc, String.append_assoc,
      String.append_assoc]
    rfl
  have hform := Token.spells_newline f.line
  rw [Form.ofText_line f hf] at hform
  rw [hline]
  exact (Token.spells_pad d).append hform

theorem spells_group {head content : String} {ts : List Token} (d : Nat) (hh : Token.IsWord head)
    (hc : Token.Spells content ts) :
    Token.Spells (group d head content) (.opening :: .word head :: (ts ++ [.closing])) := by
  have hhead := Token.spells_newline head
  rw [Token.ofText_word hh] at hhead
  have hend : Token.Spells ")\n" [.closing] := Token.spells_newline ")"
  have htext := (((Token.spells_pad d).append Token.spells_open).append hhead).append
    (hc.append ((Token.spells_pad d).append hend))
  simpa [group, String.append_assoc] using htext

theorem isWord_mnemonic (op : NumericOp) : Token.IsWord op.mnemonic := by
  cases op <;> decide

theorem spells_operand {content s operand : String} (d : Nat) (h : content = s ++ " " ++ operand)
    (hs : Token.IsWord s) (ho : Token.IsWord operand) :
    Token.Spells (line d content) (Form.flat [s, operand]).tokens := by
  refine spells_line d ?_ ?_
  · simp [h, Form.flat, Form.line, Form.spaced, String.append_assoc]
  · exact Form.legible_flat (by simp [hs, ho])

theorem spells_mnemonic {s : String} (d : Nat) (hs : Token.IsWord s) :
    Token.Spells (line d s) (Form.flat [s]).tokens := by
  refine spells_line d ?_ ?_
  · simp [Form.flat, Form.line, Form.spaced]
  · exact Form.legible_flat (by simp [hs])

theorem spells_named {head s name : String} (d : Nat) (h : head = s ++ " $")
    (hs : Token.IsWord s) (hn : Token.Plain name) :
    Token.Spells (line d (head ++ name)) (Form.flat [s, "$" ++ name]).tokens := by
  refine spells_operand d ?_ hs (Form.isWord_symbol hn)
  have hdollar : " $" = " " ++ "$" := rfl
  simp only [h, hdollar, String.append_assoc]

mutual
theorem spells_text : ∀ (i : Instr) (d : Nat), (∀ x ∈ i.names, Token.Plain x) →
    Token.Spells (i.text d) i.form.tokens
  | const w, d, _ => spells_operand d rfl (by decide) (Token.isWord_text w)
  | localGet name, d, h => spells_named d rfl (by decide) (h name List.mem_cons_self)
  | localSet name, d, h => spells_named d rfl (by decide) (h name List.mem_cons_self)
  | globalGet name, d, h => spells_named d rfl (by decide) (h name List.mem_cons_self)
  | globalSet name, d, h => spells_named d rfl (by decide) (h name List.mem_cons_self)
  | call name, d, h => spells_named d rfl (by decide) (h name List.mem_cons_self)
  | numeric op, d, _ => spells_mnemonic d (isWord_mnemonic op)
  | eqz, d, _ => spells_mnemonic d (by decide)
  | load, d, _ => spells_mnemonic d (by decide)
  | store, d, _ => spells_mnemonic d (by decide)
  | ite body [], d, h => by
    have hbody := spells_bodyText body (d + 2) fun x hx => h x (List.mem_append_left _ hx)
    have htext := spells_group d (by decide : Token.IsWord "if")
      (spells_group (d + 1) (by decide : Token.IsWord "then") hbody)
    simpa [text, form, Form.tokens, Form.listTokens] using htext
  | ite body (i :: otherwise), d, h => by
    have hbody := spells_bodyText body (d + 2) fun x hx => h x (List.mem_append_left _ hx)
    have hfirst := spells_text i (d + 2) fun x hx =>
      h x (List.mem_append_right _ (List.mem_append_left _ hx))
    have hrest := spells_bodyText otherwise (d + 2) fun x hx =>
      h x (List.mem_append_right _ (List.mem_append_right _ hx))
    have htext := spells_group d (by decide : Token.IsWord "if")
      ((spells_group (d + 1) (by decide : Token.IsWord "then") hbody).append
        (spells_group (d + 1) (by decide : Token.IsWord "else") (hfirst.append hrest)))
    simpa [text, form, Form.tokens, Form.listTokens] using htext
  | block body, d, h => spells_group d (by decide) (spells_bodyText body (d + 1) h)
  | loop body, d, h => spells_group d (by decide) (spells_bodyText body (d + 1) h)
  | br n, d, _ => spells_operand d rfl (by decide) (Token.isWord_repr n)
  | brIf n, d, _ => spells_operand d rfl (by decide) (Token.isWord_repr n)
  | ret, d, _ => spells_mnemonic d (by decide)
  | nop, d, _ => spells_mnemonic d (by decide)

theorem spells_bodyText : ∀ (is : List Instr) (d : Nat), (∀ x ∈ bodyNames is, Token.Plain x) →
    Token.Spells (bodyText d is) (Form.listTokens (forms is))
  | [], _, _ => Token.Spells.empty
  | i :: is, d, h => by
    have hi := spells_text i d fun x hx => h x (List.mem_append_left _ hx)
    have his := spells_bodyText is d fun x hx => h x (List.mem_append_right _ hx)
    exact hi.append his
end

end Instr

/-! ## Functions -/

namespace Form

def quoted (name : String) : Form := word ("\"" ++ name ++ "\"")

def quoted? (s : String) : Option String :=
  match s.toList with
  | '"' :: cs => some (String.ofList cs.dropLast)
  | _ => none

theorem quoted?_append (name : String) : quoted? ("\"" ++ name ++ "\"") = some name := by
  simp [quoted?]

theorem isWord_quoted {name : String} (h : Token.Plain name) :
    Token.IsWord ("\"" ++ name ++ "\"") :=
  (Token.IsWord.append (by decide) h).append (by decide)

def heading : Form → String
  | group (word s :: _) => s
  | _ => ""

def operand? : Form → Option String
  | group (_ :: word s :: _) => some s
  | _ => none

/-- One form with the same heading for each operand. -/
def tagged (kind : String) (rest operands : List String) : List Form :=
  operands.map fun operand => flat (kind :: operand :: rest)

def operands (kind : String) (parts : List Form) : List String :=
  (parts.filter (·.heading == kind)).filterMap operand?

theorem legible_tagged {kind : String} {rest operands : List String} (hk : Token.IsWord kind)
    (hr : ∀ w ∈ rest, Token.IsWord w) (ho : ∀ w ∈ operands, Token.IsWord w) :
    ∀ f ∈ tagged kind rest operands, f.Legible := by
  rw [tagged, List.forall_mem_map]
  intro operand hmem
  apply legible_flat
  rw [List.forall_mem_cons, List.forall_mem_cons]
  exact ⟨hk, ho operand hmem, hr⟩

theorem heading_of_mem_tagged {kind : String} {rest operands : List String} {f : Form}
    (h : f ∈ tagged kind rest operands) : f.heading = kind := by
  obtain ⟨operand, -, rfl⟩ := List.mem_map.1 h
  rfl

theorem operands_append (kind : String) (fs gs : List Form) :
    operands kind (fs ++ gs) = operands kind fs ++ operands kind gs := by
  simp [operands]

theorem operands_eq_nil {kind : String} {fs : List Form} (h : ∀ f ∈ fs, f.heading ≠ kind) :
    operands kind fs = [] := by
  have hnone : fs.filter (·.heading == kind) = [] := by simpa using h
  rw [operands, hnone, List.filterMap_nil]

theorem operands_tagged (kind kind' : String) (rest xs : List String) :
    operands kind (tagged kind' rest xs) = if kind' = kind then xs else [] := by
  split
  · next h =>
    subst h
    rw [tagged]
    induction xs with
    | nil => rfl
    | cons x xs ih => simp_all [operands, flat, heading, operand?]
  · next h => exact operands_eq_nil fun f hf => heading_of_mem_tagged hf ▸ h

theorem spaced_append (fs gs : List Form) : spaced (fs ++ gs) = spaced fs ++ spaced gs := by
  induction fs with
  | nil => simp [spaced]
  | cons f fs ih => simp [spaced, ih, String.append_assoc]

end Form

namespace Func

def exportForms (f : Func) : List Form :=
  Form.tagged "export" [] (f.exportName.toList.map fun name => "\"" ++ name ++ "\"")

def paramForms (f : Func) : List Form := Form.tagged "param" ["i32"] (f.params.map ("$" ++ ·))

def resultForms (f : Func) : List Form :=
  Form.tagged "result" [] (if f.hasResult then ["i32"] else [])

def localForms (f : Func) : List Form := Form.tagged "local" ["i32"] (f.locals.map ("$" ++ ·))

/-- The forms on the first line, behind the name. -/
def headForms (f : Func) : List Form := f.exportForms ++ (f.paramForms ++ f.resultForms)

def parts (f : Func) : List Form := f.headForms ++ (f.localForms ++ Instr.forms f.body)

def form (f : Func) : Form := .group (.word "func" :: .symbol f.name :: f.parts)

def names (f : Func) : List String :=
  f.name :: (f.exportName.toList ++ (f.params ++ (f.locals ++ Instr.bodyNames f.body)))

theorem exportText_eq (f : Func) : f.exportText = Form.spaced f.exportForms := by
  cases h : f.exportName with
  | none => simp [exportText, exportForms, Form.tagged, h, Form.spaced]
  | some name =>
    apply String.toList_inj.1
    simp [exportText, exportForms, Form.tagged, h, Form.flat, Form.spaced, Form.line]

theorem paramsText_eq (f : Func) : f.paramsText = Form.spaced f.paramForms := by
  rw [paramsText, paramForms, Form.tagged]
  induction f.params with
  | nil => rfl
  | cons p ps ih =>
    rw [List.map_cons, String.join_cons, ih, List.map_cons, List.map_cons, Form.spaced]
    apply String.toList_inj.1
    simp [Form.flat, Form.line, Form.spaced]

theorem resultText_eq (f : Func) : f.resultText = Form.spaced f.resultForms := by
  rw [resultText, resultForms]
  split <;> rfl

theorem localsText_eq (f : Func) : f.localsText = Module.indented (f.localForms.map Form.line) := by
  rw [localsText, Module.indented, localForms, Form.tagged, List.map_map, List.map_map,
    List.map_map]
  congr 2
  funext l
  apply String.toList_inj.1
  simp [Form.flat, Form.line, Form.spaced]

theorem text_eq (f : Func) :
    f.text = "(" ++ ("func" ++ Form.spaced (.symbol f.name :: f.headForms) ++ "\n") ++
      Module.indented (f.localForms.map Form.line) ++ Instr.bodyText 1 f.body ++ ")" := by
  delta text
  apply String.toList_inj.1
  simp [exportText_eq, paramsText_eq, resultText_eq, localsText_eq, headForms, Form.spaced,
    Form.spaced_append, Form.symbol, Form.line]

theorem legible_headForms {f : Func} (h : ∀ x ∈ f.names, Token.Plain x) :
    ∀ g ∈ Form.symbol f.name :: f.headForms, g.Legible := by
  simp only [names, List.forall_mem_cons, List.forall_mem_append] at h
  obtain ⟨hname, hexport, hparams, -⟩ := h
  rw [headForms, List.forall_mem_cons, List.forall_mem_append, List.forall_mem_append]
  refine ⟨.word (Form.isWord_symbol hname), ?_, ?_, ?_⟩
  · apply Form.legible_tagged (by decide) (by decide)
    rw [List.forall_mem_map]
    exact fun name hmem => Form.isWord_quoted (hexport name hmem)
  · apply Form.legible_tagged (by decide) (by decide)
    rw [List.forall_mem_map]
    exact fun name hmem => Form.isWord_symbol (hparams name hmem)
  · apply Form.legible_tagged (by decide) (by decide)
    split <;> decide

/-- The words and brackets of a function's text are those of its form. -/
theorem ofText_text {f : Func} (h : ∀ x ∈ f.names, Token.Plain x) :
    Token.ofText f.text = f.form.tokens := by
  have hhead := Token.spells_newline ("func" ++ Form.spaced (.symbol f.name :: f.headForms))
  have hfunc : Token.ofText "func" = [.word "func"] := by decide
  rw [Form.ofText_spaced _ _ (legible_headForms h), hfunc] at hhead
  have hlegible : ∀ g ∈ f.localForms, g.Legible := by
    apply Form.legible_tagged (by decide) (by decide)
    rw [List.forall_mem_map]
    exact fun l hl => Form.isWord_symbol (h l (by simp [names, hl]))
  have hlocals := Form.spells_indented f.localForms hlegible
  have hbody : Token.Spells (Instr.bodyText 1 f.body) (Form.listTokens (Instr.forms f.body)) :=
    Instr.spells_bodyText f.body 1 fun x hx => h x (by simp [names, hx])
  have hopened := ((Token.spells_open.append hhead).append hlocals).append hbody
  rw [text_eq, (Token.spells_close _).ofText_eq, hopened.ofText_eq]
  simp [form, parts, Form.tokens, Form.listTokens]

/-- The headings of what stands in a function besides its body. -/
def annotations : List String := ["export", "param", "result", "local"]

def annotates (p : Form) : Bool := annotations.contains p.heading

def ofForm? : Form → Option Func
  | .group (.word "func" :: .word name :: parts) => do
    return {
      name := ← Form.symbol? name
      exportName := ((Form.operands "export" parts).filterMap Form.quoted?).head?
      params := (Form.operands "param" parts).filterMap Form.symbol?
      hasResult := !(Form.operands "result" parts).isEmpty
      locals := (Form.operands "local" parts).filterMap Form.symbol?
      body := ← Instr.ofForms? (parts.filter (!annotates ·)) }
  | _ => none

end Func

/-- An instruction is told from the annotations of a function and from an import. -/
theorem Instr.heading_form (i : Instr) : i.form.heading ∉ "import" :: Func.annotations := by
  cases i with
  | numeric op => cases op <;> decide
  | ite body otherwise => cases otherwise <;> simp [form, Form.heading, Func.annotations]
  | _ => simp [form, Form.flat, Form.heading, Func.annotations]

theorem Instr.heading_of_mem_forms {is : List Instr} {g : Form} (h : g ∈ forms is) :
    g.heading ∉ "import" :: Func.annotations := by
  induction is with
  | nil => cases h
  | cons i is ih =>
    rcases List.mem_cons.1 h with rfl | h
    · exact i.heading_form
    · exact ih h

namespace Func

theorem operands_parts {f : Func} {kind : String} (h : kind ∈ annotations) :
    Form.operands kind f.parts =
      (if "export" = kind then f.exportName.toList.map fun name => "\"" ++ name ++ "\"" else []) ++
        ((if "param" = kind then f.params.map ("$" ++ ·) else []) ++
          if "result" = kind then if f.hasResult then ["i32"] else [] else []) ++
        if "local" = kind then f.locals.map ("$" ++ ·) else [] := by
  have hbody : Form.operands kind (Instr.forms f.body) = [] := by
    apply Form.operands_eq_nil
    intro g hg heq
    exact Instr.heading_of_mem_forms hg (heq ▸ List.mem_cons_of_mem _ h)
  simp only [parts, headForms, Form.operands_append, hbody, List.append_nil, exportForms,
    paramForms, resultForms, localForms, Form.operands_tagged]

theorem annotates_of_mem {f : Func} {g : Form} (h : g ∈ f.headForms ++ f.localForms) :
    annotates g = true := by
  simp only [headForms, List.mem_append] at h
  rw [annotates]
  rcases h with (h | h | h) | h <;> rw [Form.heading_of_mem_tagged h] <;> rfl

theorem not_annotates_of_mem {is : List Instr} {g : Form} (h : g ∈ Instr.forms is) :
    annotates g = false := by
  have hheading := Instr.heading_of_mem_forms h
  simp only [List.mem_cons, not_or] at hheading
  simp [annotates, hheading.2]

theorem filter_parts (f : Func) : f.parts.filter (!annotates ·) = Instr.forms f.body := by
  have hnone : (f.headForms ++ f.localForms).filter (!annotates ·) = [] := by
    rw [List.filter_eq_nil_iff]
    intro g hg
    simp [annotates_of_mem hg]
  have hall : (Instr.forms f.body).filter (!annotates ·) = Instr.forms f.body := by
    rw [List.filter_eq_self]
    intro g hg
    simp [not_annotates_of_mem hg]
  rw [parts, ← List.append_assoc, List.filter_append, hnone, hall, List.nil_append]

attribute [local simp] Form.quoted?_append Form.symbol?_append in
/-- A function is read back from its form. -/
theorem ofForm?_form (f : Func) : ofForm? f.form = some f := by
  have hexport :
      ((Form.operands "export" f.parts).filterMap Form.quoted?).head? = f.exportName := by
    rw [operands_parts (by decide)]
    cases f.exportName <;> simp
  have hparams : (Form.operands "param" f.parts).filterMap Form.symbol? = f.params := by
    have hwords : Form.operands "param" f.parts = f.params.map ("$" ++ ·) := by
      rw [operands_parts (by decide)]
      simp
    rw [hwords, Form.filterMap_symbol?]
  have hresult : (!(Form.operands "result" f.parts).isEmpty) = f.hasResult := by
    rw [operands_parts (by decide)]
    cases f.hasResult <;> simp
  have hlocals : (Form.operands "local" f.parts).filterMap Form.symbol? = f.locals := by
    have hwords : Form.operands "local" f.parts = f.locals.map ("$" ++ ·) := by
      rw [operands_parts (by decide)]
      simp
    rw [hwords, Form.filterMap_symbol?]
  simp [form, Form.symbol, ofForm?, filter_parts, Instr.ofForms?_forms, hexport, hparams, hresult,
    hlocals]

theorem heading_of_mem_parts {f : Func} {g : Form} (h : g ∈ f.parts) : g.heading ≠ "import" := by
  rw [parts, ← List.append_assoc, List.mem_append] at h
  intro heq
  rcases h with h | h
  · have hkind := annotates_of_mem h
    rw [annotates, heq] at hkind
    cases hkind
  · exact Instr.heading_of_mem_forms h (heq ▸ List.mem_cons_self)

end Func

/-! ## Imports and global variables -/

namespace Import

def form (i : Import) : Form :=
  match i.kind with
  | .memory pages =>
    .group [.word "import", .quoted i.origin, .quoted i.name, .flat ["memory", toString pages]]
  | .func =>
    .group [.word "func", .symbol i.name, .group [.word "import", .quoted i.origin, .quoted i.name],
      .flat ["param", "i32"], .flat ["result", "i32"]]

def ofForm? : Form → Option Import
  | .group [.word "import", .word origin, .word name, .group [.word "memory", .word pages]] => do
    return ⟨← Form.quoted? origin, ← Form.quoted? name, .memory (← Word.digits? pages.toList)⟩
  | .group (.word "func" :: _ :: .group [.word "import", .word origin, .word name] :: _) => do
    return ⟨← Form.quoted? origin, ← Form.quoted? name, .func⟩
  | _ => none

theorem text_eq_line (i : Import) : i.text = i.form.line := by
  rw [text, form]
  cases i.kind with
  | memory pages =>
    apply String.toList_inj.1
    simp [Form.line, Form.spaced, Form.quoted, Form.flat]
  | func =>
    apply String.toList_inj.1
    simp [Form.line, Form.spaced, Form.quoted, Form.symbol, Form.flat]

theorem legible_form {i : Import} (ho : Token.Plain i.origin) (hn : Token.Plain i.name) :
    i.form.Legible := by
  have horigin : (Form.quoted i.origin).Legible := .word (Form.isWord_quoted ho)
  have hname : (Form.quoted i.name).Legible := .word (Form.isWord_quoted hn)
  rw [form]
  cases i.kind with
  | memory pages =>
    have hpages : (Form.flat ["memory", pages.repr]).Legible :=
      Form.legible_flat (by simp +decide [Token.isWord_repr])
    exact .group (by simp +decide [Form.legible_word, horigin, hname, hpages])
  | func =>
    have hsymbol : (Form.symbol i.name).Legible := .word (Form.isWord_symbol hn)
    have himport : (Form.group [.word "import", .quoted i.origin, .quoted i.name]).Legible :=
      .group (by simp +decide [Form.legible_word, horigin, hname])
    have hparam : (Form.flat ["param", "i32"]).Legible := Form.legible_flat (by decide)
    have hresult : (Form.flat ["result", "i32"]).Legible := Form.legible_flat (by decide)
    exact .group (by simp +decide [Form.legible_word, hsymbol, himport, hparam, hresult])

theorem ofForm?_form (i : Import) : ofForm? i.form = some i := by
  obtain ⟨origin, name, kind⟩ := i
  cases kind with
  | memory pages =>
    simp [form, Form.quoted, Form.flat, ofForm?, Form.quoted?_append, Word.digits?_toDigits]
  | func => simp [form, Form.symbol, Form.quoted, Form.flat, ofForm?, Form.quoted?_append]

end Import

namespace Global

def form (g : Global) : Form :=
  .group [.word "global", .symbol g.name, .flat ["mut", "i32"], .flat ["i32.const", g.init.text]]

def ofForm? : Form → Option Global
  | .group [.word "global", .word name, _, .group [.word "i32.const", .word init]] => do
    return ⟨← Form.symbol? name, ← Word.ofText? init⟩
  | _ => none

theorem text_eq_line (g : Global) : g.text = g.form.line := by
  apply String.toList_inj.1
  simp [text, form, Form.line, Form.spaced, Form.symbol, Form.flat]

theorem legible_form {g : Global} (h : Token.Plain g.name) : g.form.Legible := by
  have hname : (Form.symbol g.name).Legible := .word (Form.isWord_symbol h)
  have htype : (Form.flat ["mut", "i32"]).Legible := Form.legible_flat (by decide)
  have hinit : (Form.flat ["i32.const", g.init.text]).Legible :=
    Form.legible_flat (by simp +decide [Token.isWord_text])
  exact .group (by simp +decide [Form.legible_word, hname, htype, hinit])

theorem ofForm?_form (g : Global) : ofForm? g.form = some g := by
  simp [form, Form.symbol, Form.flat, ofForm?, Form.symbol?_append, Word.ofText?_text]

end Global

/-! ## Modules -/

namespace Module

def form (m : Module) : Form :=
  .group (.word "module" :: (m.imports.map (·.form) ++ (m.globals.map (·.form) ++
    m.functions.map (·.form))))

def ofForm? : Form → Option Module
  | .group (.word "module" :: parts) =>
    some ⟨parts.filterMap Import.ofForm?, parts.filterMap Global.ofForm?,
      parts.filterMap Func.ofForm?⟩
  | _ => none

def ofText? (s : String) : Option Module := (Form.ofText? s).bind ofForm?

def names (m : Module) : List String :=
  m.imports.flatMap (fun i => [i.origin, i.name]) ++
    (m.globals.map (·.name) ++ m.functions.flatMap (·.names))

theorem spells_lines {α : Type} {text : α → String} {form : α → Form} (xs : List α)
    (hline : ∀ x, text x = (form x).line) (h : ∀ x ∈ xs, (form x).Legible) :
    Token.Spells (indented (xs.map text)) (Form.listTokens (xs.map form)) := by
  have hlines : xs.map text = (xs.map form).map Form.line := by simp [hline]
  rw [hlines]
  apply Form.spells_indented
  rwa [List.forall_mem_map]

theorem spells_functions {fs : List Func} (h : ∀ f ∈ fs, ∀ x ∈ f.names, Token.Plain x) :
    Token.Spells (String.join (fs.map fun f => indented (Text.lines f.text)))
      (Form.listTokens (fs.map (·.form))) := by
  rw [Form.listTokens_eq_flatMap, List.flatMap_map]
  apply Token.Spells.join
  intro f hf
  have hlines := Token.spells_indented (Text.lines f.text)
  rwa [Token.flatMap_ofText_lines, Func.ofText_text (h f hf)] at hlines

/-- The words and brackets of a module's text are those of its form. -/
theorem ofText_text {m : Module} (h : ∀ x ∈ m.names, Token.Plain x) :
    Token.ofText m.text = m.form.tokens := by
  simp only [names, List.forall_mem_append, List.forall_mem_map, List.forall_mem_flatMap] at h
  obtain ⟨himports, hglobals, hfunctions⟩ := h
  have hopen : Token.Spells "(module\n" [.opening, .word "module"] :=
    Token.spells_newline "(module"
  have himports := spells_lines m.imports Import.text_eq_line fun i hi =>
    Import.legible_form (himports i hi i.origin (by simp)) (himports i hi i.name (by simp))
  have hglobals := spells_lines m.globals Global.text_eq_line fun g hg =>
    Global.legible_form (hglobals g hg)
  have hclose : Token.Spells ")\n" [.closing] := Token.spells_newline ")"
  have htext := (((hopen.append himports).append hglobals).append
    (spells_functions hfunctions)).append hclose
  rw [text, htext.ofText_eq]
  simp [form, Form.tokens, Form.listTokens]

theorem import_ofForm?_func (f : Func) : Import.ofForm? f.form = none := by
  rw [Func.form, Import.ofForm?.eq_def]
  split
  · next heq => simp at heq
  · next heq =>
    -- a function has no part that is headed as an import
    simp only [Form.group.injEq, List.cons.injEq, true_and] at heq
    obtain ⟨-, hparts⟩ := heq
    exact absurd rfl (Func.heading_of_mem_parts (hparts ▸ List.mem_cons_self))
  · rfl

theorem func_ofForm?_import (i : Import) : Func.ofForm? i.form = none := by
  obtain ⟨origin, name, kind⟩ := i
  cases kind with
  | memory pages => rfl
  | func =>
    -- the import is taken for a part of the body, and it is no instruction
    simp [Import.form, Form.symbol, Form.quoted, Form.flat, Func.ofForm?, Func.annotates,
      Func.annotations, Form.heading, Instr.ofForms?, Instr.ofForm?]

theorem global_ofForm?_import (i : Import) : Global.ofForm? i.form = none := by
  obtain ⟨origin, name, kind⟩ := i
  cases kind <;> rfl

/-- A module is read back from its form. -/
theorem ofForm?_form (m : Module) : ofForm? m.form = some m := by
  have himport (g : Global) : Import.ofForm? g.form = none := rfl
  have hglobal (f : Func) : Global.ofForm? f.form = none := rfl
  have hfunc (g : Global) : Func.ofForm? g.form = none := rfl
  have hnone {α β : Type} (xs : List α) : xs.filterMap (fun _ => (none : Option β)) = [] := by
    simp only [List.filterMap_eq_nil_iff, implies_true]
  simp only [form, ofForm?, List.filterMap_append, List.filterMap_map, Function.comp_def,
    Import.ofForm?_form, Global.ofForm?_form, Func.ofForm?_form, himport, hglobal, hfunc,
    import_ofForm?_func, func_ofForm?_import, global_ofForm?_import, hnone, List.filterMap_some,
    List.nil_append, List.append_nil]

/-- A module is read back from its text. -/
theorem ofText?_text {m : Module} (h : ∀ x ∈ m.names, Token.Plain x) : ofText? m.text = some m := by
  rw [ofText?, Form.ofText?_of_tokens (ofText_text h)]
  exact ofForm?_form m

/-- The text of a module determines the module. -/
theorem text_inj {m m' : Module} (h : ∀ x ∈ m.names, Token.Plain x)
    (h' : ∀ x ∈ m'.names, Token.Plain x) : m.text = m'.text ↔ m = m' := by
  constructor
  · intro htext
    have hread := ofText?_text h
    rw [htext, ofText?_text h'] at hread
    exact (Option.some.inj hread).symm
  · rintro rfl
    rfl

/-- A module with an import of each kind and one function. -/
def sample (body : List Instr) : Module where
  imports := [⟨"env", "memory", .memory 100⟩, ⟨"env", "print", .func⟩]
  globals := [⟨"rt.heap", -4⟩]
  functions := [⟨"Counter.get", some "get", ["self"], true, ["x"], body⟩]

/-- An instruction behind a conditional is told from one that ends its first branch. -/
theorem text_sample_ne :
    (∀ x ∈ (sample [.ite [] [], .call "print"]).names, Token.Plain x) ∧
      (∀ x ∈ (sample [.ite [.call "print"] []]).names, Token.Plain x) ∧
      (sample [.ite [] [], .call "print"]).text ≠ (sample [.ite [.call "print"] []]).text := by
  have hbehind : ∀ x ∈ (sample [.ite [] [], .call "print"]).names, Token.Plain x := by decide
  have hinside : ∀ x ∈ (sample [.ite [.call "print"] []]).names, Token.Plain x := by decide
  refine ⟨hbehind, hinside, ?_⟩
  rw [Ne, text_inj hbehind hinside]
  simp [sample]

end Module

end TypedScript
