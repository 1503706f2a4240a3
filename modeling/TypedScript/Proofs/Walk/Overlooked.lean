import TypedScript.Proofs.Walk.Fate

/-! # What reading overlooks

Walks over lists of nodes refuse a node that they do not know. The walk of a node with a fixed
number of parts stops behind the last part, and whatever stands there is overlooked. -/

namespace TypedScript

namespace Node

theorem kind_ne {x : Node} (hx : x.kind ∉ knownKinds) {kind : String} (hk : kind ∈ knownKinds) :
    x.kind ≠ kind := fun h => hx (h ▸ hk)

theorem not_isTrivia {x : Node} (hx : x.kind ∉ knownKinds) : x.isTrivia = false := by
  rw [isTrivia, List.contains_eq_mem, decide_eq_false_iff_not]
  exact fun h => hx (List.mem_append_left _ h)

end Node

namespace Walk

variable {x : Node} {R : Prop → Node → Node → Prop}

/-! ## Annotations -/

theorem annotation?_meaningful (source : String) (ns : List Node) :
    annotation? source (Node.meaningful ns) = annotation? source ns := by
  induction ns with
  | nil => rfl
  | cons n ns ih =>
    by_cases h : n.isTrivia = true
    · simpa [Node.meaningful_of_isTrivia h, annotation?, h] using ih
    · simp only [Node.meaningful_of_not_isTrivia h, annotation?, ih]

/-- The first name decides, so that what comes behind does not matter. -/
theorem annotation?_row (hR : Node.Growing x R) {bits : Nat → Prop} {more : Prop}
    {ns ns' : List Node} (h : Node.Row x R bits more ns ns') {source : String} {ty : Ty}
    (hty : annotation? source ns = some ty) : annotation? source ns' = some ty := by
  induction h with
  | done hbits hmore => exact hty
  | extra hbits hmore => cases hty
  | @cons _ _ m m' ms ms' head tail ih =>
    have hgrown := hR.grown head
    simp only [annotation?, hgrown.kind, hgrown.isTrivia, hgrown.text]
    rw [annotation?] at hty
    by_cases hmark : ([":", "->"].contains m.kind || m.isTrivia) = true
    · rw [if_pos hmark] at hty ⊢
      exact ih hty
    · rw [if_neg hmark] at hty ⊢
      exact hty

theorem typeDef_fated (hR : Node.Growing x R) :
    Fated (Node.GrownAs "TypeDef" x R) typeDef typeDef where
  left := typeDef_steady
  right := typeDef_steady
  fate B c c' hs hn := by
    obtain ⟨hk, -, -, -, bits, more, hrow, hB⟩ := hn
    refine .of_not (fun ty d hty => ⟨False.elim, fun _ => ?_⟩) ?_
    · rw [typeDef_eq_ok, hs, ← annotation?_meaningful]
      rw [hk, Node.line, Node.line, if_pos (by decide), if_pos (by decide)] at hrow
      apply annotation?_row hR hrow
      rw [annotation?_meaningful]
      exact typeDef_eq_ok.mp ⟨d, hty⟩
    · simp [hB, Node.looksAt, Node.closes, hk]

/-! ## Expressions -/

section

variable {e e' : Walk Expr} (hR : Node.Growing x R) (he : Fated R e e')
include hR he

theorem unary_fated : Fated (Node.GrownAs "UnaryExpression" x R) (unary e) (unary e') where
  left := unary_steady he.left
  right := unary_steady he.right
  fate B c c' hs hn := by
    obtain ⟨hk, hn⟩ := hn
    refine Fate.note_bind (Cursor.like_of_grown hs hn) ?_
    refine Fate.within hs hn (by rw [hk]; decide) ?_
    intro bits more sign sign' hsign _ _ _ hB
    have hB : B ↔ bits 1 := by simpa [Node.looksAt, Node.closes, hk] using hB
    refine Fate.congr ?_ hB.symm
    refine Fate.text_bind (hsign.like hR) ?_
    split
    · exact Fate.of_error rfl
    · refine Fate.advance_bind hsign fun operand operand' hoperand _ _ _ => ?_
      have hread := he.fate _ operand operand' hoperand.source hoperand.focus
      exact Fate.bind_of_forall hread fun _ _ _ => .pure _

theorem binary_fated : Fated (Node.GrownAs "BinaryExpression" x R) (binary e) (binary e') where
  left := binary_steady he.left
  right := binary_steady he.right
  fate B c c' hs hn := by
    obtain ⟨hk, hn⟩ := hn
    refine Fate.note_bind (Cursor.like_of_grown hs hn) ?_
    refine Fate.within hs hn (by rw [hk]; decide) ?_
    intro bits more l l' hl _ _ _ hB
    have hB : B ↔ bits 0 ∨ bits 2 := by
      simpa [Node.looksAt, Node.closes, hk, or_and_right, exists_or] using hB
    refine Fate.congr ?_ hB.symm
    refine he.fate_bind hl fun left => ?_
    refine Fate.advance_bind hl fun op op' hop _ _ _ => ?_
    refine Fate.span_bind (hop.like hR) ?_
    refine Fate.text_bind (hop.like hR) ?_
    refine Fate.advance_bind hop fun r r' hr _ _ _ => ?_
    refine Fate.kind_bind (hr.like hR) ?_
    apply Fate.ite
    · intro
      exact Fate.of_error rfl
    · intro
      split
      · exact Fate.fail
      · have hright := he.fate _ r r' hr.source hr.focus
        exact Fate.bind_of_forall hright fun _ _ _ => .pure _

theorem parenthesized_fated :
    Fated (Node.GrownAs "ParenthesizedExpression" x R) (parenthesized e) (parenthesized e') where
  left := parenthesized_steady he.left
  right := parenthesized_steady he.right
  fate B c c' hs hn := by
    obtain ⟨hk, hn⟩ := hn
    refine Fate.within hs hn (by rw [hk]; decide) ?_
    intro bits more bracket bracket' hbracket _ _ _ hB
    have hB : B ↔ bits 1 := by simpa [Node.looksAt, Node.closes, hk] using hB
    refine Fate.congr ?_ hB.symm
    refine Fate.expect_bind (hbracket.like hR) fun _ => ?_
    refine Fate.advance_bind hbracket fun inner inner' hinner _ _ _ => ?_
    exact he.fate _ inner inner' hinner.source hinner.focus

theorem member_fated : Fated (Node.GrownAs "MemberExpression" x R) (member e) (member e') where
  left := member_steady he.left
  right := member_steady he.right
  fate B c c' hs hn := by
    obtain ⟨hk, hn⟩ := hn
    refine Fate.within hs hn (by rw [hk]; decide) ?_
    intro bits more object object' hobject _ _ _ hB
    have hB : B ↔ bits 0 ∨ False := by simpa [Node.looksAt, Node.closes, hk] using hB
    refine Fate.congr ?_ hB.symm
    refine he.fate_bind hobject fun _ => ?_
    refine Fate.advance_bind hobject fun dot dot' hdot _ _ _ => ?_
    refine Fate.expect_bind (hdot.like hR) fun _ => ?_
    refine Fate.advance_bind hdot fun name name' hname _ _ _ => ?_
    refine Fate.expect_bind (hname.like hR) fun _ => ?_
    exact Fate.text_bind (hname.like hR) (.pure _)

end

theorem isBracket_outer {kind : String} (h : isBracket kind = true) :
    Node.innerKinds.contains kind = false := by
  have hmem : kind ∈ ["(", ")", ","] := by simpa [isBracket] using h
  simp only [List.mem_cons, List.not_mem_nil, or_false] at hmem
  rcases hmem with rfl | rfl | rfl <;> decide

theorem isBracket_known (hx : x.kind ∉ Node.knownKinds) : isBracket x.kind ≠ true := by
  intro h
  have hmem : x.kind ∈ ["(", ")", ","] := by simpa [isBracket] using h
  simp only [List.mem_cons, List.not_mem_nil, or_false] at hmem
  rcases hmem with hk | hk | hk <;> exact Node.kind_ne hx (by decide) hk

section

variable {e e' : Walk Expr} (hR : Node.Growing x R) (he : Fated R e e')
  (hx : x.kind ∉ Node.knownKinds) (hxe : Refuses x e')
include hR he hx hxe

theorem arguments_fated : Fated R (arguments e) (arguments e') where
  left := arguments_steady he.left
  right := arguments_steady he.right
  fate B c c' hs hn := by
    refine Fate.expect_bind (Cursor.like_of_grown hs (hR.grown hn)) fun hk => ?_
    have hk : c.focus.kind = "ArgList" := hk
    have hread := he.unless hR (isBracket · = true) fun _ => isBracket_outer
    have hrefuse := hxe.unless (isBracket · = true) (isBracket_known hx)
    exact Fate.collect hs (hR.grown hn) (by rw [hk]; decide) hread hrefuse

theorem call_fated : Fated (Node.GrownAs "CallExpression" x R) (call e) (call e') where
  left := call_steady he.left
  right := call_steady he.right
  fate B c c' hs hn := by
    obtain ⟨hk, hn⟩ := hn
    refine Fate.note_bind (Cursor.like_of_grown hs hn) ?_
    refine Fate.within hs hn (by rw [hk]; decide) ?_
    intro bits more callee callee' hcallee _ _ _ hB
    have hB : B ↔ bits 0 ∨ bits 1 := by
      simpa [Node.looksAt, Node.closes, hk, or_and_right, exists_or] using hB
    have hargs := arguments_fated hR he hx hxe
    refine Fate.congr ?_ hB.symm
    refine Fate.kind_bind (hcallee.like hR) ?_
    generalize hkind : callee.kind = kind
    split
    · refine Fate.or_of_not (hcallee.not_of_outer hR hkind (by decide)) ?_
      refine Fate.text_bind (hcallee.like hR) ?_
      refine Fate.advance_bind hcallee fun list list' hlist _ _ _ => ?_
      have hread := hargs.fate _ list list' hlist.source hlist.focus
      refine Fate.bind_of_forall hread fun args _ _ => ?_
      split
      · exact Fate.pure _
      · exact Fate.fail
    · have hmember := member_fated hR he
      refine hmember.fate_bind_as hR hcallee hkind fun found => ?_
      refine Fate.advance_bind hcallee fun list list' hlist _ _ _ => ?_
      have hread := hargs.fate _ list list' hlist.source hlist.focus
      exact Fate.bind_of_forall hread fun _ _ _ => .pure _
    · exact Fate.unexpected

end

/-! ## Statements -/

section

variable (hR : Node.Growing x R) (hx : x.kind ∉ Node.knownKinds)
include hR

theorem paramEntry_fated (className : Option String) (entries : List ParamEntry) :
    Fated R (paramEntry className entries) (paramEntry className entries) where
  left := paramEntry_steady className entries
  right := paramEntry_steady className entries
  fate B c c' hs hn := by
    have hgrown := hR.grown hn
    have hl := Cursor.like_of_grown hs hgrown
    have houter : ∀ kind, c.kind = kind → Node.innerKinds.contains kind = false → ¬ B := by
      rintro _ rfl hkind
      exact hgrown.not_of_outer hkind
    refine Fate.kind_bind hl ?_
    generalize hk : c.kind = kind
    split
    · exact Fate.of_not (.pure _) (houter _ hk (by decide))
    · exact Fate.of_not (.pure _) (houter _ hk (by decide))
    · exact Fate.of_not (.pure _) (houter _ hk (by decide))
    · refine Fate.of_not ?_ (houter _ hk (by decide))
      exact .text_bind hl (.span_bind hl (.pure _))
    · have htype := (typeDef_fated hR).fate B c c' hs ⟨hk, hgrown⟩
      refine Fate.bind_of_forall htype fun ty _ _ => ?_
      split
      · exact Fate.pure _
      · exact Fate.unexpected
    · exact Fate.unexpected

omit hR in
include hx in
theorem paramEntry_refuses (className : Option String) (entries : List ParamEntry) :
    Refuses x (paramEntry className entries) := by
  apply Refuses.kind_bind
  split
  case h_6 => exact .unexpected
  all_goals exact absurd ‹x.kind = _› (Node.kind_ne hx (by decide))

include hx in
theorem params_fated (className : Option String) :
    Fated (Node.GrownAs "ParamList" x R) (params className) (params className) where
  left := params_steady className
  right := params_steady className
  fate B c c' hs hn := by
    obtain ⟨hk, hn⟩ := hn
    have hfold := Fate.fold (b := []) hs hn (by rw [hk]; decide) (paramEntry_fated hR className)
      (paramEntry_refuses hx className)
    refine Fate.bind_of_forall hfold fun latest _ _ => ?_
    extract_lets entries
    split
    · exact Fate.fail
    · exact Fate.pure _

theorem baseClass_fated : Fated R baseClass baseClass where
  left := baseClass_steady
  right := baseClass_steady
  fate B c c' hs hn := by
    have hgrown := hR.grown hn
    have hl := Cursor.like_of_grown hs hgrown
    refine Fate.kind_bind hl ?_
    apply Fate.ite
    · intro hbracket
      exact Fate.of_not (.pure _) (hgrown.not_of_outer (isBracket_outer hbracket))
    · intro
      refine Fate.text_bind hl ?_
      refine Fate.kind_bind hl ?_
      apply Fate.ite
      · intro hname
        have hk : c.focus.kind = "VariableName" := hname.1
        exact Fate.of_not (.pure _) (hgrown.not_of_outer (by rw [hk]; decide))
      · intro
        exact Fate.of_error rfl

omit hR in
include hx in
theorem baseClass_refuses : Refuses x baseClass := by
  apply Refuses.kind_bind
  rw [if_neg (isBracket_known hx)]
  rintro c rfl a d h
  have hk : ¬ (c.kind = "VariableName" ∧ c.text = "object") :=
    fun h => Node.kind_ne hx (by decide) h.1
  change (if c.kind = "VariableName" ∧ c.text = "object" then _ else _ : Walk Unit) c = _ at h
  rw [if_neg hk] at h
  cases h

end

section

variable {s s' : Walk Stmt} (hR : Node.Growing x R) (hs : Fated R s s')
  (hx : x.kind ∉ Node.knownKinds) (hxs : Refuses x s')
include hR hs hx hxs

theorem body_fated : Fated (Node.GrownAs "Body" x R) (body s) (body s') where
  left := body_steady hs.left
  right := body_steady hs.right
  fate B c c' hsource hn := by
    obtain ⟨hk, hn⟩ := hn
    have hrefuse := hxs.unless (· = ":") (Node.kind_ne hx (by decide))
    refine Fate.collect hsource hn (by rw [hk]; decide) (hs.unless hR (· = ":") ?_) hrefuse
    rintro _ rfl
    decide

theorem funcDef_fated (className : Option String) :
    Fated (Node.GrownAs "FunctionDefinition" x R) (funcDef s className) (funcDef s' className) where
  left := funcDef_steady hs.left className
  right := funcDef_steady hs.right className
  fate B c c' hsource hn := by
    obtain ⟨hk, hn⟩ := hn
    refine Fate.span_bind (Cursor.like_of_grown hsource hn) ?_
    refine Fate.within hsource hn (by rw [hk]; decide) ?_
    intro bits more keyword keyword' hkeyword hline _ _ hB
    refine Fate.expect_bind (hkeyword.like hR) fun _ => ?_
    refine Fate.advance_bind hkeyword fun name name' hname hline₁ _ _ => ?_
    refine Fate.expect_bind (hname.like hR) fun _ => ?_
    refine Fate.text_bind (hname.like hR) ?_
    refine Fate.advance_bind hname fun list list' hlist hline₂ _ _ => ?_
    refine Fate.expect_bind (hlist.like hR) fun hparams => ?_
    have hB : B ↔ bits 2 ∨ bits 3 ∨ c.focus.hasKindAt 3 "TypeDef" = true ∧ bits 4 := by
      simpa [Node.looksAt, Node.closes, hk, or_and_right, exists_or, or_assoc, and_assoc] using hB
    refine Fate.congr ?_ hB.symm
    refine (params_fated hR hx className).fate_bind_as hR hlist hparams fun params => ?_
    refine Fate.advance_bind hlist fun next next' hnext hline₃ _ _ => ?_
    refine Fate.kind_bind (hnext.like hR) ?_
    have htype : c.focus.hasKindAt 3 "TypeDef" = true ↔ next.kind = "TypeDef" := by
      simp [Node.hasKindAt, hline, hline₁, hline₂, hline₃, Cursor.kind]
    rw [htype]
    extract_lets rest rest'
    have hrest : ∀ ty bits d d', d.Abreast x R bits more d' →
        Fate (bits 0) (rest ty) d (rest' ty) d' := by
      intro ty bits block block' hblock
      refine Fate.expect_bind (hblock.like hR) fun hbody => ?_
      exact (body_fated hR hs hx hxs).fate_end_as hR hblock hbody fun _ _ _ => .pure _
    apply Fate.ite
    · intro hret
      refine (typeDef_fated hR).fate_bind_as hR hnext hret fun ty => ?_
      refine Fate.advance_bind hnext fun block block' hblock _ _ _ => ?_
      exact (hrest ty _ block block' hblock).congr (by simp [hret])
    · intro hret
      exact (hrest _ _ next next' hnext).congr (by simp [hret])

end

section

variable {e e' : Walk Expr} (hR : Node.Growing x R) (he : Fated R e e')
  (hx : x.kind ∉ Node.knownKinds) (hxe : Refuses x e')
include hR he

theorem assignment_fated :
    Fated (Node.GrownAs "AssignStatement" x R) (assignment e) (assignment e') where
  left := assignment_steady he.left
  right := assignment_steady he.right
  fate B c c' hs hn := by
    obtain ⟨hk, hn⟩ := hn
    refine Fate.span_bind (Cursor.like_of_grown hs hn) ?_
    refine Fate.within hs hn (by rw [hk]; decide) ?_
    intro bits more first first' hfirst _ _ _ hB
    have hB : B ↔ Node.Somewhere bits more := by
      simpa [Node.looksAt, Node.closes, hk, Node.Somewhere] using hB
    rw [Node.somewhere_iff] at hB
    refine Fate.congr ?_ hB.symm
    refine Fate.kind_bind (hfirst.like hR) ?_
    extract_lets afterTarget afterTarget'
    have htarget : ∀ target, Fate (Node.Somewhere (fun j => bits (j + 1)) more)
        (afterTarget target) first (afterTarget' target) first' := by
      intro target
      refine Fate.advance_bind hfirst fun second second' hsecond _ _ _ => ?_
      refine Fate.kind_bind (hsecond.like hR) ?_
      extract_lets afterType afterType'
      have htype : ∀ ty bits d d', d.Abreast x R bits more d' →
          Fate (Node.Somewhere bits more) (afterType ty) d (afterType' ty) d' := by
        intro ty bits mark mark' hmark
        refine Fate.kind_bind (hmark.like hR) ?_
        extract_lets value value'
        have hvalue : ∀ u bits d d', d.Abreast x R bits more d' →
            Fate (Node.Somewhere bits more) (value u) d (value' u) d' := by
          intro u bits last last' hlast
          refine Fate.congr ?_ Node.somewhere_iff.symm
          refine he.fate_bind hlast fun v => ?_
          refine Fate.tryAdvance_bind hlast (fun _ _ _ _ _ _ => .of_error rfl) ?_ ?_
          · intro _ hbits hmore _ _
            exact Fate.of_not (.pure _) (Node.not_somewhere hbits hmore)
          · intro _ hbits hmore unknown unknown' hfocus
            exact Fate.of_failure (by intro v c h; cases h) (.inr hmore)
        apply Fate.ite
        · intro hop
          have hop : mark.kind = "AssignOp" ∨ mark.kind = "=" := by simpa using hop
          have hzero : ¬ bits 0 := by
            rcases hop with hk | hk <;> exact hmark.not_of_outer hR hk (by decide)
          refine Fate.congr (.or_of_not hzero ?_) Node.somewhere_iff.symm
          refine Fate.advance_bind hmark fun last last' hlast _ _ _ => ?_
          exact hvalue () _ last last' hlast
        · exact fun _ => hvalue () _ mark mark' hmark
      apply Fate.ite
      · intro hty
        refine Fate.congr ?_ Node.somewhere_iff.symm
        refine (typeDef_fated hR).fate_bind_as hR hsecond hty fun ty => ?_
        refine Fate.advance_bind hsecond fun mark mark' hmark _ _ _ => ?_
        exact htype (some ty) _ mark mark' hmark
      · exact fun _ => htype none _ second second' hsecond
    generalize hkind : first.kind = kind
    split
    · refine Fate.or_of_not (hfirst.not_of_outer hR hkind (by decide)) ?_
      exact Fate.text_bind (hfirst.like hR) (htarget _)
    · exact (member_fated hR he).fate_bind_as hR hfirst hkind fun _ => htarget _
    · exact Fate.of_error rfl

include hxe in
theorem ret_fated : Fated (Node.GrownAs "ReturnStatement" x R) (ret e) (ret e') where
  left := ret_steady he.left
  right := ret_steady he.right
  fate B c c' hs hn := by
    obtain ⟨hk, hn⟩ := hn
    refine Fate.note_bind (Cursor.like_of_grown hs hn) ?_
    refine Fate.within hs hn (by rw [hk]; decide) ?_
    intro bits more keyword keyword' hkeyword hline _ _ hB
    have hB : B ↔ bits 1 ∨ more ∧ Node.meaningful keyword.rest = [] := by
      simpa [Node.looksAt, Node.closes, hk, hk ▸ hline] using hB
    refine Fate.congr ?_ hB.symm
    refine Fate.expect_bind (hkeyword.like hR) fun _ => ?_
    refine Fate.tryAdvance_bind hkeyword (fun value value' hvalue hline₁ _ _ => ?_) ?_ ?_
    · have hread := he.fate _ value value' hvalue.source hvalue.focus
      refine Fate.congr (.bind_of_forall hread fun _ _ _ => .pure _) ?_
      simp [hline₁]
    · intro _ hbits hmore _ _
      refine Fate.of_not (.pure _) ?_
      simp [hmore, hbits 0]
    · intro hnil hbits hmore unknown unknown' hfocus
      exact Fate.of_failure (hxe.bind unknown' hfocus) (.inr ⟨hmore, hnil⟩)

end

section

variable {s s' : Walk Stmt} {e e' : Walk Expr} (hR : Node.Growing x R) (hs : Fated R s s')
  (he : Fated R e e') (hx : x.kind ∉ Node.knownKinds) (hxs : Refuses x s')
include hR hs he hx hxs

theorem classMember_fated (className : String) :
    Fated R (classMember s e className) (classMember s' e' className) where
  left := classMember_steady hs.left he.left className
  right := classMember_steady hs.right he.right className
  fate B c c' hsource hn := by
    have hgrown := hR.grown hn
    refine Fate.kind_bind (Cursor.like_of_grown hsource hgrown) ?_
    generalize hk : c.kind = kind
    have hk : c.focus.kind = kind := hk
    split
    · exact Fate.of_not (.pure _) (hgrown.not_of_outer (by rw [hk]; decide))
    · exact Fate.of_not (.pure _) (hgrown.not_of_outer (by rw [hk]; decide))
    · have hfunc := funcDef_fated hR hs hx hxs (some className)
      have hmethod := hfunc.fate B c c' hsource ⟨hk, hgrown⟩
      exact Fate.bind_of_forall hmethod fun _ _ _ => .pure _
    · have hfield := (assignment_fated hR he).fate B c c' hsource ⟨hk, hgrown⟩
      refine Fate.bind_of_forall hfield fun a _ _ => ?_
      split
      · exact Fate.pure _
      · exact Fate.fail
    · exact Fate.unexpected

omit hR hs he hxs in
theorem classMember_refuses (className : String) : Refuses x (classMember s' e' className) := by
  apply Refuses.kind_bind
  split
  case h_5 => exact .unexpected
  all_goals exact absurd ‹x.kind = _› (Node.kind_ne hx (by decide))

theorem classDef_fated :
    Fated (Node.GrownAs "ClassDefinition" x R) (classDef s e) (classDef s' e') where
  left := classDef_steady hs.left he.left
  right := classDef_steady hs.right he.right
  fate B c c' hsource hn := by
    obtain ⟨hk, hn⟩ := hn
    refine Fate.span_bind (Cursor.like_of_grown hsource hn) ?_
    refine Fate.within hsource hn (by rw [hk]; decide) ?_
    intro bits more keyword keyword' hkeyword hline _ _ hB
    have hB : B ↔ bits 2 ∨ c.focus.hasKindAt 2 "ArgList" = true ∧ bits 3 := by
      simpa [Node.looksAt, Node.closes, hk, or_and_right, exists_or, and_assoc] using hB
    refine Fate.congr ?_ hB.symm
    refine Fate.expect_bind (hkeyword.like hR) fun _ => ?_
    refine Fate.advance_bind hkeyword fun name name' hname hline₁ _ _ => ?_
    refine Fate.expect_bind (hname.like hR) fun _ => ?_
    refine Fate.text_bind (hname.like hR) ?_
    generalize name.text = className
    refine Fate.advance_bind hname fun next next' hnext hline₂ _ _ => ?_
    refine Fate.kind_bind (hnext.like hR) ?_
    have hlist : c.focus.hasKindAt 2 "ArgList" = true ↔ next.kind = "ArgList" := by
      simp [Node.hasKindAt, hline, hline₁, hline₂, Cursor.kind]
    rw [hlist]
    extract_lets members members'
    have hmembers : ∀ u bits d d', d.Abreast x R bits more d' →
        Fate (bits 0) (members u) d (members' u) d' := by
      intro u bits block block' hblock
      refine Fate.expect_bind (hblock.like hR) fun hbody => ?_
      have hbody : block.focus.kind = "Body" := hbody
      refine Fate.bind_of_forall ?_ fun _ _ _ => .pure _
      exact Fate.collect hblock.source (hR.grown hblock.focus) (by rw [hbody]; decide)
        (classMember_fated hR hs he hx hxs className) (classMember_refuses hx className)
    apply Fate.ite
    · intro hargs
      have hbase := baseClass_fated hR
      have hkind : next.focus.kind = "ArgList" := hargs
      have hsteady : Steady (fold (fun _ => baseClass) ()) := .fold (fun _ => hbase.left) ()
      have hbases := Fate.fold (b := ()) hnext.source (hR.grown hnext.focus)
        (by rw [hkind]; decide) (fun _ => hbase) fun _ => baseClass_refuses hx
      refine Fate.bind hsteady hsteady hbases fun _ => ?_
      refine Fate.advance_bind hnext fun block block' hblock _ _ _ => ?_
      exact (hmembers () _ block block' hblock).congr (by simp [hargs])
    · intro hargs
      exact (hmembers () _ next next' hnext).congr (by simp [hargs])

theorem loop_fated : Fated (Node.GrownAs "WhileStatement" x R) (loop s e) (loop s' e') where
  left := loop_steady hs.left he.left
  right := loop_steady hs.right he.right
  fate B c c' hsource hn := by
    obtain ⟨hk, hn⟩ := hn
    refine Fate.span_bind (Cursor.like_of_grown hsource hn) ?_
    refine Fate.within hsource hn (by rw [hk]; decide) ?_
    intro bits more keyword keyword' hkeyword _ _ _ hB
    have hB : B ↔ bits 1 ∨ bits 2 := by
      simpa [Node.looksAt, Node.closes, hk, or_and_right, exists_or] using hB
    refine Fate.congr ?_ hB.symm
    refine Fate.expect_bind (hkeyword.like hR) fun _ => ?_
    refine Fate.advance_bind hkeyword fun cond cond' hcond _ _ _ => ?_
    refine he.fate_bind hcond fun condition => ?_
    refine Fate.advance_bind hcond fun block block' hblock _ _ _ => ?_
    refine Fate.expect_bind (hblock.like hR) fun hbody => ?_
    exact (body_fated hR hs hx hxs).fate_end_as hR hblock hbody fun _ _ _ => .pure _

/-- With a step for every sibling, arms are read up to the end of the line. -/
theorem arms_fate {n n' : Nat} {bits : Nat → Prop} {more : Prop} {c c' : Cursor}
    (hc : c.Abreast x R bits more c') (hn : c.rest.length < n) (hn' : c'.rest.length < n')
    (elseIf : Option (Expr × List Stmt)) (otherwise : Option (List Stmt)) :
    Fate (Node.Somewhere (fun j => bits (j + 1)) more) (arms s e n elseIf otherwise) c
      (arms s' e' n' elseIf otherwise) c' := by
  induction n generalizing n' bits c c' elseIf otherwise with
  | zero => omega
  | succ n ih =>
    obtain ⟨n', rfl⟩ := Nat.exists_eq_add_one_of_ne_zero (Nat.ne_zero_of_lt hn')
    refine Fate.tryAdvance_bind hc (fun keyword keyword' hkeyword _ hlt hlt' => ?_) ?_ ?_
    · refine Fate.congr ?_ Node.somewhere_iff.symm
      refine Fate.kind_bind (hkeyword.like hR) ?_
      have hbody := body_fated hR hs hx hxs
      generalize hk : keyword.kind = kind
      split
      · refine Fate.or_of_not (hkeyword.not_of_outer hR hk (by decide)) ?_
        refine Fate.ite (fun _ => .of_error rfl) fun _ => ?_
        refine Fate.advance_bind hkeyword fun cond cond' hcond _ hlt₁ hlt₁' => ?_
        refine Fate.congr ?_ Node.somewhere_iff.symm
        refine he.fate_bind hcond fun condition => ?_
        refine Fate.advance_bind hcond fun block block' hblock _ hlt₂ hlt₂' => ?_
        refine Fate.congr ?_ Node.somewhere_iff.symm
        refine Fate.expect_bind (hblock.like hR) fun hkind => ?_
        refine hbody.fate_bind_as hR hblock hkind fun body => ?_
        exact ih hblock (by omega) (by omega) _ _
      · refine Fate.or_of_not (hkeyword.not_of_outer hR hk (by decide)) ?_
        refine Fate.ite (fun _ => .unexpected) fun _ => ?_
        refine Fate.advance_bind hkeyword fun block block' hblock _ hlt₁ hlt₁' => ?_
        refine Fate.congr ?_ Node.somewhere_iff.symm
        refine Fate.expect_bind (hblock.like hR) fun hkind => ?_
        refine hbody.fate_bind_as hR hblock hkind fun body => ?_
        exact ih hblock (by omega) (by omega) _ _
      · exact Fate.unexpected
    · intro _ hbits hmore _ _
      exact Fate.of_not (.pure _) (Node.not_somewhere hbits hmore)
    · intro _ _ hmore unknown unknown' hfocus
      refine Fate.of_failure (Refuses.kind_bind ?_ unknown' hfocus) (.inr hmore)
      split
      case h_3 => exact .unexpected
      all_goals exact absurd ‹x.kind = _› (Node.kind_ne hx (by decide))

theorem branch_fated : Fated (Node.GrownAs "IfStatement" x R) (branch s e) (branch s' e') where
  left := branch_steady hs.left he.left
  right := branch_steady hs.right he.right
  fate B c c' hsource hn := by
    obtain ⟨hk, hn⟩ := hn
    refine Fate.span_bind (Cursor.like_of_grown hsource hn) ?_
    refine Fate.get_bind ?_
    refine Fate.within hsource hn (by rw [hk]; decide) ?_
    intro bits more keyword keyword' hkeyword _ hlt hlt' hB
    have hB : B ↔ Node.Somewhere bits more := by
      simpa [Node.looksAt, Node.closes, hk, Node.Somewhere] using hB
    rw [Node.somewhere_iff] at hB
    refine Fate.congr ?_ hB.symm
    refine Fate.expect_bind (hkeyword.like hR) fun hif => ?_
    refine Fate.or_of_not (hkeyword.not_of_outer hR hif (by decide)) ?_
    refine Fate.advance_bind hkeyword fun cond cond' hcond _ hlt₁ hlt₁' => ?_
    refine Fate.congr ?_ Node.somewhere_iff.symm
    refine he.fate_bind hcond fun condition => ?_
    refine Fate.advance_bind hcond fun block block' hblock _ hlt₂ hlt₂' => ?_
    refine Fate.congr ?_ Node.somewhere_iff.symm
    refine Fate.expect_bind (hblock.like hR) fun hkind => ?_
    refine (body_fated hR hs hx hxs).fate_bind_as hR hblock hkind fun body => ?_
    have harms := arms_fate hR hs he hx hxs hblock (Nat.lt_trans hlt₂ (Nat.lt_trans hlt₁ hlt))
      (Nat.lt_trans hlt₂' (Nat.lt_trans hlt₁' hlt')) none none
    exact harms.bind_of_forall fun _ _ _ => .pure _

end

/-! ## Whole trees -/

theorem expr_refuses (hx : x.kind ∉ Node.knownKinds) (h : Nat) : Refuses x (expr h) := by
  cases h with
  | zero => exact .unexpected
  | succ h =>
    apply Refuses.kind_bind
    split
    case h_10 => exact .unexpected
    all_goals exact absurd ‹x.kind = _› (Node.kind_ne hx (by decide))

theorem stmt_refuses (hx : x.kind ∉ Node.knownKinds) (h : Nat) : Refuses x (stmt h) := by
  cases h with
  | zero => exact .unexpected
  | succ h =>
    apply Refuses.kind_bind
    split
    case h_9 => exact .unexpected
    all_goals exact absurd ‹x.kind = _› (Node.kind_ne hx (by decide))

theorem scriptItem_refuses (hx : x.kind ∉ Node.knownKinds) (h : Nat) :
    Refuses x (scriptItem h) := by
  apply Refuses.kind_bind
  split
  case h_4 => exact (stmt_refuses hx h).bind
  all_goals exact absurd ‹x.kind = _› (Node.kind_ne hx (by decide))

open Node (SproutTo)

theorem growing_sproutTo (hx : x.kind ∉ Node.knownKinds) (h h' : Nat) :
    Node.Growing x (SproutTo x h h') :=
  ⟨fun hn => hn.succ.opened (Node.not_isTrivia hx)⟩

/-- Walks by depth share the fate of the tree if one more level keeps that. -/
theorem fated_of_step {α : Type} {w : Nat → Walk α} (hw : ∀ h, Steady (w h))
    (hstep : ∀ h h', Fated (SproutTo x h h') (w h) (w h') → ∀ B (c c' : Cursor),
      c'.source = c.source → SproutTo x (h + 1) (h' + 1) B c.focus c'.focus →
        Fate B (w (h + 1)) c (w (h' + 1)) c') (h h' : Nat) :
    Fated (SproutTo x h h') (w h) (w h') := by
  induction h generalizing h' with
  | zero =>
    refine ⟨hw 0, hw h', fun B c c' _ hn => ?_⟩
    exact absurd hn.height (Nat.not_le.mpr c.focus.height_pos)
  | succ h ih =>
    cases h' with
    | zero =>
      refine ⟨hw (h + 1), hw 0, fun B c c' _ hn => ?_⟩
      exact absurd hn.height' (Nat.not_le.mpr c'.focus.height_pos)
    | succ h' => exact ⟨hw (h + 1), hw (h' + 1), hstep h h' (ih h')⟩

section

variable (hx : x.kind ∉ Node.knownKinds)
include hx

theorem expr_fated (h h' : Nat) : Fated (SproutTo x h h') (expr h) (expr h') := by
  refine fated_of_step expr_steady (fun h h' he B c c' hs hn => ?_) h h'
  have hR := growing_sproutTo hx h h'
  have hgrown := hn.opened (Node.not_isTrivia hx)
  have hl := Cursor.like_of_grown hs hgrown
  refine Fate.kind_bind hl ?_
  generalize hk : c.kind = kind
  have hk : c.focus.kind = kind := hk
  split
  · refine Fate.of_not ?_ (hgrown.not_of_outer (by rw [hk]; decide))
    refine Fate.note_bind hl ?_
    refine Fate.text_bind hl ?_
    split
    · exact Fate.pure _
    · exact Fate.of_error rfl
  · refine Fate.of_not ?_ (hgrown.not_of_outer (by rw [hk]; decide))
    refine Fate.note_bind hl ?_
    refine Fate.text_bind hl ?_
    split
    · exact Fate.pure _
    · exact Fate.pure _
    · exact Fate.unexpected
  · exact Fate.of_not (.note_bind hl (.pure _)) (hgrown.not_of_outer (by rw [hk]; decide))
  · refine Fate.of_not ?_ (hgrown.not_of_outer (by rw [hk]; decide))
    exact Fate.note_bind hl (.text_bind hl (.pure _))
  · exact (unary_fated hR he).fate B c c' hs ⟨hk, hgrown⟩
  · exact (binary_fated hR he).fate B c c' hs ⟨hk, hgrown⟩
  · exact (parenthesized_fated hR he).fate B c c' hs ⟨hk, hgrown⟩
  · exact (call_fated hR he hx (expr_refuses hx h')).fate B c c' hs ⟨hk, hgrown⟩
  · refine Fate.note_bind hl (.bind_of_forall ?_ fun _ _ _ => .pure _)
    exact (member_fated hR he).fate B c c' hs ⟨hk, hgrown⟩
  · exact Fate.unexpected

theorem stmt_fated (h h' : Nat) : Fated (SproutTo x h h') (stmt h) (stmt h') := by
  refine fated_of_step stmt_steady (fun h h' hstmt B c c' hs hn => ?_) h h'
  have hR := growing_sproutTo hx h h'
  have he := expr_fated hx h h'
  have hxs := stmt_refuses hx h'
  have hgrown := hn.opened (Node.not_isTrivia hx)
  have hl := Cursor.like_of_grown hs hgrown
  refine Fate.kind_bind hl ?_
  generalize hk : c.kind = kind
  have hk : c.focus.kind = kind := hk
  split
  · refine Fate.bind_of_forall ?_ fun _ _ _ => .pure _
    exact (assignment_fated hR he).fate B c c' hs ⟨hk, hgrown⟩
  · exact (branch_fated hR hstmt he hx hxs).fate B c c' hs ⟨hk, hgrown⟩
  · exact (loop_fated hR hstmt he hx hxs).fate B c c' hs ⟨hk, hgrown⟩
  · exact Fate.of_not (.span_bind hl (.pure _)) (hgrown.not_of_outer (by rw [hk]; decide))
  · exact (ret_fated hR he (expr_refuses hx h')).fate B c c' hs ⟨hk, hgrown⟩
  · refine Fate.bind_of_forall (.within hs hgrown (by rw [hk]; decide) ?_) fun _ _ _ => .pure _
    intro bits more inner inner' hinner _ _ _ hB
    have hB : B ↔ bits 0 := by simpa [Node.looksAt, Node.closes, hk] using hB
    exact Fate.congr (he.fate _ inner inner' hinner.source hinner.focus) hB.symm
  · refine Fate.bind_of_forall ?_ fun _ _ _ => .pure _
    exact (funcDef_fated hR hstmt hx hxs none).fate B c c' hs ⟨hk, hgrown⟩
  · refine Fate.bind_of_forall ?_ fun _ _ _ => .pure _
    exact (classDef_fated hR hstmt he hx hxs).fate B c c' hs ⟨hk, hgrown⟩
  · exact Fate.unexpected

theorem scriptItem_fated (h h' : Nat) :
    Fated (SproutTo x h h') (scriptItem h) (scriptItem h') where
  left := scriptItem_steady h
  right := scriptItem_steady h'
  fate B c c' hs hn := by
    have hR := growing_sproutTo hx h h'
    have he := expr_fated hx h h'
    have hstmt := stmt_fated hx h h'
    have hxs := stmt_refuses hx h'
    have hgrown := hR.grown hn
    refine Fate.kind_bind (Cursor.like_of_grown hs hgrown) ?_
    generalize hk : c.kind = kind
    split
    · refine Fate.bind_of_forall ?_ fun _ _ _ => .pure _
      exact (funcDef_fated hR hstmt hx hxs none).fate B c c' hs ⟨hk, hgrown⟩
    · refine Fate.bind_of_forall ?_ fun _ _ _ => .pure _
      exact (classDef_fated hR hstmt he hx hxs).fate B c c' hs ⟨hk, hgrown⟩
    · refine Fate.bind_of_forall ?_ fun _ _ _ => .pure _
      exact (assignment_fated hR he).fate B c c' hs ⟨hk, hgrown⟩
    · exact Fate.bind_of_forall (hstmt.fate B c c' hs hn) fun _ _ _ => .pure _

theorem program_fated : Fated (Node.Sprout x) program program where
  left := program_steady
  right := program_steady
  fate B c c' hs hn := by
    have hR := growing_sproutTo hx c.focus.height c'.focus.height
    have hgrown := hR.grown ⟨hn, Nat.le_refl _, Nat.le_refl _⟩
    have hitem := scriptItem_fated hx c.focus.height c'.focus.height
    refine Fate.get_bind ?_
    refine Fate.kind_bind (Cursor.like_of_grown hs hgrown) ?_
    apply Fate.ite
    · intro hk
      have hk : c.focus.kind = "Script" := hk
      refine Fate.bind_of_forall ?_ fun _ _ _ => .pure _
      refine Fate.collect hs hgrown (by rw [hk]; decide) ?_ ?_
      · refine ⟨hitem.left.map, hitem.right.map, fun B item item' hsource hitems => ?_⟩
        exact Fate.bind_of_forall (hitem.fate B item item' hsource hitems) fun _ _ _ => .pure _
      · exact (scriptItem_refuses hx _).bind
    · exact fun _ => Fate.unexpected

end

end Walk

namespace Program

/-- One more child of an unknown kind makes a tree unreadable just if its parent is gone into and
walked to the end. Everywhere else the child is overlooked and the same program is read. -/
theorem ofTree_grow {source : String} {root parent x : Node} (path : List Nat) {p : Program}
    (hp : ofTree ⟨source, root⟩ = .ok p) (hparent : root.at? path = some parent)
    (hx : x.kind ∉ Node.knownKinds) :
    (root.visits path = true ∧ parent.closes = true →
      ∃ e, ofTree ⟨source, root.grow path x⟩ = .error e) ∧
    (¬ (root.visits path = true ∧ parent.closes = true) →
      ofTree ⟨source, root.grow path x⟩ = .ok p) := by
  rw [ofTree, Cursor.parse_eq] at hp
  obtain ⟨d, hd⟩ := Walk.reading_eq_ok.mp hp
  have hfate := (Walk.program_fated hx).fate _ ⟨source, [], root⟩ ⟨source, [], root.grow path x⟩ rfl
    (.grown path) p d hd
  rw [Node.meets_iff hparent] at hfate
  rw [ofTree, Cursor.parse_eq]
  refine ⟨fun hmet => ?_, fun hmet => Walk.reading_eq_ok.mpr (hfate.2 hmet)⟩
  cases hr : Walk.program.reading source (root.grow path x) with
  | error e => exact ⟨e, hr⟩
  | ok p' =>
    obtain ⟨d', hd'⟩ := Walk.reading_eq_ok.mp hr
    exact absurd hd' (hfate.1 hmet p' d')

/-- The tree of `while b: pass`, with room behind the statement. -/
def whileTree : Node :=
  ⟨"Script", 0, 17, [⟨"WhileStatement", 0, 17, [⟨"while", 0, 5, []⟩, ⟨"VariableName", 6, 7, []⟩,
    ⟨"Body", 7, 13, [⟨":", 7, 8, []⟩, ⟨"PassStatement", 9, 13, []⟩]⟩]⟩]⟩

/-- A `for` in the body of the loop is refused, and one behind the body is overlooked. -/
theorem ofTree_grow_whileTree :
    (∃ e, ofTree ⟨"while b: pass for", whileTree.grow [0, 2] ⟨"ForStatement", 14, 17, []⟩⟩ =
      .error e) ∧
    ofTree ⟨"while b: pass for", whileTree.grow [0] ⟨"ForStatement", 14, 17, []⟩⟩ =
      .ok { vars := [], funcs := [], classes := [],
            stmts := [.loop ⟨1, 1, 17⟩ (.name ⟨⟨1, 7, 1⟩, none⟩ (.plain "b")) [.pass ⟨1, 10, 4⟩]],
            ty := none } := by
  have hp : ofTree ⟨"while b: pass for", whileTree⟩ = .ok _ := rfl
  have hx : (⟨"ForStatement", 14, 17, []⟩ : Node).kind ∉ Node.knownKinds := by decide
  constructor
  · exact (ofTree_grow [0, 2] hp rfl hx).1 (by decide)
  · exact (ofTree_grow [0] hp rfl hx).2 (by decide)

/-- The loop is gone into, and yet a child that no walk knows is lost without a fault. -/
theorem ofTree_whileTree_overlooks :
    whileTree.visits [0] = true ∧ "ForStatement" ∉ Node.knownKinds ∧
      ∃ p, ofTree ⟨"while b: pass for", whileTree⟩ = .ok p ∧
        ofTree ⟨"while b: pass for", whileTree.grow [0] ⟨"ForStatement", 14, 17, []⟩⟩ = .ok p :=
  ⟨by decide, by decide, _, rfl, rfl⟩

end Program

end TypedScript
