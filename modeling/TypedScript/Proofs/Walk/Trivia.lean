import TypedScript.Proofs.Walk.Parallel

/-! # Trivia is transparent

Comments, line ends and the like may be put between the children of nodes without changing the
program that is read. -/

namespace TypedScript

namespace Walk

/-! ## Annotations -/

/-- The type that the children of an annotation name: the first of them that is no mark. -/
def annotation? (source : String) : List Node → Option Ty
  | [] => none
  | n :: ns =>
    if [":", "->"].contains n.kind || n.isTrivia then annotation? source ns
    else if ["VariableName", "None"].contains n.kind then some (Ty.ofName (n.text source))
    else none

theorem annotation?_next? (source : String) (ns : List Node) :
    annotation? source ns =
      (Node.next? ns).bind fun found => annotation? source (found.1 :: found.2) := by
  induction ns with
  | nil => rfl
  | cons n ns ih =>
    by_cases h : n.isTrivia = true
    · simpa [annotation?, Node.next?, h] using ih
    · simp [Node.next?, h]

theorem annotation?_interleaved {R : Node → Node → Prop} (hR : Node.Likeness R)
    {ns ns' : List Node} (h : Node.Interleaved R ns ns') (source : String) :
    annotation? source ns' = annotation? source ns := by
  induction h with
  | nil => rfl
  | cons head tail ih =>
    have ha := hR.above head
    simp only [annotation?, ha.kind, ha.isTrivia, ha.text, ih]
  | insert trivia tail ih => simp [annotation?, trivia, ih]

theorem typeName_succ (n : Nat) (c : Cursor) :
    typeName (n + 1) c =
      (if [":", "->"].contains c.focus.kind || c.focus.isTrivia then
        advance "type annotation" "type name" >>= fun _ => typeName n
      else if ["VariableName", "None"].contains c.focus.kind then pure (Ty.ofName c.text)
      else unexpected "type annotation" : Walk Ty) c := by
  change (if [":", "->"].contains c.focus.kind || c.focus.isTrivia then _ else _ : Walk Ty) c = _
  split
  · rfl
  · change (if ["VariableName", "None"].contains c.focus.kind then _ else _ : Walk Ty) c = _
    split <;> rfl

/-- With a step for every sibling, the type is found that the siblings name. -/
theorem typeName_eq_ok {n : Nat} {c : Cursor} (hn : c.rest.length < n) (ty : Ty) :
    (∃ d, typeName n c = .ok ty d) ↔ annotation? c.source (c.focus :: c.rest) = some ty := by
  induction n generalizing c with
  | zero => omega
  | succ n ih =>
    rw [typeName_succ, annotation?]
    split
    · rw [annotation?_next?]
      cases hnext : Node.next? c.rest with
      | none =>
        obtain ⟨e, d, he⟩ := advance_of_none hnext
        rw [bind_of_error he]
        simp
      | some found =>
        obtain ⟨d, hd, hs, hfocus, hrest⟩ := advance_of_some hnext
        have hlt := Node.length_of_next? hnext
        rw [bind_of_ok hd, ih (by rw [hrest]; omega), hs, hfocus, hrest]
        rfl
    · split
      · constructor
        · rintro ⟨d, h⟩
          cases h
          rfl
        · intro h
          cases h
          exact ⟨c, rfl⟩
      · constructor
        · rintro ⟨d, h⟩
          cases h
        · intro h
          cases h

/-- An annotation names the type that its children name. -/
theorem typeDef_eq_ok {c : Cursor} {ty : Ty} :
    (∃ d, typeDef c = .ok ty d) ↔ annotation? c.source c.focus.children = some ty := by
  change (∃ d, within "type annotation" (typeName c.focus.children.length) c = .ok ty d) ↔ _
  cases hc : c.focus.children with
  | nil =>
    rw [within_of_nil hc]
    simp [annotation?]
  | cons m ms =>
    have hrest : (⟨c.source, (c.focus, 0) :: c.trail, m⟩ : Cursor).rest = ms := by
      simp [Cursor.rest, hc]
    rw [within_eq_ok hc, typeName_eq_ok (by simp [hrest]), hrest]

theorem typeDef_parallel {R : Node → Node → Prop} (hR : Node.Likeness R) :
    Parallel R typeDef typeDef where
  left := typeDef_steady
  right := typeDef_steady
  agree c c' hs hn ty := by
    rw [typeDef_eq_ok, typeDef_eq_ok, hs, annotation?_interleaved hR (hR.above hn).children]

/-! ## Expressions -/

section

variable {R : Node → Node → Prop} {e e' : Walk Expr}
variable (hR : Node.Likeness R) (he : Parallel R e e')

theorem number_agree {c c' : Cursor} (hl : c.Like c') : Agree number c number c' := by
  refine Agree.note_bind hl ?_
  refine Agree.text_bind hl ?_
  split
  · exact .pure _
  · exact .of_errors rfl rfl

theorem boolean_agree {c c' : Cursor} (hl : c.Like c') : Agree boolean c boolean c' := by
  refine Agree.note_bind hl ?_
  refine Agree.text_bind hl ?_
  split
  · exact .pure _
  · exact .pure _
  · exact .unexpected

include hR he

theorem unary_parallel : Parallel (Node.Tight R) (unary e) (unary e') where
  left := unary_steady he.left
  right := unary_steady he.right
  agree c c' hs hn := by
    refine Agree.note_bind (Cursor.like_of_above hs hn.toAbove) ?_
    refine Agree.within hs hn fun sign sign' hsign => ?_
    refine Agree.text_bind (hsign.like hR) ?_
    split
    · exact Agree.of_errors rfl rfl
    · refine Agree.advance_bind hR hsign fun operand operand' hoperand _ _ => ?_
      exact he.agree_bind hoperand fun _ => .pure _

theorem binary_parallel : Parallel (Node.Tight R) (binary e) (binary e') where
  left := binary_steady he.left
  right := binary_steady he.right
  agree c c' hs hn := by
    refine Agree.note_bind (Cursor.like_of_above hs hn.toAbove) ?_
    refine Agree.within hs hn fun l l' hl => ?_
    refine he.agree_bind hl fun left => ?_
    refine Agree.advance_bind hR hl fun op op' hop _ _ => ?_
    refine Agree.span_bind (hop.like hR) ?_
    refine Agree.text_bind (hop.like hR) ?_
    refine Agree.advance_bind hR hop fun r r' hr _ _ => ?_
    refine Agree.kind_bind (hr.like hR) ?_
    apply Agree.ite
    · intro
      exact Agree.of_errors rfl rfl
    · intro
      split
      · exact Agree.fail
      · exact he.agree_bind hr fun _ => .pure _

theorem parenthesized_parallel :
    Parallel (Node.Tight R) (parenthesized e) (parenthesized e') where
  left := parenthesized_steady he.left
  right := parenthesized_steady he.right
  agree c c' hs hn := by
    refine Agree.within hs hn fun bracket bracket' hbracket => ?_
    refine Agree.expect_bind (hbracket.like hR) fun _ => ?_
    refine Agree.advance_bind hR hbracket fun inner inner' hinner _ _ => ?_
    exact he.agree inner inner' hinner.source hinner.focus

theorem arguments_parallel : Parallel R (arguments e) (arguments e') where
  left := arguments_steady he.left
  right := arguments_steady he.right
  agree c c' hs hn := by
    refine Agree.expect_bind (Cursor.like_of_above hs (hR.above hn)) fun _ => ?_
    exact Agree.collect hR hs (hR.above hn).children (he.unless hR (isBracket · = true))

theorem member_parallel : Parallel (Node.Tight R) (member e) (member e') where
  left := member_steady he.left
  right := member_steady he.right
  agree c c' hs hn := by
    refine Agree.within hs hn fun object object' hobject => ?_
    refine he.agree_bind hobject fun _ => ?_
    refine Agree.advance_bind hR hobject fun dot dot' hdot _ _ => ?_
    refine Agree.expect_bind (hdot.like hR) fun _ => ?_
    refine Agree.advance_bind hR hdot fun name name' hname _ _ => ?_
    refine Agree.expect_bind (hname.like hR) fun _ => ?_
    exact Agree.text_bind (hname.like hR) (.pure _)

theorem call_parallel : Parallel (Node.Tight R) (call e) (call e') where
  left := call_steady he.left
  right := call_steady he.right
  agree c c' hs hn := by
    refine Agree.note_bind (Cursor.like_of_above hs hn.toAbove) ?_
    refine Agree.within hs hn fun callee callee' hcallee => ?_
    refine Agree.kind_bind (hcallee.like hR) ?_
    have hargs := arguments_parallel hR he
    generalize hk : callee.kind = kind
    split
    · refine Agree.text_bind (hcallee.like hR) ?_
      refine Agree.advance_bind hR hcallee fun list list' hlist _ _ => ?_
      refine hargs.agree_bind hlist fun args => ?_
      split
      · exact Agree.pure _
      · exact Agree.fail
    · have hmember := member_parallel hR he
      have htight := hR.tight hcallee.focus (Cursor.notMem_looseKinds hk (by decide))
      have hfound := hmember.agree callee callee' hcallee.source htight
      refine Agree.bind hmember.left hmember.right hfound fun found => ?_
      refine Agree.advance_bind hR hcallee fun list list' hlist _ _ => ?_
      exact hargs.agree_bind hlist fun _ => .pure _
    · exact Agree.unexpected

end

/-! ## Statements -/

section

variable {R : Node → Node → Prop} {e e' : Walk Expr} {s s' : Walk Stmt}

section

variable (hR : Node.Likeness R)
include hR

theorem paramEntry_parallel (className : Option String) (entries : List ParamEntry) :
    Parallel R (paramEntry className entries) (paramEntry className entries) where
  left := paramEntry_steady className entries
  right := paramEntry_steady className entries
  agree c c' hs hn := by
    have hl := Cursor.like_of_above hs (hR.above hn)
    refine Agree.kind_bind hl ?_
    split
    · exact Agree.pure _
    · exact Agree.pure _
    · exact Agree.pure _
    · refine Agree.text_bind hl ?_
      exact Agree.span_bind hl (.pure _)
    · have htype := (typeDef_parallel hR).agree c c' hs hn
      refine Agree.bind typeDef_steady typeDef_steady htype fun ty => ?_
      split
      · exact Agree.pure _
      · exact Agree.unexpected
    · exact Agree.unexpected

theorem params_parallel (className : Option String) :
    Parallel R (params className) (params className) where
  left := params_steady className
  right := params_steady className
  agree c c' hs hn := by
    have hentry := paramEntry_parallel hR className
    have hfold := Agree.fold (b := []) hR hs (hR.above hn).children hentry
    have hsteady : Steady (fold (paramEntry className) []) :=
      .fold (fun entries => (hentry entries).left) []
    refine Agree.bind hsteady hsteady hfold fun latest => ?_
    extract_lets entries
    split
    · exact Agree.fail
    · exact Agree.pure _

theorem baseClass_parallel : Parallel R baseClass baseClass where
  left := baseClass_steady
  right := baseClass_steady
  agree c c' hs hn := by
    have hl := Cursor.like_of_above hs (hR.above hn)
    refine Agree.kind_bind hl ?_
    refine Agree.ite (fun _ => .pure _) fun _ => ?_
    refine Agree.text_bind hl ?_
    refine Agree.kind_bind hl ?_
    refine Agree.ite (fun _ => .pure _) fun _ => ?_
    exact Agree.of_errors rfl rfl

end

section

variable (hR : Node.Likeness R) (hs : Parallel R s s')
include hR hs

theorem body_parallel : Parallel R (body s) (body s') where
  left := body_steady hs.left
  right := body_steady hs.right
  agree _ _ hsource hn := .collect hR hsource (hR.above hn).children (hs.unless hR (· = ":"))

theorem funcDef_parallel (className : Option String) :
    Parallel (Node.Tight R) (funcDef s className) (funcDef s' className) where
  left := funcDef_steady hs.left className
  right := funcDef_steady hs.right className
  agree c c' hsource hn := by
    refine Agree.span_bind (Cursor.like_of_above hsource hn.toAbove) ?_
    refine Agree.within hsource hn fun keyword keyword' hkeyword => ?_
    refine Agree.expect_bind (hkeyword.like hR) fun _ => ?_
    refine Agree.advance_bind hR hkeyword fun name name' hname _ _ => ?_
    refine Agree.expect_bind (hname.like hR) fun _ => ?_
    refine Agree.text_bind (hname.like hR) ?_
    refine Agree.advance_bind hR hname fun list list' hlist _ _ => ?_
    refine Agree.expect_bind (hlist.like hR) fun _ => ?_
    refine (params_parallel hR className).agree_bind hlist fun params => ?_
    refine Agree.advance_bind hR hlist fun next next' hnext _ _ => ?_
    refine Agree.kind_bind (hnext.like hR) ?_
    extract_lets rest rest'
    have hrest : ∀ ty d d', d.Beside R d' → Agree (rest ty) d (rest' ty) d' := by
      intro ty d d' hd
      refine Agree.expect_bind (hd.like hR) fun _ => ?_
      exact (body_parallel hR hs).agree_bind hd fun _ => .pure _
    apply Agree.ite
    · intro
      refine (typeDef_parallel hR).agree_bind hnext fun ty => ?_
      refine Agree.advance_bind hR hnext fun block block' hblock _ _ => ?_
      exact hrest ty block block' hblock
    · intro
      exact hrest _ next next' hnext

end

section

variable (hR : Node.Likeness R) (he : Parallel R e e')
include hR he

theorem assignment_parallel : Parallel (Node.Tight R) (assignment e) (assignment e') where
  left := assignment_steady he.left
  right := assignment_steady he.right
  agree c c' hs hn := by
    refine Agree.span_bind (Cursor.like_of_above hs hn.toAbove) ?_
    refine Agree.within hs hn fun first first' hfirst => ?_
    refine Agree.kind_bind (hfirst.like hR) ?_
    extract_lets afterTarget afterTarget'
    have htarget : ∀ target, Agree (afterTarget target) first (afterTarget' target) first' := by
      intro target
      refine Agree.advance_bind hR hfirst fun second second' hsecond _ _ => ?_
      refine Agree.kind_bind (hsecond.like hR) ?_
      extract_lets afterType afterType'
      have htype : ∀ ty d d', d.Beside R d' → Agree (afterType ty) d (afterType' ty) d' := by
        intro ty mark mark' hmark
        refine Agree.kind_bind (hmark.like hR) ?_
        extract_lets value value'
        have hvalue : ∀ u d d', d.Beside R d' → Agree (value u) d (value' u) d' := by
          intro u last last' hlast
          refine he.agree_bind hlast fun v => ?_
          refine Agree.tryAdvance_bind hR hlast (fun more more' hmore _ _ => ?_) ?_
          · exact Agree.of_errors rfl rfl
          · exact fun _ _ => Agree.pure _
        apply Agree.ite
        · intro
          refine Agree.advance_bind hR hmark fun last last' hlast _ _ => ?_
          exact hvalue () last last' hlast
        · exact fun _ => hvalue () mark mark' hmark
      apply Agree.ite
      · intro
        refine (typeDef_parallel hR).agree_bind hsecond fun ty => ?_
        refine Agree.advance_bind hR hsecond fun mark mark' hmark _ _ => ?_
        exact htype (some ty) mark mark' hmark
      · exact fun _ => htype none second second' hsecond
    generalize hk : first.kind = kind
    split
    · exact Agree.text_bind (hfirst.like hR) (htarget _)
    · have hmember := member_parallel hR he
      have htight := hR.tight hfirst.focus (Cursor.notMem_looseKinds hk (by decide))
      have hfound := hmember.agree first first' hfirst.source htight
      exact Agree.bind hmember.left hmember.right hfound fun _ => htarget _
    · exact Agree.of_errors rfl rfl

theorem ret_parallel : Parallel (Node.Tight R) (ret e) (ret e') where
  left := ret_steady he.left
  right := ret_steady he.right
  agree c c' hs hn := by
    refine Agree.note_bind (Cursor.like_of_above hs hn.toAbove) ?_
    refine Agree.within hs hn fun keyword keyword' hkeyword => ?_
    refine Agree.expect_bind (hkeyword.like hR) fun _ => ?_
    refine Agree.tryAdvance_bind hR hkeyword (fun value value' hvalue _ _ => ?_) ?_
    · exact he.agree_bind hvalue fun _ => .pure _
    · exact fun _ _ => Agree.pure _

end

section

variable (hR : Node.Likeness R) (hs : Parallel R s s') (he : Parallel R e e')
include hR hs he

theorem classMember_parallel (className : String) :
    Parallel R (classMember s e className) (classMember s' e' className) where
  left := classMember_steady hs.left he.left className
  right := classMember_steady hs.right he.right className
  agree c c' hsource hn := by
    refine Agree.kind_bind (Cursor.like_of_above hsource (hR.above hn)) ?_
    generalize hk : c.kind = kind
    split
    · exact Agree.pure _
    · exact Agree.pure _
    · have hfunc := funcDef_parallel hR hs (some className)
      have htight := hR.tight hn (Cursor.notMem_looseKinds hk (by decide))
      have hmethod := hfunc.agree c c' hsource htight
      exact Agree.bind hfunc.left hfunc.right hmethod fun _ => .pure _
    · have hassign := assignment_parallel hR he
      have htight := hR.tight hn (Cursor.notMem_looseKinds hk (by decide))
      have hfield := hassign.agree c c' hsource htight
      refine Agree.bind hassign.left hassign.right hfield fun a => ?_
      split
      · exact Agree.pure _
      · exact Agree.fail
    · exact Agree.unexpected

theorem classDef_parallel : Parallel (Node.Tight R) (classDef s e) (classDef s' e') where
  left := classDef_steady hs.left he.left
  right := classDef_steady hs.right he.right
  agree c c' hsource hn := by
    refine Agree.span_bind (Cursor.like_of_above hsource hn.toAbove) ?_
    refine Agree.within hsource hn fun keyword keyword' hkeyword => ?_
    refine Agree.expect_bind (hkeyword.like hR) fun _ => ?_
    refine Agree.advance_bind hR hkeyword fun name name' hname _ _ => ?_
    refine Agree.expect_bind (hname.like hR) fun _ => ?_
    refine Agree.text_bind (hname.like hR) ?_
    generalize name.text = className
    refine Agree.advance_bind hR hname fun next next' hnext _ _ => ?_
    refine Agree.kind_bind (hnext.like hR) ?_
    extract_lets members members'
    have hmembers : ∀ u d d', d.Beside R d' → Agree (members u) d (members' u) d' := by
      intro u block block' hblock
      have hmember := classMember_parallel hR hs he className
      refine Agree.expect_bind (hblock.like hR) fun _ => ?_
      refine Agree.bind (.collect hmember.left) (.collect hmember.right) ?_ fun _ => .pure _
      exact Agree.collect hR hblock.source (hR.above hblock.focus).children hmember
    apply Agree.ite
    · intro
      have hbase := baseClass_parallel hR
      have hsteady : Steady (fold (fun _ => baseClass) ()) := .fold (fun _ => hbase.left) ()
      have hbases := Agree.fold (b := ()) hR hnext.source (hR.above hnext.focus).children
        fun _ => hbase
      refine Agree.bind hsteady hsteady hbases fun _ => ?_
      refine Agree.advance_bind hR hnext fun block block' hblock _ _ => ?_
      exact hmembers () block block' hblock
    · exact fun _ => hmembers () next next' hnext

/-- With a step for every sibling, the same arms follow. -/
theorem arms_agree {n n' : Nat} {c c' : Cursor} (hc : c.Beside R c') (hn : c.rest.length < n)
    (hn' : c'.rest.length < n') (elseIf : Option (Expr × List Stmt))
    (otherwise : Option (List Stmt)) :
    Agree (arms s e n elseIf otherwise) c (arms s' e' n' elseIf otherwise) c' := by
  induction n generalizing n' c c' elseIf otherwise with
  | zero => omega
  | succ n ih =>
    obtain ⟨n', rfl⟩ := Nat.exists_eq_add_one_of_ne_zero (Nat.ne_zero_of_lt hn')
    have hbody := body_parallel hR hs
    refine Agree.tryAdvance_bind hR hc (fun keyword keyword' hkeyword hlt hlt' => ?_) ?_
    · refine Agree.kind_bind (hkeyword.like hR) ?_
      split
      · refine Agree.ite (fun _ => .of_errors rfl rfl) fun _ => ?_
        refine Agree.advance_bind hR hkeyword fun cond cond' hcond hlt₁ hlt₁' => ?_
        refine he.agree_bind hcond fun condition => ?_
        refine Agree.advance_bind hR hcond fun block block' hblock hlt₂ hlt₂' => ?_
        refine Agree.expect_bind (hblock.like hR) fun _ => ?_
        refine hbody.agree_bind hblock fun body => ?_
        exact ih hblock (by omega) (by omega) _ _
      · refine Agree.ite (fun _ => .unexpected) fun _ => ?_
        refine Agree.advance_bind hR hkeyword fun block block' hblock hlt₁ hlt₁' => ?_
        refine Agree.expect_bind (hblock.like hR) fun _ => ?_
        refine hbody.agree_bind hblock fun body => ?_
        exact ih hblock (by omega) (by omega) _ _
      · exact Agree.unexpected
    · exact fun _ _ => Agree.pure _

theorem loop_parallel : Parallel (Node.Tight R) (loop s e) (loop s' e') where
  left := loop_steady hs.left he.left
  right := loop_steady hs.right he.right
  agree c c' hsource hn := by
    refine Agree.span_bind (Cursor.like_of_above hsource hn.toAbove) ?_
    refine Agree.within hsource hn fun keyword keyword' hkeyword => ?_
    refine Agree.expect_bind (hkeyword.like hR) fun _ => ?_
    refine Agree.advance_bind hR hkeyword fun cond cond' hcond _ _ => ?_
    refine he.agree_bind hcond fun condition => ?_
    refine Agree.advance_bind hR hcond fun block block' hblock _ _ => ?_
    refine Agree.expect_bind (hblock.like hR) fun _ => ?_
    exact (body_parallel hR hs).agree_bind hblock fun _ => .pure _

theorem branch_parallel : Parallel (Node.Tight R) (branch s e) (branch s' e') where
  left := branch_steady hs.left he.left
  right := branch_steady hs.right he.right
  agree c c' hsource hn := by
    refine Agree.span_bind (Cursor.like_of_above hsource hn.toAbove) ?_
    refine Agree.get_bind ?_
    refine Agree.within_of_lt hsource hn fun keyword keyword' hkeyword hlt hlt' => ?_
    refine Agree.expect_bind (hkeyword.like hR) fun _ => ?_
    refine Agree.advance_bind hR hkeyword fun cond cond' hcond hlt₁ hlt₁' => ?_
    refine he.agree_bind hcond fun condition => ?_
    refine Agree.advance_bind hR hcond fun block block' hblock hlt₂ hlt₂' => ?_
    refine Agree.expect_bind (hblock.like hR) fun _ => ?_
    refine (body_parallel hR hs).agree_bind hblock fun body => ?_
    have harms := arms_agree hR hs he hblock (Nat.lt_trans hlt₂ (Nat.lt_trans hlt₁ hlt))
      (Nat.lt_trans hlt₂' (Nat.lt_trans hlt₁' hlt')) none none
    exact harms.bind_of_forall fun _ _ _ => .pure _

end

end

end Walk

/-! ## Whole trees -/

namespace Node

theorem heights_le {h : Nat} {ns : List Node} : heights ns ≤ h ↔ ∀ n ∈ ns, n.height ≤ h := by
  induction ns with
  | nil => simp [heights]
  | cons n ns ih => rw [heights, Nat.max_le, List.forall_mem_cons, ih]

theorem height_le_succ {n : Node} {h : Nat} :
    n.height ≤ h + 1 ↔ ∀ m ∈ n.children, m.height ≤ h := by
  obtain ⟨kind, start, stop, ns⟩ := n
  rw [height, Nat.add_le_add_iff_right]
  exact heights_le

theorem height_pos (n : Node) : 0 < n.height := by
  obtain ⟨kind, start, stop, ns⟩ := n
  exact Nat.succ_pos _

/-- The second node is the first one with trivia put in, at any depth. -/
inductive Padded : Node → Node → Prop
  | loose {kind start stop ns ns'} (hk : kind ∈ looseKinds) (hns : Interleaved Padded ns ns') :
      Padded ⟨kind, start, stop, ns⟩ ⟨kind, start, stop, ns'⟩
  | empty {kind start stop} : Padded ⟨kind, start, stop, []⟩ ⟨kind, start, stop, []⟩
  | headed {kind start stop n n' ns ns'} (hn : Padded n n') (hns : Interleaved Padded ns ns') :
      Padded ⟨kind, start, stop, n :: ns⟩ ⟨kind, start, stop, n' :: ns'⟩

/-- A padded node, with bounds on how deep the nodes nest. -/
structure PaddedTo (h h' : Nat) (n n' : Node) : Prop where
  padded : Padded n n'
  height : n.height ≤ h
  height' : n'.height ≤ h'

theorem Interleaved.mono {R S : Node → Node → Prop} {ns ns' : List Node}
    (h : Interleaved R ns ns') (hRS : ∀ n ∈ ns, ∀ n' ∈ ns', R n n' → S n n') :
    Interleaved S ns ns' := by
  induction h with
  | nil => exact .nil
  | cons head tail ih =>
    refine .cons (hRS _ List.mem_cons_self _ List.mem_cons_self head) (ih ?_)
    exact fun n hn n' hn' => hRS n (.tail _ hn) n' (.tail _ hn')
  | insert trivia tail ih => exact .insert trivia (ih fun n hn n' hn' => hRS n hn n' (.tail _ hn'))

theorem Padded.above {n n' : Node} (h : Padded n n') : Above Padded n n' := by
  cases h with
  | loose hk hns => exact ⟨rfl, rfl, rfl, hns⟩
  | empty => exact ⟨rfl, rfl, rfl, .nil⟩
  | headed hn hns => exact ⟨rfl, rfl, rfl, .cons hn hns⟩

theorem Padded.tight {n n' : Node} (h : Padded n n') (hk : n.kind ∉ looseKinds) :
    Tight Padded n n' := by
  refine ⟨h.above, ?_⟩
  cases h with
  | loose hloose hns => exact absurd hloose hk
  | empty => exact .inl ⟨rfl, rfl⟩
  | headed hn hns => exact .inr ⟨_, _, _, _, rfl, rfl, hn, hns⟩

section

variable {h h' : Nat} {n n' : Node} (hn : PaddedTo (h + 1) (h' + 1) n n')
include hn

theorem PaddedTo.of_children {ns ns' : List Node} (hns : ns ⊆ n.children)
    (hns' : ns' ⊆ n'.children) (hi : Interleaved Padded ns ns') :
    Interleaved (PaddedTo h h') ns ns' :=
  hi.mono fun _ hm _ hm' hp =>
    ⟨hp, height_le_succ.mp hn.height _ (hns hm), height_le_succ.mp hn.height' _ (hns' hm')⟩

theorem PaddedTo.above : Above (PaddedTo h h') n n' :=
  have ha := hn.padded.above
  ⟨ha.kind, ha.start, ha.stop, hn.of_children (List.Subset.refl _) (List.Subset.refl _) ha.children⟩

theorem PaddedTo.tight (hk : n.kind ∉ looseKinds) : Tight (PaddedTo h h') n n' := by
  refine ⟨hn.above, ?_⟩
  rcases (hn.padded.tight hk).heads with hnil | ⟨m, ms, m', ms', hc, hc', hm, hms⟩
  · exact .inl hnil
  · have hheight := height_le_succ.mp hn.height
    have hheight' := height_le_succ.mp hn.height'
    rw [hc] at hheight
    rw [hc'] at hheight'
    refine .inr ⟨m, ms, m', ms', hc, hc', ⟨hm, ?_, ?_⟩, hn.of_children ?_ ?_ hms⟩
    · exact hheight m List.mem_cons_self
    · exact hheight' m' List.mem_cons_self
    · rw [hc]
      exact List.subset_cons_self m ms
    · rw [hc']
      exact List.subset_cons_self m' ms'

end

theorem PaddedTo.succ {h h' : Nat} {n n' : Node} (hn : PaddedTo h h' n n') :
    PaddedTo (h + 1) (h' + 1) n n' :=
  ⟨hn.padded, Nat.le_succ_of_le hn.height, Nat.le_succ_of_le hn.height'⟩

theorem likeness_paddedTo (h h' : Nat) : Likeness (PaddedTo h h') where
  above hn := hn.succ.above
  tight hn hk := hn.succ.tight hk

end Node

namespace Walk

open Node (PaddedTo likeness_paddedTo)

/-- Walks by depth agree on padded nodes if one more level keeps their agreement. -/
theorem parallel_of_step {α : Type} {w : Nat → Walk α} (hw : ∀ h, Steady (w h))
    (hstep : ∀ h h', Parallel (PaddedTo h h') (w h) (w h') → ∀ c c' : Cursor,
      c'.source = c.source → PaddedTo (h + 1) (h' + 1) c.focus c'.focus →
        Agree (w (h + 1)) c (w (h' + 1)) c') (h h' : Nat) :
    Parallel (PaddedTo h h') (w h) (w h') := by
  induction h generalizing h' with
  | zero =>
    refine ⟨hw 0, hw h', fun c c' _ hn => ?_⟩
    exact absurd hn.height (Nat.not_le.mpr c.focus.height_pos)
  | succ h ih =>
    cases h' with
    | zero =>
      refine ⟨hw (h + 1), hw 0, fun c c' _ hn => ?_⟩
      exact absurd hn.height' (Nat.not_le.mpr c'.focus.height_pos)
    | succ h' => exact ⟨hw (h + 1), hw (h' + 1), hstep h h' (ih h')⟩

theorem expr_parallel (h h' : Nat) : Parallel (PaddedTo h h') (expr h) (expr h') := by
  refine parallel_of_step expr_steady (fun h h' he c c' hs hn => ?_) h h'
  have hR := likeness_paddedTo h h'
  have hl := Cursor.like_of_above hs hn.above
  refine Agree.kind_bind hl ?_
  generalize hk : c.kind = kind
  have ht := fun hloose => hn.tight (Cursor.notMem_looseKinds hk hloose)
  split
  · exact number_agree hl
  · exact boolean_agree hl
  · exact Agree.note_bind hl (.pure _)
  · exact Agree.note_bind hl (.text_bind hl (.pure _))
  · exact (unary_parallel hR he).agree c c' hs (ht (by decide))
  · exact (binary_parallel hR he).agree c c' hs (ht (by decide))
  · exact (parenthesized_parallel hR he).agree c c' hs (ht (by decide))
  · exact (call_parallel hR he).agree c c' hs (ht (by decide))
  · have hmember := member_parallel hR he
    refine Agree.note_bind hl (.bind hmember.left hmember.right ?_ fun _ => .pure _)
    exact hmember.agree c c' hs (ht (by decide))
  · exact Agree.unexpected

theorem stmt_parallel (h h' : Nat) : Parallel (PaddedTo h h') (stmt h) (stmt h') := by
  refine parallel_of_step stmt_steady (fun h h' hstmt c c' hs hn => ?_) h h'
  have hR := likeness_paddedTo h h'
  have he := expr_parallel h h'
  have hl := Cursor.like_of_above hs hn.above
  refine Agree.kind_bind hl ?_
  generalize hk : c.kind = kind
  have ht := fun hloose => hn.tight (Cursor.notMem_looseKinds hk hloose)
  split
  · have hassign := assignment_parallel hR he
    refine Agree.bind hassign.left hassign.right ?_ fun _ => .pure _
    exact hassign.agree c c' hs (ht (by decide))
  · exact (branch_parallel hR hstmt he).agree c c' hs (ht (by decide))
  · exact (loop_parallel hR hstmt he).agree c c' hs (ht (by decide))
  · exact Agree.span_bind hl (.pure _)
  · exact (ret_parallel hR he).agree c c' hs (ht (by decide))
  · refine Agree.bind_of_forall ?_ fun _ _ _ => .pure _
    refine Agree.within hs (ht (by decide)) fun inner inner' hinner => ?_
    exact he.agree inner inner' hinner.source hinner.focus
  · have hfunc := funcDef_parallel hR hstmt none
    refine Agree.bind hfunc.left hfunc.right ?_ fun _ => .pure _
    exact hfunc.agree c c' hs (ht (by decide))
  · have hcls := classDef_parallel hR hstmt he
    refine Agree.bind hcls.left hcls.right ?_ fun _ => .pure _
    exact hcls.agree c c' hs (ht (by decide))
  · exact Agree.unexpected

theorem scriptItem_parallel (h h' : Nat) :
    Parallel (PaddedTo h h') (scriptItem h) (scriptItem h') where
  left := scriptItem_steady h
  right := scriptItem_steady h'
  agree c c' hs hn := by
    have hR := likeness_paddedTo h h'
    have he := expr_parallel h h'
    have hstmt := stmt_parallel h h'
    refine Agree.kind_bind (Cursor.like_of_above hs hn.succ.above) ?_
    generalize hk : c.kind = kind
    have ht := fun hloose => hR.tight hn (Cursor.notMem_looseKinds hk hloose)
    split
    · have hfunc := funcDef_parallel hR hstmt none
      refine Agree.bind hfunc.left hfunc.right ?_ fun _ => .pure _
      exact hfunc.agree c c' hs (ht (by decide))
    · have hcls := classDef_parallel hR hstmt he
      refine Agree.bind hcls.left hcls.right ?_ fun _ => .pure _
      exact hcls.agree c c' hs (ht (by decide))
    · have hassign := assignment_parallel hR he
      refine Agree.bind hassign.left hassign.right ?_ fun _ => .pure _
      exact hassign.agree c c' hs (ht (by decide))
    · exact Agree.bind hstmt.left hstmt.right (hstmt.agree c c' hs hn) fun _ => .pure _

theorem program_parallel : Parallel Node.Padded program program where
  left := program_steady
  right := program_steady
  agree c c' hs hn := by
    have hto : PaddedTo c.focus.height c'.focus.height c.focus c'.focus :=
      ⟨hn, Nat.le_refl _, Nat.le_refl _⟩
    have hitem := scriptItem_parallel c.focus.height c'.focus.height
    refine Agree.get_bind ?_
    refine Agree.kind_bind (Cursor.like_of_above hs hn.above) ?_
    apply Agree.ite
    · intro
      refine Agree.bind_of_forall ?_ fun _ _ _ => .pure _
      refine Agree.collect (likeness_paddedTo _ _) hs hto.succ.above.children ?_
      refine ⟨hitem.left.map, hitem.right.map, fun item item' hsource hitems => ?_⟩
      exact Agree.bind_of_forall (hitem.agree item item' hsource hitems) fun _ _ _ => .pure _
    · exact fun _ => Agree.unexpected

end Walk

/-- Trees that differ in trivia alone read as the same program. -/
theorem Program.ofTree_of_padded {root root' : Node} (h : Node.Padded root root')
    (source : String) (p : Program) :
    Program.ofTree ⟨source, root⟩ = .ok p ↔ Program.ofTree ⟨source, root'⟩ = .ok p := by
  rw [Program.ofTree, Program.ofTree, Cursor.parse_eq, Cursor.parse_eq]
  exact Walk.program_parallel.reading h source p

/-- A comment behind `return` and a line end behind the statement change nothing. -/
theorem Program.ofTree_return_comment :
    Program.ofTree ⟨"return", ⟨"Script", 0, 6, [
        ⟨"ReturnStatement", 0, 6, [⟨"return", 0, 6, []⟩, ⟨"Comment", 6, 6, []⟩]⟩,
        ⟨"newline", 6, 6, []⟩]⟩⟩ =
      .ok { vars := [], funcs := [], classes := [],
            stmts := [.ret ⟨1, 1, 6⟩ (.literal ⟨⟨1, 1, 6⟩, none⟩ .none)], ty := none } := by
  have hpadded : Node.Padded
      ⟨"Script", 0, 6, [⟨"ReturnStatement", 0, 6, [⟨"return", 0, 6, []⟩]⟩]⟩
      ⟨"Script", 0, 6, [
        ⟨"ReturnStatement", 0, 6, [⟨"return", 0, 6, []⟩, ⟨"Comment", 6, 6, []⟩]⟩,
        ⟨"newline", 6, 6, []⟩]⟩ := by
    refine .loose (by decide) (.cons (.headed .empty ?_) (.insert (by decide) .nil))
    exact .insert (by decide) .nil
  exact (ofTree_of_padded hpadded "return" _).mp rfl

end TypedScript
