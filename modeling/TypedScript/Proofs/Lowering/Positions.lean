import TypedScript.Proofs.Lowering.Inversion
import TypedScript.Proofs.Typing.Elaborated

/-! # Where constructions stand

The constructions of a body, each with its position, and the code that it becomes there. The code
stands in the code of the body, and what it refers to is known. -/

namespace TypedScript

namespace Expr

/-- What is used of an expression whose value is stored under a name: nothing of a construction,
which is stored in its own way. -/
def stored : Expr → List Expr
  | construct .. => []
  | e => [e]

theorem mem_stored {e value : Expr} (h : e ∈ value.stored) :
    e = value ∧ ∀ n c, value ≠ construct n c := by
  cases value with
  | construct n c => cases h
  | _ => exact ⟨List.mem_singleton.mp h, by simp⟩

end Expr

namespace Stmt

/-- The statements in the bodies of a statement. -/
def inner : Stmt → List Stmt
  | branch _ _ body elseIf otherwise =>
    body ++ (elseIf.map (·.2)).getD [] ++ otherwise.getD []
  | loop _ _ body => body
  | _ => []

inductive Within (st : Stmt) : Stmt → Prop
  | refl : Within st st
  | inner {outer st'} (hin : st' ∈ outer.inner) (h : Within st st') : Within st outer

def values : Stmt → List Expr
  | assign _ (.name _) value => value.stored
  | assign _ (.field object _) value => [object, value]
  | declare d => d.value.stored
  | branch _ condition _ elseIf _ => condition :: (elseIf.map (·.1)).toList
  | loop _ condition _ => [condition]
  | ret _ value | expr value => [value]
  | pass _ | func _ | cls _ => []

end Stmt

/-- Where a construction stands: it is stored under a name, or its value is used in another way. -/
inductive Position
  | stored (x : String)
  | value

/-- The statement constructs an object of the class at the position. -/
inductive Stmt.Places (c : String) : Position → Stmt → Prop
  | assigned {span x n} : Places c (.stored x) (.assign span (.name x) (.construct n c))
  | declared {d n} (h : d.value = .construct n c) : Places c (.stored d.name) (.declare d)
  | used {st e n} (he : e ∈ st.values) (h : .construct n c ∈ e.parts) : Places c .value st

/-- The code of a construction. Only an object that is stored under a name is handed to the
constructor. -/
def Position.code (s : Site) (d : ClassDef) : Position → List Instr
  | .stored x => (ClassLayout.ofClass d).allocate ++
      [s.set x, s.get x, .call (Symbol.method d.name constructorName), s.set x]
  | .value => (ClassLayout.ofClass d).allocate

def Instr.bodies : Instr → List (List Instr)
  | .ite body otherwise => [body, otherwise]
  | .block body | .loop body => [body]
  | _ => []

/-- A piece stands in the code or in one of the bodies inside it. -/
inductive Holds (piece : List Instr) : List Instr → Prop
  | here {code} (h : piece <:+: code) : Holds piece code
  | inside {code i body} (hi : i ∈ code) (hb : body ∈ i.bodies) (h : Holds piece body) :
      Holds piece code

theorem Holds.mono {piece code code' : List Instr} (h : Holds piece code) (hc : code <:+: code') :
    Holds piece code' := by
  cases h with
  | here h => exact .here (h.trans hc)
  | inside hi hb h => exact .inside (hc.subset hi) hb h

theorem Holds.of_infix {piece piece' code : List Instr} (h : Holds piece code)
    (hp : piece' <:+: piece) : Holds piece' code := by
  induction h with
  | here h => exact .here (hp.trans h)
  | inside hi hb _ ih => exact .inside hi hb ih

/-! ## Where the code stands -/

section

variable {s : Site} {q : Expr}

namespace Expr

theorem lowerArgs_infix {args : List Expr} {code : List Instr} {e : Expr} (he : e ∈ args)
    (hc : lowerArgs s args = .ok code) : ∃ c, e.lowerValue s = .ok c ∧ c <:+: code := by
  induction args generalizing code with
  | nil => cases he
  | cons a rest ih =>
    obtain ⟨c, cs, ha, hr, rfl⟩ := lowerArgs_cons.mp hc
    rcases List.mem_cons.mp he with rfl | he
    · exact ⟨c, ha, (List.prefix_append c cs).isInfix⟩
    · obtain ⟨c', hc', hin⟩ := ih he hr
      exact ⟨c', hc', hin.trans (List.suffix_append c cs).isInfix⟩

/-- The code of an expression holds the code of each of its parts. -/
theorem lowerValue_infix {e : Expr} {code : List Instr} (hq : q ∈ e.parts)
    (hc : e.lowerValue s = .ok code) : ∃ c, q.lowerValue s = .ok c ∧ c <:+: code := by
  have hself (e : Expr) {code : List Instr} (hc : e.lowerValue s = .ok code) :
      ∃ c, e.lowerValue s = .ok c ∧ c <:+: code := ⟨code, hc, List.infix_rfl⟩
  have hargs {args : List Expr} {code : List Instr} (hq : q ∈ partsList args)
      (ih : ∀ a ∈ args, ∀ {code}, q ∈ a.parts → a.lowerValue s = .ok code →
        ∃ c, q.lowerValue s = .ok c ∧ c <:+: code) (hc : lowerArgs s args = .ok code) :
      ∃ c, q.lowerValue s = .ok c ∧ c <:+: code := by
    obtain ⟨a, ha, hq⟩ := mem_partsList.mp hq
    obtain ⟨ca, hca, hin⟩ := lowerArgs_infix ha hc
    obtain ⟨c, hc, hin'⟩ := ih a ha hq hca
    exact ⟨c, hc, hin'.trans hin⟩
  induction e generalizing code with
  | literal n l =>
    obtain rfl := List.mem_singleton.mp hq
    exact hself _ hc
  | name n x =>
    obtain rfl := List.mem_singleton.mp hq
    exact hself _ hc
  | construct n c =>
    obtain rfl := List.mem_singleton.mp hq
    exact hself _ hc
  | unary n op e ih =>
    rw [parts, List.mem_cons] at hq
    rcases hq with rfl | hq
    · exact hself _ hc
    · cases op with
      | not =>
        obtain ⟨ce, he, rfl⟩ := lowerValue_not.mp hc
        obtain ⟨c, hc, hin⟩ := ih hq he
        exact ⟨c, hc, hin.trans (List.prefix_append ce _).isInfix⟩
      | neg =>
        obtain ⟨ce, he, rfl⟩ := lowerValue_neg.mp hc
        obtain ⟨c, hc, hin⟩ := ih hq he
        exact ⟨c, hc, hin.trans (List.infix_append _ ce _)⟩
  | binary n op l r ihl ihr =>
    rcases List.mem_cons.mp hq with rfl | hq
    · exact hself _ hc
    · obtain ⟨cl, cr, hl, hr, rfl⟩ := lowerValue_binary.mp hc
      rcases List.mem_append.mp hq with hq | hq
      · obtain ⟨c, hc, hin⟩ := ihl hq hl
        rw [List.append_assoc]
        exact ⟨c, hc, hin.trans (List.prefix_append cl _).isInfix⟩
      · obtain ⟨c, hc, hin⟩ := ihr hq hr
        exact ⟨c, hc, hin.trans (List.infix_append cl cr _)⟩
  | call n callee args ih =>
    rcases List.mem_cons.mp hq with rfl | hq
    · exact hself _ hc
    · obtain ⟨cs, hcs, rfl⟩ := lowerValue_call.mp hc
      obtain ⟨c, hc, hin⟩ := hargs hq ih hcs
      exact ⟨c, hc, hin.trans (List.prefix_append cs _).isInfix⟩
  | builtin1 n fn e ih =>
    rcases List.mem_cons.mp hq with rfl | hq
    · exact hself _ hc
    · obtain ⟨ce, he, rfl⟩ := lowerValue_builtin1.mp hc
      obtain ⟨c, hc, hin⟩ := ih hq he
      exact ⟨c, hc, hin.trans (List.prefix_append ce _).isInfix⟩
  | builtin2 n fn l r ihl ihr =>
    rcases List.mem_cons.mp hq with rfl | hq
    · exact hself _ hc
    · obtain ⟨cl, cr, hl, hr, rfl⟩ := lowerValue_builtin2.mp hc
      rcases List.mem_append.mp hq with hq | hq
      · obtain ⟨c, hc, hin⟩ := ihl hq hl
        rw [List.append_assoc]
        exact ⟨c, hc, hin.trans (List.prefix_append cl _).isInfix⟩
      · obtain ⟨c, hc, hin⟩ := ihr hq hr
        exact ⟨c, hc, hin.trans (List.infix_append cl cr _)⟩
  | field n object f ih =>
    rcases List.mem_cons.mp hq with rfl | hq
    · exact hself _ hc
    · obtain ⟨-, slot, co, -, -, ho, rfl⟩ := lowerValue_field.mp hc
      obtain ⟨c, hc, hin⟩ := ih hq ho
      rw [fieldAddress, List.append_assoc]
      exact ⟨c, hc, hin.trans (List.prefix_append co _).isInfix⟩
  | method n object m args iho iha =>
    rcases List.mem_cons.mp hq with rfl | hq
    · exact hself _ hc
    · obtain ⟨-, co, cs, -, ho, hcs, rfl⟩ := lowerValue_method.mp hc
      rcases List.mem_append.mp hq with hq | hq
      · obtain ⟨c, hc, hin⟩ := iho hq ho
        rw [List.append_assoc]
        exact ⟨c, hc, hin.trans (List.prefix_append co _).isInfix⟩
      · obtain ⟨c, hc, hin⟩ := hargs hq iha hcs
        exact ⟨c, hc, hin.trans (List.infix_append co cs _)⟩
  | print n args ih =>
    rcases List.mem_cons.mp hq with rfl | hq
    · exact hself _ hc
    · rcases args with _ | ⟨e, _ | ⟨e', rest⟩⟩
      · cases hq
      · obtain ⟨-, -, ce, -, -, he, rfl⟩ := lowerValue_print.mp hc
        have hq : q ∈ e.parts := by simpa [partsList] using hq
        obtain ⟨c, hc, hin⟩ := ih e (List.mem_singleton_self e) hq he
        exact ⟨c, hc, hin.trans (List.prefix_append ce _).isInfix⟩
      · simp [lowerValue, lower, bind_eq_ok] at hc

end Expr

namespace Stmt

variable {st : Stmt} {code : List Instr}

theorem lowerBody_infix {body : List Stmt} (hst : st ∈ body) (hc : lowerBody s body = .ok code) :
    ∃ c, st.lower s = .ok c ∧ c <:+: code := by
  induction body generalizing code with
  | nil => cases hst
  | cons first rest ih =>
    obtain ⟨c, cs, hf, hr, rfl⟩ := lowerBody_cons.mp hc
    rcases List.mem_cons.mp hst with rfl | hst
    · exact ⟨c, hf, (List.prefix_append c cs).isInfix⟩
    · obtain ⟨c', hc', hin⟩ := ih hst hr
      exact ⟨c', hc', hin.trans (List.suffix_append c cs).isInfix⟩

/-- A statement in a body of another one has its code in a body of the code. -/
theorem lower_inner {outer : Stmt} (hin : st ∈ outer.inner) (hc : outer.lower s = .ok code) :
    ∃ c, st.lower s = .ok c ∧ ∀ {piece}, Holds piece c → Holds piece code := by
  have hbody {body : List Stmt} {cb : List Instr} (hst : st ∈ body)
      (hcb : lowerBody s body = .ok cb) (hcode : ∀ {piece}, Holds piece cb → Holds piece code) :
      ∃ c, st.lower s = .ok c ∧ ∀ {piece}, Holds piece c → Holds piece code := by
    obtain ⟨c, hc, hin⟩ := lowerBody_infix hst hcb
    exact ⟨c, hc, fun hp => hcode (hp.mono hin)⟩
  cases outer with
  | branch span condition body elseIf otherwise =>
    obtain ⟨cb, co, ce, cc, hcb, hco, hce, -, rfl⟩ := lower_branch.mp hc
    have hite {piece : List Instr} {b : List Instr} (hb : b ∈ [cb, ce]) (hp : Holds piece b) :
        Holds piece (cc ++ [.ite cb ce]) :=
      .inside (List.mem_append_right cc (List.mem_singleton_self _)) hb hp
    simp only [inner, List.mem_append] at hin
    rcases hin with (hin | hin) | hin
    · exact hbody hin hcb (hite List.mem_cons_self)
    · cases elseIf with
      | none => cases hin
      | some arm =>
        obtain ⟨cc', cb', -, hcb', rfl⟩ := lowerElseIf_some.mp hce
        refine hbody hin hcb' fun hp => hite (List.mem_cons_of_mem _ List.mem_cons_self) ?_
        exact .inside (List.mem_append_right cc' (List.mem_singleton_self _)) List.mem_cons_self hp
    · cases otherwise with
      | none => cases hin
      | some last =>
        refine hbody hin hco fun hp => hite (List.mem_cons_of_mem _ List.mem_cons_self) ?_
        cases elseIf with
        | none =>
          obtain rfl : co = ce := Except.ok.inj hce
          exact hp
        | some arm =>
          obtain ⟨cc', cb', -, -, rfl⟩ := lowerElseIf_some.mp hce
          exact .inside (List.mem_append_right cc' (List.mem_singleton_self _))
            (List.mem_cons_of_mem _ List.mem_cons_self) hp
  | loop span condition body =>
    obtain ⟨cc, cb, -, hcb, rfl⟩ := lower_loop.mp hc
    refine hbody hin hcb fun hp => .inside List.mem_cons_self List.mem_cons_self ?_
    exact .inside List.mem_cons_self List.mem_cons_self (hp.mono (List.infix_append _ cb _))
  | _ => cases hin

/-- So does a statement at any depth. -/
theorem Within.lower {outer : Stmt} (h : st.Within outer) (hc : outer.lower s = .ok code) :
    ∃ c, st.lower s = .ok c ∧ ∀ {piece}, Holds piece c → Holds piece code := by
  induction h generalizing code with
  | refl => exact ⟨code, hc, id⟩
  | inner hin h ih =>
    obtain ⟨c', hc', hmono'⟩ := lower_inner hin hc
    obtain ⟨c, hc, hmono⟩ := ih hc'
    exact ⟨c, hc, fun hp => hmono' (hmono hp)⟩

/-- The code of an expression whose value a statement uses stands in the code of the statement. -/
theorem lower_values {e : Expr} (he : e ∈ st.values) (hn : e.isNone = false)
    (hc : st.lower s = .ok code) : ∃ c, e.lowerValue s = .ok c ∧ Holds c code := by
  have hname {x : String} {value : Expr} (he : e ∈ value.stored)
      (hc : s.storeName x value = .ok code) : ∃ c, e.lowerValue s = .ok c ∧ Holds c code := by
    obtain ⟨rfl, hk⟩ := Expr.mem_stored he
    obtain ⟨c, hcv, rfl⟩ := (Site.storeName_value hn hk).mp hc
    exact ⟨c, hcv, .here (List.prefix_append c _).isInfix⟩
  cases st with
  | assign span target value =>
    cases target with
    | name x => exact hname he hc
    | field object f =>
      obtain ⟨-, slot, co, cv, -, -, ho, hv, rfl⟩ := Target.lower_field.mp hc
      simp only [values, List.mem_cons, List.not_mem_nil, or_false] at he
      rcases he with rfl | rfl
      · rw [Expr.fieldAddress, List.append_assoc, List.append_assoc]
        exact ⟨co, ho, .here (List.prefix_append co _).isInfix⟩
      · exact ⟨cv, hv, .here (List.infix_append _ cv _)⟩
  | declare d => exact hname he hc
  | branch span condition body elseIf otherwise =>
    obtain ⟨cb, co, ce, cc, -, -, hce, hcc, rfl⟩ := lower_branch.mp hc
    rcases List.mem_cons.mp he with rfl | he
    · exact ⟨cc, hcc, .here (List.prefix_append cc _).isInfix⟩
    · cases elseIf with
      | none => cases he
      | some arm =>
        obtain ⟨cc', cb', hcc', -, rfl⟩ := lowerElseIf_some.mp hce
        obtain rfl := List.mem_singleton.mp he
        refine ⟨cc', hcc', .inside (List.mem_append_right cc (List.mem_singleton_self _))
          (List.mem_cons_of_mem _ List.mem_cons_self) ?_⟩
        exact .here (List.prefix_append cc' _).isInfix
  | loop span condition body =>
    obtain ⟨cc, cb, hcc, -, rfl⟩ := lower_loop.mp hc
    obtain rfl := List.mem_singleton.mp he
    refine ⟨cc, hcc, .inside List.mem_cons_self List.mem_cons_self
      (.inside List.mem_cons_self List.mem_cons_self (.here ?_))⟩
    rw [List.append_assoc, List.append_assoc]
    exact (List.prefix_append cc _).isInfix
  | ret span value =>
    obtain ⟨c, hcv, rfl⟩ := lower_ret.mp hc
    obtain rfl := List.mem_singleton.mp he
    exact ⟨c, hcv, .here (List.prefix_append c _).isInfix⟩
  | expr value =>
    obtain ⟨c, hcv, rfl⟩ := lower_expr.mp hc
    obtain rfl := List.mem_singleton.mp he
    exact ⟨c, hcv, .here (List.prefix_append c _).isInfix⟩
  | pass | func | cls => cases he

end Stmt

theorem Expr.isNone_of_construct_mem {e : Expr} {n : Note} {c : String}
    (h : .construct n c ∈ e.parts) : e.isNone = false := by
  cases e with
  | literal n l => cases List.mem_singleton.mp h
  | name n x => cases List.mem_singleton.mp h
  | _ => rfl

/-- The code of a construction stands in the code of the statement that it is in. -/
theorem Stmt.Places.holds {st : Stmt} {d : ClassDef} {pos : Position} {code : List Instr}
    (h : st.Places d.name pos) (hl : s.layouts.find? d.name = some (ClassLayout.ofClass d))
    (hk : (ClassLayout.ofClass d).hasConstructor = true) (hc : st.lower s = .ok code) :
    Holds (pos.code s d) code := by
  have hstored {x : String} {n : Note} {code : List Instr}
      (hc : s.storeName x (.construct n d.name) = .ok code) :
      Position.code s d (.stored x) = code := by
    obtain ⟨l, hl', rfl⟩ := Site.storeName_construct.mp hc
    obtain rfl : ClassLayout.ofClass d = l := Option.some.inj (hl.symm.trans hl')
    simp [Position.code, hk]
  cases h with
  | assigned => exact .here (hstored hc ▸ List.infix_rfl)
  | @declared v n hv =>
    have hc : s.storeName v.name v.value = .ok code := hc
    rw [hv] at hc
    exact .here (hstored hc ▸ List.infix_rfl)
  | used he hin =>
    obtain ⟨ce, hce, hholds⟩ := Stmt.lower_values he (Expr.isNone_of_construct_mem hin) hc
    obtain ⟨c, hcv, hinfix⟩ := Expr.lowerValue_infix hin hce
    obtain ⟨l, hl', rfl⟩ := Expr.lowerValue_construct.mp hcv
    obtain rfl : ClassLayout.ofClass d = l := Option.some.inj (hl.symm.trans hl')
    exact hholds.of_infix hinfix

end

/-! ## What is known of a construction -/

section

variable {v : Vocabulary} {st : Stmt}

theorem Expr.Elaborated.of_mem_parts {e q : Expr} (h : e.Elaborated v) (hq : q ∈ e.parts) :
    q.Elaborated v := by
  induction h with
  | literal =>
    obtain rfl := List.mem_singleton.mp hq
    exact .literal
  | none =>
    obtain rfl := List.mem_singleton.mp hq
    exact .none
  | self known =>
    obtain rfl := List.mem_singleton.mp hq
    exact .self known
  | plain known =>
    obtain rfl := List.mem_singleton.mp hq
    exact .plain known
  | construct known =>
    obtain rfl := List.mem_singleton.mp hq
    exact .construct known
  | unary he ih =>
    rcases List.mem_cons.mp hq with rfl | hq
    · exact .unary he
    · exact ih hq
  | builtin1 he ih =>
    rcases List.mem_cons.mp hq with rfl | hq
    · exact .builtin1 he
    · exact ih hq
  | field hty known ho ih =>
    rcases List.mem_cons.mp hq with rfl | hq
    · exact .field hty known ho
    · exact ih hq
  | binary hl hr ihl ihr =>
    rcases List.mem_cons.mp hq with rfl | hq
    · exact .binary hl hr
    · exact (List.mem_append.mp hq).elim ihl ihr
  | builtin2 hl hr ihl ihr =>
    rcases List.mem_cons.mp hq with rfl | hq
    · exact .builtin2 hl hr
    · exact (List.mem_append.mp hq).elim ihl ihr
  | call known hargs iha =>
    rcases List.mem_cons.mp hq with rfl | hq
    · exact .call known hargs
    · obtain ⟨a, ha, hq⟩ := mem_partsList.mp hq
      exact iha a ha hq
  | method hty known ho hargs iho iha =>
    rcases List.mem_cons.mp hq with rfl | hq
    · exact .method hty known ho hargs
    · rcases List.mem_append.mp hq with hq | hq
      · exact iho hq
      · obtain ⟨a, ha, hq⟩ := mem_partsList.mp hq
        exact iha a ha hq
  | print hty he ih =>
    rcases List.mem_cons.mp hq with rfl | hq
    · exact .print hty he
    · obtain ⟨a, ha, hqa⟩ := mem_partsList.mp hq
      obtain rfl := List.mem_singleton.mp ha
      exact ih hqa

theorem Stmt.Elaborated.of_mem_inner {outer : Stmt} (h : outer.Elaborated v)
    (hin : st ∈ outer.inner) : st.Elaborated v := by
  cases h with
  | @branch _ _ _ elseIf otherwise hc hb hec heb ho =>
    simp only [Stmt.inner, List.mem_append] at hin
    rcases hin with (hin | hin) | hin
    · exact hb st hin
    · rcases Option.eq_none_or_eq_some elseIf with rfl | ⟨arm, rfl⟩
      · cases hin
      · exact heb arm.1 arm.2 rfl st hin
    · rcases Option.eq_none_or_eq_some otherwise with rfl | ⟨last, rfl⟩
      · cases hin
      · exact ho last rfl st hin
  | loop hc hb => exact hb st hin
  | _ => cases hin

theorem Stmt.Elaborated.of_within {outer : Stmt} (h : outer.Elaborated v)
    (hw : st.Within outer) : st.Elaborated v := by
  induction hw with
  | refl => exact h
  | inner hin hw ih => exact ih (h.of_mem_inner hin)

theorem Stmt.Elaborated.of_mem_values {e : Expr} (h : st.Elaborated v) (he : e ∈ st.values) :
    e.Elaborated v := by
  cases h with
  | assign ht hv =>
    cases ht with
    | name known =>
      obtain ⟨rfl, -⟩ := Expr.mem_stored he
      exact hv
    | field hty known ho =>
      simp only [Stmt.values, List.mem_cons, List.not_mem_nil, or_false] at he
      rcases he with rfl | rfl
      · exact ho
      · exact hv
  | declare known hv =>
    obtain ⟨rfl, -⟩ := Expr.mem_stored he
    exact hv
  | @branch _ _ _ elseIf _ hc hb hec heb ho =>
    rcases List.mem_cons.mp he with rfl | he
    · exact hc
    · rcases Option.eq_none_or_eq_some elseIf with rfl | ⟨arm, rfl⟩
      · cases he
      · obtain rfl := List.mem_singleton.mp he
        exact hec arm.1 arm.2 rfl
  | loop hc hb =>
    obtain rfl := List.mem_singleton.mp he
    exact hc
  | ret inside hv =>
    obtain rfl := List.mem_singleton.mp he
    exact hv
  | expr hv =>
    obtain rfl := List.mem_singleton.mp he
    exact hv
  | pass => cases he

/-- The class of a construction is known, and so is the variable that it is stored in. -/
theorem Stmt.Places.known {c : String} {pos : Position} (hp : st.Places c pos)
    (h : st.Elaborated v) : v.Constructs c ∧ ∀ x, pos = .stored x → v.HasVar x := by
  cases hp with
  | assigned =>
    cases h with
    | assign ht hv =>
      cases ht with
      | name known =>
        cases hv with
        | construct hc => exact ⟨hc, by rintro _ ⟨⟩; exact known⟩
  | declared hd =>
    cases h with
    | declare known hv =>
      rw [hd] at hv
      cases hv with
      | construct hc => exact ⟨hc, by rintro _ ⟨⟩; exact known⟩
  | used he hin =>
    cases (h.of_mem_values he).of_mem_parts hin with
    | construct hc => exact ⟨hc, by rintro _ ⟨⟩⟩

end

end TypedScript
