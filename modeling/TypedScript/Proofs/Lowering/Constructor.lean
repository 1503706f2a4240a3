import TypedScript.Proofs.Lowering.Positions
import TypedScript.Proofs.Machine.Handover

/-! # What a constructor hands back

A constructor that does not store its receiver, and that returns nothing but the receiver or `None`,
becomes a function that hands back the object it is called on. -/

namespace TypedScript

def Expr.isSelf : Expr → Bool
  | .name _ .self => true
  | _ => false

theorem Expr.isSelf_iff {e : Expr} : e.isSelf = true ↔ ∃ n, e = .name n .self := by
  constructor
  · intro h
    cases e with
    | name n x =>
      cases x with
      | self => exact ⟨n, rfl⟩
      | plain | none => cases h
    | _ => cases h
  · rintro ⟨n, rfl⟩
    rfl

/-- The statement does not store the receiver, and what it returns, if it returns, is the receiver
or, where that is allowed, `None`. -/
def Stmt.KeepsReceiver (zero : Bool) : Stmt → Prop
  | .assign _ (.name x) _ => x ≠ receiverName
  | .declare d => d.name ≠ receiverName
  | .ret _ value => value.isSelf = true ∨ zero = true ∧ value.isNone = true
  | _ => True

section

variable {s : Site} {code : List Instr} {zero : Bool} {n : Nat}

theorem Site.get_handsBack (s : Site) (x : String) :
    HandsBack zero n .any [s.get x] .any := by
  rw [Site.get]
  split
  · exact .single rfl rfl
  · exact .single rfl rfl

theorem Site.set_handsBack (s : Site) {x : String} (hx : x ≠ receiverName) :
    HandsBack zero n .any [s.set x] .any := by
  rw [Site.set]
  split
  · exact .single rfl (beq_false_of_ne hx)
  · exact .single rfl rfl

theorem ClassLayout.allocate_handsBack (l : ClassLayout) :
    HandsBack zero n .any l.allocate .any := by
  have hget {x : String} : HandsOver zero n .any (.globalGet x) .any := .plain rfl rfl
  have hconst {w : Word} : HandsOver zero n .any (.const w) .any := .plain rfl rfl
  have hadd : HandsOver zero n .any (.numeric .add) .any := .plain rfl rfl
  rw [ClassLayout.allocate]
  refine .append ?_ (.cons hget (.cons hget (.cons hconst (.cons hadd (.single rfl rfl)))))
  induction l.fields with
  | nil => exact .nil
  | cons f rest ih =>
    exact .append (.cons hget (.cons hconst (.cons hadd (.cons hconst (.single rfl rfl))))) ih

namespace Expr

theorem lowerArgs_handsBack {args : List Expr}
    (ih : ∀ a ∈ args, ∀ {c}, a.lowerValue s = .ok c → HandsBack zero n .any c .any)
    (hc : lowerArgs s args = .ok code) : HandsBack zero n .any code .any := by
  induction args generalizing code with
  | nil =>
    obtain rfl := lowerArgs_nil.mp hc
    exact .nil
  | cons a rest ihr =>
    obtain ⟨c, cs, ha, hr, rfl⟩ := lowerArgs_cons.mp hc
    exact (ih a List.mem_cons_self ha).append
      (ihr (fun b hb => ih b (List.mem_cons_of_mem a hb)) hr)

theorem fieldAddress_handsBack (f : FieldSlot) (h : HandsBack zero n .any code .any) :
    HandsBack zero n .any (fieldAddress code f) .any :=
  h.append (.cons (.plain rfl rfl) (.single rfl rfl))

theorem lowerValue_handsBack {e : Expr} (hc : e.lowerValue s = .ok code) :
    HandsBack zero n .any code .any := by
  induction e generalizing code with
  | literal n l =>
    obtain rfl := lowerValue_literal.mp hc
    exact .single rfl rfl
  | name n x =>
    cases x with
    | none =>
      obtain rfl := lowerValue_none.mp hc
      exact .single rfl rfl
    | self =>
      obtain rfl := lowerValue_self.mp hc
      exact s.get_handsBack _
    | plain x =>
      obtain rfl := lowerValue_plain.mp hc
      exact s.get_handsBack x
  | unary n op e ih =>
    cases op with
    | not =>
      obtain ⟨ce, he, rfl⟩ := lowerValue_not.mp hc
      exact (ih he).append (.single rfl rfl)
    | neg =>
      obtain ⟨ce, he, rfl⟩ := lowerValue_neg.mp hc
      exact .append (.append (.single rfl rfl) (ih he)) (.single rfl rfl)
  | binary n op l r ihl ihr =>
    obtain ⟨cl, cr, hl, hr, rfl⟩ := lowerValue_binary.mp hc
    exact ((ihl hl).append (ihr hr)).append (.single rfl rfl)
  | call n callee args ih =>
    obtain ⟨cs, hcs, rfl⟩ := lowerValue_call.mp hc
    exact (lowerArgs_handsBack ih hcs).append (.single rfl rfl)
  | builtin1 n fn e ih =>
    obtain ⟨ce, he, rfl⟩ := lowerValue_builtin1.mp hc
    exact (ih he).append (.single rfl rfl)
  | builtin2 n fn l r ihl ihr =>
    obtain ⟨cl, cr, hl, hr, rfl⟩ := lowerValue_builtin2.mp hc
    exact ((ihl hl).append (ihr hr)).append (.single rfl rfl)
  | construct n c =>
    obtain ⟨l, -, rfl⟩ := lowerValue_construct.mp hc
    exact l.allocate_handsBack
  | field n object f ih =>
    obtain ⟨-, slot, co, -, -, ho, rfl⟩ := lowerValue_field.mp hc
    exact (fieldAddress_handsBack slot (ih ho)).append (.single rfl rfl)
  | method n object m args iho iha =>
    obtain ⟨-, co, cs, -, ho, hcs, rfl⟩ := lowerValue_method.mp hc
    exact ((iho ho).append (lowerArgs_handsBack iha hcs)).append (.single rfl rfl)
  | print n args ih =>
    rcases args with _ | ⟨e, _ | ⟨e', rest⟩⟩
    · simp [lowerValue, lower, bind_eq_ok] at hc
    · obtain ⟨-, -, ce, -, -, he, rfl⟩ := lowerValue_print.mp hc
      exact (ih e (List.mem_singleton_self e) he).append (.single rfl rfl)
    · simp [lowerValue, lower, bind_eq_ok] at hc

end Expr

theorem Site.storeName_handsBack {x : String} {value : Expr} (hx : x ≠ receiverName)
    (hc : s.storeName x value = .ok code) : HandsBack zero n .any code .any := by
  by_cases hn : value.isNone = true
  · rw [Site.storeName_none hn] at hc
    cases hc
    exact .nil
  by_cases hk : ∃ n c, value = .construct n c
  · obtain ⟨n, c, rfl⟩ := hk
    obtain ⟨l, -, rfl⟩ := Site.storeName_construct.mp hc
    refine (l.allocate_handsBack.append (s.set_handsBack hx)).append ?_
    split
    · exact (s.get_handsBack x).append (.cons (.plain rfl rfl) (s.set_handsBack hx))
    · exact .nil
  · have hk : ∀ n c, value ≠ .construct n c := fun n c heq => hk ⟨n, c, heq⟩
    obtain ⟨c, hcv, rfl⟩ := (Site.storeName_value (by simpa using hn) hk).mp hc
    exact (Expr.lowerValue_handsBack hcv).append (s.set_handsBack hx)

namespace Stmt

theorem lowerBody_handsBack {body : List Stmt}
    (ih : ∀ st ∈ body, ∀ {c}, st.lower s = .ok c → HandsBack zero n .any c .any)
    (hc : lowerBody s body = .ok code) : HandsBack zero n .any code .any := by
  induction body generalizing code with
  | nil =>
    obtain rfl := lowerBody_nil.mp hc
    exact .nil
  | cons st rest ihr =>
    obtain ⟨c, cs, hst, hr, rfl⟩ := lowerBody_cons.mp hc
    exact (ih st List.mem_cons_self hst).append
      (ihr (fun st' h => ih st' (List.mem_cons_of_mem st h)) hr)

/-- The code of a statement hands the receiver back if the statement and those inside it do. -/
theorem lower_handsBack {st : Stmt} (hl : s.locals.contains receiverName = true)
    (h : ∀ st' : Stmt, st'.Within st → st'.KeepsReceiver zero) (hc : st.lower s = .ok code) :
    HandsBack zero n .any code .any := by
  induction st generalizing n code with
  | assign span target value =>
    cases target with
    | name x => exact Site.storeName_handsBack (h _ .refl) hc
    | field object f =>
      obtain ⟨-, slot, co, cv, -, -, ho, hv, rfl⟩ := Target.lower_field.mp hc
      have haddress : HandsBack zero n .any (Expr.fieldAddress co slot) .any :=
        Expr.fieldAddress_handsBack slot (Expr.lowerValue_handsBack ho)
      exact (haddress.append (Expr.lowerValue_handsBack hv)).append (.single rfl rfl)
  | declare d => exact Site.storeName_handsBack (h _ .refl) hc
  | branch span condition body elseIf otherwise ihb ihe iho =>
    obtain ⟨cb, co, ce, cc, hcb, hco, hce, hcc, rfl⟩ := lower_branch.mp hc
    have hbody : HandsBack zero (n + 1) .any cb .any :=
      lowerBody_handsBack (fun st hst _ hc => ihb st hst
        (fun st' hw => h st' (.inner (by simp [inner, hst]) hw)) hc) hcb
    have hother (n : Nat) : HandsBack zero n .any co .any := by
      cases otherwise with
      | none =>
        cases hco
        exact .nil
      | some last =>
        exact lowerBody_handsBack (fun st hst _ hc => iho last rfl st hst
          (fun st' hw => h st' (.inner (by simp [inner, hst]) hw)) hc) hco
    have helse : HandsBack zero (n + 1) .any ce .any := by
      cases elseIf with
      | none =>
        cases hce
        exact hother (n + 1)
      | some arm =>
        obtain ⟨cc', cb', hcc', hcb', rfl⟩ := lowerElseIf_some.mp hce
        have harm : HandsBack zero (n + 2) .any cb' .any :=
          lowerBody_handsBack (fun st hst _ hc => ihe arm.1 arm.2 rfl st hst
            (fun st' hw => h st' (.inner (by simp [inner, hst]) hw)) hc) hcb'
        exact (Expr.lowerValue_handsBack hcc').append (.cons (.ite harm (hother _)) .nil)
    exact (Expr.lowerValue_handsBack hcc).append (.cons (.ite hbody helse) .nil)
  | loop span condition body ih =>
    obtain ⟨cc, cb, hcc, hcb, rfl⟩ := lower_loop.mp hc
    have hbody : HandsBack zero (n + 2) .any cb .any :=
      lowerBody_handsBack (fun st hst _ hc => ih st hst
        (fun st' hw => h st' (.inner hst hw)) hc) hcb
    have htest : HandsBack zero (n + 2) .any [.eqz, .brIf 1] .any :=
      .cons (.plain rfl rfl) (.cons (.brIf (by omega)) .nil)
    have hagain : HandsBack zero (n + 2) .any [.br 0] .any := .cons (.br (by omega)) .nil
    have hround := (((Expr.lowerValue_handsBack hcc).append htest).append hbody).append hagain
    exact .cons (.block (.cons (.loop hround) .nil)) .nil
  | pass span =>
    cases hc
    exact .single rfl rfl
  | ret span value =>
    obtain ⟨c, hcv, rfl⟩ := lower_ret.mp hc
    rcases h _ .refl with hself | ⟨hz, hnone⟩
    · obtain ⟨note, rfl⟩ := Expr.isSelf_iff.mp hself
      obtain rfl := Expr.lowerValue_self.mp hcv
      rw [Site.get, if_pos hl]
      exact .cons .receiver (.cons .ret .nil)
    · rw [Expr.lowerValue, Expr.lower_of_isNone hnone] at hcv
      cases hcv
      exact .cons (.nothing hz) (.cons .ret .nil)
  | expr value =>
    obtain ⟨c, hcv, rfl⟩ := lower_expr.mp hc
    exact (Expr.lowerValue_handsBack hcv).append (.single rfl rfl)
  | func f => exact absurd hc refuse_ne_ok
  | cls c => exact absurd hc refuse_ne_ok

end Stmt

theorem Stmt.exists_of_mem_bodyDeclarations {body : List Stmt} {d : Declaration}
    (h : d ∈ bodyDeclarations body) : ∃ st ∈ body, d ∈ st.declarations := by
  induction body with
  | nil => cases h
  | cons st rest ih =>
    rcases List.mem_append.mp h with h | h
    · exact ⟨st, List.mem_cons_self, h⟩
    · obtain ⟨st', hst', h⟩ := ih h
      exact ⟨st', List.mem_cons_of_mem st hst', h⟩

/-- What a statement declares is declared by a statement inside it. -/
theorem Stmt.within_of_mem_declarations {st : Stmt} {d : Declaration} (h : d ∈ st.declarations) :
    (Stmt.declare d).Within st := by
  have hbody {body : List Stmt} {outer : Stmt} (hin : ∀ st ∈ body, st ∈ outer.inner)
      (ih : ∀ st ∈ body, d ∈ st.declarations → (Stmt.declare d).Within st)
      (h : d ∈ bodyDeclarations body) : (Stmt.declare d).Within outer := by
    obtain ⟨st, hst, h⟩ := exists_of_mem_bodyDeclarations h
    exact .inner (hin st hst) (ih st hst h)
  induction st with
  | declare d' =>
    obtain rfl := List.mem_singleton.mp h
    exact .refl
  | branch span condition body elseIf otherwise ihb ihe iho =>
    rw [declarations, List.mem_append, List.mem_append] at h
    rcases h with (h | h) | h
    · exact hbody (fun st hst => by simp [inner, hst]) ihb h
    · cases elseIf with
      | none => cases h
      | some arm => exact hbody (fun st hst => by simp [inner, hst]) (ihe arm.1 arm.2 rfl) h
    · cases otherwise with
      | none => cases h
      | some last => exact hbody (fun st hst => by simp [inner, hst]) (iho last rfl) h
  | loop span condition body ih => exact hbody (fun st hst => hst) ih h
  | assign | pass | ret | expr | func | cls => cases h

/-- A constructor that leaves its receiver alone becomes a function that hands it back. -/
theorem FuncOf.lower_handsBack {layouts : Layouts} {c : String} {f : FuncDef} {g : Func}
    (hname : f.name = constructorName) (hr : receiverName ∈ f.params.map (·.name))
    (h : ∀ top ∈ f.body, ∀ st : Stmt, st.Within top → st.KeepsReceiver zero)
    (hg : FuncOf.lower layouts (some c) f = .ok g) : HandsBack zero 0 .any g.body .never := by
  obtain ⟨body, hbody, rfl⟩ := FuncOf.lower_eq_ok_iff.mp hg
  have hlocal : f.slots.contains receiverName = true := by simp [FuncOf.slots, hr]
  have hstmts : HandsBack zero 0 .any body .any :=
    Stmt.lowerBody_handsBack (fun st hst _ hc => Stmt.lower_handsBack hlocal (h st hst) hc) hbody
  -- what stands behind the return is not reached
  have hending : f.ending (some c) = [.localGet receiverName, .ret, .const 0] := by
    simp [FuncOf.ending, hname]
  rw [hending]
  exact hstmts.append (.cons .receiver (.cons .ret (.cons .dead .nil)))

/-- It is called on the object that it is given. -/
theorem FuncOf.enter_receiver {layouts : Layouts} {c : String} {f : FuncDef} {g : Func}
    (hr : receiverName ∈ f.params.map (·.name)) (hn : f.params.length = 1)
    (h : ∀ top ∈ f.body, ∀ st : Stmt, st.Within top → st.KeepsReceiver zero)
    (hg : FuncOf.lower layouts (some c) f = .ok g) (a : Word) :
    (Activation.enter g [a]).locals.find? receiverName = some a := by
  obtain ⟨body, -, rfl⟩ := FuncOf.lower_eq_ok_iff.mp hg
  have hparams : f.params.map (·.name) = [receiverName] := by
    obtain ⟨param, hparam⟩ := List.length_eq_one_iff.mp hn
    rw [hparam] at hr ⊢
    exact congrArg (fun x => [x]) (List.mem_singleton.mp hr).symm
  have hdeclared : receiverName ∉ f.declarations.map (·.name) := by
    intro hmem
    obtain ⟨d, hd, hname⟩ := List.mem_map.mp hmem
    obtain ⟨top, htop, hd⟩ := Stmt.exists_of_mem_bodyDeclarations hd
    exact h top htop _ (Stmt.within_of_mem_declarations hd) hname
  have hlocals : receiverName ∉
      ((Symbol.scratch :: f.declarations.map (·.name)).map fun x => (x, (0 : Word))).map (·.1) := by
    simpa [Symbol.scratch, receiverName] using hdeclared
  rw [Activation.enter, hparams, Bindings.ofList]
  exact (Bindings.find?_foldl_insert_of_notMem _ hlocals).trans (Bindings.find?_insert_self _ _ a)

end

end TypedScript
