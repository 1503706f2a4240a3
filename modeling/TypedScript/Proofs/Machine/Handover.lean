import TypedScript.Proofs.Machine.Structured
import TypedScript.Symbol

/-! # Handing back the receiver

Code that leaves the receiver of a method alone, and whose every return gives the receiver or zero
back. A call of such a function can end in no other way. -/

namespace TypedScript

variable {σ α β : Type}

/-- Whatever the code gives satisfies a predicate. -/
def Exec.Gives (P : α → Prop) (x : Exec σ α) : Prop := ∀ s a s', x s = .ok a s' → P a

namespace Exec.Gives

variable {P : β → Prop} {f : α → Exec σ β}

theorem pure {P : α → Prop} {a : α} (h : P a) : Exec.Gives P (pure a : Exec σ α) := by
  rintro s _ s' ⟨⟩
  exact h

theorem bind {x : Exec σ α} (h : ∀ a, Exec.Gives P (f a)) : Exec.Gives P (x >>= f) := by
  intro s b s' hb
  simp only [Bind.bind, EStateM.bind] at hb
  cases hx : x s with
  | ok a s₁ =>
    rw [hx] at hb
    exact h a s₁ b s' hb
  | error t s₁ =>
    rw [hx] at hb
    cases hb

theorem lift_bind {r : Except Trap α} (h : ∀ a, r = .ok a → Exec.Gives P (f a)) :
    Exec.Gives P (Exec.lift r >>= f) := by
  cases hr : r with
  | ok a =>
    intro s b s' hb
    exact h a hr s b s' hb
  | error t =>
    rintro s b s' ⟨⟩

end Exec.Gives

namespace Frame

variable {f g : Frame} {w : Word} {x : String} {n : Nat}

theorem pop_locals (h : f.pop = .ok (w, g)) : g.locals = f.locals := by
  obtain ⟨fn, ls, _ | ⟨v, st⟩, labels⟩ := f
  · cases h
  · cases h
    rfl

theorem setLocal_locals (h : f.setLocal x w = .ok g) : g.locals = f.locals.insert x w := by
  rw [setLocal] at h
  split at h
  · cases h
    rfl
  · cases h

theorem branch_locals (h : f.branch n = .ok g) : g.locals = f.locals := by
  rw [branch] at h
  split at h
  · cases h
  · cases h
    rfl
  · cases h
    rfl

end Frame

def Instr.sets (x : String) : Instr → Bool
  | .localSet y => y == x
  | _ => false

/-- What an instruction asks for leaves a local variable as it was. -/
def Action.Spares (x : String) (ls : Bindings Word) : Action → Prop
  | .resume g | .call g _ _ => g.locals.find? x = ls.find? x

namespace Machine

theorem exec_spares (m : Machine σ) {x : String} {i : Instr} (f : Frame) (hi : i.sets x = false) :
    Exec.Gives (Action.Spares x f.locals) (m.exec f i) := by
  have hpop (g : Word × Frame) (hg : f.pop = .ok g) : g.2.locals.find? x = f.locals.find? x := by
    rw [Frame.pop_locals hg]
  have hpop₂ (g h : Word × Frame) (hg : f.pop = .ok g) (hh : g.2.pop = .ok h) :
      h.2.locals.find? x = f.locals.find? x := by
    rw [Frame.pop_locals hh, hpop g hg]
  cases i with
  | const w => exact .pure rfl
  | localGet y => exact .lift_bind fun w _ => .pure rfl
  | localSet y =>
    refine .lift_bind fun g hg => .lift_bind fun h hh => .pure ?_
    have hne : x ≠ y := (ne_of_beq_false hi).symm
    change h.locals.find? x = _
    rw [Frame.setLocal_locals hh, Bindings.find?_insert_of_ne _ _ hne, hpop g hg]
  | globalGet y => exact .bind fun s => .lift_bind fun w _ => .pure rfl
  | globalSet y => exact .lift_bind fun g hg => .bind fun _ => .pure (hpop g hg)
  | call y =>
    rw [exec, call]
    cases m.import? y with
    | some fn => exact .lift_bind fun g hg => .bind fun v => .pure (hpop g hg)
    | none =>
      cases m.function? y with
      | none =>
        intro s a s' h
        cases h
      | some callee =>
        refine .lift_bind fun g hg => .pure ?_
        rw [Frame.popArgs] at hg
        split at hg
        · cases hg
          rfl
        · cases hg
  | numeric op =>
    refine .lift_bind fun g hg => .lift_bind fun h hh => .lift_bind fun w _ => .pure ?_
    exact hpop₂ g h hg hh
  | eqz => exact .lift_bind fun g hg => .pure (hpop g hg)
  | load =>
    refine .lift_bind fun g hg => .bind fun s => .lift_bind fun v _ => .pure ?_
    exact hpop g hg
  | store =>
    refine .lift_bind fun g hg => .lift_bind fun h hh => .bind fun _ => .pure ?_
    exact hpop₂ g h hg hh
  | ite body otherwise => exact .lift_bind fun g hg => .pure (hpop g hg)
  | block body => exact .pure rfl
  | loop body => exact .pure rfl
  | br depth =>
    refine .lift_bind fun g hg => .pure ?_
    change g.locals.find? x = _
    rw [Frame.branch_locals hg]
  | brIf depth =>
    refine .lift_bind fun g hg => ?_
    dsimp only
    split
    · refine .lift_bind fun h hh => .pure ?_
      change h.locals.find? x = _
      rw [Frame.branch_locals hh, hpop g hg]
    · exact .pure (hpop g hg)
  | ret => exact .pure rfl
  | nop => exact .pure rfl

end Machine

/-! ## Code -/

/-- What is known of the topmost operand: nothing, that it may be given back, or that the code at
hand is not reached at all. -/
inductive Topmost
  | any
  | result
  | never

mutual
/-- An instruction that leaves the receiver alone and returns only what may be given back: the
receiver, or zero if that is allowed. Branches go less than `n` bodies out. -/
inductive HandsOver (zero : Bool) : Nat → Topmost → Instr → Topmost → Prop
  | receiver {n t} : HandsOver zero n t (.localGet receiverName) .result
  | nothing {n t} (hz : zero = true) : HandsOver zero n t (.const 0) .result
  | plain {n t i} (hi : i.isControl = false) (hs : i.sets receiverName = false) :
      HandsOver zero n t i .any
  | ite {n t body otherwise t₁ t₂} (hb : HandsBack zero (n + 1) .any body t₁)
      (ho : HandsBack zero (n + 1) .any otherwise t₂) :
      HandsOver zero n t (.ite body otherwise) .any
  | block {n t body t₁} (hb : HandsBack zero (n + 1) .any body t₁) :
      HandsOver zero n t (.block body) .any
  | loop {n t body t₁} (hb : HandsBack zero (n + 1) .any body t₁) :
      HandsOver zero n t (.loop body) .any
  | br {n t d t'} (hd : d < n) : HandsOver zero n t (.br d) t'
  | brIf {n t d} (hd : d < n) : HandsOver zero n t (.brIf d) .any
  | ret {n t'} : HandsOver zero n .result .ret t'
  | dead {n i} : HandsOver zero n .never i .never

/-- Code that does so throughout. -/
inductive HandsBack (zero : Bool) : Nat → Topmost → List Instr → Topmost → Prop
  | nil {n t} : HandsBack zero n t [] t
  | cons {n t t₁ t' i rest} (hi : HandsOver zero n t i t₁) (hr : HandsBack zero n t₁ rest t') :
      HandsBack zero n t (i :: rest) t'
end

namespace HandsBack

variable {zero : Bool} {n : Nat} {t₁ t₂ : Topmost} {body otherwise : List Instr}

theorem append {t t₁ t' : Topmost} {code code' : List Instr} (h : HandsBack zero n t code t₁)
    (h' : HandsBack zero n t₁ code' t') : HandsBack zero n t (code ++ code') t' := by
  match h with
  | .nil => exact h'
  | .cons hi hr => exact .cons hi (hr.append h')

/-- An instruction other than control that does not store the receiver. -/
theorem single {i : Instr} (hi : i.isControl = false) (hs : i.sets receiverName = false) :
    HandsBack zero n .any [i] .any :=
  .cons (.plain hi hs) .nil

/-- Of two bodies the one that a condition chooses. -/
theorem chosen (w : Word) (hb : HandsBack zero n .any body t₁)
    (ho : HandsBack zero n .any otherwise t₂) :
    ∃ t, HandsBack zero n .any (if w ≠ 0 then body else otherwise) t := by
  by_cases hw : w ≠ 0
  · rw [if_pos hw]
    exact ⟨t₁, hb⟩
  · rw [if_neg hw]
    exact ⟨t₂, ho⟩

end HandsBack

/-- What may be given back when the receiver is `w`. -/
def Yieldable (zero : Bool) (w v : Word) : Prop := v = w ∨ zero = true ∧ v = 0

/-- What is known of the operands holds for those of a call. -/
def Topmost.Holds (zero : Bool) (w : Word) (a : Activation) : Topmost → Prop
  | .any => True
  | .result => ∃ v st, a.stack = v :: st ∧ Yieldable zero w v
  | .never => False

/-- How such code ends when the receiver is `w`. -/
def Ending.HandsBack (zero : Bool) (w : Word) (n : Nat) (t : Topmost) : Ending → Prop
  | .normal a => a.locals.find? receiverName = some w ∧ t.Holds zero w a
  | .branch d a => d < n ∧ a.locals.find? receiverName = some w
  | .ret a => ∃ v st, a.stack = v :: st ∧ Yieldable zero w v
  | .trap _ => True

section

variable {zero : Bool} {w : Word} {n : Nat} {t t₁ : Topmost} {e : Ending}

theorem Ending.HandsBack.outside (h : e.HandsBack zero w (n + 1) t) :
    e.outside.HandsBack zero w n .any := by
  cases e with
  | normal a => exact ⟨h.1, trivial⟩
  | branch d a =>
    cases d with
    | zero => exact ⟨h.2, trivial⟩
    | succ d => exact ⟨Nat.lt_of_succ_lt_succ h.1, h.2⟩
  | ret a => exact h
  | trap t => exact h

theorem Ending.HandsBack.of_not_normal (h : e.HandsBack zero w n t) (he : e.isNormal = false) :
    e.HandsBack zero w n t₁ := by
  cases e with
  | normal a => cases he
  | branch d a => exact h
  | ret a => exact h
  | trap t => exact h

end

namespace Machine

variable {m : Machine σ} {zero : Bool} {w : Word}

/-- An instruction that is not control keeps the receiver and brings about what is to be known of
the operands. -/
theorem exec_handsOver {f : Func} {a b : Activation} {s s' : Store σ} {i : Instr} {n : Nat}
    {t t' : Topmost} (hi : i.isControl = false)
    (hx : m.exec (a.frame f []) i s = .ok (.resume (b.frame f [])) s')
    (hc : HandsOver zero n t i t') (ha : a.locals.find? receiverName = some w)
    (ht : t.Holds zero w a) :
    b.locals.find? receiverName = some w ∧ t'.Holds zero w b := by
  have hspare (hs : i.sets receiverName = false) : b.locals.find? receiverName = some w :=
    (m.exec_spares (a.frame f []) hs s _ s' hx).trans ha
  cases hc with
  | receiver =>
    refine ⟨hspare rfl, w, a.stack, ?_, .inl rfl⟩
    have hget : (a.frame f []).getLocal receiverName = .ok w := by
      simp [Frame.getLocal, Activation.frame, ha]
    rw [exec, hget] at hx
    obtain ⟨ls, st⟩ := b
    cases hx
    rfl
  | nothing hz =>
    refine ⟨hspare rfl, 0, a.stack, ?_, .inr ⟨hz, rfl⟩⟩
    obtain ⟨ls, st⟩ := b
    cases hx
    rfl
  | plain hp hs => exact ⟨hspare hs, trivial⟩
  | ite | block | loop | br | brIf | ret => cases hi
  | dead => exact ht.elim

/-- Code that hands back the receiver ends so. The induction is on the run, which goes through the
body of a loop time and again. -/
theorem Yields.handsBack {depth : Nat} {f : Func} {a : Activation} {s s' : Store σ} {e : Ending}
    {code : List Instr} (h : m.Yields depth f a s code e s') :
    ∀ {n t t'}, HandsBack zero n t code t' → a.locals.find? receiverName = some w →
      t.Holds zero w a → e.HandsBack zero w n t' := by
  match h with
  | .nil =>
    rintro n t t' ⟨⟩ ha ht
    exact ⟨ha, ht⟩
  | .next hi hr =>
    rintro n t t' (_ | ⟨hone, hrest⟩) ha ht
    obtain ⟨hb, hb'⟩ := hi.handsBack (.cons hone .nil) ha ht
    exact hr.handsBack hrest hb hb'
  | .stop hi he =>
    rintro n t t' (_ | ⟨hone, hrest⟩) ha ht
    exact (hi.handsBack (.cons hone .nil) ha ht).of_not_normal he
  | .plain hi hx =>
    rintro n t t' (_ | ⟨hone, ⟨⟩⟩) ha ht
    exact exec_handsOver hi hx hone ha ht
  | .trap hi hx =>
    intro n t t' hc ha ht
    trivial
  | .call (r := r) hi hf hn hst hc =>
    rintro n t t' (_ | ⟨hone, ⟨⟩⟩) ha ht
    cases r with
    | error t => trivial
    | ok r =>
      cases hone with
      | plain => cases r <;> exact ⟨ha, trivial⟩
      | dead => exact ht.elim
  | .block hb =>
    rintro n t t' (_ | ⟨hone, ⟨⟩⟩) ha ht
    cases hone with
    | plain hi => cases hi
    | block hbody => exact (hb.handsBack hbody ha trivial).outside
    | dead => exact ht.elim
  | .ite (w := v) hst hb =>
    rintro n t t' (_ | ⟨hone, ⟨⟩⟩) ha ht
    cases hone with
    | plain hi => cases hi
    | ite hbody hotherwise =>
      obtain ⟨t, hchosen⟩ := hbody.chosen v hotherwise
      exact (hb.handsBack hchosen ha trivial).outside
    | dead => exact ht.elim
  | .iteUnderflow hst =>
    intro n t t' hc ha ht
    trivial
  | .loopAgain hb hl =>
    rintro n t t' (_ | ⟨hone, ⟨⟩⟩) ha ht
    cases hone with
    | plain hi => cases hi
    | loop hbody =>
      exact hl.handsBack (.cons (.loop (t := .any) hbody) .nil) (hb.handsBack hbody ha trivial).2
        trivial
    | dead => exact ht.elim
  | .loopDone hb he =>
    rintro n t t' (_ | ⟨hone, ⟨⟩⟩) ha ht
    cases hone with
    | plain hi => cases hi
    | loop hbody => exact (hb.handsBack hbody ha trivial).outside
    | dead => exact ht.elim
  | .br =>
    rintro n t t' (_ | ⟨hone, ⟨⟩⟩) ha ht
    cases hone with
    | plain hi => cases hi
    | br hd => exact ⟨hd, ha⟩
    | dead => exact ht.elim
  | .brIf (w := v) hst =>
    rintro n t t' (_ | ⟨hone, ⟨⟩⟩) ha ht
    cases hone with
    | plain hi => cases hi
    | brIf hd =>
      by_cases hv : v ≠ 0
      · rw [if_pos hv]
        exact ⟨hd, ha⟩
      · rw [if_neg hv]
        exact ⟨ha, trivial⟩
    | dead => exact ht.elim
  | .brIfUnderflow hst =>
    intro n t t' hc ha ht
    trivial
  | .ret =>
    rintro n t t' (_ | ⟨hone, ⟨⟩⟩) ha ht
    cases hone with
    | plain hi => cases hi
    | ret => exact ht
    | dead => exact ht.elim

/-- A function whose body hands back its receiver, and never runs off its end, gives back nothing
else. -/
theorem Calls.handsBack {depth : Nat} {f : Func} {args : List Word} {s s' : Store σ}
    {r : Except Trap (Option Word)} (h : m.Calls depth f args s r s') (hf : f.hasResult = true)
    (hb : HandsBack zero 0 .any f.body .never)
    (hw : (Activation.enter f args).locals.find? receiverName = some w) :
    (∃ t, r = .error t) ∨ ∃ v, r = .ok (some v) ∧ Yieldable zero w v := by
  cases h with
  | exhausted hd => exact .inl ⟨_, rfl⟩
  | @body _ _ _ _ _ e hd hy =>
    have he := hy.handsBack hb hw trivial
    cases e with
    | normal a => exact he.2.elim
    | branch d a => exact absurd he.1 (Nat.not_lt_zero d)
    | ret a =>
      obtain ⟨v, st, hst, hv⟩ := he
      refine .inr ⟨v, ?_, hv⟩
      simp [Ending.result, Activation.result, hst, hf]
    | trap t => exact .inl ⟨t, rfl⟩

end Machine

end TypedScript
