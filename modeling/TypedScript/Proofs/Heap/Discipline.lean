import TypedScript.Proofs.Heap.Allocation
import TypedScript.Proofs.Machine.Effects
import TypedScript.Proofs.Machine.Structured

/-! # Heap discipline

Code that touches the heap pointer in allocations only. While such code runs, the heap pointer moves
at the end of an allocation and at no other step. -/

namespace TypedScript

/-- Whether an instruction neither opens a body nor uses the heap pointer. -/
def Instr.sparesHeap : Instr → Bool
  | .globalGet x | .globalSet x => x != Symbol.heapPointer
  | .ite .. | .block _ | .loop _ => false
  | _ => true

/-- Code that uses the heap pointer only to allocate objects, of words that are as told. -/
inductive Disciplined (P : List Word → Prop) : List Instr → Prop
  | nil : Disciplined P []
  | allocate {ws rest} (hw : P ws) (hr : Disciplined P rest) : Disciplined P (allocation ws ++ rest)
  | instr {i rest} (hi : i.sparesHeap = true) (hr : Disciplined P rest) : Disciplined P (i :: rest)
  | ite {body otherwise rest} (hb : Disciplined P body) (ho : Disciplined P otherwise)
      (hr : Disciplined P rest) : Disciplined P (.ite body otherwise :: rest)
  | block {body rest} (hb : Disciplined P body) (hr : Disciplined P rest) :
      Disciplined P (.block body :: rest)
  | loop {body rest} (hb : Disciplined P body) (hr : Disciplined P rest) :
      Disciplined P (.loop body :: rest)

namespace Disciplined

variable {P : List Word → Prop} {code rest : List Instr} {ws : List Word}

theorem append (h : Disciplined P code) (hr : Disciplined P rest) :
    Disciplined P (code ++ rest) := by
  induction h with
  | nil => exact hr
  | allocate hw _ ih =>
    rw [List.append_assoc]
    exact .allocate hw ih
  | instr hi _ ih => exact .instr hi ih
  | ite hb ho _ _ _ ih => exact .ite hb ho ih
  | block hb _ _ ih => exact .block hb ih
  | loop hb _ _ ih => exact .loop hb ih

theorem allocation (hw : P ws) : Disciplined P (allocation ws) := by
  have h : Disciplined P (TypedScript.allocation ws ++ []) := .allocate hw .nil
  rwa [List.append_nil] at h

theorem single {i : Instr} (hi : i.sparesHeap = true) : Disciplined P [i] := .instr hi .nil

theorem of_forall (h : ∀ i ∈ code, i.sparesHeap = true) : Disciplined P code := by
  induction code with
  | nil => exact .nil
  | cons i code ih =>
    exact .instr (h i List.mem_cons_self) (ih fun j hj => h j (List.mem_cons_of_mem i hj))

/-- Disciplined code that begins with an allocation was told to allocate. -/
theorem of_allocation (h : Disciplined P (TypedScript.allocation ws ++ rest)) :
    P ws ∧ Disciplined P rest := by
  obtain ⟨tail, htail⟩ :
      ∃ tail, TypedScript.allocation ws ++ rest = .globalGet Symbol.heapPointer :: tail := by
    cases ws with
    | nil => exact ⟨_, rfl⟩
    | cons w ws => exact ⟨_, rfl⟩
  generalize hcode : TypedScript.allocation ws ++ rest = code at h
  cases h with
  | nil => simp [hcode] at htail
  | allocate hw hr =>
    obtain ⟨rfl, rfl⟩ := allocation_append_inj hcode
    exact ⟨hw, hr⟩
  | instr hi hr =>
    rw [hcode] at htail
    cases htail
    simp [Instr.sparesHeap] at hi
  | ite _ _ _ =>
    rw [hcode] at htail
    cases htail
  | block _ _ =>
    rw [hcode] at htail
    cases htail
  | loop _ _ =>
    rw [hcode] at htail
    cases htail

end Disciplined

/-- The end of the heap and the size of memory are as they were. -/
structure Store.KeepsHeap {σ : Type} (s s' : Store σ) : Prop where
  heap : s'.globals.find? Symbol.heapPointer = s.globals.find? Symbol.heapPointer
  size : s'.memory.size = s.memory.size

theorem Store.Keeps.keepsHeap {σ : Type} {s s' : Store σ} (h : s.Keeps s') : s.KeepsHeap s' :=
  ⟨by rw [h.globals], h.size⟩

namespace Machine

variable {σ : Type} {m : Machine σ}

theorem setGlobal_keepsHeap {s s' : Store σ} {x : String} {w : Word}
    (hx : x ≠ Symbol.heapPointer) (h : s.setGlobal x w = .ok s') : s.KeepsHeap s' := by
  rw [Store.setGlobal, if_neg (fun hand => hx hand.1)] at h
  split at h
  · cases h
    exact ⟨Bindings.find?_insert_of_ne _ _ hx.symm, rfl⟩
  · cases h

theorem Touches.keepsHeap {s s' : Store σ} {i : Instr} {st : List Word} (h : m.Touches s i st s')
    (hi : i ≠ .globalSet Symbol.heapPointer) : s.KeepsHeap s' := by
  cases h with
  | nothing _ => exact ⟨rfl, rfl⟩
  | global hs =>
    refine setGlobal_keepsHeap ?_ hs
    rintro rfl
    exact hi rfl
  | memory hs => exact (Store.Keeps.storeWord hs).keepsHeap
  | host _ => exact ⟨rfl, rfl⟩

/-- A step that does not set the heap pointer leaves it as it is. -/
theorem step_keepsHeap {q : State σ}
    (h : ∀ f callers rest again outer, q.frames = f :: callers →
      f.labels ≠ ⟨.globalSet Symbol.heapPointer :: rest, again⟩ :: outer) :
    q.store.KeepsHeap (m.step q).store := by
  rcases q with ⟨_ | ⟨⟨g, ls, st, labels⟩, callers⟩, room, s⟩
  · exact ⟨rfl, rfl⟩
  rcases labels with _ | ⟨⟨_ | ⟨i, rest⟩, again⟩, outer⟩
  · rw [step, leave_store]
    exact ⟨rfl, rfl⟩
  · exact ⟨rfl, rfl⟩
  · have hi : i ≠ .globalSet Symbol.heapPointer := by
      rintro rfl
      exact h _ callers rest again outer rfl rfl
    have hexec := (m.exec_touches ⟨g, ls, st, ⟨rest, again⟩ :: outer⟩ i s).keepsHeap hi
    simp only [step]
    cases hr : m.exec ⟨g, ls, st, ⟨rest, again⟩ :: outer⟩ i s with
    | error t s' =>
      rw [hr] at hexec
      exact hexec
    | ok act s' =>
      rw [hr] at hexec
      cases act with
      | resume f => exact hexec
      | call caller callee args =>
        rw [enter_store]
        exact hexec

end Machine

section

variable (P : List Word → Prop)

def Label.Tidy (l : Label) : Prop :=
  Disciplined P l.rest ∧ ∀ body, l.again = some body → Disciplined P body

def Frame.Tidy (f : Frame) : Prop := ∀ l ∈ f.labels, l.Tidy P

def State.Tidy {σ : Type} (q : State σ) : Prop := ∀ f ∈ q.frames, f.Tidy P

def Progress.Tidy {σ : Type} : Progress σ → Prop
  | .next q => q.Tidy P
  | .halt _ _ => True

def Action.Tidy : Action → Prop
  | .resume f => f.Tidy P
  | .call caller callee _ => caller.Tidy P ∧ Disciplined P callee.body

end

section

variable {σ : Type} {m : Machine σ} {P : List Word → Prop} {f g : Frame} {i : Instr}
  {s s' : Store σ}

theorem Frame.Tidy.tail {g : Func} {ls : Bindings Word} {st : List Word} {l : Label}
    {labels : List Label} (h : Frame.Tidy P ⟨g, ls, st, l :: labels⟩) :
    Frame.Tidy P ⟨g, ls, st, labels⟩ :=
  fun l' hl => h l' (List.mem_cons_of_mem l hl)

theorem Frame.Tidy.cons {g : Func} {ls : Bindings Word} {st : List Word} {l : Label}
    {labels : List Label} (h : Frame.Tidy P ⟨g, ls, st, labels⟩) (hl : l.Tidy P) :
    Frame.Tidy P ⟨g, ls, st, l :: labels⟩ := by
  intro l' hmem
  rcases List.mem_cons.mp hmem with rfl | hmem
  · exact hl
  · exact h l' hmem

theorem Frame.Tidy.branch {n : Nat} (hf : f.Tidy P) (h : f.branch n = .ok g) : g.Tidy P := by
  have hdrop : ∀ l ∈ f.labels.drop n, l.Tidy P := fun l hl => hf l (List.mem_of_mem_drop hl)
  rw [Frame.branch] at h
  split at h
  · cases h
  · next body outer heq =>
    cases h
    rw [heq] at hdrop
    intro l hl
    rcases List.mem_cons.mp hl with rfl | hl
    · have hbody := (hdrop _ List.mem_cons_self).2 body rfl
      exact ⟨hbody, by rintro _ ⟨⟩; exact hbody⟩
    · exact hdrop l (List.mem_cons_of_mem _ hl)
  · next outer heq =>
    cases h
    rw [heq] at hdrop
    exact fun l hl => hdrop l (List.mem_cons_of_mem _ hl)

namespace Machine

theorem mem_of_function? {x : String} {callee : Func} (h : m.function? x = some callee) :
    callee ∈ m.module.functions := by
  rw [function?_eq] at h
  exact List.mem_of_mem_filter (List.mem_of_getLast? h)

theorem exec_tidy (hm : ∀ g ∈ m.module.functions, Disciplined P g.body) (hf : f.Tidy P)
    (hi : i.sparesHeap = true) {act : Action} (h : m.exec f i s = .ok act s') : act.Tidy P := by
  by_cases hc : i.isControl = true
  · cases i with
    | br n =>
      cases hb : f.branch n with
      | error t => simp [exec, hb] at h
      | ok g =>
        obtain ⟨rfl, rfl⟩ : .resume g = act ∧ s = s' := by simpa [exec, hb] using h
        exact hf.branch hb
    | brIf n =>
      rcases f with ⟨g, ls, _ | ⟨w, st⟩, labels⟩
      · cases h
      by_cases hw : w = 0
      · obtain ⟨rfl, rfl⟩ : .resume ⟨g, ls, st, labels⟩ = act ∧ s = s' := by
          simpa [exec, Frame.pop, hw] using h
        exact hf
      · cases hb : Frame.branch ⟨g, ls, st, labels⟩ n with
        | error t => simp [exec, Frame.pop, hw, hb] at h
        | ok g' =>
          obtain ⟨rfl, rfl⟩ : .resume g' = act ∧ s = s' := by
            simpa [exec, Frame.pop, hw, hb] using h
          exact Frame.Tidy.branch (f := ⟨g, ls, st, labels⟩) hf hb
    | ret =>
      cases h
      exact fun l hl => absurd hl List.not_mem_nil
    | _ => simp [Instr.isControl, Instr.sparesHeap] at hc hi
  · have hc : i.isControl = false := by simpa using hc
    have hexec : m.exec (Activation.frame ⟨f.locals, f.stack⟩ f.func f.labels) i s = .ok act s' := h
    cases acts_of_plain hc f.func ⟨f.locals, f.stack⟩ s with
    | trap t s₁ ht =>
      rw [ht] at hexec
      cases hexec
    | resume b s₁ hb =>
      rw [hb] at hexec
      cases hexec
      exact hf
    | call x callee args st hx himp hfun hn hst =>
      subst hx
      rw [exec_call himp hfun hn hst] at hexec
      cases hexec
      exact ⟨hf, hm callee (mem_of_function? hfun)⟩

theorem enter_tidy {q : State σ} {callee : Func} {args : List Word} (hq : q.Tidy P)
    (hc : Disciplined P callee.body) : (m.enter q callee args).Tidy P := by
  unfold enter
  split
  · trivial
  · intro g hg
    rcases List.mem_cons.mp hg with rfl | hg
    · intro l hl
      obtain rfl : l = ⟨callee.body, none⟩ := by simpa [Frame.enter] using hl
      exact ⟨hc, by simp⟩
    · exact hq g hg

theorem leave_tidy {callers : List Frame} {room : Nat} (h : ∀ g ∈ callers, g.Tidy P) :
    (leave f callers room s).Tidy P := by
  cases hr : f.result with
  | error t => simp only [leave, hr, Progress.Tidy]
  | ok r =>
    cases callers with
    | nil => simp only [leave, hr, Progress.Tidy]
    | cons caller outer =>
      simp only [leave, hr, Progress.Tidy]
      intro g hg
      rcases List.mem_cons.mp hg with rfl | hg
      · have hcaller := h caller List.mem_cons_self
        cases r <;> exact hcaller
      · exact h g (List.mem_cons_of_mem _ hg)

/-- A step that begins no allocation leads from disciplined code to disciplined code and leaves the
heap as it is. -/
theorem step_tidy (hm : ∀ g ∈ m.module.functions, Disciplined P g.body) {q : State σ}
    (hq : q.Tidy P)
    (hna : ∀ k ls st ws rest s, q ≠ Spot.state k ls st (allocation ws ++ rest) s) :
    (m.step q).Tidy P ∧ q.store.KeepsHeap (m.step q).store := by
  rcases q with ⟨_ | ⟨⟨g, ls, st, labels⟩, callers⟩, room, s⟩
  · exact ⟨trivial, rfl, rfl⟩
  have hf : Frame.Tidy P ⟨g, ls, st, labels⟩ := hq _ List.mem_cons_self
  have hcallers : ∀ f ∈ callers, f.Tidy P := fun f hf => hq f (List.mem_cons_of_mem _ hf)
  have hgo {g : Frame} {s : Store σ} (hg : g.Tidy P) :
      (Progress.next ⟨g :: callers, room, s⟩).Tidy P := by
    intro f hf
    rcases List.mem_cons.mp hf with rfl | hf
    · exact hg
    · exact hcallers f hf
  rcases labels with _ | ⟨⟨_ | ⟨i, rest⟩, again⟩, outer⟩
  · refine ⟨leave_tidy hcallers, step_keepsHeap ?_⟩
    rintro _ _ _ _ _ ⟨⟩ ⟨⟩
  · exact ⟨hgo hf.tail, rfl, rfl⟩
  obtain ⟨hcode, hagain⟩ := hf ⟨i :: rest, again⟩ List.mem_cons_self
  generalize hc : i :: rest = code at hcode
  cases hcode with
  | nil => cases hc
  | @allocate ws rest' hw hr =>
    refine absurd ?_ (hna ⟨g, again, outer, callers, room⟩ ls st ws rest' s)
    exact congrArg (fun code : List Instr =>
      (⟨⟨g, ls, st, ⟨code, again⟩ :: outer⟩ :: callers, room, s⟩ : State σ)) hc
  | instr hi hr =>
    cases hc
    have hrest : Frame.Tidy P ⟨g, ls, st, ⟨rest, again⟩ :: outer⟩ := hf.tail.cons ⟨hr, hagain⟩
    refine ⟨?_, step_keepsHeap ?_⟩
    · simp only [step]
      cases he : m.exec ⟨g, ls, st, ⟨rest, again⟩ :: outer⟩ i s with
      | error t s' => trivial
      | ok act s' =>
        have hact := exec_tidy hm hrest hi he
        cases act with
        | resume f => exact hgo hact
        | call caller callee args => exact enter_tidy (hgo hact.1) hact.2
    · rintro _ _ _ _ _ ⟨⟩ ⟨⟩
      simp [Instr.sparesHeap] at hi
  | ite hb ho hr =>
    cases hc
    have hrest := hf.tail.cons (l := ⟨rest, again⟩) ⟨hr, hagain⟩
    cases st with
    | nil => exact ⟨trivial, rfl, rfl⟩
    | cons w st =>
      refine ⟨hgo (hrest.cons (l := ⟨_, none⟩) ⟨?_, by simp⟩), rfl, rfl⟩
      split
      · exact hb
      · exact ho
  | block hb hr =>
    cases hc
    have hrest := hf.tail.cons (l := ⟨rest, again⟩) ⟨hr, hagain⟩
    exact ⟨hgo (hrest.cons (l := ⟨_, none⟩) ⟨hb, by simp⟩), rfl, rfl⟩
  | loop hb hr =>
    cases hc
    have hrest := hf.tail.cons (l := ⟨rest, again⟩) ⟨hr, hagain⟩
    exact ⟨hgo (hrest.cons (l := ⟨_, some _⟩) ⟨hb, by rintro _ ⟨⟩; exact hb⟩), rfl, rfl⟩

end Machine

end

end TypedScript
