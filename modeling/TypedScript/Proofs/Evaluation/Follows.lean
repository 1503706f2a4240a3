import TypedScript.Proofs.Evaluation.Evaluator
import TypedScript.Proofs.Machine.Step
import TypedScript.Proofs.Typing.Elaborated

/-! # The machine follows evaluation

A machine follows an evaluation if it gets to where the evaluation ends, unless its calls are nested
too deep. Where the fuel of the evaluation is used up, the machine runs for at least as long. -/

namespace TypedScript

variable {σ α β : Type}

namespace Machine

variable (m : Machine σ)

/-- A run from the first state goes on as one from the second. -/
def Reaches (q q' : Progress σ) : Prop := ∃ n, ∀ fuel, m.runFrom (n + fuel) q = m.runFrom fuel q'

def Exhausts (q : Progress σ) : Prop :=
  ∃ n s, m.runFrom n q = some (.error (.callStackExhausted m.maxCallDepth), s)

variable {m} {q q' q'' : Progress σ} {s : State σ}

theorem runFrom_halt (fuel : Nat) (r : Except Trap (Option Word)) (s : Store σ) :
    m.runFrom fuel (.halt r s) = some (r, s) := by
  cases fuel <;> rfl

theorem runFrom_mono {r : Halted σ} {n n' : Nat} (h : m.runFrom n q = some r) (hn : n ≤ n') :
    m.runFrom n' q = some r := by
  induction n generalizing q n' with
  | zero =>
    cases q with
    | next s => simp [runFrom] at h
    | halt r' s =>
      rw [runFrom_halt] at h ⊢
      exact h
  | succ n ih =>
    cases q with
    | next s =>
      obtain ⟨n', rfl⟩ : ∃ k, n' = k + 1 := ⟨n' - 1, by omega⟩
      rw [runFrom] at h ⊢
      exact ih h (by omega)
    | halt r' s =>
      rw [runFrom_halt] at h ⊢
      exact h

theorem runFrom_unique {r r' : Halted σ} {n n' : Nat} (h : m.runFrom n q = some r)
    (h' : m.runFrom n' q = some r') : r = r' := by
  have hmax := runFrom_mono h (Nat.le_max_left n n')
  rw [runFrom_mono h' (Nat.le_max_right n n')] at hmax
  exact (Option.some.inj hmax).symm

theorem Reaches.refl (q : Progress σ) : m.Reaches q q := ⟨0, fun fuel => by rw [Nat.zero_add]⟩

theorem Reaches.trans (h : m.Reaches q q') (h' : m.Reaches q' q'') : m.Reaches q q'' := by
  obtain ⟨n, hn⟩ := h
  obtain ⟨n', hn'⟩ := h'
  exact ⟨n + n', fun fuel => by rw [Nat.add_assoc, hn, hn']⟩

theorem Reaches.step (h : m.step s = q) : m.Reaches (.next s) q :=
  ⟨1, fun fuel => by rw [Nat.add_comm, runFrom, h]⟩

theorem Reaches.head (h : m.step s = q) (h' : m.Reaches q q') : m.Reaches (.next s) q' :=
  (Reaches.step h).trans h'

theorem Exhausts.of_reaches (h : m.Reaches q q') (hx : m.Exhausts q') : m.Exhausts q := by
  obtain ⟨n, hn⟩ := h
  obtain ⟨n', s, hx⟩ := hx
  exact ⟨n + n', s, by rw [hn, hx]⟩

/-- A run that is long from a later state is long from the earlier one. -/
theorem Reaches.runFrom_eq_none {fuel : Nat} (h : m.Reaches q q')
    (hn : m.runFrom fuel q' = none) : m.runFrom fuel q = none := by
  obtain ⟨n, h⟩ := h
  cases hr : m.runFrom fuel q with
  | none => rfl
  | some r =>
    have hlate := runFrom_mono hr (by omega : fuel ≤ n + fuel)
    rw [h, hn] at hlate
    cases hlate

end Machine

/-- The world of an evaluation stands in the store of a machine. -/
structure World.Agrees (p : Program) (w : World σ) (s : Store σ) : Prop where
  globals : ∀ x ∈ p.globalNames, s.globals.find? x = some (w.globals x)
  heap : s.globals.find? Symbol.heapPointer = some w.heap
  memory : s.memory = w.memory
  host : s.host = w.host
  small : w.memory.size < 2 ^ 31

/-- The machine follows an evaluation that ended as told, and then it is in a state that fits. -/
def Follows (m : Machine σ) (p : Program) (fuel : Nat) (q : Progress σ)
    (r : EStateM.Result Stop (World σ) α) (fit : α → World σ → State σ → Prop) : Prop :=
  m.Exhausts q ∨
    match r with
    | .ok a w => ∃ s, m.Reaches q (.next s) ∧ fit a w s
    | .error (.trap t) w => ∃ n s, m.runFrom n q = some (.error t, s) ∧ w.Agrees p s
    | .error .spent _ => m.runFrom fuel q = none
    | .error .stuck _ => False

namespace Follows

variable {m : Machine σ} {p : Program} {fuel : Nat} {q q' : Progress σ} {w : World σ}
  {fit : α → World σ → State σ → Prop} {fit' : β → World σ → State σ → Prop}
  {r : EStateM.Result Stop (World σ) α}

theorem done {a : α} {s : State σ} (h : fit a w s) : Follows m p fuel (.next s) (.ok a w) fit :=
  .inr ⟨s, .refl _, h⟩

theorem trap {t : Trap} {s : Store σ} (h : w.Agrees p s) :
    Follows m p fuel (.halt (.error t) s) (.error (.trap t) w) fit :=
  .inr ⟨0, s, rfl, h⟩

theorem reaches (h : m.Reaches q q') (hf : Follows m p fuel q' r fit) :
    Follows m p fuel q r fit := by
  rcases hf with hx | hf
  · exact .inl (hx.of_reaches h)
  · right
    match r, hf with
    | .ok a w, ⟨s, hr, hfit⟩ => exact ⟨s, h.trans hr, hfit⟩
    | .error (.trap t) w, ⟨n, s, hn, hw⟩ =>
      obtain ⟨n', h⟩ := h
      exact ⟨n' + n, s, by rw [h, hn], hw⟩
    | .error .spent w, hn => exact h.runFrom_eq_none hn

theorem step {s : State σ} (h : m.step s = q) (hf : Follows m p fuel q r fit) :
    Follows m p fuel (.next s) r fit :=
  hf.reaches (.step h)

/-- A step makes up for one unit of fuel. -/
theorem step_succ {s : State σ} (h : m.step s = q) (hf : Follows m p fuel q r fit) :
    Follows m p (fuel + 1) (.next s) r fit := by
  rcases hf with hx | hf
  · exact .inl (hx.of_reaches (.step h))
  · match r, hf with
    | .ok a w, hf => exact Follows.step h (.inr hf)
    | .error (.trap t) w, hf => exact Follows.step h (.inr hf)
    | .error .spent w, hn => exact .inr (by rw [Machine.runFrom, h, hn])

theorem mono {fuel' : Nat} (hf : Follows m p fuel q r fit) (h : fuel' ≤ fuel) :
    Follows m p fuel' q r fit := by
  rcases hf with hx | hf
  · exact .inl hx
  · right
    match r, hf with
    | .ok a w, hf => exact hf
    | .error (.trap t) w, hf => exact hf
    | .error .spent w, hn =>
      cases hr : m.runFrom fuel' q with
      | none => rfl
      | some r =>
        rw [Machine.runFrom_mono hr h] at hn
        cases hn

/-- The machine may go on after the evaluation. -/
theorem imp {fit' : α → World σ → State σ → Prop} (hf : Follows m p fuel q r fit)
    (h : ∀ a w s, fit a w s → ∃ s', m.Reaches (.next s) (.next s') ∧ fit' a w s') :
    Follows m p fuel q r fit' := by
  rcases hf with hx | hf
  · exact .inl hx
  · right
    match r, hf with
    | .ok a w, ⟨s, hr, hfit⟩ =>
      obtain ⟨s', hr', hfit'⟩ := h a w s hfit
      exact ⟨s', hr.trans hr', hfit'⟩
    | .error (.trap t) w, hf => exact hf
    | .error .spent w, hf => exact hf

/-- What comes after an evaluation that is done. -/
theorem trans {a : α} {r' : EStateM.Result Stop (World σ) β} (h : Follows m p fuel q (.ok a w) fit)
    (hf : ∀ s, fit a w s → Follows m p fuel (.next s) r' fit') : Follows m p fuel q r' fit' := by
  rcases h with hx | ⟨s, hr, hfit⟩
  · exact .inl hx
  · exact (hf s hfit).reaches hr

theorem error {e : Stop} (h : Follows m p fuel q (.error e w) fit) :
    Follows m p fuel q (.error e w) fit' := by
  cases e <;> exact h

theorem bind_run {x : Eval σ α} {f : α → Eval σ β} (hx : Follows m p fuel q (x w) fit)
    (hf : ∀ a w' s, x w = .ok a w' → fit a w' s → Follows m p fuel (.next s) (f a w') fit') :
    Follows m p fuel q ((x >>= f) w) fit' := by
  simp only [Bind.bind, EStateM.bind]
  cases hw : x w with
  | ok a w' =>
    rw [hw] at hx
    exact hx.trans fun s hs => hf a w' s hw hs
  | error e w' =>
    rw [hw] at hx
    exact hx.error

theorem bind {x : Eval σ α} {f : α → Eval σ β} (hx : Follows m p fuel q (x w) fit)
    (hf : ∀ a w' s, fit a w' s → Follows m p fuel (.next s) (f a w') fit') :
    Follows m p fuel q ((x >>= f) w) fit' :=
  hx.bind_run fun a w' s _ hs => hf a w' s hs

end Follows

/-- The names of a body have their values in the variables of its call. -/
structure Valuation.Agrees (l : Valuation) (slots : List String) (ls : Bindings Word) : Prop where
  slots : ∀ x ∈ slots, ls.find? x = some (l x)
  scratch : ls.contains Symbol.scratch = true

section

variable (p : Program) (k : Spot) (slots : List String) (ls : Bindings Word) (st : List Word)
  (rest : List Instr)

/-- What is left to run is `rest`. -/
def Passed (_ : Unit) (w : World σ) (q : State σ) : Prop :=
  ∃ s, w.Agrees p s ∧ q = k.state ls st rest s

def Pushed (v : Word) (w : World σ) (q : State σ) : Prop :=
  ∃ s, w.Agrees p s ∧ q = k.state ls (v :: st) rest s

/-- What is left to run is `rest`, with variables that may have changed. -/
def Arrived (l : Valuation) (w : World σ) (q : State σ) : Prop :=
  ∃ ls s, l.Agrees slots ls ∧ w.Agrees p s ∧ q = k.state ls st rest s

def Returned (v : Word) (w : World σ) (q : State σ) : Prop :=
  ∃ ls st s, w.Agrees p s ∧ q = k.done ls (v :: st) s

/-- Statements go on with `rest`, or they return where they may. -/
def Flowed (v : Vocabulary) (f : Flow) (w : World σ) (q : State σ) : Prop :=
  match f with
  | .next l => Arrived p k v.locals st rest l w q
  | .ret a => v.returns = true ∧ Returned p k a w q

end

end TypedScript
