import TypedScript.Proofs.Evaluation.Follows

/-! # Traces

The machine after each number of steps. -/

namespace TypedScript

namespace Progress

def store {σ : Type} : Progress σ → Store σ
  | .next s => s.store
  | .halt _ s => s

@[simp] theorem store_state {σ : Type} (k : Spot) (ls : Bindings Word) (st : List Word)
    (code : List Instr) (s : Store σ) : (next (k.state ls st code s)).store = s := rfl

@[simp] theorem store_halt {σ : Type} (r : Except Trap (Option Word)) (s : Store σ) :
    (halt r s).store = s := rfl

end Progress

namespace Machine

variable {σ : Type}

/-- A machine that has halted stays as it is. -/
def advance (m : Machine σ) : Progress σ → Progress σ
  | .next s => m.step s
  | .halt r s => .halt r s

/-- Where the machine is after so many steps. -/
def after (m : Machine σ) : Nat → Progress σ → Progress σ
  | 0, q => q
  | n + 1, q => m.after n (m.advance q)

def start (m : Machine σ) (name : String) (s : Store σ) : Progress σ :=
  match m.export? name with
  | some f => m.enter ⟨[], m.maxCallDepth, s⟩ f []
  | none => .halt (.error (.missingExport name)) s

variable {m : Machine σ} {q : Progress σ} {n i j : Nat} {s s' : Store σ}
  {r : Except Trap (Option Word)}

@[simp] theorem after_zero : m.after 0 q = q := rfl

@[simp] theorem after_halt : m.after n (.halt r s) = .halt r s := by
  induction n with
  | zero => rfl
  | succ n ih => exact ih

theorem after_add : m.after (i + j) q = m.after j (m.after i q) := by
  induction i generalizing q with
  | zero => rw [Nat.zero_add, after]
  | succ i ih => rw [Nat.succ_add, after, after, ih]

theorem after_succ : m.after (n + 1) q = m.advance (m.after n q) := after_add

theorem after_next (t : State σ) : m.after (n + 1) (.next t) = m.after n (m.step t) := rfl

/-- A run ends as its trace does. -/
theorem runFrom_eq_some_iff : m.runFrom n q = some (r, s) ↔ m.after n q = .halt r s := by
  induction n generalizing q with
  | zero => cases q <;> simp [runFrom]
  | succ n ih =>
    cases q with
    | next t => exact ih
    | halt r' s' => simp [runFrom]

theorem run_eq_some_iff {name : String} :
    m.run n name s = some (r, s') ↔ m.after n (m.start name s) = .halt r s' := by
  rw [run, start]
  cases m.export? name with
  | none => simp
  | some f => exact runFrom_eq_some_iff

end Machine

end TypedScript
