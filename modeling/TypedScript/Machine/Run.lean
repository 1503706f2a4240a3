import TypedScript.Machine.Step

/-! # Runs

A run takes steps until the machine halts. A program may run for ever, so runs are given fuel, and
how a run that halts ends does not depend on how much it was given.
-/

namespace TypedScript

abbrev Halted (σ : Type) := Except Trap (Option Word) × Store σ

namespace Machine

variable {σ : Type}

def ofModule (m : Module) (c : Config) (host : Host σ) : Machine σ := ⟨m, host, c.maxCallDepth⟩

/-- Takes at most `fuel` steps. -/
def runFrom (m : Machine σ) : Nat → Progress σ → Option (Halted σ)
  | _, .halt r store => some (r, store)
  | 0, .next _ => none
  | fuel + 1, .next s => m.runFrom fuel (m.step s)

def invoke (m : Machine σ) (fuel : Nat) (f : Func) (args : List Word) (s : Store σ) :
    Option (Halted σ) :=
  m.runFrom fuel (m.enter ⟨[], m.maxCallDepth, s⟩ f args)

def callFunction (m : Machine σ) (fuel : Nat) (name : String) (args : List Word) (s : Store σ) :
    Option (Halted σ) :=
  match m.function? name with
  | some f => m.invoke fuel f args s
  | none => some (.error (.unknownFunction name), s)

/-- Calls the function that is exported under a name, without arguments. -/
def run (m : Machine σ) (fuel : Nat) (name : String) (s : Store σ) : Option (Halted σ) :=
  match m.export? name with
  | some f => m.invoke fuel f [] s
  | none => some (.error (.missingExport name), s)

end Machine

end TypedScript
