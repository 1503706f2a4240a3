import TypedScript.Lowering.Program
import TypedScript.Machine.Run
import TypedScript.Tree.Event
import TypedScript.Typing.Program
import TypedScript.Walk.Script

/-! # From tree to result -/

namespace TypedScript

namespace Program

def compile (p : Program) (o : Options) : Except Error Module := do
  let typed ← p.check.mapError .typing
  (typed.lower o).mapError .lowering

end Program

namespace Cursor

def compile (c : Cursor) (o : Options) : Except Error Module := do
  let p ← c.parse.1.mapError .parse
  p.compile o

def compileText (c : Cursor) (o : Options) : Except Error String :=
  return (← c.compile o).text

end Cursor

namespace Module

def run {σ : Type} (m : Module) (fuel : Nat) (o : Options) (host : Host σ) (s : σ) (c : Config) :
    Option (Halted σ) :=
  (Machine.ofModule m c host).run fuel o.entryExport (Store.initial m c s)

end Module

end TypedScript
