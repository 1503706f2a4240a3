import TypedScript.Code.Module
import TypedScript.Program.Expr

/-! # Built-in functions

The functions that a module brings along for the built-ins its program calls.
-/

namespace TypedScript

inductive Builtin
  | abs | max | min | pow
  deriving DecidableEq, Repr

namespace Builtin

def all : List Builtin := [.abs, .max, .min, .pow]

def symbol : Builtin → String
  | .abs => "rt.abs"
  | .max => "rt.max"
  | .min => "rt.min"
  | .pow => "rt.pow"

def absBody : List Instr :=
  [.localGet "x", .const 0, .numeric .ltS,
    .ite [.const 0, .localGet "x", .numeric .sub, .ret] [],
    .localGet "x"]

/-- Gives `a` back if it compares to `b` as asked, else `b`. -/
def pickBody (cmp : NumericOp) : List Instr :=
  [.localGet "a", .localGet "b", .numeric cmp, .ite [.localGet "a", .ret] [], .localGet "b"]

/-- Multiplies as often as the exponent says; an exponent that is not positive gives one. -/
def powBody : List Instr :=
  [.const 1, .localSet "acc",
    .block [.loop [
      .localGet "exp", .const 0, .numeric .leS, .brIf 1,
      .localGet "acc", .localGet "base", .numeric .mul, .localSet "acc",
      .localGet "exp", .const 1, .numeric .sub, .localSet "exp",
      .br 0]],
    .localGet "acc"]

def params : Builtin → List String
  | .abs => ["x"]
  | .max | .min => ["a", "b"]
  | .pow => ["base", "exp"]

def locals : Builtin → List String
  | .pow => ["acc"]
  | _ => []

def body : Builtin → List Instr
  | .abs => absBody
  | .max => pickBody .gtS
  | .min => pickBody .ltS
  | .pow => powBody

def func (b : Builtin) : Func where
  name := b.symbol
  exportName := none
  params := b.params
  hasResult := true
  locals := b.locals
  body := b.body

/-- The functions of the built-ins in a set, always in the same order. -/
def funcs (used : Builtin → Bool) : List Func := (all.filter used).map func

end Builtin

namespace Builtin1

def builtin : Builtin1 → Builtin
  | .abs => .abs

end Builtin1

namespace Builtin2

def builtin : Builtin2 → Builtin
  | .max => .max
  | .min => .min
  | .pow => .pow

end Builtin2

end TypedScript
