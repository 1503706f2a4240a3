import TypedScript.Operator
import TypedScript.Text

/-! # Instructions

Code for a machine that works on a stack of words. Control instructions hold the code they control.
-/

namespace TypedScript

inductive NumericOp
  | add | sub | mul
  /-- Signed division toward zero. -/
  | divS
  | remS
  | eq | ne | ltS | leS | gtS | geS
  deriving DecidableEq, Repr

namespace NumericOp

def mnemonic : NumericOp → String
  | .add => "i32.add"
  | .sub => "i32.sub"
  | .mul => "i32.mul"
  | .divS => "i32.div_s"
  | .remS => "i32.rem_s"
  | .eq => "i32.eq"
  | .ne => "i32.ne"
  | .ltS => "i32.lt_s"
  | .leS => "i32.le_s"
  | .gtS => "i32.gt_s"
  | .geS => "i32.ge_s"

def all : List NumericOp := [.add, .sub, .mul, .divS, .remS, .eq, .ne, .ltS, .leS, .gtS, .geS]

def ofMnemonic? (s : String) : Option NumericOp := all.find? (·.mnemonic == s)

end NumericOp

namespace BinaryOp

def numeric : BinaryOp → NumericOp
  | .add => .add
  | .sub => .sub
  | .mul => .mul
  | .floorDiv => .divS
  | .mod => .remS
  | .less => .ltS
  | .lessEqual => .leS
  | .greater => .gtS
  | .greaterEqual => .geS
  | .equal | .is => .eq
  | .notEqual => .ne

end BinaryOp

inductive Instr
  | const (w : Word)
  | localGet (name : String)
  | localSet (name : String)
  | globalGet (name : String)
  | globalSet (name : String)
  | call (name : String)
  | numeric (op : NumericOp)
  | eqz
  | load
  | store
  /-- Takes a condition and runs the first body unless it is zero, else the second. -/
  | ite (body otherwise : List Instr)
  /-- A branch to a block leaves it. -/
  | block (body : List Instr)
  /-- A branch to a loop starts it again. -/
  | loop (body : List Instr)
  /-- Branches to the enclosing body with the given number of bodies in between. -/
  | br (depth : Nat)
  | brIf (depth : Nat)
  | ret
  | nop
  deriving Repr

namespace Instr

/-- A parenthesized instruction on a line of its own. -/
def line (depth : Nat) (content : String) : String := Text.pad depth ++ "(" ++ content ++ ")\n"

/-- A parenthesized group of lines under a head. -/
def group (depth : Nat) (head content : String) : String :=
  Text.pad depth ++ "(" ++ head ++ "\n" ++ content ++ Text.pad depth ++ ")\n"

mutual
def text (depth : Nat) : Instr → String
  | const w => line depth ("i32.const " ++ w.text)
  | localGet name => line depth ("local.get $" ++ name)
  | localSet name => line depth ("local.set $" ++ name)
  | globalGet name => line depth ("global.get $" ++ name)
  | globalSet name => line depth ("global.set $" ++ name)
  | call name => line depth ("call $" ++ name)
  | numeric op => line depth op.mnemonic
  | eqz => line depth "i32.eqz"
  | load => line depth "i32.load"
  | store => line depth "i32.store"
  | ite body [] => group depth "if" (group (depth + 1) "then" (bodyText (depth + 2) body))
  | ite body (i :: otherwise) =>
    group depth "if"
      (group (depth + 1) "then" (bodyText (depth + 2) body) ++
        group (depth + 1) "else" (text (depth + 2) i ++ bodyText (depth + 2) otherwise))
  | block body => group depth "block" (bodyText (depth + 1) body)
  | loop body => group depth "loop" (bodyText (depth + 1) body)
  | br d => line depth ("br " ++ toString d)
  | brIf d => line depth ("br_if " ++ toString d)
  | ret => line depth "return"
  | nop => line depth "nop"

def bodyText (depth : Nat) : List Instr → String
  | [] => ""
  | i :: is => text depth i ++ bodyText depth is
end

end Instr

end TypedScript
