import TypedScript.Program
import TypedScript.Walk.Stmt

/-! # Reading programs

A script is read child by child. Functions and classes are set apart, and the declarations with
which the rest begins become the global variables of the program.
-/

namespace TypedScript

inductive ScriptItem
  | func (f : FuncDef)
  | cls (c : ClassDef)
  | assign (a : Assignment)
  | stmt (s : Stmt)
  deriving Repr

namespace ScriptItem

def func? : ScriptItem → Option FuncDef
  | .func f => some f
  | _ => none

def cls? : ScriptItem → Option ClassDef
  | .cls c => some c
  | _ => none

def stmt? : ScriptItem → Option Stmt
  | .assign a => some a.stmt
  | .stmt s => some s
  | _ => none

/-- Splits off the declarations with which a script begins; functions and classes do not count. -/
def hoist : List ScriptItem → List VarDef × List Stmt
  | [] => ([], [])
  | .assign a :: rest =>
    match a.varDef? with
    | some d =>
      let (vars, stmts) := hoist rest
      (d :: vars, stmts)
    | none => ([], a.stmt :: rest.filterMap stmt?)
  | .stmt s :: rest => ([], s :: rest.filterMap stmt?)
  | .func _ :: rest | .cls _ :: rest => hoist rest

end ScriptItem

namespace Program

def ofItems (items : List ScriptItem) : Program where
  vars := (ScriptItem.hoist items).1
  funcs := items.filterMap ScriptItem.func?
  classes := items.filterMap ScriptItem.cls?
  stmts := (ScriptItem.hoist items).2
  ty := none

end Program

namespace Walk

def scriptItem (n : Nat) : Walk ScriptItem := do
  match ← kind with
  | "FunctionDefinition" => return .func (← funcDef (stmt n) none)
  | "ClassDefinition" => return .cls (← classDef (stmt n) (expr n))
  | "AssignStatement" => return .assign (← assignment (expr n))
  | _ => return .stmt (← stmt n)

def script (n : Nat) : Walk Program := do
  if (← kind) = "Script" then
    return Program.ofItems (← collect (some <$> scriptItem n))
  else unexpected "program"

def program : Walk Program := do
  let n := (← get).focus.height
  script n

end Walk

namespace Cursor

/-- The program under the cursor, and where the cursor stands afterwards. -/
def parse (c : Cursor) : Except (Located ParseError) Program × Cursor :=
  match Walk.program c with
  | .ok p c => (.ok p, c)
  | .error e c => (.error e, c)

end Cursor

namespace Program

def ofTree (t : Tree) : Except (Located ParseError) Program := (Cursor.ofTree t).parse.1

end Program

end TypedScript
