import TypedScript.Code.Instr

/-! # Modules

A module is what a program is compiled to: its imports, its global variables and its functions.
-/

namespace TypedScript

inductive ImportKind
  | memory (pages : Nat)
  /-- A function that takes a word and gives one back. -/
  | func
  deriving DecidableEq, Repr

structure Import where
  origin : String
  name : String
  kind : ImportKind
  deriving DecidableEq, Repr

structure Global where
  name : String
  init : Word
  deriving DecidableEq, Repr

structure Func where
  name : String
  exportName : Option String
  params : List String
  hasResult : Bool
  locals : List String
  body : List Instr
  deriving Repr

structure Module where
  imports : List Import
  globals : List Global
  functions : List Func
  deriving Repr

namespace Import

def text (i : Import) : String :=
  match i.kind with
  | .memory pages =>
    "(import \"" ++ i.origin ++ "\" \"" ++ i.name ++ "\" (memory " ++ toString pages ++ "))"
  | .func =>
    "(func $" ++ i.name ++ " (import \"" ++ i.origin ++ "\" \"" ++ i.name ++
      "\") (param i32) (result i32))"

end Import

namespace Global

def text (g : Global) : String :=
  "(global $" ++ g.name ++ " (mut i32) (i32.const " ++ g.init.text ++ "))"

end Global

namespace Func

def hasSlot (f : Func) (name : String) : Bool :=
  f.params.contains name || f.locals.contains name

def exportText (f : Func) : String :=
  match f.exportName with
  | some name => " (export \"" ++ name ++ "\")"
  | none => ""

def paramsText (f : Func) : String :=
  String.join (f.params.map fun p => " (param $" ++ p ++ " i32)")

def resultText (f : Func) : String := if f.hasResult then " (result i32)" else ""

def localsText (f : Func) : String :=
  String.join (f.locals.map fun l => Text.pad 1 ++ "(local $" ++ l ++ " i32)\n")

def text (f : Func) : String :=
  "(func $" ++ f.name ++ f.exportText ++ f.paramsText ++ f.resultText ++ "\n" ++
    f.localsText ++ Instr.bodyText 1 f.body ++ ")"

end Func

namespace Module

def function? (m : Module) (name : String) : Option Func := m.functions.find? (·.name == name)

def export? (m : Module) (name : String) : Option Func :=
  m.functions.find? (·.exportName == some name)

def global? (m : Module) (name : String) : Option Global := m.globals.find? (·.name == name)

def memoryPages? (m : Module) : Option Nat :=
  m.imports.findSome? fun i =>
    match i.kind with
    | .memory pages => some pages
    | .func => none

def importsFunc (m : Module) (name : String) : Bool :=
  m.imports.any fun i => i.kind == .func && i.name == name

def indented (lines : List String) : String :=
  String.join (lines.map fun l => Text.pad 1 ++ l ++ "\n")

def text (m : Module) : String :=
  "(module\n" ++ indented (m.imports.map (·.text)) ++ indented (m.globals.map (·.text)) ++
    String.join (m.functions.map fun f => indented (Text.lines f.text)) ++ ")\n"

end Module

end TypedScript
