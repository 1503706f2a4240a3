import TypedScript.Error
import TypedScript.Symbol

/-! # Hosts

A host answers the calls that a running program makes to its imports. Every import takes one word
and gives one back, and the printing ones write a line.
-/

namespace TypedScript

inductive HostFunction
  | printNum | printBool | printNone | notOperator
  deriving DecidableEq, Repr

namespace HostFunction

def name : HostFunction → String
  | .printNum => Symbol.printNum
  | .printBool => Symbol.printBool
  | .printNone => Symbol.printNone
  | .notOperator => Symbol.notOperator

def all : List HostFunction := [.printNum, .printBool, .printNone, .notOperator]

def ofName? (s : String) : Option HostFunction := all.find? (·.name == s)

def output? (f : HostFunction) (arg : Word) : Option String :=
  match f with
  | .printNum => some arg.text
  | .printBool => some (if arg = 0 then "False" else "True")
  | .printNone => some "None"
  | .notOperator => none

def result (f : HostFunction) (arg : Word) : Word :=
  match f with
  | .notOperator => Word.ofBool (arg = 0)
  | .printNum | .printBool | .printNone => arg

end HostFunction

/-- The common answer to a call: it is observed, and then its line is written if it prints one. -/
def HostFunction.answer {σ : Type} (observe : HostFunction → Word → σ → σ)
    (writeLine : String → σ → Except Trap Unit × σ) (f : HostFunction) (arg : Word) (s : σ) :
    Except Trap Word × σ :=
  let s := observe f arg s
  match f.output? arg with
  | none => (.ok (f.result arg), s)
  | some line =>
    match writeLine line s with
    | (.ok (), s) => (.ok (f.result arg), s)
    | (.error t, s) => (.error t, s)

/-- What a host with state `σ` does: it sees every call, and it may fail to write a line. It may
also have answers of its own. -/
structure Host (σ : Type) where
  observe : HostFunction → Word → σ → σ
  writeLine : String → σ → Except Trap Unit × σ
  call : HostFunction → Word → σ → Except Trap Word × σ := HostFunction.answer observe writeLine

structure Recording where
  calls : Array (HostFunction × Word)
  lines : Array String
  deriving DecidableEq, Repr

namespace Recording

def empty : Recording := ⟨#[], #[]⟩

def observe (f : HostFunction) (arg : Word) (r : Recording) : Recording :=
  { r with calls := r.calls.push (f, arg) }

def host : Host Recording where
  observe := observe
  writeLine line r := (.ok (), { r with lines := r.lines.push line })

/-- A recording host that fails once it holds `limit` lines. -/
def limitedHost (limit : Nat) : Host Recording where
  observe := observe
  writeLine line r :=
    if r.lines.size < limit then (.ok (), { r with lines := r.lines.push line })
    else (.error (.host s!"line limit reached: {line}"), r)

def args (r : Recording) (f : HostFunction) : List Word :=
  (r.calls.toList.filter (·.1 == f)).map (·.2)

def output (r : Recording) : String := String.join (r.lines.toList.map (· ++ "\n"))

end Recording

end TypedScript
