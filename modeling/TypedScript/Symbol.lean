/-! # Symbols

The names under which things stand in an emitted module. Names with a dot cannot be written in a
script and are kept for the module's own use.
-/

namespace TypedScript.Symbol

/-- The global that holds the first free address of the heap. -/
def heapPointer : String := "rt.heap"

/-- The local that takes the value of a bare expression. -/
def scratch : String := "rt.scratch"

def entry : String := "rt.start"

def memory : String := "mem"

def printNum : String := "print_num"

def printBool : String := "print_bool"

def printNone : String := "print_none"

def notOperator : String := "not_operator"

/-- The imported functions in the order of their declaration. -/
def hostFunctions : List String := [printNum, printBool, printNone, notOperator]

/-- The function of a method. Different methods may come out with one name. -/
def method (className method : String) : String := method ++ "_" ++ className

end TypedScript.Symbol
