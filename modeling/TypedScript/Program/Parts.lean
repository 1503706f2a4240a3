import TypedScript.Program

/-! # Expressions of a program

Every expression that occurs in a program, at any depth. Definitions nested in statements are left
out: no program that has them is accepted.
-/

namespace TypedScript

namespace Expr

mutual
def parts : Expr → List Expr
  | literal n l => [literal n l]
  | name n x => [name n x]
  | unary n op e => unary n op e :: parts e
  | binary n op l r => binary n op l r :: (parts l ++ parts r)
  | call n callee args => call n callee args :: partsList args
  | builtin1 n fn e => builtin1 n fn e :: parts e
  | builtin2 n fn l r => builtin2 n fn l r :: (parts l ++ parts r)
  | construct n c => [construct n c]
  | field n object f => field n object f :: parts object
  | method n object m args => method n object m args :: (parts object ++ partsList args)
  | print n args => print n args :: partsList args

def partsList : List Expr → List Expr
  | [] => []
  | e :: es => parts e ++ partsList es
end

end Expr

namespace Target

def parts : Target → List Expr
  | .name _ => []
  | .field object _ => object.parts

end Target

namespace Stmt

mutual
def parts : Stmt → List Expr
  | assign _ target value => target.parts ++ value.parts
  | branch _ condition body elseIf otherwise =>
    condition.parts ++ partsBody body ++ partsElseIf elseIf ++ partsOtherwise otherwise
  | loop _ condition body => condition.parts ++ partsBody body
  | ret _ value => value.parts
  | expr value => value.parts
  | declare d => d.value.parts
  | pass _ | func _ | cls _ => []

def partsBody : List Stmt → List Expr
  | [] => []
  | s :: ss => parts s ++ partsBody ss

def partsElseIf : Option (Expr × List Stmt) → List Expr
  | none => []
  | some (condition, body) => condition.parts ++ partsBody body

def partsOtherwise : Option (List Stmt) → List Expr
  | none => []
  | some body => partsBody body
end

end Stmt

namespace Program

def bodies (p : Program) : List FuncDef := p.funcs ++ p.classes.flatMap (·.methods)

def parts (p : Program) : List Expr :=
  p.bodies.flatMap (fun f => Stmt.partsBody f.body) ++ Stmt.partsBody p.stmts

end Program

end TypedScript
