import TypedScript.Program.Parts

/-! # Induction on expressions and statements

Hypotheses about the parts that stand in lists are given for every member. -/

namespace TypedScript

@[induction_eliminator]
theorem Expr.induction {motive : Expr → Prop}
    (literal : ∀ n l, motive (.literal n l))
    (name : ∀ n x, motive (.name n x))
    (unary : ∀ n op e, motive e → motive (.unary n op e))
    (binary : ∀ n op l r, motive l → motive r → motive (.binary n op l r))
    (call : ∀ n callee args, (∀ a ∈ args, motive a) → motive (.call n callee args))
    (builtin1 : ∀ n fn e, motive e → motive (.builtin1 n fn e))
    (builtin2 : ∀ n fn l r, motive l → motive r → motive (.builtin2 n fn l r))
    (construct : ∀ n c, motive (.construct n c))
    (field : ∀ n object f, motive object → motive (.field n object f))
    (method : ∀ n object m args, motive object → (∀ a ∈ args, motive a) →
      motive (.method n object m args))
    (print : ∀ n args, (∀ a ∈ args, motive a) → motive (.print n args)) (e : Expr) : motive e :=
  @Expr.rec motive (fun es => ∀ a ∈ es, motive a) literal name unary binary call builtin1 builtin2
    construct field method print (by simp) (fun _ _ he hes => by simp [he]; exact hes) e

@[induction_eliminator]
theorem Stmt.induction {motive : Stmt → Prop}
    (assign : ∀ span target value, motive (.assign span target value))
    (branch : ∀ span condition body elseIf otherwise, (∀ s ∈ body, motive s) →
      (∀ c b, elseIf = some (c, b) → ∀ s ∈ b, motive s) →
      (∀ b, otherwise = some b → ∀ s ∈ b, motive s) →
      motive (.branch span condition body elseIf otherwise))
    (loop : ∀ span condition body, (∀ s ∈ body, motive s) → motive (.loop span condition body))
    (pass : ∀ span, motive (.pass span))
    (ret : ∀ span value, motive (.ret span value))
    (expr : ∀ value, motive (.expr value))
    (declare : ∀ d, motive (.declare d))
    (func : ∀ f, motive (.func f))
    (cls : ∀ c, motive (.cls c)) (s : Stmt) : motive s :=
  @Stmt.rec motive (fun ss => ∀ s ∈ ss, motive s)
    (fun e => ∀ c b, e = some (c, b) → ∀ s ∈ b, motive s)
    (fun o => ∀ b, o = some b → ∀ s ∈ b, motive s) (fun _ => True) (fun _ => True)
    (fun e => ∀ s ∈ e.2, motive s) (fun _ => True) assign branch loop pass ret expr declare
    (fun f _ => func f) (fun c _ => cls c) (by simp) (fun _ _ hs hss => by simp [hs]; exact hss)
    (by simp) (fun e he => by rintro c b ⟨⟩; exact he) (by simp)
    (fun b hb => by rintro _ ⟨⟩; exact hb) (fun _ _ _ _ _ _ => trivial)
    (fun _ _ _ _ _ => trivial) (fun _ _ h => h) trivial (fun _ _ _ _ => trivial) s

namespace Expr

def isNone : Expr → Bool
  | literal _ .none | name _ .none => true
  | _ => false

theorem mem_partsList {es : List Expr} {q : Expr} :
    q ∈ partsList es ↔ ∃ e ∈ es, q ∈ e.parts := by
  induction es with
  | nil => simp [partsList]
  | cons e rest ih => simp [partsList, ih]

end Expr

namespace Stmt

theorem mem_partsBody {ss : List Stmt} {q : Expr} :
    q ∈ partsBody ss ↔ ∃ s ∈ ss, q ∈ s.parts := by
  induction ss with
  | nil => simp [partsBody]
  | cons s rest ih => simp [partsBody, ih]

end Stmt

end TypedScript
