import Symbolic.Numeric.Scalar
import Symbolic.Numeric.Valuation

/-!
The value of an expression. Operands are taken from left to right. In the body of a called function
the parameters have the values of the arguments; all other variables keep theirs.
-/

namespace Symbolic

/-- The value of an operation on a list of operands. -/
def Operation.value {α : Type} [Scalar α] : Operation → List α → α
  | unary f, [x] => Scalar.unary f x
  | binary f, [x, y] => Scalar.binary f x y
  | _, _ => Scalar.undefined

namespace Expr

variable {α : Type} [Scalar α]

mutual

def evaluate (vs : Valuation α) : Expr → Except Error α
  | const c => .ok (Scalar.ofRat c)
  | var s _ => vs.require s
  | sum [] => .ok (Scalar.ofRat 0)
  | sum (e :: es) => do evaluateRest vs .add (← evaluate vs e) es
  | product [] => .ok (Scalar.ofRat 1)
  | product (e :: es) => do evaluateRest vs .multiply (← evaluate vs e) es
  | pow b p => do return Scalar.binary .power (← evaluate vs b) (← evaluate vs p)
  | apply f e => do return Scalar.unary f.operation (← evaluate vs e)
  | call f ps b es => do
    let xs ← evaluateAll vs es
    match Definition.operation? ⟨f, ps, b⟩ es.length with
    | some op => return op.value xs
    | none => evaluate (vs.insertAll (ps.zip xs)) b

/-- Join further operands to `x`. -/
def evaluateRest (vs : Valuation α) (f : BinaryOp) (x : α) : List Expr → Except Error α
  | [] => .ok x
  | e :: es => do evaluateRest vs f (Scalar.binary f x (← evaluate vs e)) es

def evaluateAll (vs : Valuation α) : List Expr → Except Error (List α)
  | [] => .ok []
  | e :: es => do
    let x ← evaluate vs e
    return x :: (← evaluateAll vs es)

end

end Expr

end Symbolic
