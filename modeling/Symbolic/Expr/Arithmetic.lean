import Symbolic.Expr.Constructors

/-!
Subtraction, negation and division, by way of sums, products and powers.
-/

namespace Symbolic.Expr

def plus (a b : Expr) : Expr := sumOf [a, b]

def times (a b : Expr) : Expr := productOf [a, b]

def negate (a : Expr) : Expr := productOf [const (-1), a]

def subtract (a b : Expr) : Expr := sumOf [a, negate b]

def divide (a b : Expr) : Expr := productOf [a, powOf b (const (-1))]

instance : Add Expr := ⟨plus⟩
instance : Sub Expr := ⟨subtract⟩
instance : Mul Expr := ⟨times⟩
instance : Div Expr := ⟨divide⟩
instance : Neg Expr := ⟨negate⟩

end Symbolic.Expr
