import Symbolic.Expr.Basic
import Symbolic.Rational.Decimal

/-!
The outline of an expression: every node as a list of its kind and its operands, in the order in
which they are kept.
-/

namespace Symbolic.Expr

mutual

/-- The outline of an expression. Variables are marked by a dollar sign, called functions by an at
sign. -/
def outline : Expr → String
  | const c => Rational.text c
  | var s _ => "$" ++ s.name
  | sum es => "(+" ++ outlines es ++ ")"
  | product es => "(*" ++ outlines es ++ ")"
  | pow b p => "(^ " ++ outline b ++ " " ++ outline p ++ ")"
  | apply f e => "(" ++ f.name ++ " " ++ outline e ++ ")"
  | call f _ _ es => "(@" ++ f ++ outlines es ++ ")"

def outlines : List Expr → String
  | [] => ""
  | e :: es => " " ++ outline e ++ outlines es

end

end Symbolic.Expr
