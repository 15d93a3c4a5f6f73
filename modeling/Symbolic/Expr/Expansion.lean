import Symbolic.Expr.Substitution

/-!
Expansion: calls of named functions give way to the bodies, with the arguments in place of the
parameters, and the calls in the bodies likewise, to a given depth.
-/

namespace Symbolic.Expr

mutual

/-- No call occurs. -/
def isAtomic : Expr → Bool
  | const _ | var _ _ => true
  | sum es => allAtomic es
  | product es => allAtomic es
  | pow b p => isAtomic b && isAtomic p
  | apply _ e => isAtomic e
  | call _ _ _ _ => false

def allAtomic : List Expr → Bool
  | [] => true
  | e :: es => isAtomic e && allAtomic es

end

mutual

/-- Expand the calls, `again` expanding each body once the arguments are in place. What is atomic
stays as it is; all else is rebuilt by the constructors. -/
def expandWith (again : Expr → Expr) : Expr → Expr
  | const c => const c
  | var s k => var s k
  | sum es => if allAtomic es then sum es else sumOf (expandListWith again es)
  | product es => if allAtomic es then product es else productOf (expandListWith again es)
  | pow b p =>
    if isAtomic b && isAtomic p then pow b p
    else powOf (expandWith again b) (expandWith again p)
  | apply f e => if isAtomic e then apply f e else applyOf f (expandWith again e)
  | call _ ps b es => (again (substitutePairs (ps.zip (expandListWith again es)) b)).copied

def expandListWith (again : Expr → Expr) : List Expr → List Expr
  | [] => []
  | e :: es => expandWith again e :: expandListWith again es

end

def expandWithin : Nat → Expr → Expr
  | 0, e => e
  | n + 1, e => expandWith (expandWithin n) e

end Symbolic.Expr
