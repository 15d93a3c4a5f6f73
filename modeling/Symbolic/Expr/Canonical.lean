import Symbolic.Expr.Gather
import Symbolic.Expr.Order
import Symbolic.Rational.Power
import Symbolic.Rational.Decimal

/-!
Canonical form. In sums and products nested ones are opened, constants are folded exactly, like
terms and like powers are merged, and operands are sorted; powers are folded and spread.

The constructors of sums, products and powers need one another: a sum scales a base by a product, a
product adds exponents by a sum and raises a base by a power, and a power is spread over a product.
Here each is written as a body over the constructors it needs.
-/

namespace Symbolic.Expr

def constants (es : List Expr) : List Rat := es.filterMap const?

def nonConstants (es : List Expr) : List Expr := es.filter fun e => !e.isConst

/-- The list with the constant `c` at its end, unless that is the `unit` of the operation. -/
def withConst (unit c : Rat) (es : List Expr) : List Expr :=
  if c = unit then es else es ++ [const c]

/-- The node over the sorted operands, or the only operand, or the `unit` for none. -/
def finish (unit : Rat) (node : List Expr → Expr) : List Expr → Expr
  | [] => const unit
  | [e] => e.copied
  | es => node (sorted es)

/-- A group of like terms as one term: none if the coefficients cancel. -/
def likeTerm (product : List Expr → Option Expr) (g : Group Rat) : Option (Option Expr) :=
  let c := g.parts.foldr (· + ·) 0
  if c = 0 then some none
  else if c = 1 then some (some g.base)
  else (product [const c, g.base]).map some

/-- The sum of a list, by the constructors of products and of sums. The sum is taken once more when
a merged term is itself a sum or a constant. -/
def sumBody (product again : List Expr → Option Expr) (ts : List Expr) : Option Expr := do
  let flat := ts.flatMap terms
  let merged ← (gather asMultiple (nonConstants flat)).mapM (likeTerm product)
  let kept := merged.filterMap id
  let all := withConst 0 ((constants flat).foldr (· + ·) 0) kept
  if kept.any fun e => e.isSum || e.isConst then again all else some (finish 0 sum all)

/-- A group of like powers as one factor: none if the exponents cancel. A factor that is alone in
its group stays as it is. -/
def likePower (sum : List Expr → Option Expr) (pow : Expr → Expr → Option Expr) (g : Group Expr) :
    Option (Option Expr) :=
  match g.parts with
  | [_] => some (some g.first)
  | ps => do
    let p ← sum ps
    match p with
    | const c =>
      if c = 0 then some none
      else if c = 1 then some (some g.base)
      else (pow g.base p).map some
    | p => (pow g.base p).map some

/-- The product of a list, by the constructors of sums, products and powers. The product is taken
once more when a merged factor is itself a product or a constant. -/
def productBody (sum again : List Expr → Option Expr) (pow : Expr → Expr → Option Expr)
    (fs : List Expr) : Option Expr :=
  let flat := fs.flatMap factors
  let c := (constants flat).foldr (· * ·) 1
  if c = 0 then some (const 0)
  else do
    let merged ← (gather asPower (nonConstants flat)).mapM (likePower sum pow)
    let kept := merged.filterMap id
    let all := withConst 1 c kept
    if kept.any fun e => e.isProduct || e.isConst then again all else some (finish 1 product all)

/-- The value of a constant power of a constant, where it is exact. -/
def foldedPower? (base : Expr) (p : Rat) : Option Rat :=
  match base with
  | const b => if b = 0 && 0 ≤ p then some 0 else Rational.exactPower? b p
  | _ => none

/-- A power that does not fold: every power of one is one. -/
def barePow (base power : Expr) : Expr :=
  match base with
  | const b => if b = 1 then const 1 else pow base power
  | _ => pow base power

/-- The power of a base, by the constructors of products and of powers. An integer power of a power
multiplies the exponents, and one of a product is spread over the factors. -/
def powBody (product : List Expr → Option Expr) (again : Expr → Expr → Option Expr)
    (base power : Expr) : Option Expr :=
  match power with
  | const p =>
    if p = 0 then some (const 1)
    else if p = 1 then some base.copied
    else match foldedPower? base p with
      | some c => some (const c)
      | none =>
        if p.den = 1 then
          match base with
          | pow b q => do again b (← product [q, power])
          | .product fs => do product (← fs.mapM fun f => again f power)
          | _ => some (barePow base power)
        else some (barePow base power)
  | _ => some (barePow base power)

end Symbolic.Expr
