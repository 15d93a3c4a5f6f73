/-!
Exact powers of rationals. `exactPower?` raises a rational to a rational exponent when the result
is itself rational and the exponent is small; roots are found bit by bit in the naturals.
-/

namespace Symbolic.Rational

def maxPower : Nat := 64

def maxDegree : Nat := 64

/-- Settle the lowest `k` bits of the root, given the bits `r` above them: a bit stays when the
power does not pass `n`. -/
def rootBits (n q : Nat) : Nat → Nat → Nat
  | 0, r => r
  | k + 1, r => rootBits n q k (if Nat.pow (r + 1 <<< k) q ≤ n then r + 1 <<< k else r)

def natRoot (n q : Nat) : Nat :=
  rootBits n q (n.log2 / q + 1) 0

/-- The integer root of `z` of degree `q`, rounded toward zero. -/
def intRoot (z : Int) (q : Nat) : Int :=
  if z < 0 then -(natRoot z.natAbs q : Int) else natRoot z.natAbs q

def exactRoot? (z : Int) (q : Nat) : Option Int :=
  if Int.pow (intRoot z q) q = z then some (intRoot z q) else none

/-- The root of degree `q` of a rational: roots of numerator and denominator, where both are
perfect powers. A negative number has no root of even degree. -/
def root? (b : Rat) (q : Nat) : Option Rat :=
  if q = 1 then some b
  else if b.num < 0 && q % 2 == 0 then none
  else do
    let n ← exactRoot? b.num q
    let d ← exactRoot? b.den q
    return Rat.divInt n d

/-- `b ^ p` as a rational. Zero has positive powers only; other bases need an exact root. -/
def exactPower? (b p : Rat) : Option Rat :=
  if p.den > maxDegree || p.num.natAbs > maxPower then none
  else if b = 0 then (if 0 < p.num then some 0 else none)
  else (root? b p.den).map (· ^ p.num)

end Symbolic.Rational
