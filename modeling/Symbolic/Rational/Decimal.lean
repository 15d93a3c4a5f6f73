/-!
Decimal text. `decimal?` reads a literal such as `12`, `0.25`, `3.` or `.5` exactly, and `text`
writes a rational as an integer or as a reduced fraction.
-/

namespace Symbolic.Rational

def digitsValue (n : Nat) (ds : List Char) : Nat :=
  ds.foldl (fun n d => 10 * n + (d.toNat - '0'.toNat)) n

/-- What stands before the first point and what stands after it. -/
def splitPoint (cs : List Char) : List Char × List Char :=
  (cs.takeWhile (· != '.'), (cs.dropWhile (· != '.')).drop 1)

/-- The most digits that may stand behind the point: they are counted in 32 bits. -/
def maxPlaces : Nat := 0xffffffff

/-- The exact value of a decimal literal: digits with at most one point among them, and at least
one digit. -/
def decimal? (s : String) : Option Rat :=
  let (whole, fraction) := splitPoint s.toList
  if whole.isEmpty && fraction.isEmpty then none
  else if !(whole ++ fraction).all Char.isDigit then none
  else if maxPlaces < fraction.length then none
  else some (mkRat (digitsValue 0 (whole ++ fraction)) (Nat.pow 10 fraction.length))

/-- `n`, or `n/d` in lowest terms with the sign on the numerator. -/
def text (q : Rat) : String :=
  if q.den = 1 then toString q.num else toString q.num ++ "/" ++ toString q.den

def signum (q : Rat) : Rat :=
  if q.num < 0 then -1 else if q.num = 0 then 0 else 1

def int64? (q : Rat) : Option Int :=
  if q.den = 1 && -0x8000000000000000 ≤ q.num && q.num < 0x8000000000000000 then some q.num else none

def reciprocal? (q : Rat) : Option Rat :=
  if q = 0 then none else some q⁻¹

end Symbolic.Rational
