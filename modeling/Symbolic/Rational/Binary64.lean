/-!
Binary floating point of 64 bits and the rationals. `nearest` rounds a rational to the nearest
float, a tie to the even neighbour; `ofFloat?` is the value of a finite float.
-/

namespace Symbolic.Rational

/-- `n / d` to the nearest natural, a tie to the even neighbour. -/
def roundHalfEven (n d : Nat) : Nat :=
  let q := n / d
  let r := n % d
  if 2 * r < d then q else if d < 2 * r then q + 1 else q + q % 2

/-- `n / (d * 2 ^ e)` as a quotient of naturals. -/
def scaled (n d : Nat) (e : Int) : Nat × Nat :=
  if 0 ≤ e then (n, d <<< e.toNat) else (n <<< (-e).toNat, d)

/-- The exponent `e` for which `n / (d * 2 ^ e)` has 53 binary digits, but no less than that of
the smallest float. -/
def unitExponent (n d : Nat) : Int :=
  let e : Int := (n.log2 : Int) - d.log2 - 52
  let (a, b) := scaled n d e
  max (-1074) (if a < b <<< 52 then e - 1 else e)

def infinityBits : Nat := 0x7ff <<< 52

/-- The bits of the float nearest to `n / d`, for `n` and `d` positive. A significand that rounds
up to the next power of two carries into the exponent, and one past the last exponent becomes
infinity. -/
def magnitudeBits (n d : Nat) : Nat :=
  let e := unitExponent n d
  let (a, b) := scaled n d e
  min infinityBits ((e + 1074).toNat <<< 52 + roundHalfEven a b)

/-- The bits of the float nearest to `q`; a negative number that rounds to zero keeps its sign. -/
def nearestBits (q : Rat) : UInt64 :=
  if q.num = 0 then 0
  else UInt64.ofNat (magnitudeBits q.num.natAbs q.den + if q.num < 0 then 1 <<< 63 else 0)

def nearest (q : Rat) : Float :=
  Float.ofBits (nearestBits q)

/-- The eleven bits of the exponent; all of them are set in infinities and in what is no number. -/
def exponentField (bits : UInt64) : Nat := bits.toNat >>> 52 % 0x800

/-- The 52 bits of the fraction. -/
def fractionField (bits : UInt64) : Nat := bits.toNat % 1 <<< 52

/-- The significand: the fraction, below a leading digit where the exponent is not the least. -/
def significand (bits : UInt64) : Nat :=
  if exponentField bits = 0 then fractionField bits else fractionField bits + 1 <<< 52

/-- The value that the bits of a finite float stand for: the significand at the scale of the
exponent. -/
def ofBits? (bits : UInt64) : Option Rat :=
  if exponentField bits = 0x7ff then none
  else
    let scale := max (exponentField bits) 1 - 1
    let magnitude := mkRat (significand bits <<< scale : Nat) (1 <<< 1074)
    some (if bits.toNat < 1 <<< 63 then magnitude else -magnitude)

def ofFloat? (x : Float) : Option Rat :=
  ofBits? x.toBits

end Symbolic.Rational
