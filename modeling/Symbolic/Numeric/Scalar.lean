import Symbolic.Numeric.Operation
import Symbolic.Rational.Binary64

/-!
Numbers to compute with. Expressions are evaluated over any type that interprets the constants and
the operations; no law is asked of it. There are two such types, floats of 64 and of 32 bits.
-/

namespace Symbolic

/-- An interpretation of constants and operations. -/
class Scalar (α : Type) where
  /-- The result where there is none. -/
  undefined : α
  /-- The value of a constant. -/
  ofRat : Rat → α
  unary : UnaryOp → α → α
  binary : BinaryOp → α → α → α

/-! Operations that floats of every width have by comparison and division. What is not a number
differs from itself. -/

namespace Floating

variable {α : Type} [LT α] [DecidableLT α] [BEq α] [Neg α] [Div α] [OfNat α 0] [OfNat α 1]

def nan : α := 0 / 0

def isNaN (x : α) : Bool := !(x == x)

/-- One, minus one or zero, by the sign; not a number stays as it is. Zero loses its sign. -/
def sign (x : α) : α :=
  if isNaN x then x else if 0 < x then 1 else if x < 0 then -1 else 0

/-- The lesser of two numbers, the second if neither is less; not a number if one of them is not. -/
def min (x y : α) : α :=
  if isNaN x || isNaN y then nan else if x < y then x else y

/-- The greater of two numbers, the second if neither is greater; not a number if one of them is
not. -/
def max (x y : α) : α :=
  if isNaN x || isNaN y then nan else if y < x then x else y

end Floating

instance : Scalar Float where
  undefined := Floating.nan
  ofRat := Rational.nearest
  unary
    | .ln => Float.log
    | .sin => Float.sin
    | .cos => Float.cos
    | .tan => Float.tan
    | .sign => Floating.sign
    | .abs => Float.abs
    | .sqrt => Float.sqrt
    | .arcsin => Float.asin
    | .arccos => Float.acos
    | .arctan => Float.atan
  binary
    | .add => fun x y => x + y
    | .multiply => fun x y => x * y
    | .power => Float.pow
    | .log => fun x y => Float.log x / Float.log y
    | .min => Floating.min
    | .max => Floating.max

instance : Scalar Float32 where
  undefined := Floating.nan
  ofRat q := (Rational.nearest q).toFloat32
  unary
    | .ln => Float32.log
    | .sin => Float32.sin
    | .cos => Float32.cos
    | .tan => Float32.tan
    | .sign => Floating.sign
    | .abs => Float32.abs
    | .sqrt => Float32.sqrt
    | .arcsin => Float32.asin
    | .arccos => Float32.acos
    | .arctan => Float32.atan
  binary
    | .add => fun x y => x + y
    | .multiply => fun x y => x * y
    | .power => Float32.pow
    | .log => fun x y => Float32.log x / Float32.log y
    | .min => Floating.min
    | .max => Floating.max

end Symbolic
