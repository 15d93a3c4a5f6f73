import Symbolic.Expr.Arithmetic
import Symbolic.Expr.Same

/-!
The functions that are defined from the start. Each has a body of primitives, by which it is
expanded and searched; where numbers are computed it is recognised and computed directly.
-/

namespace Symbolic

open Symbolic.Expr

def half : Expr := powOf (const 2) (const (-1))

/-- The cosine of `t` by the sine of its half: `1 - 2 * sin(t / 2) ^ 2`. -/
def cosineBody (t : Expr) : Expr :=
  subtract (const 1) (productOf [const 2, powOf (applyOf .sin (productOf [half, t])) (const 2)])

/-- The magnitude of `t`: `t * sign(t)`. -/
def magnitudeBody (t : Expr) : Expr :=
  productOf [t, applyOf .sign t]

/-- The difference of `x` and `y` without its sign. -/
def spread : Expr := magnitudeBody (subtract (ofName "x") (ofName "y"))

def cosine : Definition :=
  .ofNames "cos" ["x"] (cosineBody (ofName "x"))

def tangent : Definition :=
  .ofNames "tan" ["x"] (divide (applyOf .sin (ofName "x")) (cosineBody (ofName "x")))

def squareRoot : Definition :=
  .ofNames "sqrt" ["x"] (powOf (ofName "x") half)

def magnitude : Definition :=
  .ofNames "abs" ["x"] (magnitudeBody (ofName "x"))

/-- Half of what the sum exceeds the spread. -/
def minimum : Definition :=
  .ofNames "min" ["x", "y"]
    (productOf [half, subtract (sumOf [ofName "x", ofName "y"]) spread])

/-- Half of the sum and the spread. -/
def maximum : Definition :=
  .ofNames "max" ["x", "y"] (productOf [half, sumOf [ofName "x", ofName "y", spread]])

/-- The logarithm of the first argument to the base of the second. -/
def logarithm : Definition :=
  .ofNames "log" ["y", "x"] (divide (applyOf .ln (ofName "y")) (applyOf .ln (ofName "x")))

def arccosine : Definition :=
  .ofNames "arccos" ["x"]
    (subtract (applyOf .arcsin (const 1)) (applyOf .arcsin (ofName "x")))

/-- The functions that are defined from the start. -/
inductive Builtin where
  | cos
  | tan
  | sqrt
  | abs
  | min
  | max
  | log
  | arccos
deriving DecidableEq

namespace Builtin

def all : List Builtin := [cos, tan, sqrt, abs, min, max, log, arccos]

def definition : Builtin → Definition
  | cos => cosine
  | tan => tangent
  | sqrt => squareRoot
  | abs => magnitude
  | min => minimum
  | max => maximum
  | log => logarithm
  | arccos => arccosine

def name : Builtin → String
  | cos => "cos"
  | tan => "tan"
  | sqrt => "sqrt"
  | abs => "abs"
  | min => "min"
  | max => "max"
  | log => "log"
  | arccos => "arccos"

def ofName? (s : String) : Option Builtin :=
  all.find? (·.name == s)

/-- The function that a definition is. A definition that takes the name alone is not the function. -/
def ofDefinition? (f : Definition) : Option Builtin :=
  (ofName? f.name).filter fun b => b.definition.same f

end Builtin

/-- The call of a function, whatever the number of arguments. -/
def Definition.on (f : Definition) (args : List Expr) : Expr :=
  .call f.name f.params f.body args

def Builtin.on (b : Builtin) (args : List Expr) : Expr :=
  b.definition.on args

end Symbolic
