import Symbolic.Expr.Builtin

/-!
The operations on numbers. Primitives and the functions that are defined from the start have one
each, so their bodies are not needed where numbers are computed.
-/

namespace Symbolic

inductive UnaryOp where
  | ln
  | sin
  | cos
  | tan
  | sign
  | abs
  | sqrt
  | arcsin
  | arccos
  | arctan
deriving DecidableEq

inductive BinaryOp where
  | add
  | multiply
  | power
  | log
  | min
  | max
deriving DecidableEq

inductive Operation where
  | unary (f : UnaryOp)
  | binary (f : BinaryOp)
deriving DecidableEq

def Operation.arity : Operation → Nat
  | unary _ => 1
  | binary _ => 2

def Primitive.operation : Primitive → UnaryOp
  | ln => .ln
  | sin => .sin
  | sign => .sign
  | arcsin => .arcsin
  | arctan => .arctan

def Builtin.operation : Builtin → Operation
  | cos => .unary .cos
  | tan => .unary .tan
  | sqrt => .unary .sqrt
  | abs => .unary .abs
  | min => .binary .min
  | max => .binary .max
  | log => .binary .log
  | arccos => .unary .arccos

/-- The operation that a call on `n` arguments amounts to, if it has one. -/
def Definition.operation? (f : Definition) (n : Nat) : Option Operation :=
  ((Builtin.ofDefinition? f).map Builtin.operation).filter (·.arity = n)

end Symbolic
