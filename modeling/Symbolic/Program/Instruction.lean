import Symbolic.Numeric.Scalar

/-!
The instructions of programs. On a stack an operation takes its operands from the top and leaves its
result there. In a graph it names the earlier instructions whose results it takes.
-/

namespace Symbolic

/-- What an instruction does: push a constant or a parameter, or apply an operation. -/
inductive StackOp where
  | constant (value : Rat)
  | parameter (index : Nat)
  | unary (f : UnaryOp)
  | binary (f : BinaryOp)
deriving DecidableEq

namespace StackOp

def arity : StackOp → Nat
  | constant _ | parameter _ => 0
  | unary _ => 1
  | binary _ => 2

def growth (op : StackOp) : Int := 1 - op.arity

end StackOp

/-- An instruction of a graph; operands are given by the places of earlier instructions. -/
inductive Instruction where
  | constant (value : Rat)
  | parameter (index : Nat)
  | unary (f : UnaryOp) (a : Nat)
  | binary (f : BinaryOp) (a b : Nat)
deriving DecidableEq

namespace Instruction

def op : Instruction → StackOp
  | constant c => .constant c
  | parameter i => .parameter i
  | unary f _ => .unary f
  | binary f _ _ => .binary f

/-- The places of the operands. -/
def inputs : Instruction → List Nat
  | constant _ | parameter _ => []
  | unary _ a => [a]
  | binary _ a b => [a, b]

end Instruction

end Symbolic
