import Symbolic.Program.Graph

/-!
Running programs. What is read where nothing has been put is undefined.
-/

namespace Symbolic

variable {α : Type} [Scalar α]

def parameterValue (params : Array α) (i : Nat) : α :=
  (params[i]?).getD Scalar.undefined

namespace StackCode

def pop (stack : List α) : α × List α :=
  match stack with
  | [] => (Scalar.undefined, [])
  | x :: rest => (x, rest)

/-- Do one instruction on a stack whose top comes first. -/
def step (params : Array α) (stack : List α) : StackOp → List α
  | .constant c => Scalar.ofRat c :: stack
  | .parameter i => parameterValue params i :: stack
  | .unary f =>
    let (x, stack) := pop stack
    Scalar.unary f x :: stack
  | .binary f =>
    let (y, stack) := pop stack
    let (x, stack) := pop stack
    Scalar.binary f x y :: stack

/-- Run stack code on a stack. The result is what is on top at the end, and comes with the rest. -/
def runOn (c : StackCode) (params : Array α) (stack : List α) : α × List α :=
  pop (c.code.foldl (step params) stack)

/-- Run stack code on an empty stack. -/
def run (c : StackCode) (params : Array α) : α :=
  (c.runOn params []).1

end StackCode

namespace GraphCode

/-- The contents of the cell of instruction `i`. -/
def read (c : GraphCode) (cells : Array α) (i : Nat) : α :=
  (c.cells[i]?.bind fun k => cells[k]?).getD Scalar.undefined

def value (c : GraphCode) (params cells : Array α) : Instruction → α
  | .constant q => Scalar.ofRat q
  | .parameter i => parameterValue params i
  | .unary f a => Scalar.unary f (c.read cells a)
  | .binary f a b => Scalar.binary f (c.read cells a) (c.read cells b)

/-- Put the value of instruction `i` into its cell. -/
def write (c : GraphCode) (cells : Array α) (i : Nat) (x : α) : Array α :=
  match c.cells[i]? with
  | some k => cells.setIfInBounds k x
  | none => cells

def runFrom (c : GraphCode) (params : Array α) (i : Nat) (cells : Array α) :
    List Instruction → Array α
  | [] => cells
  | x :: xs => c.runFrom params (i + 1) (c.write cells i (c.value params cells x)) xs

/-- Run graph code on cells with any contents; the result comes with the cells as they are left. -/
def run (c : GraphCode) (params cells : Array α) : α × Array α :=
  let cells := c.runFrom params 0 cells c.code
  (c.read cells c.output, cells)

end GraphCode

end Symbolic
