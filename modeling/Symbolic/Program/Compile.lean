import Symbolic.Numeric.Valuation
import Symbolic.Program.Machine
import Symbolic.Search.Basic

/-!
Compiled functions: an expression, simplified by a search, as a program whose parameters have an
order.
-/

namespace Symbolic

inductive Target where
  | stack
  | heap
deriving DecidableEq

inductive Program where
  | stack (code : StackCode)
  | heap (code : GraphCode)

/-- How to compile: the parameters in their order, if they are given; the depth of the search for a
simpler form; and the form of the program. -/
structure CompileOptions where
  params : Option (List Symbol)
  depth : Nat
  target : Target

structure Compiled where
  expr : Expr
  params : List Symbol
  program : Program

namespace CompileOptions

/-- Parameters in the order of their names, the depth of the standard search, and the heap. -/
def standard : CompileOptions := ⟨none, Search.defaultDepth, .heap⟩

/-- What is compiled in place of an expression: at depth zero the expression itself. -/
def simplified (o : CompileOptions) (e : Expr) : Expr :=
  if o.depth = 0 then e else { Search.standard with depth := some o.depth }.simplest e

/-- The parameters for an expression: those that are given, or its variables. -/
def paramsFor (o : CompileOptions) (e : Expr) : List Symbol :=
  o.params.getD e.atomic.vars

/-- The program of an expression, given the parameters. A parameter that is named twice has the
later of its places. -/
def programFor (o : CompileOptions) (params : List Symbol) (e : Expr) : Except Error Program :=
  let index := fun s => lookupLast s params.zipIdx
  match o.target with
  | .stack => do return .stack (← StackCode.ofExpr index e)
  | .heap => do return .heap (← GraphCode.ofExpr index e)

def compile (o : CompileOptions) (e : Expr) : Except Error Compiled := do
  let e := o.simplified e
  let params := o.paramsFor e
  return ⟨e, params, ← o.programFor params e⟩

end CompileOptions

namespace Program

def target : Program → Target
  | stack _ => .stack
  | heap _ => .heap

/-- The number of values that are kept at once: the depth of the stack, or the cells. -/
def cellCount : Program → Nat
  | stack c => c.maxDepth
  | heap c => c.count

def size : Program → Nat
  | stack c => c.code.length
  | heap c => c.code.length

variable {α : Type} [Scalar α]

/-- Cells to run in. A stack has none at the start. -/
def freshCells : Program → Array α
  | stack _ => #[]
  | heap c => Array.replicate c.count (Scalar.ofRat 0)

/-- Run a program at one point, in the given cells, which come with the result as they are left. A
stack, its top last, is cleared first. -/
def run (p : Program) (params cells : Array α) : α × Array α :=
  match p with
  | stack c =>
    let (x, rest) := c.runOn params (cells.take 0).toList
    (x, rest.toArray.reverse)
  | heap c => c.run params cells

end Program

namespace Compiled

variable {α : Type} [Scalar α]

/-- The value at a point, with a value for each parameter in order. -/
def evaluate (f : Compiled) (xs : List α) : Except Error α :=
  if xs.length = f.params.length then .ok (f.program.run xs.toArray f.program.freshCells).1
  else .error (.wrongCount f.params.length xs.length)

def requireAll (vs : Valuation α) : List Symbol → Except Error (List α)
  | [] => .ok []
  | s :: ss => do
    let x ← vs.require s
    return x :: (← requireAll vs ss)

/-- The value at a point, with values for variables by name. -/
def evaluateNamed (f : Compiled) (vs : Valuation α) : Except Error α := do
  f.evaluate (← requireAll vs f.params)

end Compiled

end Symbolic
