import Symbolic.Expr.Fingerprint
import Symbolic.Program.Cells
import Symbolic.Program.Postfix

/-!
Graph code. Every distinct part of an expression has one instruction, after those of its operands;
parts that are equal up to the order of operands share it.
-/

namespace Symbolic

/-- The instructions so far, and the place of the result of each part that has been written out. -/
structure Graph where
  code : Array Instruction
  places : Table Nat

namespace Graph

def empty : Graph := ⟨#[], .empty⟩

/-- Add an instruction; its place comes with the result. -/
def emit (x : Instruction) (g : Graph) : Nat × Graph :=
  (g.code.size, { g with code := g.code.push x })

def note (e : Expr) (i : Nat) (g : Graph) : Graph :=
  { g with places := g.places.insert e i }

end Graph

/-- Add the instruction of a function that is defined from the start, on the results at the given
places. -/
def Builtin.emit (f : Builtin) (args : List Nat) (g : Graph) : Except Error (Nat × Graph) :=
  match f.operation, args with
  | .unary op, [a] => .ok (g.emit (.unary op a))
  | .binary op, [a, b] => .ok (g.emit (.binary op a b))
  | _, _ => .error (.malformed (.wrongOperands f.name args.length) none)

namespace Expr

mutual

/-- Write out an expression unless it has been, `again` writing out the bodies of called functions.
Its place comes with the result. -/
def lowerWith (index : Symbol → Option Nat)
    (again : Expr → Graph → Except Error (Nat × Graph)) (e : Expr) (g : Graph) :
    Except Error (Nat × Graph) :=
  match g.places.get? e with
  | some i => .ok (i, g)
  | none => do
    let (i, g) ←
      match e with
      | const c => .ok (g.emit (.constant c))
      | var s _ =>
        match index s with
        | some k => .ok (g.emit (.parameter k))
        | none => .error (.missingVariable s.name)
      | sum [] | product [] => .error (.malformed .noOperands none)
      | sum (e :: es) => do
        let (a, g) ← lowerWith index again e g
        lowerRest index again .add a es g
      | product (e :: es) => do
        let (a, g) ← lowerWith index again e g
        lowerRest index again .multiply a es g
      | pow b p => do
        let (i, g) ← lowerWith index again b g
        let (j, g) ← lowerWith index again p g
        .ok (g.emit (.binary .power i j))
      | apply f e => do
        let (a, g) ← lowerWith index again e g
        .ok (g.emit (.unary f.operation a))
      | call f ps b es =>
        match Builtin.ofDefinition? ⟨f, ps, b⟩ with
        | some p => do
          let (args, g) ← lowerAll index again es g
          p.emit args g
        | none => again (inlined ps b es) g
    return (i, g.note e i)

/-- Join further operands to the result at `a`. -/
def lowerRest (index : Symbol → Option Nat)
    (again : Expr → Graph → Except Error (Nat × Graph)) (f : BinaryOp) (a : Nat)
    (es : List Expr) (g : Graph) : Except Error (Nat × Graph) :=
  match es with
  | [] => .ok (a, g)
  | e :: es => do
    let (b, g) ← lowerWith index again e g
    let (c, g) := g.emit (.binary f a b)
    lowerRest index again f c es g

def lowerAll (index : Symbol → Option Nat)
    (again : Expr → Graph → Except Error (Nat × Graph)) (es : List Expr) (g : Graph) :
    Except Error (List Nat × Graph) :=
  match es with
  | [] => .ok ([], g)
  | e :: es => do
    let (i, g) ← lowerWith index again e g
    let (is, g) ← lowerAll index again es g
    return (i :: is, g)

end

def lowerWithin (index : Symbol → Option Nat) :
    Nat → Expr → Graph → Except Error (Nat × Graph)
  | 0, _, g => .ok (0, g)
  | n + 1, e, g => lowerWith index (lowerWithin index n) e g

end Expr

/-- Graph code: the instructions, the cell of each, how many cells there are, and the place of the
result. -/
structure GraphCode where
  code : List Instruction
  cells : Array Nat
  count : Nat
  output : Nat

/-- The graph code of an expression, given the place of each parameter. -/
def GraphCode.ofExpr (index : Symbol → Option Nat) (e : Expr) : Except Error GraphCode := do
  let (output, g) ← e.lowerWithin index (e.nesting + 1) .empty
  let code := g.code.toList
  let a := Allocation.ofCode code
  return ⟨code, a.cells.toArray, a.count, output⟩

end Symbolic
