import Symbolic.Error
import Symbolic.Expr.Nesting
import Symbolic.Expr.Substitution
import Symbolic.Program.Instruction

/-!
Stack code. An expression is written out in postfix order, calls giving way to the bodies of the
functions; variables are replaced by the places of the parameters, and the depth that the stack
takes is counted.

`toPostfix` gives the steps, and `Draft.link` takes one step into the code. The code of an expression
is linked while it is written out, so that the first fault ends the work; it is the code that comes
of linking all steps one after the other (`StackCode.ofExpr_eq`).
-/

namespace Symbolic

def maxStackDepth : Nat := 1024

/-- A step of postfix code whose variables are still names. -/
inductive Postfix where
  | constant (value : Rat)
  | symbol (s : Symbol)
  | unary (f : UnaryOp)
  | binary (f : BinaryOp)
  /-- A part of a tree that is no expression. -/
  | invalid (f : Fault)
deriving DecidableEq

def Operation.toPostfix : Operation → Postfix
  | unary f => .unary f
  | binary f => .binary f

namespace Expr

/-- The body of a function with arguments in place of its parameters. -/
def inlined (params : List Symbol) (body : Expr) (args : List Expr) : Expr :=
  body.substitutePairs (params.zip args)

mutual

/-- The postfix code of an expression, `again` writing out the bodies of called functions. -/
def postfixWith (again : Expr → List Postfix) : Expr → List Postfix
  | const c => [.constant c]
  | var s _ => [.symbol s]
  | sum [] | product [] => [.invalid .noOperands]
  | sum (e :: es) => postfixWith again e ++ postfixRest again .add es
  | product (e :: es) => postfixWith again e ++ postfixRest again .multiply es
  | pow b p => postfixWith again b ++ postfixWith again p ++ [.binary .power]
  | apply f e => postfixWith again e ++ [.unary f.operation]
  | call f ps b es =>
    match Builtin.ofDefinition? ⟨f, ps, b⟩ with
    | some p => postfixAll again es ++ [p.operation.toPostfix]
    | none => again (inlined ps b es)

/-- Code that joins further operands to what is on the stack. -/
def postfixRest (again : Expr → List Postfix) (f : BinaryOp) : List Expr → List Postfix
  | [] => []
  | e :: es => postfixWith again e ++ .binary f :: postfixRest again f es

/-- Code that pushes the values of a list. -/
def postfixAll (again : Expr → List Postfix) : List Expr → List Postfix
  | [] => []
  | e :: es => postfixWith again e ++ postfixAll again es

end

def postfixWithin : Nat → Expr → List Postfix
  | 0, _ => []
  | n + 1, e => postfixWith (postfixWithin n) e

def toPostfix (e : Expr) : List Postfix :=
  postfixWithin (e.nesting + 1) e

end Expr

/-- Stack code and the greatest depth that it takes. -/
structure StackCode where
  code : List StackOp
  maxDepth : Nat
deriving DecidableEq

/-- Stack code in the making: the instructions so far, the depth of the stack after them, and the
greatest depth. -/
structure Draft where
  code : Array StackOp
  depth : Nat
  deepest : Nat

namespace Draft

def empty : Draft := ⟨#[], 0, 0⟩

/-- Add an instruction that pushes a value. -/
def push (op : StackOp) (d : Draft) : Except Error Draft :=
  if d.depth < maxStackDepth then
    .ok ⟨d.code.push op, d.depth + 1, max d.deepest (d.depth + 1)⟩
  else .error (.stackTooDeep (d.depth + 1) maxStackDepth)

/-- Add the instruction of a step, given the place of each parameter. -/
def link (index : Symbol → Option Nat) (d : Draft) : Postfix → Except Error Draft
  | .constant c => d.push (.constant c)
  | .symbol s =>
    match index s with
    | some i => d.push (.parameter i)
    | none => .error (.missingVariable s.name)
  | .unary f => .ok { d with code := d.code.push (.unary f) }
  | .binary f => .ok { d with code := d.code.push (.binary f), depth := d.depth - 1 }
  | .invalid f => .error (.malformed f none)

def finish (d : Draft) : StackCode := ⟨d.code.toList, d.deepest⟩

end Draft

namespace Expr

mutual

/-- Link the postfix code of an expression, `again` linking that of the bodies of called
functions. -/
def linkWith (index : Symbol → Option Nat) (again : Expr → Draft → Except Error Draft) :
    Expr → Draft → Except Error Draft
  | const c, d => d.link index (.constant c)
  | var s _, d => d.link index (.symbol s)
  | sum [], d | product [], d => d.link index (.invalid .noOperands)
  | sum (e :: es), d => do linkRest index again .add es (← linkWith index again e d)
  | product (e :: es), d => do linkRest index again .multiply es (← linkWith index again e d)
  | pow b p, d => do
    let d ← linkWith index again b d
    let d ← linkWith index again p d
    d.link index (.binary .power)
  | apply f e, d => do
    let d ← linkWith index again e d
    d.link index (.unary f.operation)
  | call f ps b es, d =>
    match Builtin.ofDefinition? ⟨f, ps, b⟩ with
    | some p => do
      let d ← linkAll index again es d
      d.link index p.operation.toPostfix
    | none => again (inlined ps b es) d

/-- Link code that joins further operands to what is on the stack. -/
def linkRest (index : Symbol → Option Nat) (again : Expr → Draft → Except Error Draft)
    (f : BinaryOp) : List Expr → Draft → Except Error Draft
  | [], d => .ok d
  | e :: es, d => do
    let d ← linkWith index again e d
    let d ← d.link index (.binary f)
    linkRest index again f es d

def linkAll (index : Symbol → Option Nat) (again : Expr → Draft → Except Error Draft) :
    List Expr → Draft → Except Error Draft
  | [], d => .ok d
  | e :: es, d => do linkAll index again es (← linkWith index again e d)

end

def linkWithin (index : Symbol → Option Nat) : Nat → Expr → Draft → Except Error Draft
  | 0, _, d => .ok d
  | n + 1, e, d => linkWith index (linkWithin index n) e d

mutual

theorem linkWith_eq {index : Symbol → Option Nat} {again : Expr → Draft → Except Error Draft}
    {steps : Expr → List Postfix} (ha : ∀ e d, again e d = (steps e).foldlM (Draft.link index) d) :
    (e : Expr) → (d : Draft) →
      linkWith index again e d = (postfixWith steps e).foldlM (Draft.link index) d
  | const _, d | var _ _, d | sum [], d | product [], d => by simp [linkWith, postfixWith]
  | sum (e :: es), d | product (e :: es), d => by
    simp [linkWith, postfixWith, linkWith_eq ha e, linkRest_eq ha _ es]
  | pow b p, d => by
    simp [linkWith, postfixWith, linkWith_eq ha b, linkWith_eq ha p]
  | apply f e, d => by simp [linkWith, postfixWith, linkWith_eq ha e]
  | call f ps b es, d => by
    rw [linkWith, postfixWith]
    split
    · simp [linkAll_eq ha es]
    · exact ha _ d

theorem linkRest_eq {index : Symbol → Option Nat} {again : Expr → Draft → Except Error Draft}
    {steps : Expr → List Postfix} (ha : ∀ e d, again e d = (steps e).foldlM (Draft.link index) d)
    (f : BinaryOp) :
    (es : List Expr) → (d : Draft) →
      linkRest index again f es d = (postfixRest steps f es).foldlM (Draft.link index) d
  | [], d => rfl
  | e :: es, d => by simp [linkRest, postfixRest, linkWith_eq ha e, linkRest_eq ha f es]

theorem linkAll_eq {index : Symbol → Option Nat} {again : Expr → Draft → Except Error Draft}
    {steps : Expr → List Postfix} (ha : ∀ e d, again e d = (steps e).foldlM (Draft.link index) d) :
    (es : List Expr) → (d : Draft) →
      linkAll index again es d = (postfixAll steps es).foldlM (Draft.link index) d
  | [], d => rfl
  | e :: es, d => by simp [linkAll, postfixAll, linkWith_eq ha e, linkAll_eq ha es]

end

theorem linkWithin_eq (index : Symbol → Option Nat) :
    (n : Nat) → (e : Expr) → (d : Draft) →
      linkWithin index n e d = (postfixWithin n e).foldlM (Draft.link index) d
  | 0, _, _ => rfl
  | n + 1, e, d => linkWith_eq (linkWithin_eq index n) e d

end Expr

namespace StackCode

/-- The stack code of an expression, given the place of each parameter. -/
def ofExpr (index : Symbol → Option Nat) (e : Expr) : Except Error StackCode := do
  return (← e.linkWithin index (e.nesting + 1) .empty).finish

/-- The code is that of the steps, linked one after the other. -/
theorem ofExpr_eq (index : Symbol → Option Nat) (e : Expr) :
    ofExpr index e = (e.toPostfix.foldlM (Draft.link index) .empty).map Draft.finish := by
  rw [ofExpr, Expr.linkWithin_eq]
  rfl

end StackCode

end Symbolic
