import Symbolic.Expr.Constructors
import Symbolic.Expr.Identical

/-!
New operands for a node, and replacement of variables. Both rebuild what they change by the
constructors, so the result is canonical again; what has nothing to replace stays as it is. A
variable that is to be replaced by itself, of the same site, is nothing to replace.
-/

namespace Symbolic

/-- The value that a list of pairs gives to a symbol; the last pair counts. -/
def lookupLast {α : Type} (s : Symbol) : List (Symbol × α) → Option α
  | [] => none
  | (t, v) :: rest =>
    match lookupLast s rest with
    | some w => some w
    | none => if t = s then some v else none

namespace Expr

/-- The node over new operands. A power takes two and a function one, and what is left over is
ignored; with too few, and for a call with any number but that of its parameters, the node stays. -/
def withOperands : Expr → List Expr → Expr
  | sum _, es => sumOf es
  | product _, es => productOf es
  | pow _ _, b :: p :: _ => powOf b p
  | apply f _, e :: _ => applyOf f e
  | call f ps b as, es => if es.length = ps.length then call f ps b es else call f ps b as
  | e, _ => e

mutual

/-- Replace variables, all at once; none if there is none to replace. The body of a called function
is left alone. -/
def replace? (σ : Symbol → Option Expr) : Expr → Option Expr
  | const _ => none
  | var s k => (σ s).filter (· ≠ var s k)
  | sum es => (replaceAny? σ es).map sumOf
  | product es => (replaceAny? σ es).map productOf
  | pow b p =>
    match replace? σ b, replace? σ p with
    | none, none => none
    | b', p' => some (powOf (b'.getD b) (p'.getD p))
  | apply f e => (replace? σ e).map (applyOf f)
  | call f ps b es => (replaceAny? σ es).map (call f ps b)

def replaceAny? (σ : Symbol → Option Expr) : List Expr → Option (List Expr)
  | [] => none
  | e :: es =>
    match replace? σ e, replaceAny? σ es with
    | none, none => none
    | e', es' => some (e'.getD e :: es'.getD es)

end

/-- Replace variables by expressions, all at once. -/
def substitute (σ : Symbol → Option Expr) (e : Expr) : Expr :=
  (replace? σ e).getD e

/-- Replace the variables of a list of pairs; of several pairs for a symbol, the last counts. -/
def substitutePairs (pairs : List (Symbol × Expr)) (e : Expr) : Expr :=
  e.substitute fun s => lookupLast s pairs

def substituteOne (s : Symbol) (r e : Expr) : Expr :=
  e.substitutePairs [(s, r)]

end Expr

end Symbolic
