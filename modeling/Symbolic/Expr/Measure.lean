import Symbolic.Expr.Basic

/-!
What occurs in an expression: the number of its nodes, its variables, and the functions it calls.
-/

namespace Symbolic.Expr

mutual

/-- The number of nodes; a call is one node above its arguments. -/
def size : Expr → Nat
  | const _ | var _ _ => 1
  | sum es => sizes es + 1
  | product es => sizes es + 1
  | pow b p => size b + size p + 1
  | apply _ e => size e + 1
  | call _ _ _ es => sizes es + 1

def sizes : List Expr → Nat
  | [] => 0
  | e :: es => size e + sizes es

end

mutual

/-- The variables from left to right, each as often as it stands; those of bodies do not count. -/
def occurrences : Expr → List Symbol
  | const _ => []
  | var s _ => [s]
  | sum es => occurrencesAll es
  | product es => occurrencesAll es
  | pow b p => occurrences b ++ occurrences p
  | apply _ e => occurrences e
  | call _ _ _ es => occurrencesAll es

def occurrencesAll : List Expr → List Symbol
  | [] => []
  | e :: es => occurrences e ++ occurrencesAll es

end

/-- The variables, sorted, each once. -/
def vars (e : Expr) : List Symbol := Symbol.sorted e.occurrences

/-- The variable of a name in any case occurs. -/
def containsName (e : Expr) (name : String) : Bool :=
  e.vars.contains (Symbol.ofName name)

mutual

/-- Add the functions that are called, of a name that is new: first the function, then those its
body calls, then those in the arguments. -/
def addFunctions (seen : List Definition) : Expr → List Definition
  | const _ | var _ _ => seen
  | sum es => addFunctionsAll seen es
  | product es => addFunctionsAll seen es
  | pow b p => addFunctions (addFunctions seen b) p
  | apply _ e => addFunctions seen e
  | call f ps b es =>
    if seen.any (·.name == f) then addFunctionsAll seen es
    else addFunctionsAll (addFunctions (seen ++ [⟨f, ps, b⟩]) b) es

def addFunctionsAll (seen : List Definition) : List Expr → List Definition
  | [] => seen
  | e :: es => addFunctionsAll (addFunctions seen e) es

end

/-- The functions that are called, through the bodies too, one for each name, as they are met. -/
def functions (e : Expr) : List Definition := addFunctions [] e

end Symbolic.Expr
