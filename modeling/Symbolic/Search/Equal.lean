import Symbolic.Search.Basic

/-!
Four levels of equality, each of which finds at least what the one before it finds. An answer of
`false` by search says that no proof was found.
-/

namespace Symbolic

/-- How hard to look for a proof that two expressions are equal. -/
inductive Effort where
  /-- They are the same up to the order of operands. -/
  | exactly
  /-- Their atomic forms are. -/
  | atomic
  /-- A search of the default depth leads from one to the other. -/
  | deep
  /-- A search without limit does. -/
  | deepest
deriving DecidableEq

def Expr.equals (level : Effort) (a b : Expr) : Bool :=
  match level with
  | .exactly => a.same b
  | .atomic => a.same b || a.sameAtomic b
  | .deep => Search.standard.proves a b
  | .deepest => { Search.standard with depth := none }.proves a b

end Symbolic
