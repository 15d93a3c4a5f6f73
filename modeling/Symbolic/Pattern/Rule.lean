import Symbolic.Error
import Symbolic.Pattern.Match

/-!
Rules. A rule replaces what its pattern matches, at one place: the whole expression, some of the
operands of a sum or product, or a place inside an operand.
-/

namespace Symbolic

/-- A pattern and what replaces a match of it. -/
structure Rule where
  pattern : Pattern
  replacement : Expr

/-- The rule, if every variable of the replacement is bound by the pattern or stands in it. -/
def Pattern.replacedBy (p : Pattern) (replacement : Expr) : Except Error Rule :=
  let missing := replacement.vars.filter fun s =>
    !p.free.contains s && !p.literals.contains s
  if missing.isEmpty then .ok ⟨p, replacement⟩
  else .error (.unboundVariables (missing.map (·.name)))

namespace Rule

def maxOperands : Nat := 10

/-- The results of replacing the whole expression. -/
def atRoot (r : Rule) (e : Expr) : List Expr :=
  (r.pattern.matches? e).results.map fun a => a.apply r.replacement

/-- The results of replacing two or more of the operands, but not all. -/
def amongOperands (r : Rule) (rebuild : List Expr → Expr) (es : List Expr) : List Expr :=
  if es.length < 3 || maxOperands < es.length then []
  else
    (Blocks.splits es).flatMap fun (inside, outside) =>
      if inside.length < 2 || outside.isEmpty then []
      else (r.atRoot (rebuild inside)).map fun e => rebuild (outside ++ [e])

/-- The results of replacing some operands of a sum or product, for a pattern that is one too. -/
def atOperands (r : Rule) : Expr → List Expr
  | .sum es => if r.pattern.expr.isSum then r.amongOperands .sumOf es else []
  | .product es => if r.pattern.expr.isProduct then r.amongOperands .productOf es else []
  | _ => []

mutual

/-- The results of replacing at one place, first here, then in each operand. -/
def results (r : Rule) : Expr → List Expr
  | .const c => r.atRoot (.const c)
  | .var s k => r.atRoot (.var s k)
  | .sum es =>
    r.atRoot (.sum es) ++ r.atOperands (.sum es) ++ (resultsEach r es).map Expr.sumOf
  | .product es =>
    r.atRoot (.product es) ++ r.atOperands (.product es) ++
      (resultsEach r es).map Expr.productOf
  | .pow b p =>
    r.atRoot (.pow b p) ++ (results r b).map (fun b => Expr.powOf b p) ++
      (results r p).map (fun p => Expr.powOf b p)
  | .apply f e => r.atRoot (.apply f e) ++ (results r e).map (Expr.applyOf f)
  | .call f ps b es =>
    r.atRoot (.call f ps b es) ++ (resultsEach r es).map (.call f ps b)

/-- The lists that come from replacing at one place in one element. -/
def resultsEach (r : Rule) : List Expr → List (List Expr)
  | [] => []
  | e :: es => (results r e).map (· :: es) ++ (resultsEach r es).map (e :: ·)

end

/-- The distinct results of replacing at one place, without the expression itself. -/
def apply (r : Rule) (e : Expr) : List Expr :=
  e.distinctOthers (r.results e)

/-- The rule from right to left. Of the free variables, those stay free that occur there. -/
def reversed (r : Rule) : Except Error Rule :=
  let free := r.pattern.free.filter fun s => r.replacement.vars.contains s
  (Pattern.withFree r.replacement free).replacedBy r.pattern.expr

end Rule

end Symbolic
