import Symbolic.Expr.Builtin
import Symbolic.Expr.Measure
import Symbolic.Grammar.Vocabulary
import Symbolic.Pattern.Rule

/-!
Identities: two sides that stand for the same value, read as a rule from either side.
-/

namespace Symbolic

/-- An identity as its two rules. -/
structure Identity where
  forward : Rule
  backward : Rule

namespace Identity

/-- The identity of two sides, all variables free. Each side has to have the variables of the
other. -/
def ofSides (left right : Expr) : Except Error Identity := do
  let forward ← (Pattern.ofExpr left).replacedBy right
  let backward ← (Pattern.ofExpr right).replacedBy left
  return ⟨forward, backward⟩

/-- The identity of a call and the body of the function, the parameters free. -/
def ofDefinition (f : Definition) : Except Error Identity := do
  let call ← f.apply (f.params.map (.var · 0))
  let forward ← (Pattern.withFree call f.params).replacedBy f.body
  let backward ← (Pattern.withFree f.body f.params).replacedBy call
  return ⟨forward, backward⟩

/-- The rules of the identity, without one that matches anything. -/
def rules (i : Identity) : List Rule :=
  [i.forward, i.backward].filter fun r => !r.pattern.isWildcard

end Identity

open Symbolic.Expr

/-- The two sides of the identities that hold from the start. -/
def standardSides : List (Expr × Expr) :=
  let a := ofName "a"
  let b := ofName "b"
  let c := ofName "c"
  let two := const 2
  [ -- a sum is multiplied term by term
    (a * (b + c), a * b + a * c),
    -- logarithms of products and of powers
    (applyOf .ln (a * b), applyOf .ln a + applyOf .ln b),
    (applyOf .ln (powOf a b), b * applyOf .ln a),
    -- a power of a product is one of each factor
    (powOf (a * b) c, powOf a c * powOf b c),
    (applyOf .sin (applyOf .arcsin a), a),
    (applyOf .sign (a * b), applyOf .sign a * applyOf .sign b),
    -- the square of a sum of two
    (powOf (a + b) two, sumOf [powOf a two, two * a * b, powOf b two])]

def standardIdentities : List Identity :=
  standardSides.filterMap fun (left, right) => (Identity.ofSides left right).toOption

def distinctFunctions (es : List Expr) : List Definition :=
  (es.flatMap functions).foldl
    (fun seen f => if seen.any (·.same f) then seen else seen ++ [f]) []

/-- The rules that the definitions of functions give; a definition whose identity cannot be read
both ways gives none. -/
def definitionRules (fs : List Definition) : List Rule :=
  fs.flatMap fun f =>
    match Identity.ofDefinition f with
    | .ok i => i.rules
    | .error _ => []

end Symbolic
