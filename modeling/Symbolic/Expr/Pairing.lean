import Symbolic.Expr.Same
import Symbolic.Rational.Decimal

/-!
Two expressions side by side: what kind of node they both are, as far as they are of one kind.
-/

namespace Symbolic

/-- What two expressions have in common at their tops. Powers and applications of one primitive are
followed into their operands. -/
inductive Pairing where
  | constants (a b : Rat)
  | vars (a b : Symbol)
  | sums (m n : Nat)
  | products (m n : Nat)
  | powers (bases exponents : Pairing)
  | applications (f : Primitive) (args : Pairing)
  | calls (f g : Definition)
  | mismatch

namespace Pairing

def of : Expr → Expr → Pairing
  | .const a, .const b => constants a b
  | .var a _, .var b _ => vars a b
  | .sum as, .sum bs => sums as.length bs.length
  | .product as, .product bs => products as.length bs.length
  | .pow b p, .pow b' p' => powers (of b b') (of p p')
  | .apply f a, .apply g b => if f = g then applications f (of a b) else mismatch
  | .call f ps b _, .call g qs b' _ => calls ⟨f, ps, b⟩ ⟨g, qs, b'⟩
  | _, _ => mismatch

/-- The pairing in words; of calls it says whether they are of one function. -/
def text : Pairing → String
  | constants a b => "constants " ++ Rational.text a ++ " " ++ Rational.text b
  | vars a b => "variables " ++ a.name ++ " " ++ b.name
  | sums m n => "sums " ++ toString m ++ " " ++ toString n
  | products m n => "products " ++ toString m ++ " " ++ toString n
  | powers b p => "exponents [" ++ text b ++ "] [" ++ text p ++ "]"
  | applications f a => f.name ++ " [" ++ text a ++ "]"
  | calls f g =>
    "functions " ++ f.name ++ " " ++ g.name ++ " " ++ (if f.same g then "true" else "false")
  | mismatch => "mismatch"

end Pairing

end Symbolic
