/-!
Sets of characters given as sorted ranges of code points.
-/

namespace Symbolic.Text

/-- Some range of the table holds `n`; both ends of a range belong to it. -/
def covers : List (Nat × Nat) → Nat → Bool
  | [], _ => false
  | (lo, hi) :: rest, n => if n < lo then false else n ≤ hi || covers rest n

end Symbolic.Text
