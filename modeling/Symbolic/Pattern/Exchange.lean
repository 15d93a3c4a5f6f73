import Symbolic.Pattern.Blocks

/-!
The permutations by a loop. Each round of it exchanges two elements and lists the arrangement that
comes of it, or goes on to the next place. What the recursion of `arrange` keeps in its calls stands in
counters here, one for each place.
-/

namespace Symbolic.Blocks

/-- Where the loop stands: the arrangement that it has come to; for each place, how often an element has
been brought there since the last time that the place was left; the place that is looked at; and the
arrangements that have been listed. -/
structure Exchanging where
  current : List Nat
  counters : List Nat
  place : Nat
  listed : List (List Nat)

namespace Exchanging

/-- Before the first round the numbers below `k` stand in their order, which is listed. -/
def start (k : Nat) : Exchanging := ⟨List.range k, List.replicate k 0, 1, [List.range k]⟩

/-- One round of the loop, which ends behind the last place. -/
def next? (s : Exchanging) : Option Exchanging :=
  match s.counters[s.place]? with
  | none => none
  | some c =>
    if c < s.place then
      let current := swap (if s.place % 2 = 0 then 0 else c) s.place s.current
      some ⟨current, s.counters.set s.place (c + 1), 1, s.listed ++ [current]⟩
    else some ⟨s.current, s.counters.set s.place 0, s.place + 1, s.listed⟩

end Exchanging

end Symbolic.Blocks
