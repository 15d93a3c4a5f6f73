/-!
How `n` operands can be shared out among `k` places. A set partition puts the numbers below `n`
into `k` blocks, none empty; an ordered partition puts a block into each of the places.
-/

namespace Symbolic.Blocks

def addAt (i : Nat) : Nat → List (List Nat) → List (List Nat)
  | _, [] => []
  | 0, b :: bs => (b ++ [i]) :: bs
  | j + 1, b :: bs => b :: addAt i j bs

/-- Continue the blocks with `m` more numbers, from `i` on, to exactly `k` blocks: each number
joins one of the blocks so far, in turn, or opens the next. Nothing comes of it when too few numbers
are left to open the missing blocks. -/
def extend (k : Nat) : Nat → Nat → List (List Nat) → List (List (List Nat))
  | 0, _, blocks => if blocks.length = k then [blocks] else []
  | m + 1, i, blocks =>
    if m + 1 < k - blocks.length then []
    else
      ((List.range blocks.length).flatMap fun j => extend k m (i + 1) (addAt i j blocks)) ++
        if blocks.length < k then extend k m (i + 1) (blocks ++ [[i]]) else []

/-- The partitions of the numbers below `n` into `k` blocks. Blocks stand in the order of their
least numbers, and the numbers of a block ascend. -/
def partitions (n k : Nat) : List (List (List Nat)) :=
  if k = 0 || n < k then [] else extend k n 0 []

def swap {α : Type} (i j : Nat) (xs : List α) : List α :=
  match xs[i]?, xs[j]? with
  | some x, some y => (xs.set i y).set j x
  | _, _ => xs

/-- All arrangements of the first `m` elements of `xs`, each by one exchange from the one before,
and the last of them. Each element in turn is brought to the last place, and the elements before it
are arranged. -/
def arrange {α : Type} : Nat → List α → List (List α) × List α
  | 0, xs => ([xs], xs)
  | m + 1, xs =>
    (List.range m).foldl
      (fun (done, last) c =>
        let (more, last) := arrange m (swap (if m % 2 = 0 then 0 else c) m last)
        (done ++ more, last))
      (arrange m xs)

def permutations (k : Nat) : List (List Nat) :=
  (arrange k (List.range k)).1

/-- The ways to give each of `k` places a block of the numbers below `n`, such that each number is
in one block. -/
def ordered (n k : Nat) : List (List (List Nat)) :=
  let orders := permutations k
  (partitions n k).flatMap fun blocks => orders.map fun order => order.map fun b => blocks.getD b []

/-- The ways to cut a list in two, the left part growing like a binary number whose lowest digit is
the first element. -/
def splits {α : Type} : List α → List (List α × List α)
  | [] => [([], [])]
  | x :: xs => (splits xs).flatMap fun (inside, outside) =>
      [(inside, x :: outside), (x :: inside, outside)]

end Symbolic.Blocks
