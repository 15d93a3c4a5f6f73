import Symbolic.Buckets
import Symbolic.Expr.Same

/-!
Equality by way of hashes. A node has a hash that is made of those of its operands. Expressions of
different hashes are told apart at once, and the partner of an operand is looked for among the
operands of its hash only.

How names and numbers are hashed is left open. Whatever is chosen, the answer is that of `same`.
-/

namespace Symbolic

/-- A way to hash: a state takes in the parts of a node one after the other, and ends in a number. -/
structure Hashing where
  State : Type
  start : State
  tag : UInt8 → State → State
  number : Rat → State → State
  symbol : Symbol → State → State
  primitive : Primitive → State → State
  name : String → State → State
  hash : UInt64 → State → State
  finish : State → UInt64

/-- The list with its last element in the place of the one at `i`. -/
def swapRemove {α : Type} (xs : List α) (i : Nat) : List α :=
  match xs.getLast? with
  | none => []
  | some x => (xs.set i x).dropLast

namespace Hashing

/-- What the hashes of terms are added to. -/
def sumSeed : UInt64 := 0x9e3779b97f4a7c15

/-- What the hashes of factors are added to. -/
def productSeed : UInt64 := 0xc2b2ae3d27d4eb4f

variable (h : Hashing)

mutual

/-- The hash of an expression. Those of terms and of factors are added up, so their order does not
matter. The body of a called function is left out. -/
def of : Expr → UInt64
  | .const c => h.finish (h.number c (h.tag 0 h.start))
  | .var s _ => h.finish (h.symbol s (h.tag 1 h.start))
  | .sum es => h.finish (h.hash (total sumSeed es) (h.tag 2 h.start))
  | .product es => h.finish (h.hash (total productSeed es) (h.tag 3 h.start))
  | .pow b p => h.finish (h.hash (of p) (h.hash (of b) (h.tag 4 h.start)))
  | .apply f e => h.finish (h.hash (of e) (h.primitive f (h.tag 5 h.start)))
  | .call f ps _ es => h.finish (named ps es (h.name f (h.tag 6 h.start)))

def total (seed : UInt64) : List Expr → UInt64
  | [] => seed
  | e :: es => total (seed + of e) es

def named (ps : List Symbol) : List Expr → h.State → h.State
  | [], s => s
  | e :: es, s =>
    match ps with
    | [] => s
    | p :: ps => named ps es (h.hash (of e) (h.symbol p s))

end

/-- Expressions put away by their hashes. -/
abbrev Shelves := Std.TreeMap UInt64 (List Expr)

/-- Put an expression behind the others of its hash. -/
def shelve (t : Shelves) (e : Expr) : Shelves :=
  t.insert (h.of e) (t.getD (h.of e) [] ++ [e])

def shelves (es : List Expr) : Shelves := es.foldl h.shelve {}

mutual

def agree : Expr → Expr → Bool
  | .const a, .const b => a == b
  | .var a _, .var b _ => a == b
  | .sum as, .sum bs => as.length == bs.length && claim as (h.shelves bs)
  | .product as, .product bs => as.length == bs.length && claim as (h.shelves bs)
  | .pow b p, .pow b' p' =>
    (h.of b == h.of b' && agree b b') && (h.of p == h.of p' && agree p p')
  | .apply f a, .apply g b => f == g && (h.of a == h.of b && agree a b)
  | .call f ps b as, .call g qs b' bs =>
    (f == g && ps == qs && (h.of b == h.of b' && agree b b')) && as.length == bs.length &&
      agreeAll as bs
  | _, _ => false

/-- Each expression takes an equal one of its own from the shelves. -/
def claim : List Expr → Shelves → Bool
  | [], _ => true
  | a :: as, t =>
    match t.get? (h.of a) with
    | none => false
    | some bs =>
      match bs.findIdx? fun b => h.of a == h.of b && agree a b with
      | none => false
      | some i => claim as (t.insert (h.of a) (swapRemove bs i))

/-- The two lists are equal place by place, as far as both go. -/
def agreeAll : List Expr → List Expr → Bool
  | a :: as, b :: bs => (h.of a == h.of b && agree a b) && agreeAll as bs
  | _, _ => true

end

def equal (a b : Expr) : Bool := h.of a == h.of b && h.agree a b

def pairs (as bs : List Expr) : Bool := as.length == bs.length && h.claim as (h.shelves bs)

end Hashing

end Symbolic
