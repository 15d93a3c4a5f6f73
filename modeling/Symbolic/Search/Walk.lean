import Symbolic.Expr.Fingerprint

/-!
Walks over expressions by single steps. A walk visits each expression once, the start first, and
goes no more steps than it is allowed. It can be broken off at the first expression that passes a
test.
-/

namespace Symbolic

/-- The state of a walk: for each expression met, the number of steps that may still be taken from
it; the expressions visited, the last one first; and whether one has passed the test. -/
structure Walk where
  left : Table Nat
  visited : List Expr
  found : Bool

namespace Walk

def start (test : Expr → Bool) (bound : Nat) (e : Expr) : Walk :=
  ⟨Table.empty.insert e bound, [e], test e⟩

/-- Visit an expression from which `n` steps may be taken. -/
def visit (w : Walk) (test : Expr → Bool) (n : Nat) (e : Expr) : Walk :=
  ⟨w.left.insert e n, e :: w.visited, test e⟩

/-! A wide walk goes level by level: it takes one step from all expressions of a level before it
goes on to those they lead to. -/

/-- Visit those of `es` that are new, and put them before `fresh`. -/
def visitNew (test : Expr → Bool) (n : Nat) : List Expr → Walk → List Expr → Walk × List Expr
  | [], w, fresh => (w, fresh)
  | e :: es, w, fresh =>
    if w.found then (w, fresh)
    else if w.left.contains e then visitNew test n es w fresh
    else visitNew test n es (w.visit test n e) (e :: fresh)

def nextLevel (step : Expr → List Expr) (test : Expr → Bool) (n : Nat) :
    List Expr → Walk → List Expr → Walk × List Expr
  | [], w, fresh => (w, fresh)
  | e :: es, w, fresh =>
    if w.found then (w, fresh)
    else
      let (w, fresh) := visitNew test n (step e) w fresh
      nextLevel step test n es w fresh

/-- Go on from a level, up to `n` more steps. -/
def wide (step : Expr → List Expr) (test : Expr → Bool) : Nat → List Expr → Walk → Walk
  | 0, _, w => w
  | n + 1, level, w =>
    let (w, fresh) := nextLevel step test n level w []
    if w.found || fresh.isEmpty then w else wide step test n fresh.reverse w

/-! A deep walk follows a chain of steps to its end before it tries another. An expression that is
met again with more steps left is gone through again, but not visited again. -/

/-- Note what a step leads to, if it is new or is met with more steps left than before; what is to
be gone through is put before `next`. -/
def note (test : Expr → Bool) (n : Nat) : List Expr → Walk → List Expr → Walk × List Expr
  | [], w, next => (w, next)
  | e :: es, w, next =>
    if w.found then (w, next)
    else
      match w.left.get? e with
      | none => note test n es (w.visit test n e) (e :: next)
      | some m =>
        if n ≤ m then note test n es w next
        else note test n es { w with left := w.left.insert e n } (e :: next)

/-- Go on from an expression, up to `n` more steps, what was noted last being tried first. -/
def deep (step : Expr → List Expr) (test : Expr → Bool) : Nat → Expr → Walk → Walk
  | 0, _, w => w
  | n + 1, e, w =>
    if w.found then w
    else
      let (w, next) := note test n (step e) w []
      next.foldl (fun w e => deep step test n e w) w

end Walk

end Symbolic
