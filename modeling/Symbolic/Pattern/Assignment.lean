import Symbolic.Expr.Fingerprint
import Symbolic.Expr.Printer
import Symbolic.Expr.Substitution

/-!
Assignments of expressions to the free variables of a pattern. Two assignments are merged when they
agree on every symbol that both of them bind.
-/

namespace Symbolic

/-- Values for symbols: sorted by symbol, one value each. -/
structure Assignment where
  bindings : List (Symbol × Expr)

namespace Assignment

def empty : Assignment := ⟨[]⟩

def single (s : Symbol) (e : Expr) : Assignment := ⟨[(s, e)]⟩

def get? (a : Assignment) (s : Symbol) : Option Expr :=
  (a.bindings.find? (·.1 = s)).map (·.2)

def insertSorted (s : Symbol) (e : Expr) : List (Symbol × Expr) → List (Symbol × Expr)
  | [] => [(s, e)]
  | (t, f) :: rest => if s.order t == .lt then (s, e) :: (t, f) :: rest
    else (t, f) :: insertSorted s e rest

/-- Bind one more symbol; none if it has another value. -/
def bind? (a : Assignment) (s : Symbol) (e : Expr) : Option Assignment :=
  match a.get? s with
  | some f => if f.same e then some a else none
  | none => some ⟨insertSorted s e a.bindings⟩

def bindAll? (a : Assignment) : List (Symbol × Expr) → Option Assignment
  | [] => some a
  | (s, e) :: rest => (a.bind? s e).bind fun a => a.bindAll? rest

/-- Both assignments in one; none if a symbol has different values. -/
def merge? (a b : Assignment) : Option Assignment :=
  a.bindAll? b.bindings

/-- The same symbols are bound to the same values. -/
def same (a b : Assignment) : Bool :=
  a.bindings.map (·.1) == b.bindings.map (·.1) &&
    Expr.sameAll (a.bindings.map (·.2)) (b.bindings.map (·.2))

def fingerprint (a : Assignment) : UInt64 :=
  Expr.fingerprintList 9 (a.bindings.map (·.2))

def apply (a : Assignment) (e : Expr) : Expr :=
  e.substitute a.get?

def text (a : Assignment) : String :=
  "\x7b" ++ ", ".intercalate (a.bindings.map fun (s, e) => s.name ++ " ↦ " ++ e.text) ++ "\x7d"

end Assignment

end Symbolic
