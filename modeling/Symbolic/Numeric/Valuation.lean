import Symbolic.Error
import Symbolic.Symbol

/-!
Values for variables.
-/

namespace Symbolic

/-- Values for variables, one for each. -/
structure Valuation (α : Type) where
  values : List (Symbol × α)

namespace Valuation

variable {α : Type}

def empty : Valuation α := ⟨[]⟩

def get? (vs : Valuation α) (s : Symbol) : Option α :=
  (vs.values.find? (·.1 = s)).map (·.2)

def require (vs : Valuation α) (s : Symbol) : Except Error α :=
  match vs.get? s with
  | some x => .ok x
  | none => .error (.missingVariable s.name)

/-- Give a variable a value, in place of one that it may have. -/
def insert (vs : Valuation α) (s : Symbol) (x : α) : Valuation α :=
  ⟨(s, x) :: vs.values.filter (·.1 ≠ s)⟩

def insertAll (vs : Valuation α) (pairs : List (Symbol × α)) : Valuation α :=
  pairs.foldl (fun vs p => vs.insert p.1 p.2) vs

/-- The set of the given values; of several for a variable, the last counts. -/
def ofList (pairs : List (Symbol × α)) : Valuation α :=
  empty.insertAll pairs

def size (vs : Valuation α) : Nat := vs.values.length

end Valuation

end Symbolic
