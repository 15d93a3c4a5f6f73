import Symbolic.Text.Lowercase

/-!
Names of variables. A name is kept in lower case, so names that differ in case alone are one
variable, and names are ordered by the code points of their characters.
-/

namespace Symbolic

/-- The name of a variable, in lower case. -/
structure Symbol where
  name : String
deriving DecidableEq

namespace Symbol

/-- The symbol that a name in any case stands for. -/
def ofName (s : String) : Symbol := ⟨Text.lowercase s⟩

def order (a b : Symbol) : Ordering := compare a.name b.name

theorem order_refl (s : Symbol) : s.order s = .eq := by simp [order]

/-- Put a symbol into a sorted list, unless the list has it. -/
def insert (s : Symbol) : List Symbol → List Symbol
  | [] => [s]
  | t :: ts =>
    match s.order t with
    | .lt => s :: t :: ts
    | .eq => t :: ts
    | .gt => t :: insert s ts

/-- The distinct symbols of a list, sorted. -/
def sorted (ss : List Symbol) : List Symbol :=
  ss.foldl (fun acc s => insert s acc) []

def names (ss : List Symbol) : String :=
  ", ".intercalate (ss.map Symbol.name)

end Symbol

end Symbolic
