import Symbolic.Pattern.Assignment

/-!
Sets of assignments: the ways in which something matches. The empty set says that nothing does, the
set of the empty assignment that it matches without binding anything.
-/

namespace Symbolic

/-- Assignments, no two of them equal, in the order in which they are found. -/
structure AssignmentSet where
  results : List Assignment

namespace AssignmentSet

/-- No match. -/
def none : AssignmentSet := ⟨[]⟩

/-- A match that binds nothing. -/
def all : AssignmentSet := ⟨[.empty]⟩

def single (a : Assignment) : AssignmentSet := ⟨[a]⟩

def ofList (as : List Assignment) : AssignmentSet :=
  ⟨distinct Assignment.fingerprint Assignment.same as⟩

def isNone (s : AssignmentSet) : Bool := s.results.isEmpty

def isAll (s : AssignmentSet) : Bool :=
  match s.results with
  | [a] => a.bindings.isEmpty
  | _ => false

/-- What an assignment of each set merges to, for all pairs that agree. -/
def inter (s t : AssignmentSet) : AssignmentSet :=
  if s.isNone || t.isNone then none
  else if s.isAll then t
  else if t.isAll then s
  else ofList (s.results.flatMap fun a => t.results.filterMap a.merge?)

/-- The assignments of either set, those of the first before the others. -/
def union (s t : AssignmentSet) : AssignmentSet :=
  if t.isNone then s
  else if s.isNone then t
  else ofList (s.results ++ t.results)

end AssignmentSet

end Symbolic
