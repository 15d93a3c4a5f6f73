import Symbolic.Grammar.Fault

/-!
The errors of the library, by cause, and their messages.
-/

namespace Symbolic

/-- Why an operation fails. -/
inductive Error where
  /-- A variable has no value. -/
  | missingVariable (name : String)
  /-- A text, or a tree, is no expression; the place is that of the fault, where it has one. -/
  | malformed (fault : Fault) (span : Option Span)
  /-- A name is neither a function nor an allowed variable. -/
  | unknownName (name : String) (span : Span)
  /-- The replacement of a rule has variables that the pattern leaves without a value. -/
  | unboundVariables (names : List String)
  /-- A function is called with the wrong number of arguments. -/
  | wrongArity (name : String) (expected got : Nat)
  /-- A program is run with the wrong number of values or columns. -/
  | wrongCount (expected got : Nat)
  /-- Columns differ in length. -/
  | unevenColumns
  /-- A stack program needs more depth than is allowed. -/
  | stackTooDeep (depth limit : Nat)
deriving DecidableEq

/-- The place of an error, in words after its message. -/
def Span.suffix : Option Span → String
  | none => ""
  | some s => s.text

def Error.message : Error → String
  | missingVariable x => "variable '" ++ x ++ "' is not present in the input set"
  | malformed f s => f.heading ++ f.message ++ Span.suffix s
  | unknownName x s => "unknown identifier '" ++ x ++ "'" ++ s.text
  | unboundVariables xs =>
    "replacement uses variables not bound by the pattern: " ++ ", ".intercalate xs
  | wrongArity f n m =>
    "function '" ++ f ++ "' expects " ++ toString n ++ " argument(s), got " ++ toString m
  | wrongCount n m => "expected " ++ toString n ++ " parameter value(s), got " ++ toString m
  | unevenColumns => "batch columns and output must all have the same length"
  | stackTooDeep d l =>
    "expression requires stack depth " ++ toString d ++ ", limit is " ++ toString l

theorem except_bind_eq_ok {ε α β : Type} {x : Except ε α} {f : α → Except ε β} {b : β} :
    x >>= f = .ok b ↔ ∃ a, x = .ok a ∧ f a = .ok b := by
  constructor
  · intro h
    cases x with
    | error e => cases h
    | ok a => exact ⟨a, rfl, h⟩
  · rintro ⟨a, rfl, h⟩
    exact h

theorem except_map_eq_ok {ε α β : Type} {x : Except ε α} {f : α → β} {b : β} :
    x.map f = .ok b ↔ ∃ a, x = .ok a ∧ f a = b := by
  cases x <;> simp [Except.map]

theorem except_map_eq_error {ε α β : Type} {x : Except ε α} {f : α → β} {err : ε} :
    x.map f = .error err ↔ x = .error err := by
  cases x <;> simp [Except.map]

end Symbolic
