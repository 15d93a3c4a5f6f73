import Symbolic.Error
import Symbolic.Expr.Builtin

/-!
What names stand for: the primitives, then the functions that have been defined, then those defined
from the start; any other name is a variable, if variables of that name are allowed. It is written
at the site of its first character.
-/

namespace Symbolic

/-- The call of a function on as many arguments as it has parameters. -/
def Definition.apply (f : Definition) (args : List Expr) : Except Error Expr :=
  if args.length = f.arity then .ok (f.on args)
  else .error (.wrongArity f.name f.arity args.length)

/-- The functions that have been defined, the last one first; the variables that are allowed, all
of them without a list; and the site of the first character of a text. -/
structure Vocabulary where
  functions : List Definition
  allowed : Option (List Symbol)
  origin : Site

/-- What a function name stands for. -/
inductive Callable where
  | primitive (f : Primitive)
  | function (f : Definition)

namespace Callable

def arity : Callable → Nat
  | primitive _ => 1
  | function f => f.arity

def apply (name : String) (span : Span) : Callable → List Expr → Except Error Expr
  | primitive f, [e] => .ok (Expr.applyOf f e)
  | primitive _, es => .error (.malformed (.wrongArguments name 1 es.length) span)
  | function f, es =>
    if es.length = f.arity then .ok (f.on es)
    else .error (.malformed (.wrongArguments name f.arity es.length) span)

end Callable

namespace Vocabulary

/-- No function defined, every variable allowed. -/
def empty : Vocabulary := ⟨[], none, 0⟩

/-- Define one more function; it hides an earlier one of its name. -/
def define (v : Vocabulary) (f : Definition) : Vocabulary :=
  { v with functions := f :: v.functions }

/-- Allow the variables of the given names and no others. -/
def allow (v : Vocabulary) (names : List String) : Vocabulary :=
  { v with allowed := some (names.map Symbol.ofName) }

/-- The function of a name in lower case that has been defined. -/
def defined? (v : Vocabulary) (name : String) : Option Definition :=
  v.functions.find? (·.name == name)

/-- The function of a name in lower case, defined later or from the start. -/
def function? (v : Vocabulary) (name : String) : Option Definition :=
  match v.defined? name with
  | some f => some f
  | none => (Builtin.ofName? name).map (·.definition)

/-- What a name in lower case stands for, if it is that of a function. -/
def callable? (v : Vocabulary) (name : String) : Option Callable :=
  match Primitive.ofName? name with
  | some f => some (.primitive f)
  | none => (v.function? name).map .function

/-- The variable of a name that stands at the given place. -/
def variableOf (v : Vocabulary) (name : String) (span : Span) : Except Error Expr :=
  let s := Symbol.ofName name
  if v.allowed.all (·.contains s) then .ok (.var s (v.origin + span.start))
  else .error (.unknownName name span)

end Vocabulary

end Symbolic
