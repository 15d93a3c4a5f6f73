import Symbolic.Symbol

/-!
Expressions: exact constants, variables, sums and products of any number of operands, powers,
five primitive functions of one argument, and calls of named functions. A call carries the
definition it calls.

A variable has a name and a site. The site tells where the variable was written, and stays with it
when the expression around it is rebuilt, unless the variable is all that is left of that. It matters
to replacement alone, which leaves a variable as it is if it is to be replaced by itself; whatever else
looks at a variable looks at its name.
-/

namespace Symbolic

/-- The primitive functions of one argument. -/
inductive Primitive where
  | ln
  | sin
  | sign
  | arcsin
  | arctan
deriving DecidableEq

namespace Primitive

def all : List Primitive := [ln, sin, sign, arcsin, arctan]

def rank : Primitive → Nat
  | ln => 0
  | sin => 1
  | sign => 2
  | arcsin => 3
  | arctan => 4

/-- The name that is printed and read. -/
def name : Primitive → String
  | ln => "ln"
  | sin => "sin"
  | sign => "sign"
  | arcsin => "arcsin"
  | arctan => "arctan"

def ofName? (s : String) : Option Primitive :=
  all.find? (·.name == s)

end Primitive

/-- Where a variable was written, and how many times it has been copied since. -/
structure Site where
  place : Nat
  copies : Nat
deriving DecidableEq

namespace Site

/-- The site of a place where a variable is written. -/
instance (n : Nat) : OfNat Site n := ⟨⟨n, 0⟩⟩

/-- The site some places behind. -/
instance : HAdd Site Nat Site := ⟨fun k n => ⟨k.place + n, k.copies⟩⟩

/-- The site of a copy. -/
def next (k : Site) : Site := ⟨k.place, k.copies + 1⟩

end Site

/-- An expression. A call holds the name, the parameters and the body of the function, then the
arguments, one for each parameter. -/
inductive Expr where
  | const (value : Rat)
  | var (symbol : Symbol) (site : Site)
  | sum (terms : List Expr)
  | product (factors : List Expr)
  | pow (base power : Expr)
  | apply (f : Primitive) (arg : Expr)
  | call (name : String) (params : List Symbol) (body : Expr) (args : List Expr)

/-- A named function: its parameters occur in the body as variables. -/
structure Definition where
  name : String
  params : List Symbol
  body : Expr

namespace Definition

/-- Define a function; its name and its parameters are taken in lower case. -/
def ofNames (name : String) (params : List String) (body : Expr) : Definition :=
  ⟨Text.lowercase name, params.map Symbol.ofName, body⟩

def arity (f : Definition) : Nat := f.params.length

end Definition

namespace Expr

instance : Inhabited Expr := ⟨const 0⟩

/-- The variable of a name in any case, written at the site zero: that of the variables which no
text brings. -/
def ofName (s : String) : Expr := var (Symbol.ofName s) 0

/-- The expression as it is written at a site: a variable moves there, and what is inside of other
expressions stays where it is. -/
def writtenAt (k : Site) : Expr → Expr
  | var s _ => var s k
  | e => e

/-- A copy of the expression. That of a variable has a site of its own, and what is inside of other
expressions stays where it is. -/
def copied : Expr → Expr
  | var s k => var s k.next
  | e => e

theorem copied_of {P : Expr → Prop} {e : Expr} (hvar : ∀ s k, P (var s k) → P (var s k.next))
    (h : P e) : P e.copied := by
  cases e with
  | var s k => exact hvar s k h
  | _ => exact h

/-- The operands: those of a sum or product, base and power, or the arguments. -/
def operands : Expr → List Expr
  | const _ | var _ _ => []
  | sum es | product es | call _ _ _ es => es
  | pow b p => [b, p]
  | apply _ e => [e]

def const? : Expr → Option Rat
  | const c => some c
  | _ => none

def var? : Expr → Option Symbol
  | var s _ => some s
  | _ => none

def definition? : Expr → Option Definition
  | call f ps b _ => some ⟨f, ps, b⟩
  | _ => none

def isConst : Expr → Bool
  | const _ => true
  | _ => false

def isSum : Expr → Bool
  | sum _ => true
  | _ => false

def isProduct : Expr → Bool
  | product _ => true
  | _ => false

/-- The terms of a sum; any other expression is its own only term. -/
def terms : Expr → List Expr
  | sum ts => ts
  | e => [e]

/-- The factors of a product; any other expression is its own only factor. -/
def factors : Expr → List Expr
  | product fs => fs
  | e => [e]

end Expr

end Symbolic
