import Symbolic.Expr.Arithmetic
import Symbolic.Expr.Measure
import Symbolic.Rational.Decimal
import Symbolic.Text.Quoted

/-!
The text of an expression, in the infix form that the parser reads. A product is printed as a
fraction: the numbers of its coefficient and the powers with a negative constant exponent are
divided over both sides of the bar. A term with a negative coefficient is subtracted.
-/

namespace Symbolic

namespace Expr

/-! Ranks say how loosely an expression holds together in print: an operand is put in parentheses
when its rank is not below that of the place it stands in. -/

def atomRank : Nat := 0
def powRank : Nat := 10
def productRank : Nat := 20
def sumRank : Nat := 30

/-- A negative number or a fraction is printed like a product. -/
def constRank (c : Rat) : Nat :=
  if c < 0 || c.den ≠ 1 then productRank else atomRank

/-- Base and exponent of a power that is printed as a division, the exponent without its sign. A
power of a constant keeps its sign. -/
def reciprocal? : Expr → Option (Expr × Rat)
  | pow b (const c) => if !b.isConst && c < 0 then some (b, -c) else none
  | _ => none

def textRank : Expr → Nat
  | const c => constRank c
  | var _ _ | apply _ _ | call _ _ _ _ => atomRank
  | pow b p => if (reciprocal? (pow b p)).isSome then productRank else powRank
  | product _ => productRank
  | sum _ => sumRank

/-- A term that is subtracted from the terms before it. -/
def isSubtracted : Expr → Bool
  | const c => c < 0
  | product (const c :: _) => c < 0
  | _ => false

/-- One factor above or below the bar of a fraction. -/
inductive Part where
  | number (n : Nat)
  | factor (e : Expr)
  | power (base : Expr) (exponent : Rat)

/-- What a factor puts above and below the bar. -/
def partsOf (e : Expr) : List Part × List Part :=
  match e with
  | const c =>
    (if c.num.natAbs = 1 then [] else [.number c.num.natAbs],
     if c.den = 1 then [] else [.number c.den])
  | e =>
    match reciprocal? e with
    | some (b, n) => ([], [.power b n])
    | none => ([.factor e], [])

def signText : Expr → String
  | const c => if c < 0 then "-" else ""
  | _ => ""

/-- The text of an operand in a place of the given rank. -/
def operandText (text : Expr → String) (place : Nat) (e : Expr) : String :=
  if place ≤ textRank e then "(" ++ text e ++ ")" else text e

def exponentText (n : Rat) : String :=
  if powRank ≤ constRank n then "(" ++ Rational.text n ++ ")" else Rational.text n

def Part.text (text : Expr → String) : Part → String
  | number n => toString n
  | factor e => operandText text productRank e
  | power b n =>
    if n = 1 then operandText text productRank b
    else operandText text powRank b ++ "^" ++ exponentText n

def partsText (text : Expr → String) (parts : List Part) : String :=
  "*".intercalate (parts.map (Part.text text))

/-- The text of a product: signs, what stands above the bar, and what stands below it. -/
def productText (text : Expr → String) (fs : List Expr) : String :=
  let above := fs.flatMap fun e => (partsOf e).1
  let below := fs.flatMap fun e => (partsOf e).2
  String.join (fs.map signText) ++ (if above.isEmpty then "1" else partsText text above) ++
    match below with
    | [] => ""
    | [p] => "/" ++ p.text text
    | ps => "/(" ++ partsText text ps ++ ")"

/-- A term that follows others, with the operator before it. -/
def nextTermText (text : Expr → String) (e : Expr) : String :=
  if isSubtracted e then " - " ++ operandText text sumRank (negate e)
  else " + " ++ operandText text sumRank e

def sumText (text : Expr → String) : List Expr → String
  | [] => ""
  | e :: es => operandText text sumRank e ++ String.join (es.map (nextTermText text))

def powText (text : Expr → String) (b p : Expr) : String :=
  match reciprocal? (pow b p) with
  | some (b, n) => "1/" ++ (Part.power b n).text text
  | none => operandText text powRank b ++ "^" ++ operandText text powRank p

/-- The text of an expression, by the texts of smaller ones. -/
def textBody (text : Expr → String) : Expr → String
  | const c => Rational.text c
  | var s _ => s.name
  | sum es => sumText text es
  | product es => productText text es
  | pow b p => powText text b p
  | apply f e => f.name ++ "(" ++ text e ++ ")"
  | call f _ _ es => f ++ "(" ++ ", ".intercalate (es.map text) ++ ")"

def textWithin : Nat → Expr → String
  | 0, _ => ""
  | n + 1, e => textBody (textWithin n) e

/-- The text of an expression. A subtracted term is printed without its sign, so the depth may
exceed that of the expression itself, though not the bound taken here. -/
def text (e : Expr) : String :=
  textWithin (4 * e.size + 8) e

instance : ToString Expr := ⟨text⟩

/-- The text, labelled as that of an expression. -/
def labelledText (e : Expr) : String := "Expr(" ++ e.text ++ ")"

/-- The function of a call and its arguments as a labelled record. -/
def callText? : Expr → Option String
  | call f _ _ es =>
    some ("FunctionCall \x7b name: " ++ Text.quoted f ++ ", args: [" ++
      ", ".intercalate (es.map labelledText) ++ "] \x7d")
  | _ => none

end Expr

/-- The equation that defines a function. -/
def Definition.text (f : Definition) : String :=
  f.name ++ "(" ++ Symbol.names f.params ++ ") = " ++ f.body.text

end Symbolic
