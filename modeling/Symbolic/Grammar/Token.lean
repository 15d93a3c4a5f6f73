import Symbolic.Rational.Decimal

/-!
Tokens of the infix language, and the place of each in the text.
-/

namespace Symbolic

/-- A stretch of the text, in bytes: `start` is its first byte, `stop` the byte after its last. -/
structure Span where
  start : Nat
  stop : Nat
deriving DecidableEq

namespace Span

def single (n : Nat) : Span := ⟨n, n + 1⟩

/-- The stretch holds a byte. -/
def isProper (s : Span) : Bool := s.start < s.stop

/-- The place in words, counted from one; nothing for a stretch that holds no byte. -/
def text (s : Span) : String :=
  if s.stop ≤ s.start then ""
  else if s.stop = s.start + 1 then " at position " ++ toString s.stop
  else " at positions " ++ toString (s.start + 1) ++ "-" ++ toString s.stop

end Span

inductive Operator where
  | plus
  | minus
  | times
  | divide
  | power
deriving DecidableEq

namespace Operator

def precedence : Operator → Nat
  | plus | minus => 10
  | times | divide => 20
  | power => 30

/-- The precedence that an operator in the right operand needs: powers group to the right, all
others to the left. -/
def rightPrecedence (op : Operator) : Nat :=
  if op = power then op.precedence else op.precedence + 1

def symbol : Operator → String
  | plus => "+"
  | minus => "-"
  | times => "*"
  | divide => "/"
  | power => "^"

end Operator

/-- The precedence of a sign before an operand: looser than a power, tighter than a product. -/
def signPrecedence : Nat := 25

/-- What a token is. Names are in lower case. -/
inductive Lexeme where
  | number (value : Rat)
  | name (text : String)
  | operator (op : Operator)
  | opening
  | closing
  | comma
deriving DecidableEq

def Lexeme.inWords : Lexeme → String
  | number q => "number '" ++ Rational.text q ++ "'"
  | name s => "identifier '" ++ s ++ "'"
  | operator op => "operator '" ++ op.symbol ++ "'"
  | opening => "'('"
  | closing => "')'"
  | comma => "','"

/-- A lexeme and its place. -/
structure Token where
  lexeme : Lexeme
  span : Span
deriving DecidableEq

end Symbolic
