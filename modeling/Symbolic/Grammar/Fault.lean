import Symbolic.Grammar.Token

/-!
What can be wrong with a text, or a tree, that is no expression.
-/

namespace Symbolic

/-- What is wrong with a text. The last two are faults of trees, which no operation makes. -/
inductive Fault where
  /-- Nothing but blanks. -/
  | empty
  /-- A run of digits and points that is no number. -/
  | badNumber (text : String)
  /-- A character that starts no token. -/
  | badCharacter (c : Char)
  /-- A parenthesis without its partner. -/
  | unbalanced
  /-- The text ends where an operand is due. -/
  | missingOperand
  /-- An opening parenthesis that is closed at once. -/
  | emptyParentheses
  /-- A token that cannot stand in its place. -/
  | unexpected (found : Lexeme)
  /-- Something else, or the end, where a parenthesis has to close. -/
  | expectedClosing (found : Option Lexeme)
  /-- Something else where an argument has to end. -/
  | expectedSeparator (found : Lexeme)
  /-- A function of other than one argument without parentheses after it. -/
  | expectedArguments (name : String)
  /-- A call with the wrong number of arguments. -/
  | wrongArguments (name : String) (expected got : Nat)
  /-- The steps of the parser are used up, which no text brings about. -/
  | exhausted
  /-- A sum or a product of nothing. -/
  | noOperands
  /-- A function that is defined from the start, on a wrong number of arguments. -/
  | wrongOperands (name : String) (got : Nat)
deriving DecidableEq

def Fault.message : Fault → String
  | empty => "empty expression"
  | badNumber s => "invalid number '" ++ s ++ "'"
  | badCharacter c => "unexpected character '" ++ c.toString ++ "'"
  | unbalanced => "unbalanced parentheses"
  | missingOperand => "missing operand"
  | emptyParentheses => "empty parentheses"
  | unexpected x => "unexpected " ++ x.inWords
  | expectedClosing none => "expected ')'"
  | expectedClosing (some x) => "expected ')', found " ++ x.inWords
  | expectedSeparator x => "expected ',' or ')', found " ++ x.inWords
  | expectedArguments f => "function '" ++ f ++ "' needs a parenthesized argument list"
  | wrongArguments f n m =>
    "function '" ++ f ++ "' takes " ++ toString n ++ " argument(s), got " ++ toString m
  | exhausted => "too many steps"
  | noOperands => "empty argument list reached reduction"
  | wrongOperands f n => "built-in '" ++ f ++ "' with " ++ toString n ++ " arguments"

/-- Whose fault it is, in words before the message. -/
def Fault.heading : Fault → String
  | noOperands | wrongOperands _ _ => "internal error: "
  | _ => "invalid syntax: "

end Symbolic
