import Symbolic.Error
import Symbolic.Text.Letter
import Symbolic.Text.Blank
import Symbolic.Text.Lowercase

/-!
From text to tokens. Digits and points make a number, letters, digits and underscores a name, each
as long as it goes; blanks separate and are skipped. Then every parenthesis needs its partner.
-/

namespace Symbolic.Token

def isNumberChar (c : Char) : Bool := c.isDigit || c == '.'

def startsName (c : Char) : Bool := Text.isAlphabetic c || c == '_'

def isNameChar (c : Char) : Bool := Text.isAlphanumeric c || c == '_'

/-- The token that is one character. -/
def ofChar? : Char → Option Lexeme
  | '+' => some (.operator .plus)
  | '-' => some (.operator .minus)
  | '*' => some (.operator .times)
  | '/' => some (.operator .divide)
  | '^' => some (.operator .power)
  | '(' => some .opening
  | ')' => some .closing
  | ',' => some .comma
  | _ => none

def byteLength (cs : List Char) : Nat := cs.foldr (fun c n => c.utf8Size + n) 0

theorem length_dropWhile_le (p : Char → Bool) (cs : List Char) :
    (cs.dropWhile p).length ≤ cs.length :=
  (List.dropWhile_sublist p).length_le

/-- The tokens of the text `cs`, which starts at byte `at`. -/
def scanFrom (start : Nat) (cs : List Char) : Except Error (List Token) :=
  match cs with
  | [] => .ok []
  | c :: cs =>
    if Text.isBlank c then scanFrom (start + c.utf8Size) cs
    else if isNumberChar c then
      let run := c :: cs.takeWhile isNumberChar
      let span := Span.mk start (start + byteLength run)
      match Rational.decimal? (String.ofList run) with
      | none => .error (.malformed (.badNumber (String.ofList run)) span)
      | some q => do
        let rest ← scanFrom span.stop (cs.dropWhile isNumberChar)
        return ⟨.number q, span⟩ :: rest
    else if startsName c then do
      let run := c :: cs.takeWhile isNameChar
      let span := Span.mk start (start + byteLength run)
      let rest ← scanFrom span.stop (cs.dropWhile isNameChar)
      return ⟨.name (Text.lowercase (String.ofList run)), span⟩ :: rest
    else
      let span := Span.mk start (start + c.utf8Size)
      match ofChar? c with
      | none => .error (.malformed (.badCharacter c) span)
      | some x => do
        let rest ← scanFrom span.stop cs
        return ⟨x, span⟩ :: rest
termination_by cs.length
decreasing_by
  all_goals
    have := length_dropWhile_le isNumberChar cs
    have := length_dropWhile_le isNameChar cs
    simp only [List.length_cons]
    omega

def scan (s : String) : Except Error (List Token) :=
  scanFrom 0 s.toList

/-- Check the parentheses of the tokens that follow, `opened` being the places of those still to be
closed, the last one first. -/
def checkParentheses (opened : List Span) : List Token → Except Error Unit
  | [] =>
    match opened with
    | [] => .ok ()
    | s :: _ => .error (.malformed .unbalanced s)
  | t :: ts =>
    match t.lexeme with
    | .opening => checkParentheses (t.span :: opened) ts
    | .closing =>
      match opened with
      | [] => .error (.malformed .unbalanced t.span)
      | _ :: opened => checkParentheses opened ts
    | _ => checkParentheses opened ts

end Symbolic.Token
