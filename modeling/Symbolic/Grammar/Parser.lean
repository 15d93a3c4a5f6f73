import Symbolic.Grammar.Lexer
import Symbolic.Grammar.Vocabulary

/-!
From tokens to expressions, by operator precedence. Operands are numbers, names, signed operands,
parentheses and calls; a function of one argument takes an operand without parentheses too.

The readers take what remains of the tokens and give back what they leave of it. Each call of one
by another uses up a step, and the steps are as many as the tokens can ask for.
-/

namespace Symbolic

def Operator.apply : Operator → Expr → Expr → Expr
  | plus, a, b => Expr.sumOf [a, b]
  | minus, a, b => Expr.subtract a b
  | times, a, b => Expr.productOf [a, b]
  | divide, a, b => Expr.divide a b
  | power, a, b => Expr.powOf a b

namespace Parser

/-- The fault where the first token is not the one that is due; at the end of the text, `stop`. -/
def faultAt {α : Type} (stop : Nat) (fault : Option Lexeme → Fault) :
    List Token → Except Error α
  | [] => .error (.malformed (fault none) (Span.single stop))
  | t :: _ => .error (.malformed (fault (some t.lexeme)) t.span)

def closing (stop : Nat) : List Token → Except Error (List Token)
  | ⟨.closing, _⟩ :: ts => .ok ts
  | ts => faultAt stop .expectedClosing ts

mutual

/-- Read operands joined by operators of at least the given precedence. -/
def expression (v : Vocabulary) (stop : Nat) :
    Nat → Nat → List Token → Except Error (Expr × List Token)
  | 0, _, _ => .error (.malformed .exhausted none)
  | n + 1, least, ts => do
    let (left, ts) ← operand v stop n ts
    continuation v stop n least left ts

/-- Read on after the operand `left`, while operators of at least the given precedence follow. -/
def continuation (v : Vocabulary) (stop : Nat) :
    Nat → Nat → Expr → List Token → Except Error (Expr × List Token)
  | 0, _, _, _ => .error (.malformed .exhausted none)
  | n + 1, least, left, ts =>
    match ts with
    | ⟨.operator op, _⟩ :: rest =>
      if op.precedence < least then .ok (left, ts)
      else do
        let (right, rest) ← expression v stop n op.rightPrecedence rest
        continuation v stop n least (op.apply left right) rest
    | _ => .ok (left, ts)

def operand (v : Vocabulary) (stop : Nat) :
    Nat → List Token → Except Error (Expr × List Token)
  | 0, _ => .error (.malformed .exhausted none)
  | n + 1, ts =>
    match ts with
    | [] => .error (.malformed .missingOperand (Span.single stop))
    | ⟨.number q, _⟩ :: ts => .ok (.const q, ts)
    | ⟨.name s, span⟩ :: ts =>
      match v.callable? s with
      | some f => call v stop n s span f ts
      | none => do return (← v.variableOf s span, ts)
    | ⟨.operator .minus, _⟩ :: ts => do
      let (e, ts) ← expression v stop n signPrecedence ts
      return (Expr.negate e, ts)
    | ⟨.operator .plus, _⟩ :: ts => expression v stop n signPrecedence ts
    | ⟨.opening, _⟩ :: ⟨.closing, span⟩ :: _ => .error (.malformed .emptyParentheses span)
    | ⟨.opening, _⟩ :: ts => do
      let (e, ts) ← expression v stop n 0 ts
      return (e, ← closing stop ts)
    | t :: _ => .error (.malformed (.unexpected t.lexeme) t.span)

/-- Read the arguments of a function whose name has been read. -/
def call (v : Vocabulary) (stop : Nat) :
    Nat → String → Span → Callable → List Token → Except Error (Expr × List Token)
  | 0, _, _, _, _ => .error (.malformed .exhausted none)
  | n + 1, name, span, f, ts =>
    match ts with
    | ⟨.opening, _⟩ :: ts => do
      let (es, ts) ← arguments v stop n ts
      let ts ← closing stop ts
      return (← f.apply name span es, ts)
    | [] => .error (.malformed (.expectedArguments name) span)
    | ts =>
      if f.arity = 1 then do
        let (e, ts) ← expression v stop n signPrecedence ts
        return (← f.apply name span [e], ts)
      else .error (.malformed (.expectedArguments name) span)

/-- Read the arguments after an opening parenthesis, up to the closing one. -/
def arguments (v : Vocabulary) (stop : Nat) :
    Nat → List Token → Except Error (List Expr × List Token)
  | 0, _ => .error (.malformed .exhausted none)
  | n + 1, ts =>
    match ts with
    | ⟨.closing, _⟩ :: _ => .ok ([], ts)
    | _ => moreArguments v stop n ts

/-- Read an argument and those that follow it after commas. -/
def moreArguments (v : Vocabulary) (stop : Nat) :
    Nat → List Token → Except Error (List Expr × List Token)
  | 0, _ => .error (.malformed .exhausted none)
  | n + 1, ts => do
    let (e, ts) ← expression v stop n 0 ts
    match ts with
    | ⟨.comma, _⟩ :: ts => do
      let (es, ts) ← moreArguments v stop n ts
      return (e :: es, ts)
    | ⟨.closing, _⟩ :: _ => return ([e], ts)
    | t :: _ => .error (.malformed (.expectedSeparator t.lexeme) t.span)
    | [] => .error (.malformed (.expectedClosing none) (Span.single stop))

end

/-- The byte after the last token. -/
def stopOf (ts : List Token) : Nat :=
  match ts.getLast? with
  | some t => t.span.stop
  | none => 0

/-- Steps enough to read the tokens: no token starts more than four readers. -/
def steps (ts : List Token) : Nat := 4 * ts.length + 8

/-- The expression that the tokens are, all of them. -/
def ofTokens (v : Vocabulary) (ts : List Token) : Except Error Expr := do
  let (e, rest) ← expression v (stopOf ts) (steps ts) 0 ts
  match rest with
  | [] => return e
  | t :: _ => .error (.malformed (.unexpected t.lexeme) t.span)

end Parser

def Vocabulary.parse (v : Vocabulary) (s : String) : Except Error Expr := do
  if s.toList.all Text.isBlank then .error (.malformed .empty none)
  let ts ← Token.scan s
  Token.checkParentheses [] ts
  Parser.ofTokens v ts

end Symbolic
