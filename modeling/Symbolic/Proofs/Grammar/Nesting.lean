import Symbolic.Grammar.Parser

/-!
Reading inside parentheses. The readers are written once more with the number `d` of parentheses that
are open around them, and an error comes with that number (`Failure`); without it they are the
readers (`erases_ofTokensIn`).

Where the parentheses of the tokens match, what remains for a reader in `d` parentheses has `d` more
to close than it opens (`Awaits`). So the end of the text is met in no parentheses only: there no
parenthesis is missing, an operand is missing in none, and no closing parenthesis is left over
(`ofTokens_balanced`).
-/

namespace Symbolic

namespace Fault

/-- One message alone says this, though others start alike. -/
theorem message_eq_expectedClosing_iff {f : Fault} :
    f.message = "expected ')'" ↔ f = expectedClosing none := by
  refine ⟨fun h => ?_, fun h => h ▸ rfl⟩
  have character (n : Nat) : f.message.toList[n]? = "expected ')'".toList[n]? := by rw [h]
  have first := character 0
  have second := character 1
  have quoted := character 10
  have past := character 12
  unfold message at first second quoted past
  cases f with
  | expectedClosing found =>
    cases found with
    | none => rfl
    | some x => simp at past
  | empty | emptyParentheses | noOperands => simp at second
  | expectedSeparator x => simp at quoted
  | _ => simp at first

theorem message_eq_missingOperand_iff {f : Fault} :
    f.message = "missing operand" ↔ f = missingOperand := by
  refine ⟨fun h => ?_, fun h => h ▸ rfl⟩
  have first : f.message.toList[0]? = "missing operand".toList[0]? := by rw [h]
  unfold message at first
  cases f with
  | missingOperand => rfl
  | expectedClosing found => cases found <;> simp at first
  | _ => simp at first

end Fault

namespace Parser

variable {v : Vocabulary} {stop n d least : Nat} {α β : Type}

/-- An error, and in how many parentheses the reader is that meets it. -/
structure Failure where
  depth : Nat
  error : Error

/-- The result of what is done in `d` parentheses. -/
def within (d : Nat) (x : Except Error α) : Except Failure α := x.mapError (Failure.mk d)

/-! The readers in `d` parentheses. A parenthesis counts from behind its opening until its closing has
been read. -/

mutual

def expressionIn (v : Vocabulary) (stop : Nat) :
    Nat → Nat → Nat → List Token → Except Failure (Expr × List Token)
  | 0, d, _, _ => within d (.error (.malformed .exhausted none))
  | n + 1, d, least, ts => do
    let (left, ts) ← operandIn v stop n d ts
    continuationIn v stop n d least left ts
termination_by structural n => n

def continuationIn (v : Vocabulary) (stop : Nat) :
    Nat → Nat → Nat → Expr → List Token → Except Failure (Expr × List Token)
  | 0, d, _, _, _ => within d (.error (.malformed .exhausted none))
  | n + 1, d, least, left, ts =>
    match ts with
    | ⟨.operator op, _⟩ :: rest =>
      if op.precedence < least then .ok (left, ts)
      else do
        let (right, rest) ← expressionIn v stop n d op.rightPrecedence rest
        continuationIn v stop n d least (op.apply left right) rest
    | _ => .ok (left, ts)
termination_by structural n => n

def operandIn (v : Vocabulary) (stop : Nat) :
    Nat → Nat → List Token → Except Failure (Expr × List Token)
  | 0, d, _ => within d (.error (.malformed .exhausted none))
  | n + 1, d, ts =>
    match ts with
    | [] => within d (.error (.malformed .missingOperand (Span.single stop)))
    | ⟨.number q, _⟩ :: ts => .ok (.const q, ts)
    | ⟨.name s, span⟩ :: ts =>
      match v.callable? s with
      | some f => callIn v stop n d s span f ts
      | none => do return (← within d (v.variableOf s span), ts)
    | ⟨.operator .minus, _⟩ :: ts => do
      let (e, ts) ← expressionIn v stop n d signPrecedence ts
      return (Expr.negate e, ts)
    | ⟨.operator .plus, _⟩ :: ts => expressionIn v stop n d signPrecedence ts
    | ⟨.opening, _⟩ :: ⟨.closing, span⟩ :: _ =>
      within (d + 1) (.error (.malformed .emptyParentheses span))
    | ⟨.opening, _⟩ :: ts => do
      let (e, ts) ← expressionIn v stop n (d + 1) 0 ts
      return (e, ← within (d + 1) (closing stop ts))
    | t :: _ => within d (.error (.malformed (.unexpected t.lexeme) t.span))
termination_by structural n => n

/-- The arguments of a function whose name has been read in `d` parentheses. -/
def callIn (v : Vocabulary) (stop : Nat) :
    Nat → Nat → String → Span → Callable → List Token → Except Failure (Expr × List Token)
  | 0, d, _, _, _, _ => within d (.error (.malformed .exhausted none))
  | n + 1, d, name, span, f, ts =>
    match ts with
    | ⟨.opening, _⟩ :: ts => do
      let (es, ts) ← argumentsIn v stop n (d + 1) ts
      let ts ← within (d + 1) (closing stop ts)
      return (← within d (f.apply name span es), ts)
    | [] => within d (.error (.malformed (.expectedArguments name) span))
    | ts =>
      if f.arity = 1 then do
        let (e, ts) ← expressionIn v stop n d signPrecedence ts
        return (← within d (f.apply name span [e]), ts)
      else within d (.error (.malformed (.expectedArguments name) span))
termination_by structural n => n

/-- The arguments up to the closing parenthesis, which is among the `d`. -/
def argumentsIn (v : Vocabulary) (stop : Nat) :
    Nat → Nat → List Token → Except Failure (List Expr × List Token)
  | 0, d, _ => within d (.error (.malformed .exhausted none))
  | n + 1, d, ts =>
    match ts with
    | ⟨.closing, _⟩ :: _ => .ok ([], ts)
    | _ => moreArgumentsIn v stop n d ts
termination_by structural n => n

def moreArgumentsIn (v : Vocabulary) (stop : Nat) :
    Nat → Nat → List Token → Except Failure (List Expr × List Token)
  | 0, d, _ => within d (.error (.malformed .exhausted none))
  | n + 1, d, ts => do
    let (e, ts) ← expressionIn v stop n d 0 ts
    match ts with
    | ⟨.comma, _⟩ :: ts => do
      let (es, ts) ← moreArgumentsIn v stop n d ts
      return (e :: es, ts)
    | ⟨.closing, _⟩ :: _ => return ([e], ts)
    | t :: _ => within d (.error (.malformed (.expectedSeparator t.lexeme) t.span))
    | [] => within d (.error (.malformed (.expectedClosing none) (Span.single stop)))
termination_by structural n => n

end

def ofTokensIn (v : Vocabulary) (ts : List Token) : Except Failure Expr := do
  let (e, rest) ← expressionIn v (stopOf ts) (steps ts) 0 0 ts
  match rest with
  | [] => return e
  | t :: _ => within 0 (.error (.malformed (.unexpected t.lexeme) t.span))

/-! The number of parentheses makes no difference to what is read. -/

/-- The same result, once the number of parentheses is left out. -/
def Erases (x : Except Failure α) (y : Except Error α) : Prop := x.mapError Failure.error = y

theorem erases_ok (a : α) : Erases (.ok a) (.ok a) := rfl

theorem erases_within (d : Nat) (y : Except Error α) : Erases (within d y) y := by
  cases y <;> rfl

theorem Erases.bind {x : Except Failure α} {y : Except Error α} {f : α → Except Failure β}
    {g : α → Except Error β} (hx : Erases x y) (hf : ∀ a, Erases (f a) (g a)) :
    Erases (x >>= f) (y >>= g) := by
  obtain rfl := hx
  cases x with
  | error e => rfl
  | ok a => exact hf a

theorem Erases.eq_ok {x : Except Failure α} {a : α} (h : Erases x (.ok a)) : x = .ok a := by
  cases x with
  | error f => cases h
  | ok b =>
    cases h
    rfl

/-- The readers within `n` steps, in any number of parentheses. -/
structure ErasesAll (v : Vocabulary) (stop n : Nat) : Prop where
  expression : ∀ {d least ts}, Erases (expressionIn v stop n d least ts) (expression v stop n least ts)
  continuation : ∀ {d least left ts},
    Erases (continuationIn v stop n d least left ts) (continuation v stop n least left ts)
  operand : ∀ {d ts}, Erases (operandIn v stop n d ts) (operand v stop n ts)
  call : ∀ {d name span f ts}, Erases (callIn v stop n d name span f ts) (call v stop n name span f ts)
  arguments : ∀ {d ts}, Erases (argumentsIn v stop n d ts) (arguments v stop n ts)
  moreArguments : ∀ {d ts}, Erases (moreArgumentsIn v stop n d ts) (moreArguments v stop n ts)

namespace ErasesAll

theorem expression_succ (k : ErasesAll v stop n) {ts : List Token} :
    Erases (expressionIn v stop (n + 1) d least ts) (Parser.expression v stop (n + 1) least ts) := by
  rw [expressionIn, Parser.expression]
  exact k.operand.bind fun _ => k.continuation

theorem continuation_succ (k : ErasesAll v stop n) {left : Expr} {ts : List Token} :
    Erases (continuationIn v stop (n + 1) d least left ts)
      (Parser.continuation v stop (n + 1) least left ts) := by
  unfold continuationIn
  split
  · rw [Parser.continuation]
    split
    · exact erases_ok _
    · exact k.expression.bind fun _ => k.continuation
  · rw [Parser.continuation]
    · exact erases_ok _
    · assumption

theorem operand_succ (k : ErasesAll v stop n) {ts : List Token} :
    Erases (operandIn v stop (n + 1) d ts) (Parser.operand v stop (n + 1) ts) := by
  unfold operandIn
  split <;> rw [Parser.operand]
  · exact erases_within _ _
  · exact erases_ok _
  · next name span ts =>
    cases v.callable? name with
    | some f => exact k.call
    | none => exact (erases_within _ _).bind fun _ => erases_ok _
  · exact k.expression.bind fun _ => erases_ok _
  · exact k.expression
  · exact erases_within _ _
  · exact k.expression.bind fun _ => (erases_within _ _).bind fun _ => erases_ok _
  · assumption
  · exact erases_within _ _
  all_goals assumption

theorem call_succ (k : ErasesAll v stop n) {name : String} {span : Span} {f : Callable}
    {ts : List Token} : Erases (callIn v stop (n + 1) d name span f ts)
      (Parser.call v stop (n + 1) name span f ts) := by
  unfold callIn
  split <;> rw [Parser.call]
  · refine k.arguments.bind fun _ => (erases_within _ _).bind fun _ => ?_
    exact (erases_within _ _).bind fun _ => erases_ok _
  · exact erases_within _ _
  · split
    · exact k.expression.bind fun _ => (erases_within _ _).bind fun _ => erases_ok _
    · exact erases_within _ _
  all_goals assumption

theorem arguments_succ (k : ErasesAll v stop n) {ts : List Token} :
    Erases (argumentsIn v stop (n + 1) d ts) (Parser.arguments v stop (n + 1) ts) := by
  unfold argumentsIn
  split <;> rw [Parser.arguments]
  · exact erases_ok _
  · exact k.moreArguments
  · assumption

theorem moreArguments_succ (k : ErasesAll v stop n) {ts : List Token} :
    Erases (moreArgumentsIn v stop (n + 1) d ts) (Parser.moreArguments v stop (n + 1) ts) := by
  rw [moreArgumentsIn, Parser.moreArguments]
  refine k.expression.bind fun ⟨e, us⟩ => ?_
  match us with
  | [] => exact erases_within _ _
  | ⟨.comma, _⟩ :: us => exact k.moreArguments.bind fun _ => erases_ok _
  | ⟨.closing, _⟩ :: us => exact erases_ok _
  | ⟨.number _, _⟩ :: us => exact erases_within _ _
  | ⟨.name _, _⟩ :: us => exact erases_within _ _
  | ⟨.operator _, _⟩ :: us => exact erases_within _ _
  | ⟨.opening, _⟩ :: us => exact erases_within _ _

end ErasesAll

theorem erasesAll (n : Nat) : ErasesAll v stop n := by
  induction n with
  | zero => constructor <;> intros <;> exact erases_within _ _
  | succ n k =>
    exact ⟨k.expression_succ, k.continuation_succ, k.operand_succ, k.call_succ, k.arguments_succ,
      k.moreArguments_succ⟩

theorem erases_ofTokensIn (v : Vocabulary) (ts : List Token) :
    Erases (ofTokensIn v ts) (ofTokens v ts) := by
  refine (erasesAll (steps ts)).expression.bind fun ⟨e, rest⟩ => ?_
  cases rest with
  | nil => exact erases_ok _
  | cons t rest => exact erases_within _ _

/-! Tokens whose parentheses match. -/

/-- What remains of tokens whose parentheses match, `d` of them being open. -/
def Awaits (d : Nat) (ts : List Token) : Prop :=
  ∃ opened : List Span, opened.length = d ∧ Token.checkParentheses opened ts = .ok ()

namespace Awaits

theorem eq_zero (h : Awaits d []) : d = 0 := by
  obtain ⟨_ | _, hd, h⟩ := h
  · exact hd.symm
  · cases h

theorem opening {s : Span} {ts : List Token} (h : Awaits d (⟨.opening, s⟩ :: ts)) :
    Awaits (d + 1) ts := by
  obtain ⟨opened, rfl, h⟩ := h
  exact ⟨s :: opened, rfl, h⟩

theorem closing {s : Span} {ts : List Token} (h : Awaits d (⟨.closing, s⟩ :: ts)) :
    ∃ k, d = k + 1 ∧ Awaits k ts := by
  obtain ⟨_ | ⟨_, opened⟩, rfl, h⟩ := h
  · cases h
  · exact ⟨opened.length, rfl, opened, rfl, h⟩

theorem other {x : Lexeme} {s : Span} {ts : List Token} (h : Awaits d (⟨x, s⟩ :: ts))
    (hopening : x ≠ .opening) (hclosing : x ≠ .closing) : Awaits d ts := by
  obtain ⟨opened, hd, h⟩ := h
  cases x with
  | opening => exact absurd rfl hopening
  | closing => exact absurd rfl hclosing
  | _ => exact ⟨opened, hd, h⟩

end Awaits

/-- What is given satisfies `P`, and an error is neither that a parenthesis has to close at the end
nor, in parentheses, that an operand is due there. -/
def Gives (P : α → Prop) : Except Failure α → Prop
  | .ok a => P a
  | .error f => ∀ span, f.error ≠ .malformed (.expectedClosing none) span ∧
      (f.error = .malformed .missingOperand span → f.depth = 0)

section Gives

variable {P : α → Prop} {Q : β → Prop}

theorem gives_error {e : Error} (hc : ∀ span, e ≠ .malformed (.expectedClosing none) span)
    (ho : ∀ span, e ≠ .malformed .missingOperand span) : Gives P (within d (.error e)) :=
  fun span => ⟨hc span, fun h => absurd h (ho span)⟩

theorem Gives.bind {x : Except Failure α} {f : α → Except Failure β} (hx : Gives P x)
    (hf : ∀ a, P a → Gives Q (f a)) : Gives Q (x >>= f) := by
  cases x with
  | error e => exact hx
  | ok a => exact hf a hx

theorem gives_variableOf (v : Vocabulary) (name : String) (span : Span) :
    Gives (fun _ => True) (within d (v.variableOf name span)) := by
  unfold Vocabulary.variableOf
  simp only
  split
  · trivial
  · exact gives_error nofun nofun

theorem gives_apply (f : Callable) (name : String) (span : Span) (es : List Expr) :
    Gives (fun _ => True) (within d (f.apply name span es)) := by
  unfold Callable.apply
  split
  · trivial
  · exact gives_error nofun nofun
  · split
    · trivial
    · exact gives_error nofun nofun

theorem gives_closing {ts : List Token} (h : Awaits (d + 1) ts) :
    Gives (Awaits d) (within (d + 1) (closing stop ts)) := by
  unfold closing
  split
  · obtain ⟨k, hk, h⟩ := h.closing
    cases hk
    exact h
  · unfold faultAt
    split
    · cases h.eq_zero
    · exact gives_error nofun nofun

end Gives

/-- What is left is as much inside the parentheses as what was given. -/
def Leaves (d : Nat) (r : α × List Token) : Prop := Awaits d r.2

/-- The readers within `n` steps, on tokens whose parentheses match. Arguments are read inside the
parentheses of the call. -/
structure Balances (v : Vocabulary) (stop n : Nat) : Prop where
  expression : ∀ {d least ts}, Awaits d ts → Gives (Leaves d) (expressionIn v stop n d least ts)
  continuation : ∀ {d least left ts}, Awaits d ts →
    Gives (Leaves d) (continuationIn v stop n d least left ts)
  operand : ∀ {d ts}, Awaits d ts → Gives (Leaves d) (operandIn v stop n d ts)
  call : ∀ {d name span f ts}, Awaits d ts → Gives (Leaves d) (callIn v stop n d name span f ts)
  arguments : ∀ {d ts}, Awaits (d + 1) ts → Gives (Leaves (d + 1)) (argumentsIn v stop n (d + 1) ts)
  moreArguments : ∀ {d ts}, Awaits (d + 1) ts →
    Gives (Leaves (d + 1)) (moreArgumentsIn v stop n (d + 1) ts)

theorem balances_zero : Balances v stop 0 where
  expression _ := gives_error nofun nofun
  continuation _ := gives_error nofun nofun
  operand _ := gives_error nofun nofun
  call _ := gives_error nofun nofun
  arguments _ := gives_error nofun nofun
  moreArguments _ := gives_error nofun nofun

namespace Balances

theorem expression_succ (k : Balances v stop n) {ts : List Token} (h : Awaits d ts) :
    Gives (Leaves d) (expressionIn v stop (n + 1) d least ts) :=
  (k.operand h).bind fun _ h => k.continuation h

theorem continuation_succ (k : Balances v stop n) {left : Expr} {ts : List Token}
    (h : Awaits d ts) : Gives (Leaves d) (continuationIn v stop (n + 1) d least left ts) := by
  unfold continuationIn
  split
  · split
    · exact h
    · exact (k.expression (h.other nofun nofun)).bind fun _ h => k.continuation h
  · exact h

theorem operand_succ (k : Balances v stop n) {ts : List Token} (h : Awaits d ts) :
    Gives (Leaves d) (operandIn v stop (n + 1) d ts) := by
  unfold operandIn
  split
  -- nothing remains, so nothing is open
  · exact fun _ => ⟨nofun, fun _ => h.eq_zero⟩
  · exact h.other nofun nofun
  · have h := h.other nofun nofun
    split
    · exact k.call h
    · exact (gives_variableOf v _ _).bind fun _ _ => h
  · exact (k.expression (h.other nofun nofun)).bind fun _ h => h
  · exact k.expression (h.other nofun nofun)
  · exact gives_error nofun nofun
  · refine (k.expression h.opening).bind fun _ h => ?_
    exact (gives_closing h).bind fun _ h => h
  · exact gives_error nofun nofun

theorem call_succ (k : Balances v stop n) {name : String} {span : Span} {f : Callable}
    {ts : List Token} (h : Awaits d ts) :
    Gives (Leaves d) (callIn v stop (n + 1) d name span f ts) := by
  unfold callIn
  split
  · refine (k.arguments h.opening).bind fun _ h => (gives_closing h).bind fun _ h => ?_
    exact (gives_apply f name span _).bind fun _ _ => h
  · exact gives_error nofun nofun
  · split
    · refine (k.expression h).bind fun _ h => ?_
      exact (gives_apply f name span _).bind fun _ _ => h
    · exact gives_error nofun nofun

theorem arguments_succ (k : Balances v stop n) {ts : List Token} (h : Awaits (d + 1) ts) :
    Gives (Leaves (d + 1)) (argumentsIn v stop (n + 1) (d + 1) ts) := by
  unfold argumentsIn
  split
  · exact h
  · exact k.moreArguments h

theorem moreArguments_succ (k : Balances v stop n) {ts : List Token} (h : Awaits (d + 1) ts) :
    Gives (Leaves (d + 1)) (moreArgumentsIn v stop (n + 1) (d + 1) ts) := by
  unfold moreArgumentsIn
  refine (k.expression h).bind fun r (h : Awaits (d + 1) r.2) => ?_
  obtain ⟨e, us⟩ := r
  simp only at h ⊢
  split
  · exact (k.moreArguments (h.other nofun nofun)).bind fun _ h => h
  · exact h
  · exact gives_error nofun nofun
  · cases h.eq_zero

end Balances

theorem balances (n : Nat) : Balances v stop n := by
  induction n with
  | zero => exact balances_zero
  | succ n k =>
    exact ⟨k.expression_succ, k.continuation_succ, k.operand_succ, k.call_succ, k.arguments_succ,
      k.moreArguments_succ⟩

/-- What is read as an expression leaves as many parentheses to be closed as it finds. -/
theorem expression_awaits {ts rest : List Token} {e : Expr} (h : Awaits d ts)
    (hr : expression v stop n least ts = .ok (e, rest)) : Awaits d rest := by
  have herases : Erases (expressionIn v stop n d least ts) (expression v stop n least ts) :=
    (erasesAll n).expression
  have hgives : Gives (Leaves d) (expressionIn v stop n d least ts) := (balances n).expression h
  rw [hr] at herases
  rw [herases.eq_ok] at hgives
  exact hgives

theorem gives_ofTokensIn {ts : List Token} (h : Awaits 0 ts) :
    Gives (fun _ => True) (ofTokensIn v ts) := by
  refine ((balances (steps ts)).expression h).bind fun r _ => ?_
  obtain ⟨e, _ | ⟨t, rest⟩⟩ := r
  · trivial
  · exact gives_error nofun nofun

/-- Where the parentheses of the tokens match, no closing parenthesis is missing at the end, no
operand is missing there inside parentheses, and what is read in none is not followed by a closing
one. -/
theorem ofTokens_balanced (v : Vocabulary) {ts : List Token}
    (h : Token.checkParentheses [] ts = .ok ()) :
    (ofTokensIn v ts).mapError Failure.error = ofTokens v ts ∧
      (∀ d fault span, ofTokensIn v ts = .error ⟨d, .malformed fault span⟩ →
        fault.message ≠ "expected ')'" ∧ (fault.message = "missing operand" → d = 0)) ∧
      ∀ e t rest, expression v (stopOf ts) (steps ts) 0 ts = .ok (e, t :: rest) →
        t.lexeme ≠ .closing := by
  have hawaits : Awaits 0 ts := ⟨[], rfl, h⟩
  refine ⟨erases_ofTokensIn v ts, fun d fault span hf => ?_, fun e t rest hr hclosing => ?_⟩
  · have hgives : Gives (fun _ => True) (ofTokensIn v ts) := gives_ofTokensIn hawaits
    rw [hf] at hgives
    obtain ⟨hc, ho⟩ := hgives span
    rw [Ne, Fault.message_eq_expectedClosing_iff, Fault.message_eq_missingOperand_iff]
    refine ⟨?_, ?_⟩
    · rintro rfl
      exact hc rfl
    · rintro rfl
      exact ho rfl
  · obtain ⟨x, s⟩ := t
    obtain rfl : x = .closing := hclosing
    obtain ⟨k, hk, _⟩ := (expression_awaits hawaits hr).closing
    cases hk

/-- Of "(1 2)", which fails in a parenthesis and says what is found where it has to close. -/
theorem ofTokens_balanced_found :
    let ts : List Token := [⟨.opening, ⟨0, 1⟩⟩, ⟨.number 1, ⟨1, 2⟩⟩, ⟨.number 2, ⟨3, 4⟩⟩,
      ⟨.closing, ⟨4, 5⟩⟩]
    let fault : Fault := .expectedClosing (some (.number 2))
    Token.checkParentheses [] ts = .ok () ∧
      ofTokensIn Vocabulary.empty ts = .error ⟨1, .malformed fault (some ⟨3, 4⟩)⟩ ∧
      fault.message ≠ "expected ')'" := by
  intro ts fault
  have h : Token.checkParentheses [] ts = .ok () := rfl
  have hf : ofTokensIn Vocabulary.empty ts = .error ⟨1, .malformed fault (some ⟨3, 4⟩)⟩ := rfl
  exact ⟨h, hf, ((ofTokens_balanced Vocabulary.empty h).2.1 _ _ _ hf).1⟩

end Parser

end Symbolic
