import Symbolic.Proofs.Grammar.Readers

/-!
The grammar of the infix language, said without a reader:

    sum     = term {(+ | -) term}
    term    = unary {(* | /) unary}
    unary   = (- | +) unary | f1 unary | power
    power   = primary [^ unary]
    primary = number | name | ( sum ) | f ( [sum {, sum}] )

A name that stands for a function is no variable, `f` is the name of a function of as many arguments
as there are, and `f1` is that of a function of one argument which no parenthesis follows.
`Derives fs c ts t rest` says that the tokens `ts` are a phrase of category `c`, derived by the tree
`t`, and then `rest`. A phrase that reaches as far as it can has one derivation and ends at one place
(`Derives.unique`).
-/

namespace Symbolic

open Symbolic.Parser

/-- The call on arguments, as many as the arity. -/
def Callable.on : Callable → List Expr → Expr
  | primitive f, es => Expr.applyOf f (es.headD (Expr.const 0))
  | function f, es => f.on es

theorem Callable.apply_eq_ok {f : Callable} {name : String} {span : Span} {es : List Expr}
    {e : Expr} : f.apply name span es = .ok e ↔ es.length = f.arity ∧ f.on es = e := by
  cases f with
  | primitive f =>
    match es with
    | [] => simp [apply, arity]
    | [d] => simp [apply, arity, on]
    | _ :: _ :: _ => simp [apply, arity]
  | function f =>
    rw [apply, arity, on]
    split
    · next h => simp [h]
    · next h => simp [h]

/-- What phrases are, the loosest first. -/
inductive Category where
  | sum
  | term
  | unary
  | power
  | primary
deriving DecidableEq

namespace Category

/-- A phrase reaches as far as it can if no operator of this precedence or more follows. Nothing
carries on a primary phrase. -/
def level : Category → Nat
  | sum => 10
  | term => 20
  | unary | power => 30
  | primary => 31

/-- What stands on the right of the operators in a phrase. -/
def operand : Category → Category
  | sum => term
  | term | unary | power => unary
  | primary => primary

theorem level_le_operand (c : Category) : c.level ≤ c.operand.level := by
  cases c <;> decide

end Category

/-- What operands that an operator joins are. -/
def Operator.category : Operator → Category
  | plus | minus => .sum
  | times | divide => .term
  | power => .power

theorem Operator.precedence_eq {op : Operator} {c : Category} (hop : op.category = c) :
    op.precedence = c.level := by
  subst hop
  cases op <;> rfl

/-- A derivation. A step from a category to a tighter one is not written down. -/
inductive ParseTree where
  | number (q : Rat)
  | name (text : String) (span : Span)
  | group (t : ParseTree)
  | call (f : Callable) (args : List ParseTree)
  | minus (t : ParseTree)
  | plus (t : ParseTree)
  | applied (f : Callable) (t : ParseTree)
  | joined (op : Operator) (left right : ParseTree)

namespace ParseTree

mutual

/-- The expression that is built along a derivation. -/
def value (origin : Site) : ParseTree → Expr
  | number q => .const q
  | name x span => .var (Symbol.ofName x) (origin + span.start)
  | group t => t.value origin
  | call f ts => f.on (values origin ts)
  | minus t => Expr.negate (t.value origin)
  | plus t => t.value origin
  | applied f t => f.on [t.value origin]
  | joined op l r => op.apply (l.value origin) (r.value origin)

def values (origin : Site) : List ParseTree → List Expr
  | [] => []
  | t :: ts => t.value origin :: values origin ts

end

mutual

def names : ParseTree → List Symbol
  | number _ => []
  | name x _ => [Symbol.ofName x]
  | group t | minus t | plus t | applied _ t => t.names
  | call _ ts => namesAll ts
  | joined _ l r => l.names ++ r.names

def namesAll : List ParseTree → List Symbol
  | [] => []
  | t :: ts => t.names ++ namesAll ts

end

theorem length_values (origin : Site) (ts : List ParseTree) :
    (values origin ts).length = ts.length := by
  induction ts with
  | nil => rfl
  | cons t ts ih => exact congrArg Nat.succ ih

end ParseTree

open ParseTree

mutual

/-- The tokens are a phrase of the category, derived by the tree, and what follows it. -/
inductive Derives (fs : String → Option Callable) :
    Category → List Token → ParseTree → List Token → Prop where
  | number {q : Rat} {s : Span} {ts : List Token} :
      Derives fs .primary (⟨.number q, s⟩ :: ts) (.number q) ts
  | name {x : String} {s : Span} {ts : List Token} :
      fs x = none → Derives fs .primary (⟨.name x, s⟩ :: ts) (.name x s) ts
  | group {s s' : Span} {ts us : List Token} {t : ParseTree} :
      Derives fs .sum ts t (⟨.closing, s'⟩ :: us) →
        Derives fs .primary (⟨.opening, s⟩ :: ts) (.group t) us
  | call {x : String} {f : Callable} {s s' s'' : Span} {ts us : List Token} {es : List ParseTree} :
      fs x = some f → Lists fs ts es (⟨.closing, s''⟩ :: us) → es.length = f.arity →
        Derives fs .primary (⟨.name x, s⟩ :: ⟨.opening, s'⟩ :: ts) (.call f es) us
  | primary {ts us : List Token} {t : ParseTree} :
      Derives fs .primary ts t us → Derives fs .power ts t us
  | raised {s : Span} {ts us ws : List Token} {b p : ParseTree} :
      Derives fs .primary ts b (⟨.operator .power, s⟩ :: us) → Derives fs .unary us p ws →
        Derives fs .power ts (.joined .power b p) ws
  | power {ts us : List Token} {t : ParseTree} :
      Derives fs .power ts t us → Derives fs .unary ts t us
  | minus {s : Span} {ts us : List Token} {t : ParseTree} :
      Derives fs .unary ts t us → Derives fs .unary (⟨.operator .minus, s⟩ :: ts) (.minus t) us
  | plus {s : Span} {ts us : List Token} {t : ParseTree} :
      Derives fs .unary ts t us → Derives fs .unary (⟨.operator .plus, s⟩ :: ts) (.plus t) us
  | applied {x : String} {f : Callable} {s : Span} {y : Token} {ts us : List Token} {t : ParseTree} :
      fs x = some f → f.arity = 1 → y.lexeme ≠ .opening → Derives fs .unary (y :: ts) t us →
        Derives fs .unary (⟨.name x, s⟩ :: y :: ts) (.applied f t) us
  | term {ts us ws : List Token} {a t : ParseTree} :
      Derives fs .unary ts a us → Chains fs .term a us t ws → Derives fs .term ts t ws
  | sum {ts us ws : List Token} {a t : ParseTree} :
      Derives fs .term ts a us → Chains fs .sum a us t ws → Derives fs .sum ts t ws

/-- Any number of operators with operands, each joined to all that stands before it. -/
inductive Chains (fs : String → Option Callable) :
    Category → ParseTree → List Token → ParseTree → List Token → Prop where
  | done {c : Category} {a : ParseTree} {ts : List Token} : Chains fs c a ts a ts
  | more {c : Category} {op : Operator} {s : Span} {a b t : ParseTree} {ts us ws : List Token} :
      op.category = c → Derives fs c.operand ts b us → Chains fs c (.joined op a b) us t ws →
        Chains fs c a (⟨.operator op, s⟩ :: ts) t ws

/-- Any number of sums, with commas between them. -/
inductive Lists (fs : String → Option Callable) :
    List Token → List ParseTree → List Token → Prop where
  | none {ts : List Token} : Lists fs ts [] ts
  | last {ts us : List Token} {t : ParseTree} : Derives fs .sum ts t us → Lists fs ts [t] us
  | more {s : Span} {ts us ws : List Token} {t u : ParseTree} {es : List ParseTree} :
      Derives fs .sum ts t (⟨.comma, s⟩ :: us) → Lists fs us (u :: es) ws →
        Lists fs ts (t :: u :: es) ws

end

variable {fs : String → Option Callable} {c : Category} {a t : ParseTree} {ts us : List Token}

/-! How phrases begin. -/

theorem Derives.exists_head {c : Category} {t : ParseTree} {ts us : List Token} :
    Derives fs c ts t us → ∃ y ws, ts = y :: ws ∧ y.lexeme ≠ .closing
  | .number => ⟨_, _, rfl, nofun⟩
  | .name _ => ⟨_, _, rfl, nofun⟩
  | .group _ => ⟨_, _, rfl, nofun⟩
  | .call _ _ _ => ⟨_, _, rfl, nofun⟩
  | .primary h => h.exists_head
  | .raised h _ => h.exists_head
  | .power h => h.exists_head
  | .minus _ => ⟨_, _, rfl, nofun⟩
  | .plus _ => ⟨_, _, rfl, nofun⟩
  | .applied _ _ _ _ => ⟨_, _, rfl, nofun⟩
  | .term h _ => h.exists_head
  | .sum h _ => h.exists_head

/-- A power begins with no sign, and with the name of a function only before a parenthesis. -/
def PowerAhead (fs : String → Option Callable) : List Token → Prop
  | ⟨.operator _, _⟩ :: _ => False
  | ⟨.name x, _⟩ :: y :: _ => fs x = none ∨ y.lexeme = .opening
  | _ => True

theorem Derives.primary_ahead (h : Derives fs .primary ts t us) : PowerAhead fs ts := by
  cases h with
  | number => trivial
  | @name x s us hx =>
    cases us with
    | nil => trivial
    | cons y us => exact .inl hx
  | group _ => trivial
  | call _ _ _ => exact .inr rfl

theorem Derives.power_ahead (h : Derives fs .power ts t us) : PowerAhead fs ts := by
  cases h with
  | primary h => exact h.primary_ahead
  | raised h _ => exact h.primary_ahead

/-- A function without a parenthesis is applied, so it begins no power. -/
theorem not_power_of_applied {x : String} {f : Callable} {s : Span} {y : Token} (hf : fs x = some f)
    (hy : y.lexeme ≠ .opening) : ¬ Derives fs .power (⟨.name x, s⟩ :: y :: ts) t us := by
  intro h
  rcases h.power_ahead with hx | hopen
  · cases hx.symm.trans hf
  · exact hy hopen

/-! How phrases end. -/

theorem halts_primary (ts : List Token) : Halts Category.primary.level ts := by
  unfold Halts
  split
  · next op _ _ => cases op <;> decide
  · trivial

/-- An operand that is joined to others reaches as far as it can. -/
theorem Chains.halts (h : Chains fs c a ts t us) (hc : c.level < c.operand.level)
    (hu : Halts c.operand.level us) : Halts c.operand.level ts := by
  cases h with
  | done => exact hu
  | more hop _ _ => exact Nat.lt_of_le_of_lt (Nat.le_of_eq (Operator.precedence_eq hop)) hc

theorem Chains.halts_level (h : Chains fs c a ts t us) (hc : c.level < c.operand.level)
    (hu : Halts c.level us) : Halts c.operand.level ts :=
  h.halts hc (hu.mono (Nat.le_of_lt hc))

def Closes (ts : List Token) : Prop := ∃ s us, ts = ⟨.closing, s⟩ :: us

theorem Closes.halts (h : Closes ts) (p : Nat) : Halts p ts := by
  obtain ⟨s, us, rfl⟩ := h
  trivial

theorem Derives.not_closes (h : Derives fs c ts t us) : ¬ Closes ts := by
  rintro ⟨s, us, rfl⟩
  obtain ⟨y, ws, heq, hy⟩ := h.exists_head
  cases heq
  exact hy rfl

/-- The list of arguments ends before the closing parenthesis, the sums in it before the comma. -/
theorem not_closes_comma {s : Span} : ¬ Closes (⟨.comma, s⟩ :: us) := by
  rintro ⟨s, us, h⟩
  cases h

/-! The derivation is unique. -/

mutual

/-- Two phrases of one category that begin at one place, and reach as far as they can, are the same
derivation and end at one place. -/
theorem Derives.unique {c : Category} {t t' : ParseTree} {ts us us' : List Token} :
    Derives fs c ts t us → Derives fs c ts t' us' → Halts c.level us → Halts c.level us' →
      t = t' ∧ us = us'
  | .number, h', _, _ => by
    cases h'
    exact ⟨rfl, rfl⟩
  | .name hx, h', _, _ => by
    cases h' with
    | name _ => exact ⟨rfl, rfl⟩
    | call hf _ _ => cases hx.symm.trans hf
  | .group h, h', _, _ => by
    cases h' with
    | group h' =>
      obtain ⟨rfl, hu⟩ := h.unique h' trivial trivial
      cases hu
      exact ⟨rfl, rfl⟩
  | .call hf h _, h', _, _ => by
    cases h' with
    | name hx => cases hx.symm.trans hf
    | call hf' h' _ =>
      cases hf.symm.trans hf'
      obtain ⟨rfl, hu⟩ := h.unique h' ⟨_, _, rfl⟩ ⟨_, _, rfl⟩
      cases hu
      exact ⟨rfl, rfl⟩
  | .primary h, h', hu, _ => by
    cases h' with
    | primary h' => exact h.unique h' (halts_primary _) (halts_primary _)
    | raised h' _ =>
      obtain ⟨-, rfl⟩ := h.unique h' (halts_primary _) (halts_primary _)
      exact absurd hu (Nat.lt_irrefl _)
  | .raised h hp, h', hu, hu' => by
    cases h' with
    | primary h' =>
      obtain ⟨-, rfl⟩ := h.unique h' (halts_primary _) (halts_primary _)
      exact absurd hu' (Nat.lt_irrefl _)
    | raised h' hp' =>
      obtain ⟨rfl, heq⟩ := h.unique h' (halts_primary _) (halts_primary _)
      cases heq
      obtain ⟨rfl, rfl⟩ := hp.unique hp' hu hu'
      exact ⟨rfl, rfl⟩
  | .power h, h', hu, hu' => by
    cases h' with
    | power h' => exact h.unique h' hu hu'
    | minus _ => exact h.power_ahead.elim
    | plus _ => exact h.power_ahead.elim
    | applied hf _ hy _ => exact absurd h (not_power_of_applied hf hy)
  | .minus h, h', hu, hu' => by
    cases h' with
    | power h' => exact h'.power_ahead.elim
    | minus h' =>
      obtain ⟨rfl, rfl⟩ := h.unique h' hu hu'
      exact ⟨rfl, rfl⟩
  | .plus h, h', hu, hu' => by
    cases h' with
    | power h' => exact h'.power_ahead.elim
    | plus h' =>
      obtain ⟨rfl, rfl⟩ := h.unique h' hu hu'
      exact ⟨rfl, rfl⟩
  | .applied hf _ hy h, h', hu, hu' => by
    cases h' with
    | power h' => exact absurd h' (not_power_of_applied hf hy)
    | applied hf' _ _ h' =>
      cases hf.symm.trans hf'
      obtain ⟨rfl, rfl⟩ := h.unique h' hu hu'
      exact ⟨rfl, rfl⟩
  | .term h hj, h', hu, hu' => by
    cases h' with
    | term h' hj' =>
      have hlt : Category.term.level < Category.term.operand.level := by decide
      obtain ⟨rfl, rfl⟩ := h.unique h' (hj.halts_level hlt hu) (hj'.halts_level hlt hu')
      exact hj.unique hj' hlt hu hu'
  | .sum h hj, h', hu, hu' => by
    cases h' with
    | sum h' hj' =>
      have hlt : Category.sum.level < Category.sum.operand.level := by decide
      obtain ⟨rfl, rfl⟩ := h.unique h' (hj.halts_level hlt hu) (hj'.halts_level hlt hu')
      exact hj.unique hj' hlt hu hu'

theorem Chains.unique {c : Category} {a t t' : ParseTree} {ts us us' : List Token} :
    Chains fs c a ts t us → Chains fs c a ts t' us' → c.level < c.operand.level →
      Halts c.level us → Halts c.level us' → t = t' ∧ us = us'
  | .done, h', _, hu, _ => by
    cases h' with
    | done => exact ⟨rfl, rfl⟩
    | more hop _ _ => exact absurd (Operator.precedence_eq hop) (Nat.ne_of_lt hu)
  | .more hop h hj, h', hc, hu, hu' => by
    cases h' with
    | done => exact absurd (Operator.precedence_eq hop) (Nat.ne_of_lt hu')
    | more _ h' hj' =>
      obtain ⟨rfl, rfl⟩ := h.unique h' (hj.halts_level hc hu) (hj'.halts_level hc hu')
      exact hj.unique hj' hc hu hu'

theorem Lists.unique {es es' : List ParseTree} {ts us us' : List Token} :
    Lists fs ts es us → Lists fs ts es' us' → Closes us → Closes us' → es = es' ∧ us = us'
  | .none, h', hu, _ => by
    cases h' with
    | none => exact ⟨rfl, rfl⟩
    | last h' => exact absurd hu h'.not_closes
    | more h' _ => exact absurd hu h'.not_closes
  | .last h, h', hu, hu' => by
    cases h' with
    | none => exact absurd hu' h.not_closes
    | last h' =>
      obtain ⟨rfl, rfl⟩ := h.unique h' (hu.halts _) (hu'.halts _)
      exact ⟨rfl, rfl⟩
    | more h' _ =>
      obtain ⟨-, rfl⟩ := h.unique h' (hu.halts _) trivial
      exact absurd hu not_closes_comma
  | .more h hes, h', hu, hu' => by
    cases h' with
    | none => exact absurd hu' h.not_closes
    | last h' =>
      obtain ⟨-, rfl⟩ := h.unique h' trivial (hu'.halts _)
      exact absurd hu' not_closes_comma
    | more h' hes' =>
      obtain ⟨rfl, heq⟩ := h.unique h' trivial trivial
      cases heq
      obtain ⟨heq, rfl⟩ := hes.unique hes' hu hu'
      cases heq
      exact ⟨rfl, rfl⟩

end

end Symbolic
