import Symbolic.Grammar.Parser

/-!
The steps that reading is given are enough. Each reader leaves fewer tokens than it is given, or as
many where nothing has to be read (`Parser.Shortens`), and one reader calls another either on fewer
tokens or on a lower rung: an operand, an expression, the arguments. So steps that are four times as
many as the tokens, and a few more for the rung, do as well as any greater number
(`Parser.Enough`, `expression_steps`).
-/

namespace Symbolic.Parser

variable {v : Vocabulary} {stop n : Nat}

/-- What is left by the readers within `n` steps. -/
structure Shortens (v : Vocabulary) (stop n : Nat) : Prop where
  expression : ∀ {least ts e rest}, expression v stop n least ts = .ok (e, rest) →
    rest.length < ts.length
  continuation : ∀ {least left ts e rest}, continuation v stop n least left ts = .ok (e, rest) →
    rest.length ≤ ts.length
  operand : ∀ {ts e rest}, operand v stop n ts = .ok (e, rest) → rest.length < ts.length
  call : ∀ {name span f ts e rest}, call v stop n name span f ts = .ok (e, rest) →
    rest.length < ts.length
  arguments : ∀ {ts es rest}, arguments v stop n ts = .ok (es, rest) → rest.length ≤ ts.length
  moreArguments : ∀ {ts es rest}, moreArguments v stop n ts = .ok (es, rest) →
    rest.length < ts.length

theorem closing_eq_ok {ts rest : List Token} (h : closing stop ts = .ok rest) :
    ∃ s, ts = ⟨.closing, s⟩ :: rest := by
  unfold closing at h
  split at h
  · next s rest =>
    cases h
    exact ⟨s, rfl⟩
  · unfold faultAt at h
    split at h <;> cases h

theorem closing_length {ts rest : List Token} (h : closing stop ts = .ok rest) :
    rest.length < ts.length := by
  obtain ⟨s, rfl⟩ := closing_eq_ok h
  exact Nat.lt_succ_self _

theorem shortens_zero : Shortens v stop 0 where
  expression h := by cases h
  continuation h := by cases h
  operand h := by cases h
  call h := by cases h
  arguments h := by cases h
  moreArguments h := by cases h

theorem Shortens.expression_succ (k : Shortens v stop n) {least : Nat} {ts rest : List Token}
    {e : Expr} (h : Parser.expression v stop (n + 1) least ts = .ok (e, rest)) :
    rest.length < ts.length := by
  rw [Parser.expression] at h
  obtain ⟨⟨left, us⟩, hl, h⟩ := except_bind_eq_ok.1 h
  exact Nat.lt_of_le_of_lt (k.continuation h) (k.operand hl)

theorem Shortens.continuation_succ (k : Shortens v stop n) {least : Nat} {left e : Expr}
    {ts rest : List Token} (h : Parser.continuation v stop (n + 1) least left ts = .ok (e, rest)) :
    rest.length ≤ ts.length := by
  unfold Parser.continuation at h
  split at h
  · split at h
    · cases h
      exact Nat.le_refl _
    · obtain ⟨⟨right, us⟩, hr, h⟩ := except_bind_eq_ok.1 h
      have := k.expression hr
      have := k.continuation h
      rw [List.length_cons]
      omega
  · cases h
    exact Nat.le_refl _

theorem Shortens.operand_succ (k : Shortens v stop n) {ts rest : List Token} {e : Expr}
    (h : Parser.operand v stop (n + 1) ts = .ok (e, rest)) : rest.length < ts.length := by
  unfold Parser.operand at h
  split at h
  · cases h
  · cases h
    exact Nat.lt_succ_self _
  · split at h
    · have := k.call h
      rw [List.length_cons]
      omega
    · obtain ⟨x, _, h⟩ := except_bind_eq_ok.1 h
      cases h
      exact Nat.lt_succ_self _
  · obtain ⟨⟨d, us⟩, hd, h⟩ := except_bind_eq_ok.1 h
    cases h
    exact Nat.lt_succ_of_lt (k.expression hd)
  · exact Nat.lt_succ_of_lt (k.expression h)
  · cases h
  · obtain ⟨⟨d, us⟩, hd, h⟩ := except_bind_eq_ok.1 h
    obtain ⟨ws, hw, h⟩ := except_bind_eq_ok.1 h
    cases h
    have := k.expression hd
    have := closing_length hw
    simp only [List.length_cons] at *
    omega
  · cases h

theorem Shortens.call_succ (k : Shortens v stop n) {name : String} {span : Span} {f : Callable}
    {ts rest : List Token} {e : Expr}
    (h : Parser.call v stop (n + 1) name span f ts = .ok (e, rest)) : rest.length < ts.length := by
  unfold Parser.call at h
  split at h
  · obtain ⟨⟨es, us⟩, hes, h⟩ := except_bind_eq_ok.1 h
    obtain ⟨ws, hw, h⟩ := except_bind_eq_ok.1 h
    obtain ⟨d, _, h⟩ := except_bind_eq_ok.1 h
    cases h
    have := k.arguments hes
    have := closing_length hw
    simp only [List.length_cons] at *
    omega
  · cases h
  · split at h
    · obtain ⟨⟨a, us⟩, ha, h⟩ := except_bind_eq_ok.1 h
      obtain ⟨d, _, h⟩ := except_bind_eq_ok.1 h
      cases h
      exact k.expression ha
    · cases h

theorem Shortens.arguments_succ (k : Shortens v stop n) {ts rest : List Token} {es : List Expr}
    (h : Parser.arguments v stop (n + 1) ts = .ok (es, rest)) : rest.length ≤ ts.length := by
  unfold Parser.arguments at h
  split at h
  · cases h
    exact Nat.le_refl _
  · exact Nat.le_of_lt (k.moreArguments h)

theorem Shortens.moreArguments_succ (k : Shortens v stop n) {ts rest : List Token} {es : List Expr}
    (h : Parser.moreArguments v stop (n + 1) ts = .ok (es, rest)) : rest.length < ts.length := by
  unfold Parser.moreArguments at h
  obtain ⟨⟨d, us⟩, hd, h⟩ := except_bind_eq_ok.1 h
  have hlt := k.expression hd
  simp only at h
  split at h
  · obtain ⟨⟨ds, ws⟩, hds, h⟩ := except_bind_eq_ok.1 h
    cases h
    rw [List.length_cons] at hlt
    exact Nat.lt_trans (k.moreArguments hds) (Nat.lt_of_succ_lt hlt)
  · cases h
    exact hlt
  · cases h
  · cases h

theorem shortens (n : Nat) : Shortens v stop n := by
  induction n with
  | zero => exact shortens_zero
  | succ n k =>
    exact ⟨k.expression_succ, k.continuation_succ, k.operand_succ, k.call_succ, k.arguments_succ,
      k.moreArguments_succ⟩

/-- One more step than `n` changes nothing where `n` steps are enough. -/
structure Enough (v : Vocabulary) (stop n : Nat) : Prop where
  expression : ∀ {least ts}, 4 * ts.length + 2 ≤ n →
    expression v stop (n + 1) least ts = expression v stop n least ts
  continuation : ∀ {least left ts}, 4 * ts.length + 1 ≤ n →
    continuation v stop (n + 1) least left ts = continuation v stop n least left ts
  operand : ∀ {ts}, 4 * ts.length + 1 ≤ n → operand v stop (n + 1) ts = operand v stop n ts
  call : ∀ {name span f ts}, 4 * ts.length + 3 ≤ n →
    call v stop (n + 1) name span f ts = call v stop n name span f ts
  arguments : ∀ {ts}, 4 * ts.length + 4 ≤ n →
    arguments v stop (n + 1) ts = arguments v stop n ts
  moreArguments : ∀ {ts}, 4 * ts.length + 3 ≤ n →
    moreArguments v stop (n + 1) ts = moreArguments v stop n ts

/-- What follows a computation need agree only on what the computation gives. -/
theorem bind_congr_ok {α β : Type} {x : Except Error α} {f g : α → Except Error β}
    (h : ∀ a, x = .ok a → f a = g a) : (x >>= f) = (x >>= g) := by
  cases x with
  | error e => rfl
  | ok a => exact h a rfl

theorem Enough.expression_succ (k : Enough v stop n) {least : Nat} {ts : List Token}
    (h : 4 * ts.length + 2 ≤ n + 1) :
    Parser.expression v stop (n + 2) least ts = Parser.expression v stop (n + 1) least ts := by
  rw [Parser.expression, Parser.expression, k.operand (by omega)]
  refine bind_congr_ok fun ⟨left, us⟩ hl => ?_
  have := (shortens n).operand hl
  exact k.continuation (by omega)

theorem Enough.continuation_succ (k : Enough v stop n) {least : Nat} {left : Expr}
    {ts : List Token} (h : 4 * ts.length + 1 ≤ n + 1) :
    Parser.continuation v stop (n + 2) least left ts =
      Parser.continuation v stop (n + 1) least left ts := by
  unfold Parser.continuation
  split
  · rw [List.length_cons] at h
    rw [k.expression (by omega)]
    split
    · rfl
    · refine bind_congr_ok fun ⟨right, us⟩ hr => ?_
      have := (shortens n).expression hr
      exact k.continuation (by omega)
  · rfl

theorem Enough.operand_succ (k : Enough v stop n) {ts : List Token}
    (h : 4 * ts.length + 1 ≤ n + 1) :
    Parser.operand v stop (n + 2) ts = Parser.operand v stop (n + 1) ts := by
  unfold Parser.operand
  split
  · rfl
  · rfl
  · rw [List.length_cons] at h
    split
    · exact k.call (by omega)
    · rfl
  · rw [List.length_cons] at h
    rw [k.expression (by omega)]
  · rw [List.length_cons] at h
    rw [k.expression (by omega)]
  · rfl
  · rw [List.length_cons] at h
    rw [k.expression (by omega)]
  · rfl

theorem Enough.call_succ (k : Enough v stop n) {name : String} {span : Span} {f : Callable}
    {ts : List Token} (h : 4 * ts.length + 3 ≤ n + 1) :
    Parser.call v stop (n + 2) name span f ts = Parser.call v stop (n + 1) name span f ts := by
  unfold Parser.call
  split
  · rw [List.length_cons] at h
    rw [k.arguments (by omega)]
  · rfl
  · rw [k.expression (by omega)]

theorem Enough.arguments_succ (k : Enough v stop n) {ts : List Token}
    (h : 4 * ts.length + 4 ≤ n + 1) :
    Parser.arguments v stop (n + 2) ts = Parser.arguments v stop (n + 1) ts := by
  unfold Parser.arguments
  split
  · rfl
  · exact k.moreArguments (by omega)

theorem Enough.moreArguments_succ (k : Enough v stop n) {ts : List Token}
    (h : 4 * ts.length + 3 ≤ n + 1) :
    Parser.moreArguments v stop (n + 2) ts = Parser.moreArguments v stop (n + 1) ts := by
  rw [Parser.moreArguments, Parser.moreArguments, k.expression (by omega)]
  refine bind_congr_ok fun ⟨d, us⟩ hd => ?_
  have hlt := (shortens n).expression hd
  simp only
  split
  · rw [List.length_cons] at hlt
    rw [k.moreArguments (by omega)]
  · rfl
  · rfl
  · rfl

theorem enough (n : Nat) : Enough v stop n := by
  induction n with
  | zero =>
    -- every reader asks for a step at least
    constructor <;> intros <;> omega
  | succ n k =>
    exact ⟨k.expression_succ, k.continuation_succ, k.operand_succ, k.call_succ, k.arguments_succ,
      k.moreArguments_succ⟩

/-- More steps than those taken change nothing. -/
theorem expression_steps {least : Nat} {ts : List Token} {m : Nat} (h : steps ts ≤ m) :
    expression v stop m least ts = expression v stop (steps ts) least ts := by
  induction h with
  | refl => rfl
  | @step m hm ih =>
    have hm : 4 * ts.length + 8 ≤ m := hm
    rw [(enough m).expression (by omega), ih]

end Symbolic.Parser
