import Symbolic.Grammar.Parser
import Symbolic.Proofs.Expr.Closed

/-!
What reading keeps: an expression that is read has any property that the constructors and calls keep
and that the bodies of the functions in the vocabulary have.

The readers call one another with one step less, so one statement for all of them
(`Parser.Keeps`) is carried from any number of steps to the next.
-/

namespace Symbolic

variable {P : Expr → Prop}

/-- The bodies that are known have the property. -/
def Vocabulary.Holds (P : Expr → Prop) (v : Vocabulary) : Prop := ∀ f ∈ v.functions, P f.body

/-- The body, if there is one, has the property. -/
def Callable.Holds (P : Expr → Prop) : Callable → Prop
  | .primitive _ => True
  | .function f => P f.body

theorem Closed.operator (h : Closed P) (op : Operator) {a b : Expr} (ha : P a) (hb : P b) :
    P (op.apply a b) := by
  cases op with
  | plus => exact h.sum (Closed.forall_pair ha hb)
  | minus => exact h.subtract ha hb
  | times => exact h.product (Closed.forall_pair ha hb)
  | divide => exact h.divide ha hb
  | power => exact h.pow ha hb

theorem Closed.callable (h : Closed P) {f : Callable} (hf : f.Holds P) {name : String} {span : Span}
    {es : List Expr} (hes : ∀ e ∈ es, P e) {e : Expr} (he : f.apply name span es = .ok e) : P e := by
  unfold Callable.apply at he
  split at he
  · cases he
    exact h.apply _ (hes _ List.mem_cons_self)
  · cases he
  · split at he
    · next hl =>
      cases he
      exact h.call hl hf hes
    · cases he

theorem Closed.callable? (h : Closed P) {v : Vocabulary} (hv : v.Holds P) {name : String}
    {f : Callable} (hf : v.callable? name = some f) : f.Holds P := by
  rw [Vocabulary.callable?] at hf
  split at hf
  · cases hf
    trivial
  · obtain ⟨d, hd, rfl⟩ := Option.map_eq_some_iff.1 hf
    rw [Vocabulary.function?] at hd
    split at hd
    · next hdef =>
      cases hd
      exact hv _ (List.mem_of_find?_eq_some hdef)
    · obtain ⟨b, _, rfl⟩ := Option.map_eq_some_iff.1 hd
      exact h.builtin b

namespace Parser

/-- What is read within `n` steps has the property. -/
structure Keeps (P : Expr → Prop) (v : Vocabulary) (stop n : Nat) : Prop where
  expression : ∀ {least ts e rest}, expression v stop n least ts = .ok (e, rest) → P e
  continuation : ∀ {least left ts e rest}, P left →
    continuation v stop n least left ts = .ok (e, rest) → P e
  operand : ∀ {ts e rest}, operand v stop n ts = .ok (e, rest) → P e
  call : ∀ {name span f ts e rest}, f.Holds P →
    call v stop n name span f ts = .ok (e, rest) → P e
  arguments : ∀ {ts es rest}, arguments v stop n ts = .ok (es, rest) → ∀ e ∈ es, P e
  moreArguments : ∀ {ts es rest}, moreArguments v stop n ts = .ok (es, rest) → ∀ e ∈ es, P e

variable {v : Vocabulary} {stop n : Nat}

theorem keeps_zero : Keeps P v stop 0 where
  expression h := by cases h
  continuation _ h := by cases h
  operand h := by cases h
  call _ h := by cases h
  arguments h := by cases h
  moreArguments h := by cases h

theorem Keeps.expression_succ (k : Keeps P v stop n) {least : Nat} {ts rest : List Token} {e : Expr}
    (h : Parser.expression v stop (n + 1) least ts = .ok (e, rest)) : P e := by
  rw [Parser.expression] at h
  obtain ⟨⟨left, ts⟩, hl, h⟩ := except_bind_eq_ok.1 h
  exact k.continuation (k.operand hl) h

theorem Keeps.continuation_succ (hc : Closed P) (k : Keeps P v stop n) {least : Nat} {left : Expr}
    {ts rest : List Token} {e : Expr} (hl : P left)
    (h : Parser.continuation v stop (n + 1) least left ts = .ok (e, rest)) : P e := by
  unfold Parser.continuation at h
  split at h
  · split at h
    · cases h
      exact hl
    · obtain ⟨⟨right, ts⟩, hr, h⟩ := except_bind_eq_ok.1 h
      exact k.continuation (hc.operator _ hl (k.expression hr)) h
  · cases h
    exact hl

theorem Keeps.operand_succ (hc : Closed P) (hv : v.Holds P) (k : Keeps P v stop n)
    {ts rest : List Token} {e : Expr} (h : Parser.operand v stop (n + 1) ts = .ok (e, rest)) :
    P e := by
  unfold Parser.operand at h
  split at h
  · cases h
  · cases h
    exact hc.const _
  · split at h
    -- a name is that of a function or of a variable
    · next hf => exact k.call (hc.callable? hv hf) h
    · obtain ⟨x, hx, h⟩ := except_bind_eq_ok.1 h
      cases h
      rw [Vocabulary.variableOf] at hx
      split at hx
      · cases hx
        exact hc.var _ _
      · cases hx
  · obtain ⟨⟨d, ts⟩, hd, h⟩ := except_bind_eq_ok.1 h
    cases h
    exact hc.negate (k.expression hd)
  · exact k.expression h
  · cases h
  · obtain ⟨⟨d, ts⟩, hd, h⟩ := except_bind_eq_ok.1 h
    obtain ⟨ts, _, h⟩ := except_bind_eq_ok.1 h
    cases h
    exact k.expression hd
  · cases h

theorem Keeps.call_succ (hc : Closed P) (k : Keeps P v stop n) {name : String} {span : Span}
    {f : Callable} (hf : f.Holds P) {ts rest : List Token} {e : Expr}
    (h : Parser.call v stop (n + 1) name span f ts = .ok (e, rest)) : P e := by
  unfold Parser.call at h
  split at h
  · obtain ⟨⟨es, ts⟩, hes, h⟩ := except_bind_eq_ok.1 h
    obtain ⟨ts, _, h⟩ := except_bind_eq_ok.1 h
    obtain ⟨d, hd, h⟩ := except_bind_eq_ok.1 h
    cases h
    exact hc.callable hf (k.arguments hes) hd
  · cases h
  · split at h
    · obtain ⟨⟨a, ts⟩, ha, h⟩ := except_bind_eq_ok.1 h
      obtain ⟨d, hd, h⟩ := except_bind_eq_ok.1 h
      cases h
      -- without brackets there is one argument
      refine hc.callable hf ?_ hd
      intro x hx
      rw [List.mem_singleton.1 hx]
      exact k.expression ha
    · cases h

theorem Keeps.arguments_succ (k : Keeps P v stop n) {ts rest : List Token} {es : List Expr}
    (h : Parser.arguments v stop (n + 1) ts = .ok (es, rest)) : ∀ e ∈ es, P e := by
  unfold Parser.arguments at h
  split at h
  · cases h
    exact List.forall_mem_nil _
  · exact k.moreArguments h

theorem Keeps.moreArguments_succ (k : Keeps P v stop n) {ts rest : List Token} {es : List Expr}
    (h : Parser.moreArguments v stop (n + 1) ts = .ok (es, rest)) : ∀ e ∈ es, P e := by
  unfold Parser.moreArguments at h
  obtain ⟨⟨d, ts⟩, hread, h⟩ := except_bind_eq_ok.1 h
  have hd := k.expression hread
  simp only at h
  split at h
  · obtain ⟨⟨ds, ts⟩, hds, h⟩ := except_bind_eq_ok.1 h
    cases h
    exact List.forall_mem_cons.2 ⟨hd, k.moreArguments hds⟩
  · cases h
    exact List.forall_mem_cons.2 ⟨hd, List.forall_mem_nil _⟩
  · cases h
  · cases h

theorem keeps (hc : Closed P) (hv : v.Holds P) (n : Nat) : Keeps P v stop n := by
  induction n with
  | zero => exact keeps_zero
  | succ n k =>
    exact ⟨k.expression_succ, k.continuation_succ hc, k.operand_succ hc hv,
      fun hf => k.call_succ hc hf, k.arguments_succ, k.moreArguments_succ⟩

end Parser

theorem Closed.parse (h : Closed P) {v : Vocabulary} (hv : v.Holds P) {s : String} {e : Expr}
    (he : v.parse s = .ok e) : P e := by
  rw [Vocabulary.parse] at he
  split at he
  · cases he
  obtain ⟨ts, _, he⟩ := except_bind_eq_ok.1 he
  obtain ⟨_, _, he⟩ := except_bind_eq_ok.1 he
  rw [Parser.ofTokens] at he
  obtain ⟨⟨d, rest⟩, hd, he⟩ := except_bind_eq_ok.1 he
  -- the reader is given more steps than there are tokens; any number will do here
  have hread := (Parser.keeps h hv _).expression hd
  simp only at he
  split at he
  · cases he
    exact hread
  · cases he

end Symbolic
