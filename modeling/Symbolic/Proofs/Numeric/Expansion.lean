import Symbolic.Proofs.Exact.Unfolded

/-!
Functions of one's own mean the same to the evaluator and to expansion, if their scopes are lexical. For
expressions that are composed of constants, variables, sums, products and such calls
(`evaluate_atomic`): wherever the expression has a value, its atomic form has one, and with rational
numbers it is the same. Success and value both go through the rational value with calls
(`unfolded?`), which a composed expression has wherever the variables that it needs have values.

Without lexical scopes this fails (`not_evaluate_atomic_captured`): the evaluator finds the caller's
parameter where expansion leaves a variable.
-/

namespace Symbolic.Expr

/-- Built of constants and variables by sums, products and calls of functions other than those defined
from the start, whose bodies are built in this way too. -/
inductive Composed : Expr → Prop where
  | const (c : Rat) : Composed (const c)
  | var (s : Symbol) (k : Site) : Composed (var s k)
  | sum {es : List Expr} : (∀ e ∈ es, Composed e) → Composed (sumOf es)
  | product {es : List Expr} : (∀ e ∈ es, Composed e) → Composed (productOf es)
  | call {f : String} {ps : List Symbol} {b : Expr} {es : List Expr} :
      Builtin.ofDefinition? ⟨f, ps, b⟩ = none → es.length = ps.length → Composed b →
        (∀ e ∈ es, Composed e) → Composed (call f ps b es)

theorem Composed.ownCalls {e : Expr} (h : Composed e) : OwnCalls e := by
  induction h with
  | const c => exact .const c
  | var s k => exact .var s k
  | sum _ ih => exact nodewise_ownCalls.sumOf ih
  | product _ ih => exact nodewise_ownCalls.productOf ih
  | call hf hl _ _ ihb ih => exact .call hf hl ihb ih

/-- Where all variables have values a composed expression has one. -/
theorem Composed.total {e : Expr} (h : Composed e) :
    ∀ ρ : Symbol → Rat, ∃ v, unfolded? (fun s => some (ρ s)) e = some v := by
  induction h with
  | const c => exact fun ρ => ⟨c, rfl⟩
  | var s k => exact fun ρ => ⟨ρ s, rfl⟩
  | sum _ ih =>
    exact fun ρ => ⟨_, (reading_unfolded _).sumOf fun e he => definedBy_of_eq (ih e he ρ).choose_spec⟩
  | product _ ih =>
    exact fun ρ =>
      ⟨_, (reading_unfolded _).productOf fun e he => definedBy_of_eq (ih e he ρ).choose_spec⟩
  | @call f ps b es _ _ _ _ ihb ih =>
    intro ρ
    have hes := fun e he => definedBy_of_eq (ih e he ρ).choose_spec
    -- the parameters have values in the body, and so have all other variables
    have hbound (pairs : List (Symbol × Rat)) : bound (fun s => some (ρ s)) pairs =
        fun s => some ((lookupLast s pairs).getD (ρ s)) := by
      funext s
      rw [bound]
      cases lookupLast s pairs <;> rfl
    obtain ⟨v, hv⟩ := ihb fun s => (lookupLast s (ps.zip (es.map (amountBy (unfolded? _))))).getD (ρ s)
    exact ⟨v, unfolded?_call_eq_some.2 ⟨hes, (hbound _).symm ▸ hv⟩⟩

theorem Composed.exists_unfolded {e : Expr} (h : Composed e) {ρ : Symbol → Option Rat}
    (hρ : ∀ s ∈ needs e, ∃ x, ρ s = some x) : ∃ v, unfolded? ρ e = some v := by
  obtain ⟨v, hv⟩ := h.total fun s => (ρ s).getD 0
  refine ⟨v, (unfolded?_congr h.ownCalls fun s hs => ?_).trans hv⟩
  obtain ⟨x, hx⟩ := hρ s hs
  rw [hx, Option.getD_some]

theorem unfolded?_atomic {ρ : Symbol → Option Rat} {e : Expr} {v : Rat} (he : Scoped e)
    (h : unfolded? ρ e = some v) : unfolded? ρ e.atomic = some v := by
  rw [atomic_eq_expandWithin]
  exact unfolded?_expandWithin _ he (Nat.le_refl _) v h

theorem exists_of_mem_occurrences {ρ : Symbol → Option Rat} {s : Symbol} {e : Expr} {v : Rat}
    (h : unfolded? ρ e = some v) (hs : s ∈ occurrences e) : ∃ x, ρ s = some x := by
  have reads := reading_unfolded ρ
  have hlist {es : List Expr}
      (ih : ∀ e ∈ es, ∀ {v}, unfolded? ρ e = some v → s ∈ occurrences e → ∃ x, ρ s = some x)
      (hes : ∀ e ∈ es, DefinedBy (unfolded? ρ) e) (hs : s ∈ occurrencesAll es) :
      ∃ x, ρ s = some x := by
    obtain ⟨e, he, hs⟩ := mem_occurrencesAll.1 hs
    exact ih e he (hes e he) hs
  induction e generalizing v with
  | const c => cases hs
  | var t k =>
    rw [List.mem_singleton.1 hs]
    exact ⟨v, h⟩
  | sum es ih => exact hlist ih (reads.sum_eq_some.1 h).1 hs
  | product es ih => exact hlist ih (reads.product_eq_some.1 h).1 hs
  | pow b p ihb ihp =>
    obtain ⟨hb, hp, -⟩ := reads.pow_eq_some.1 h
    rcases List.mem_append.1 hs with hs | hs
    · exact ihb hb hs
    · exact ihp hp hs
  | apply f e => cases h
  | call f ps b es _ ih => exact hlist ih (unfolded?_call_eq_some.1 h).1 hs

theorem direct_of_callDepth {e : Expr} (h : callDepth e ≤ 0) : Direct e := by
  induction e with
  | const c => exact .const c
  | var s k => exact .var s k
  | sum es ih => exact .sum fun e he => ih e he (callDepths_le.1 h e he)
  | product es ih => exact .product fun e he => ih e he (callDepths_le.1 h e he)
  | pow b p ihb ihp => exact .pow (ihb (Nat.max_le.1 h).1) (ihp (Nat.max_le.1 h).2)
  | apply f e ih => exact .apply f (ih h)
  | call f ps b es => cases h

/-! What the evaluator needs, and what it gives. -/

section Evaluator

variable {α : Type} [Scalar α] {vs : Valuation α}

theorem evaluated_of_evaluateRest {f : BinaryOp} {es : List Expr} :
    ∀ {x y : α}, evaluateRest vs f x es = .ok y → ∀ e ∈ es, ∃ v, evaluate vs e = .ok v := by
  induction es with
  | nil => exact fun _ => List.forall_mem_nil _
  | cons e es ih =>
    intro x y h
    obtain ⟨v, hv, h⟩ := except_bind_eq_ok.1 h
    exact List.forall_mem_cons.2 ⟨⟨v, hv⟩, ih h⟩

theorem evaluated_of_evaluateAll {es : List Expr} :
    ∀ {xs : List α}, evaluateAll vs es = .ok xs → ∀ e ∈ es, ∃ v, evaluate vs e = .ok v := by
  induction es with
  | nil => exact fun _ => List.forall_mem_nil _
  | cons e es ih =>
    intro xs h
    obtain ⟨v, hv, h⟩ := except_bind_eq_ok.1 h
    obtain ⟨ys, hys, -⟩ := except_bind_eq_ok.1 h
    exact List.forall_mem_cons.2 ⟨⟨v, hv⟩, ih hys⟩

theorem evaluated_of_cons {f : BinaryOp} {e : Expr} {es : List Expr} {y : α}
    (h : (evaluate vs e >>= fun x => evaluateRest vs f x es) = .ok y) :
    ∀ d ∈ e :: es, ∃ v, evaluate vs d = .ok v := by
  obtain ⟨v, hv, h⟩ := except_bind_eq_ok.1 h
  exact List.forall_mem_cons.2 ⟨⟨v, hv⟩, evaluated_of_evaluateRest h⟩

theorem evaluated_of_sum {es : List Expr} {x : α} (h : evaluate vs (sum es) = .ok x) :
    ∀ e ∈ es, ∃ v, evaluate vs e = .ok v := by
  cases es with
  | nil => exact List.forall_mem_nil _
  | cons e es =>
    rw [evaluate] at h
    exact evaluated_of_cons h

theorem evaluated_of_product {es : List Expr} {x : α} (h : evaluate vs (product es) = .ok x) :
    ∀ e ∈ es, ∃ v, evaluate vs e = .ok v := by
  cases es with
  | nil => exact List.forall_mem_nil _
  | cons e es =>
    rw [evaluate] at h
    exact evaluated_of_cons h

/-- A call of a function of one's own is the body, with the arguments as the parameters. -/
theorem evaluate_call {f : String} {ps : List Symbol} {b : Expr}
    (hf : Builtin.ofDefinition? ⟨f, ps, b⟩ = none) (es : List Expr) :
    evaluate vs (call f ps b es) =
      evaluateAll vs es >>= fun xs => evaluate (vs.insertAll (ps.zip xs)) b := by
  have hop : Definition.operation? ⟨f, ps, b⟩ es.length = none := by
    rw [Definition.operation?, hf]
    rfl
  rw [evaluate]
  simp only [hop]

/-- Where the evaluator succeeds all variables that are needed have values. -/
theorem exists_of_mem_needs {e : Expr} (he : OwnCalls e) :
    ∀ {vs : Valuation α} {x}, evaluate vs e = .ok x → ∀ s ∈ needs e, ∃ y, vs.get? s = some y := by
  induction he with
  | const c => exact fun _ s hs => by cases hs
  | var t k =>
    intro vs x h s hs
    rw [List.mem_singleton.1 hs]
    exact ⟨x, Valuation.get?_of_require h⟩
  | sum _ ih =>
    intro vs x h s hs
    obtain ⟨e, he, hs⟩ := mem_needs_sum.1 hs
    obtain ⟨v, hv⟩ := evaluated_of_sum h e he
    exact ih e he hv s hs
  | product _ ih =>
    intro vs x h s hs
    obtain ⟨e, he, hs⟩ := mem_needs_product.1 hs
    obtain ⟨v, hv⟩ := evaluated_of_product h e he
    exact ih e he hv s hs
  | pow _ _ ihb ihp =>
    intro vs x h s hs
    obtain ⟨y, hy, h⟩ := except_bind_eq_ok.1 h
    obtain ⟨z, hz, -⟩ := except_bind_eq_ok.1 h
    rcases mem_needs_pow.1 hs with hs | hs
    · exact ihb hy s hs
    · exact ihp hz s hs
  | apply _ ih =>
    intro vs x h s hs
    obtain ⟨y, hy, -⟩ := except_bind_eq_ok.1 h
    exact ih hy s hs
  | @call f ps b es hf _ _ _ ihb ih =>
    intro vs x h s hs
    rw [evaluate_call hf] at h
    obtain ⟨xs, hxs, h⟩ := except_bind_eq_ok.1 h
    rcases mem_needs_call.1 hs with ⟨hs, hp⟩ | ⟨e, he, hs⟩
    · obtain ⟨y, hy⟩ := ihb h s hs
      -- what the body reads beyond its parameters is the caller's
      have hnone : lookupLast s (ps.zip xs) = none := by
        refine Option.eq_none_iff_forall_ne_some.2 fun d hd => hp ?_
        exact (List.of_mem_zip (Kept.mem_of_lookupLast hd)).1
      rw [Valuation.get?_insertAll, hnone, Option.none_or] at hy
      exact ⟨y, hy⟩
    · obtain ⟨v, hv⟩ := evaluated_of_evaluateAll hxs e he
      exact ih e he hv s hs

end Evaluator

end Symbolic.Expr

namespace Symbolic

/-- The rational numbers are computed with as they are: sums, products and integer powers are exact. -/
structure Scalar.Exact [Scalar Rat] : Prop where
  ofRat : ∀ q : Rat, (Scalar.ofRat q : Rat) = q
  add : ∀ x y : Rat, Scalar.binary .add x y = x + y
  multiply : ∀ x y : Rat, Scalar.binary .multiply x y = x * y
  power : ∀ x y : Rat, Expr.Raisable x y → Scalar.binary .power x y = x ^ y.num

/-- The rational numbers; what is not rational is zero. -/
@[reducible]
def Scalar.rational : Scalar Rat where
  undefined := 0
  ofRat q := q
  unary _ _ := 0
  binary
    | .add, x, y => x + y
    | .multiply, x, y => x * y
    | .power, x, y => x ^ y.num
    | _, _, _ => 0

theorem Scalar.rational_exact : @Scalar.Exact rational :=
  @Scalar.Exact.mk rational (fun _ => rfl) (fun _ _ => rfl) (fun _ _ => rfl) fun _ _ _ => rfl

namespace Expr

section Exact

variable [Scalar Rat] {vs : Valuation Rat} {es : List Expr}

section Amounts

variable {val : Expr → Option Rat} (h : ∀ e ∈ es, evaluate vs e = .ok (amountBy val e))
include h

theorem evaluateRest_amounts (f : BinaryOp) (x : Rat) :
    evaluateRest vs f x es = .ok ((es.map (amountBy val)).foldl (Scalar.binary f) x) := by
  induction es generalizing x with
  | nil => rfl
  | cons e es ih =>
    obtain ⟨he, hes⟩ := List.forall_mem_cons.1 h
    rw [evaluateRest, he, List.map_cons, List.foldl_cons]
    exact ih hes _

theorem evaluateAll_amounts : evaluateAll vs es = .ok (es.map (amountBy val)) := by
  induction es with
  | nil => rfl
  | cons e es ih =>
    obtain ⟨he, hes⟩ := List.forall_mem_cons.1 h
    rw [evaluateAll, he, ih hes]
    rfl

end Amounts

/-! Wherever the evaluator gives the values of the operands, it gives that of the node. -/

section Reading

variable {val : Expr → Option Rat} (reads : Reading val) (exact : Scalar.Exact) {v : Rat}
include reads exact

theorem Reading.evaluate_sum (ih : ∀ e ∈ es, ∀ v, val e = some v → evaluate vs e = .ok v)
    (h : val (.sum es) = some v) : evaluate vs (.sum es) = .ok v := by
  obtain ⟨hes, rfl⟩ := reads.sum_eq_some.1 h
  cases es with
  | nil => rw [evaluate, exact.ofRat, List.map_nil, List.sum_nil]
  | cons e es =>
    obtain ⟨he, hes⟩ := List.forall_mem_cons.1 fun e he => ih e he _ (hes e he)
    rw [evaluate, he, List.map_cons, List.sum_eq_foldl, List.foldl_cons, zero_add]
    rw [← funext₂ exact.add]
    exact evaluateRest_amounts hes .add _

theorem Reading.evaluate_product (ih : ∀ e ∈ es, ∀ v, val e = some v → evaluate vs e = .ok v)
    (h : val (.product es) = some v) : evaluate vs (.product es) = .ok v := by
  obtain ⟨hes, rfl⟩ := reads.product_eq_some.1 h
  cases es with
  | nil => rw [evaluate, exact.ofRat, List.map_nil, List.prod_nil]
  | cons e es =>
    obtain ⟨he, hes⟩ := List.forall_mem_cons.1 fun e he => ih e he _ (hes e he)
    rw [evaluate, he, List.map_cons, List.prod_eq_foldl, List.foldl_cons, one_mul]
    rw [← funext₂ exact.multiply]
    exact evaluateRest_amounts hes .multiply _

theorem Reading.evaluate_pow {b p : Expr} (ihb : ∀ v, val b = some v → evaluate vs b = .ok v)
    (ihp : ∀ v, val p = some v → evaluate vs p = .ok v) (h : val (.pow b p) = some v) :
    evaluate vs (.pow b p) = .ok v := by
  obtain ⟨hb, hp, hr, rfl⟩ := reads.pow_eq_some.1 h
  rw [evaluate, ihb _ hb, ihp _ hp, ← exact.power _ _ hr]
  rfl

end Reading

/-- The evaluator gives the rational value. -/
theorem evaluate_of_unfolded (exact : Scalar.Exact) {e : Expr} (he : OwnCalls e) :
    ∀ {vs : Valuation Rat} v, unfolded? vs.get? e = some v → evaluate vs e = .ok v := by
  induction he with
  | const c =>
    intro vs v h
    cases h
    rw [evaluate, exact.ofRat]
  | var s k =>
    intro vs v h
    rw [unfolded?] at h
    rw [evaluate, Valuation.require, h]
  | sum _ ih => exact fun v => (reading_unfolded _).evaluate_sum exact fun e he => ih e he
  | product _ ih => exact fun v => (reading_unfolded _).evaluate_product exact fun e he => ih e he
  | pow _ _ ihb ihp => exact fun v => (reading_unfolded _).evaluate_pow exact ihb ihp
  | apply _ _ => intro vs v h; cases h
  | @call f ps b es hf _ _ _ ihb ih =>
    intro vs v h
    obtain ⟨hes, hv⟩ := unfolded?_call_eq_some.1 h
    rw [evaluate_call hf, evaluateAll_amounts fun e he => ih e he _ (hes e he)]
    refine ihb v ?_
    rw [← hv]
    exact congrArg (unfolded? · b) (funext fun s => Valuation.get?_insertAll vs _ s)

end Exact

/-- On composed expressions with lexical scopes the evaluator and expansion agree: where the expression
has a value its atomic form has one, and the same if numbers are rational. -/
theorem evaluate_atomic {e : Expr} (he : Composed e) (hl : Lexical e) :
    (∀ (α : Type) [Scalar α] (vs : Valuation α) (x : α), evaluate vs e = .ok x →
      ∃ y, evaluate vs e.atomic = .ok y) ∧
    ∀ [Scalar Rat], Scalar.Exact → ∀ (vs : Valuation Rat) (x : Rat), evaluate vs e = .ok x →
      evaluate vs e.atomic = .ok x := by
  have hs : Scoped e := ⟨he.ownCalls, hl⟩
  constructor
  · intro α _ vs x h
    have hneeds : ∀ s ∈ needs e, ∃ q, (vs.get? s).map (fun _ => (0 : Rat)) = some q := by
      intro s hs
      obtain ⟨y, hy⟩ := exists_of_mem_needs he.ownCalls h s hs
      exact ⟨0, by rw [hy, Option.map_some]⟩
    obtain ⟨v, hv⟩ := he.exists_unfolded hneeds
    have hatomic := unfolded?_atomic hs hv
    refine exists_evaluate (direct_of_callDepth ?_) fun s hs => ?_
    · rw [atomic_eq_expandWithin]
      exact callDepth_expandWithin (Nat.le_refl _)
    · obtain ⟨q, hq⟩ := exists_of_mem_occurrences hatomic hs
      obtain ⟨y, hy, -⟩ := Option.map_eq_some_iff.1 hq
      exact ⟨y, hy⟩
  · intro _ exact vs x h
    obtain ⟨v, hv⟩ := he.exists_unfolded (exists_of_mem_needs he.ownCalls h)
    obtain rfl : v = x := Except.ok.inj ((evaluate_of_unfolded exact he.ownCalls _ hv).symm.trans h)
    have hatomic := unfolded?_atomic hs hv
    exact evaluate_of_unfolded exact (kept_scoped.atomic hs).calls _ hatomic

/-- `shifted(2)`, where `shifted(x) = scaled(x + 1) + x` and `scaled(x) = c * x`. -/
def shifted : Expr :=
  let x := var ⟨"x"⟩ 0
  let scaled (e : Expr) := call "scaled" [⟨"x"⟩] (productOf [var ⟨"c"⟩ 0, x]) [e]
  call "shifted" [⟨"x"⟩] (sumOf [scaled (sumOf [x, const 1]), x]) [const 2]

/-- A parameter name is used twice and a variable is read that is no parameter; with three for `c` the
value is eleven. -/
theorem evaluate_atomic_shifted :
    letI := Scalar.rational
    Composed shifted ∧ Lexical shifted ∧ Scalar.Exact ∧
      evaluate (.ofList [(⟨"c"⟩, 3)]) shifted = .ok (11 : Rat) ∧
      evaluate (.ofList [(⟨"c"⟩, 3)]) shifted.atomic = .ok (11 : Rat) := by
  let _ := Scalar.rational
  have hpair {P : Expr → Prop} {a b : Expr} (ha : P a) (hb : P b) : ∀ e ∈ [a, b], P e :=
    Closed.forall_pair ha hb
  have hx : Composed (var ⟨"x"⟩ 0) := .var _ _
  have hscaled : Composed (productOf [var ⟨"c"⟩ 0, var ⟨"x"⟩ 0]) := .product (hpair (.var _ _) hx)
  have he : Composed shifted := by
    refine .call (by decide +kernel) rfl (.sum (hpair (.call (by decide +kernel) rfl hscaled ?_) hx)) ?_
    · exact List.forall_mem_singleton.2 (.sum (hpair hx (.const 1)))
    · exact List.forall_mem_singleton.2 (.const 2)
  have hl : Lexical shifted := by
    refine .call (by decide +kernel) (nodewise_lexical.sumOf (hpair (.call ?_ ?_ ?_) (.var _ _))) ?_
    · decide +kernel
    · exact nodewise_lexical.productOf (hpair (.var _ _) (.var _ _))
    · exact List.forall_mem_singleton.2 (nodewise_lexical.sumOf (hpair (.var _ _) (.const 1)))
    · exact List.forall_mem_singleton.2 (.const 2)
  have hv : evaluate (.ofList [(⟨"c"⟩, 3)]) shifted = .ok (11 : Rat) := by
    decide +kernel
  exact ⟨he, hl, Scalar.rational_exact, hv, (evaluate_atomic he hl).2 Scalar.rational_exact _ _ hv⟩

/-- `f(1)`, where `f(x) = g()` and `g() = x`. -/
def captured : Expr := call "f" [⟨"x"⟩] (call "g" [] (var ⟨"x"⟩ 0) []) [const 1]

/-- Where a called body reads a variable that is a parameter of the caller, the evaluator takes the
argument; the atomic form takes the value from outside, and has none without it. -/
theorem not_evaluate_atomic_captured :
    letI := Scalar.rational
    Composed captured ∧ Scalar.Exact ∧
      evaluate .empty captured = .ok (1 : Rat) ∧
      evaluate (α := Rat) .empty captured.atomic = .error (.missingVariable "x") ∧
      evaluate (.ofList [(⟨"x"⟩, 5)]) captured = .ok (1 : Rat) ∧
      evaluate (.ofList [(⟨"x"⟩, 5)]) captured.atomic = .ok (5 : Rat) := by
  let _ := Scalar.rational
  have he : Composed captured :=
    .call (by decide +kernel) rfl (.call (by decide +kernel) rfl (.var _ _) (List.forall_mem_nil _))
      (List.forall_mem_singleton.2 (.const 1))
  refine ⟨he, Scalar.rational_exact, ?_, ?_, ?_, ?_⟩
  all_goals decide +kernel

end Expr

end Symbolic
