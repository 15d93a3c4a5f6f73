import Symbolic.Proofs.Exact.Ordered
import Symbolic.Proofs.Exact.Signed
import Symbolic.Proofs.Numeric.Expansion

/-!
Magnitudes, minima and maxima mean to the evaluator what their bodies mean. Expressions of constants,
variables, sums, products and such calls, in any nesting, have a value wherever their variables have
one; with rational numbers the atomic form, which is built of sums, products, integer powers and signs,
has the same value (`evaluate_piecewise`). Both are the value that the expression has with calls
(`ordered?`).
-/

namespace Symbolic

/-- The rational numbers are computed with as they are, and so are the sign, the magnitude, the lesser
and the greater of them. -/
structure Scalar.Ordered [Scalar Rat] : Prop extends Scalar.Exact where
  sign : ∀ x : Rat, Scalar.unary .sign x = if 0 < x then 1 else if x < 0 then -1 else 0
  abs : ∀ x : Rat, Scalar.unary .abs x = |x|
  min : ∀ x y : Rat, Scalar.binary .min x y = Min.min x y
  max : ∀ x y : Rat, Scalar.binary .max x y = Max.max x y

/-- The rational numbers in their order; what is not rational is zero. -/
@[reducible]
def Scalar.orderedRational : Scalar Rat where
  undefined := 0
  ofRat q := q
  unary
    | .sign, x => if 0 < x then 1 else if x < 0 then -1 else 0
    | .abs, x => |x|
    | _, _ => 0
  binary
    | .add, x, y => x + y
    | .multiply, x, y => x * y
    | .power, x, y => x ^ y.num
    | .min, x, y => Min.min x y
    | .max, x, y => Max.max x y
    | .log, _, _ => 0

theorem Scalar.orderedRational_ordered : @Scalar.Ordered orderedRational :=
  letI := orderedRational
  { ofRat := fun _ => rfl
    add := fun _ _ => rfl
    multiply := fun _ _ => rfl
    power := fun _ _ _ => rfl
    sign := fun _ => rfl
    abs := fun _ => rfl
    min := fun _ _ => rfl
    max := fun _ _ => rfl }

namespace Expr

section Evaluator

variable [Scalar Rat] (laws : Scalar.Ordered)
include laws

theorem value_of_orderedValue {op : Operation} {xs : List Rat} {v : Rat}
    (h : orderedValue? op xs = some v) : op.value xs = v := by
  unfold orderedValue? at h
  split at h
  · next x =>
    cases h
    exact laws.abs x
  · next x y =>
    cases h
    exact laws.min x y
  · next x y =>
    cases h
    exact laws.max x y
  · cases h

theorem evaluate_of_ordered {vs : Valuation Rat} {e : Expr} :
    ∀ v, ordered? vs.get? e = some v → evaluate vs e = .ok v := by
  have reads := reading_ordered vs.get?
  have exact := laws.toExact
  induction e with
  | const c =>
    intro v h
    cases h
    rw [evaluate, exact.ofRat]
  | var s k =>
    intro v h
    rw [ordered?] at h
    rw [evaluate, Valuation.require, h]
  | sum es ih => exact fun v => reads.evaluate_sum exact ih
  | product es ih => exact fun v => reads.evaluate_product exact ih
  | pow b p ihb ihp => exact fun v => reads.evaluate_pow exact ihb ihp
  | apply f e ih =>
    intro v h
    obtain ⟨rfl, x, hx, rfl⟩ := ordered?_apply_eq_some.1 h
    rw [evaluate, ih x hx, signum_eq, ← laws.sign]
    rfl
  | call f ps b es _ ih =>
    intro v h
    obtain ⟨op, hop, hes, hv⟩ := ordered?_call_eq_some.1 h
    rw [evaluate, evaluateAll_amounts fun e he => ih e he _ (hes e he)]
    simp only [hop]
    rw [← value_of_orderedValue laws hv]
    rfl

end Evaluator

/-- Built of constants and variables by sums, products and calls of the magnitude, the minimum and the
maximum. -/
inductive Piecewise : Expr → Prop where
  | const (c : Rat) : Piecewise (const c)
  | var (s : Symbol) (k : Site) : Piecewise (var s k)
  | sum {es : List Expr} : (∀ e ∈ es, Piecewise e) → Piecewise (sumOf es)
  | product {es : List Expr} : (∀ e ∈ es, Piecewise e) → Piecewise (productOf es)
  | abs {e : Expr} : Piecewise e → Piecewise (Builtin.abs.on [e])
  | min {a b : Expr} : Piecewise a → Piecewise b → Piecewise (Builtin.min.on [a, b])
  | max {a b : Expr} : Piecewise a → Piecewise b → Piecewise (Builtin.max.on [a, b])

namespace Piecewise

variable {e : Expr}

theorem signedCalls (h : Piecewise e) : SignedCalls e := by
  induction h with
  | const c => exact .const c
  | var s k => exact .var s k
  | sum _ ih => exact .sumOf ih
  | product _ ih => exact .productOf ih
  | abs _ ih => exact .call (.magnitudeBody (.var _ _)) (List.forall_mem_singleton.2 ih)
  | min _ _ iha ihb => exact .call .minimum (Closed.forall_pair iha ihb)
  | max _ _ iha ihb => exact .call .maximum (Closed.forall_pair iha ihb)

theorem total (h : Piecewise e) (ρ : Symbol → Rat) :
    ∃ v, ordered? (fun s => some (ρ s)) e = some v := by
  have reads := reading_ordered fun s => some (ρ s)
  induction h with
  | const c => exact ⟨c, rfl⟩
  | var s k => exact ⟨ρ s, rfl⟩
  | sum _ ih => exact ⟨_, reads.sumOf fun e he => definedBy_of_eq (ih e he).choose_spec⟩
  | product _ ih => exact ⟨_, reads.productOf fun e he => definedBy_of_eq (ih e he).choose_spec⟩
  | abs _ ih =>
    obtain ⟨x, hx⟩ := ih
    exact ⟨_, ordered?_on .abs rfl (.cons hx .nil) rfl⟩
  | min _ _ iha ihb =>
    obtain ⟨x, hx⟩ := iha
    obtain ⟨y, hy⟩ := ihb
    exact ⟨_, ordered?_on .min rfl (.cons hx (.cons hy .nil)) rfl⟩
  | max _ _ iha ihb =>
    obtain ⟨x, hx⟩ := iha
    obtain ⟨y, hy⟩ := ihb
    exact ⟨_, ordered?_on .max rfl (.cons hx (.cons hy .nil)) rfl⟩

theorem exists_ordered (h : Piecewise e) {ρ : Symbol → Option Rat}
    (hρ : ∀ s ∈ occurrences e, ∃ x, ρ s = some x) : ∃ v, ordered? ρ e = some v := by
  obtain ⟨v, hv⟩ := h.total fun s => (ρ s).getD 0
  refine ⟨v, (ordered?_congr fun s hs => ?_).trans hv⟩
  obtain ⟨x, hx⟩ := hρ s hs
  rw [hx, Option.getD_some]

end Piecewise

/-- Expansion leaves nothing of calls of the magnitude, the minimum and the maximum but sums, products,
integer powers and signs, and the value is the one with these functions, at all values of the
variables. -/
theorem evaluate_piecewise {e : Expr} (he : Piecewise e) :
    Signed e.atomic ∧
      ∀ [Scalar Rat], Scalar.Ordered → ∀ vs : Valuation Rat,
        (∀ s ∈ e.vars, ∃ x, vs.get? s = some x) →
          ∃ v, evaluate vs e = .ok v ∧ evaluate vs e.atomic = .ok v := by
  refine ⟨he.signedCalls.signed_atomic, fun laws vs hvs => ?_⟩
  obtain ⟨v, hv⟩ := he.exists_ordered fun s hs => hvs s (mem_vars.2 hs)
  exact ⟨v, evaluate_of_ordered laws v hv, evaluate_of_ordered laws v (ordered?_atomic hv)⟩

/-- How far `x` is from the range of `-y` to `y`, as `|x - min(max(x, -y), y)|`. -/
def overshoot : Expr :=
  let x := var ⟨"x"⟩ 0
  let y := var ⟨"y"⟩ 0
  let clamped := Builtin.min.on [Builtin.max.on [x, productOf [const (-1), y]], y]
  Builtin.abs.on [sumOf [x, productOf [const (-1), clamped]]]

/-- From minus seven to the range up to two and a half it is four and a half. -/
theorem evaluate_piecewise_overshoot :
    letI := Scalar.orderedRational
    let vs : Valuation Rat := .ofList [(⟨"x"⟩, -7), (⟨"y"⟩, 5 / 2)]
    Piecewise overshoot ∧ Scalar.Ordered ∧ (∀ s ∈ overshoot.vars, ∃ x, vs.get? s = some x) ∧
      Signed overshoot.atomic ∧ evaluate vs overshoot = .ok (9 / 2) ∧
      evaluate vs overshoot.atomic = .ok (9 / 2) := by
  let _ := Scalar.orderedRational
  intro vs
  have hneg {e : Expr} (h : Piecewise e) : Piecewise (productOf [const (-1), e]) :=
    .product (Closed.forall_pair (.const _) h)
  have he : Piecewise overshoot :=
    .abs (.sum (Closed.forall_pair (.var _ _)
      (hneg (.min (.max (.var _ _) (hneg (.var _ _))) (.var _ _)))))
  have hvs : ∀ s ∈ overshoot.vars, ∃ x, vs.get? s = some x := by
    have hvars : overshoot.vars = [⟨"x"⟩, ⟨"y"⟩] := by decide +kernel
    rw [hvars]
    exact List.forall_mem_cons.2 ⟨⟨-7, rfl⟩, List.forall_mem_singleton.2 ⟨5 / 2, rfl⟩⟩
  obtain ⟨hsigned, hsame⟩ := evaluate_piecewise he
  obtain ⟨v, hv, hatomic⟩ := hsame Scalar.orderedRational_ordered vs hvs
  have hvalue : evaluate vs overshoot = .ok (9 / 2) := by decide +kernel
  obtain rfl : v = 9 / 2 := Except.ok.inj (hv.symm.trans hvalue)
  exact ⟨he, Scalar.orderedRational_ordered, hvs, hsigned, hvalue, hatomic⟩

end Expr

end Symbolic
