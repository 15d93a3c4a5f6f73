import Mathlib.Algebra.Field.Rat
import Mathlib.Algebra.Order.Ring.Rat
import Mathlib.Data.Rat.Lemmas
import Symbolic.Proofs.Expr.Induction
import Symbolic.Proofs.Expr.Parts

/-!
Exact values. An expression whose exponents are integer constants and that calls no functions has a
rational value at rational variables, unless a negative power of zero stands in it. The primitives
are read as any functions of the rationals that agree with what the constructors fold.

`exact` is that partial value. An expression that has one is in the fragment (`integerPowers_of_exact`).
-/

namespace Symbolic

/-- A reading of the primitives, with the values that the constructors rely on. -/
structure Interpretation where
  value : Primitive → Rat → Rat
  ln_one : value .ln 1 = 0
  sin_zero : value .sin 0 = 0
  arcsin_zero : value .arcsin 0 = 0
  arctan_zero : value .arctan 0 = 0
  sign_eq : ∀ x, value .sign x = if 0 < x then 1 else if x < 0 then -1 else 0

/-- The reading in which all functions but the sign are zero. -/
def Interpretation.flat : Interpretation where
  value
    | .sign, x => if 0 < x then 1 else if x < 0 then -1 else 0
    | _, _ => 0
  ln_one := rfl
  sin_zero := rfl
  arcsin_zero := rfl
  arctan_zero := rfl
  sign_eq _ := rfl

/-- An integer power: zero has no negative ones, and the power zero is one. -/
def intPower? (x : Rat) (n : Int) : Option Rat :=
  if x = 0 ∧ n < 0 then none else some (x ^ n)

namespace Expr

/-- All powers are integer constants, and nothing is called. -/
inductive IntegerPowers : Expr → Prop where
  | const (c : Rat) : IntegerPowers (const c)
  | var (s : Symbol) (k : Site) : IntegerPowers (var s k)
  | sum {es : List Expr} : (∀ e ∈ es, IntegerPowers e) → IntegerPowers (sum es)
  | product {es : List Expr} : (∀ e ∈ es, IntegerPowers e) → IntegerPowers (product es)
  | pow {b : Expr} (n : Int) : IntegerPowers b → IntegerPowers (pow b (.const n))
  | apply (f : Primitive) {e : Expr} : IntegerPowers e → IntegerPowers (apply f e)

mutual

/-- The value at the values `ρ` of the variables. -/
def exact (I : Interpretation) (ρ : Symbol → Rat) : Expr → Option Rat
  | const c => some c
  | var s _ => some (ρ s)
  | sum es => (exactAll I ρ es).map List.sum
  | product es => (exactAll I ρ es).map List.prod
  | pow b p =>
    p.const?.bind fun c =>
      if c.den = 1 then (exact I ρ b).bind (intPower? · c.num) else none
  | apply f e => (exact I ρ e).map (I.value f)
  | call _ _ _ _ => none

def exactAll (I : Interpretation) (ρ : Symbol → Rat) : List Expr → Option (List Rat)
  | [] => some []
  | e :: es => (exact I ρ e).bind fun v => (exactAll I ρ es).map (v :: ·)

end

def value (I : Interpretation) (ρ : Symbol → Rat) (e : Expr) : Rat := (exact I ρ e).getD 0

def Valued (I : Interpretation) (ρ : Symbol → Rat) (e : Expr) : Prop :=
  exact I ρ e = some (value I ρ e)

variable {I : Interpretation} {ρ : Symbol → Rat}

theorem valued_of_exact {e : Expr} {v : Rat} (h : exact I ρ e = some v) : Valued I ρ e := by
  rw [Valued, value, h, Option.getD_some]

theorem value_of_exact {e : Expr} {v : Rat} (h : exact I ρ e = some v) : value I ρ e = v := by
  rw [value, h, Option.getD_some]

theorem exactAll_eq_some {es : List Expr} {vs : List Rat} :
    exactAll I ρ es = some vs ↔ (∀ e ∈ es, Valued I ρ e) ∧ vs = es.map (value I ρ) := by
  induction es generalizing vs with
  | nil => simp [exactAll, eq_comm]
  | cons e es ih =>
    simp only [exactAll, Option.bind_eq_some_iff, Option.map_eq_some_iff, List.forall_mem_cons,
      List.map_cons]
    constructor
    · rintro ⟨v, hv, vs, hvs, rfl⟩
      obtain ⟨hes, rfl⟩ := ih.1 hvs
      exact ⟨⟨valued_of_exact hv, hes⟩, by rw [value_of_exact hv]⟩
    · rintro ⟨⟨he, hes⟩, rfl⟩
      exact ⟨_, he, _, ih.2 ⟨hes, rfl⟩, rfl⟩

theorem exact_sum_eq_some {es : List Expr} {v : Rat} :
    exact I ρ (sum es) = some v ↔ (∀ e ∈ es, Valued I ρ e) ∧ v = (es.map (value I ρ)).sum := by
  simp only [exact, Option.map_eq_some_iff, exactAll_eq_some]
  constructor
  · rintro ⟨_, ⟨hes, rfl⟩, rfl⟩
    exact ⟨hes, rfl⟩
  · rintro ⟨hes, rfl⟩
    exact ⟨_, ⟨hes, rfl⟩, rfl⟩

theorem exact_product_eq_some {es : List Expr} {v : Rat} :
    exact I ρ (product es) = some v ↔ (∀ e ∈ es, Valued I ρ e) ∧ v = (es.map (value I ρ)).prod := by
  simp only [exact, Option.map_eq_some_iff, exactAll_eq_some]
  constructor
  · rintro ⟨_, ⟨hes, rfl⟩, rfl⟩
    exact ⟨hes, rfl⟩
  · rintro ⟨hes, rfl⟩
    exact ⟨_, ⟨hes, rfl⟩, rfl⟩

theorem intPower?_eq_some {x v : Rat} {n : Int} :
    intPower? x n = some v ↔ (x ≠ 0 ∨ 0 ≤ n) ∧ v = x ^ n := by
  rw [intPower?]
  split
  · next h => simp [h.1, h.2]
  · next h =>
    have : x ≠ 0 ∨ 0 ≤ n := by
      rcases Classical.em (x = 0) with hx | hx
      · exact .inr (not_lt.1 fun hn => h ⟨hx, hn⟩)
      · exact .inl hx
    simp [this, eq_comm]

theorem exact_pow_eq_some {b p : Expr} {v : Rat} :
    exact I ρ (pow b p) = some v ↔ ∃ c : Rat, p = const c ∧ c.den = 1 ∧ Valued I ρ b ∧
      (value I ρ b ≠ 0 ∨ 0 ≤ c.num) ∧ v = value I ρ b ^ c.num := by
  simp only [exact, Option.ite_none_right_eq_some, Option.bind_eq_some_iff, intPower?_eq_some]
  constructor
  · rintro ⟨c, hp, hc, x, hx, hd, rfl⟩
    rw [← value_of_exact hx] at hd ⊢
    exact ⟨c, const?_eq_some.1 hp, hc, valued_of_exact hx, hd, rfl⟩
  · rintro ⟨c, rfl, hc, hb, hd, rfl⟩
    exact ⟨c, rfl, hc, _, hb, hd, rfl⟩

theorem integerPowers_of_exact {e : Expr} : Valued I ρ e → IntegerPowers e := by
  induction e with
  | const c => exact fun _ => .const c
  | var s k => exact fun _ => .var s k
  | sum es ih => exact fun h => .sum fun e he => ih e he ((exact_sum_eq_some.1 h).1 e he)
  | product es ih => exact fun h => .product fun e he => ih e he ((exact_product_eq_some.1 h).1 e he)
  | pow b p ihb _ =>
    intro h
    obtain ⟨c, rfl, hc, hb, _⟩ := exact_pow_eq_some.1 h
    -- the exponent is the integer that is its numerator
    rw [show c = (c.num : Rat) from (Rat.den_eq_one_iff c).1 hc |>.symm]
    exact .pow c.num (ihb hb)
  | apply f e ih =>
    intro h
    obtain ⟨v, hv, _⟩ := Option.map_eq_some_iff.1 h
    exact .apply f (ih (valued_of_exact hv))
  | call f ps b es => intro h; cases h

end Expr

end Symbolic
