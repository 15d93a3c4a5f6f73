import Symbolic.Proofs.Exact.Reading

/-!
Rational values. A power has one wherever its exponent has an integer value, so that an exponent can
be written in any way. On the fragment that is the exact value (`exact_eq_rational?`). Expressions
that are equal up to the order of operands have the same value (`rational?_congr`).
-/

namespace Symbolic.Expr

mutual

/-- The value at the values `ρ` of the variables. -/
def rational? (I : Interpretation) (ρ : Symbol → Rat) : Expr → Option Rat
  | const c => some c
  | var s _ => some (ρ s)
  | sum es => (rationals? I ρ es).map List.sum
  | product es => (rationals? I ρ es).map List.prod
  | pow b p =>
    (rational? I ρ p).bind fun c =>
      if c.den = 1 then (rational? I ρ b).bind (intPower? · c.num) else none
  | apply f e => (rational? I ρ e).map (I.value f)
  | call _ _ _ _ => none

def rationals? (I : Interpretation) (ρ : Symbol → Rat) : List Expr → Option (List Rat)
  | [] => some []
  | e :: es => (rational? I ρ e).bind fun v => (rationals? I ρ es).map (v :: ·)

end

def amount (I : Interpretation) (ρ : Symbol → Rat) (e : Expr) : Rat := (rational? I ρ e).getD 0

def Defined (I : Interpretation) (ρ : Symbol → Rat) (e : Expr) : Prop :=
  rational? I ρ e = some (amount I ρ e)

variable {I : Interpretation} {ρ : Symbol → Rat}

theorem defined_of_rational? {e : Expr} {v : Rat} (h : rational? I ρ e = some v) :
    Defined I ρ e := by
  rw [Defined, amount, h, Option.getD_some]

theorem amount_of_rational? {e : Expr} {v : Rat} (h : rational? I ρ e = some v) :
    amount I ρ e = v := by
  rw [amount, h, Option.getD_some]

theorem rationals?_eq_mapM (es : List Expr) :
    rationals? I ρ es = es.mapM (rational? I ρ) := by
  induction es with
  | nil => rfl
  | cons e es ih =>
    rw [rationals?, ih, List.mapM_cons]
    cases rational? I ρ e <;> cases es.mapM (rational? I ρ) <;> rfl

theorem rational?_sum (es : List Expr) :
    rational? I ρ (sum es) = (es.mapM (rational? I ρ)).map List.sum := by
  rw [rational?, rationals?_eq_mapM]

theorem rational?_product (es : List Expr) :
    rational? I ρ (product es) = (es.mapM (rational? I ρ)).map List.prod := by
  rw [rational?, rationals?_eq_mapM]

/-- Expressions that are equal up to the order of operands have the same value. -/
theorem rational?_congr {a b : Expr} (h : alike a b = true) : rational? I ρ a = rational? I ρ b := by
  refine alike_induction (motive := fun a b => rational? I ρ a = rational? I ρ b)
    ?const ?var ?sum ?product ?pow ?apply ?call a b h
  case const => exact fun c => rfl
  case var => exact fun s k l => rfl
  case sum =>
    intro as bs cs hp hcs
    rw [rational?_sum, rational?_sum, mapM_congr hcs, (mapM_perm hp).1]
  case product =>
    intro as bs cs hp hcs
    rw [rational?_product, rational?_product, mapM_congr hcs, (mapM_perm hp).2]
  case pow =>
    intro b p b' p' hb hp
    rw [rational?, rational?, hb, hp]
  case apply =>
    intro f a b hab
    rw [rational?, rational?, hab]
  case call => exact fun f ps b b' as bs _ _ => rfl

theorem reading_rational (I : Interpretation) (ρ : Symbol → Rat) : Reading (rational? I ρ) where
  const _ := rfl
  sum := rational?_sum
  product := rational?_product
  pow _ _ := rfl
  congr := rational?_congr

theorem rational?_sum_eq_some {es : List Expr} {v : Rat} :
    rational? I ρ (sum es) = some v ↔
      (∀ e ∈ es, Defined I ρ e) ∧ v = (es.map (amount I ρ)).sum :=
  (reading_rational I ρ).sum_eq_some

theorem rational?_product_eq_some {es : List Expr} {v : Rat} :
    rational? I ρ (product es) = some v ↔
      (∀ e ∈ es, Defined I ρ e) ∧ v = (es.map (amount I ρ)).prod :=
  (reading_rational I ρ).product_eq_some

theorem rational?_pow_eq_some {b p : Expr} {v : Rat} :
    rational? I ρ (pow b p) = some v ↔ Defined I ρ b ∧ Defined I ρ p ∧
      Raisable (amount I ρ b) (amount I ρ p) ∧ v = amount I ρ b ^ (amount I ρ p).num :=
  (reading_rational I ρ).pow_eq_some

theorem amount_const (c : Rat) : amount I ρ (const c) = c := rfl

theorem defined_const (c : Rat) : Defined I ρ (const c) := rfl

/-- On the fragment the value is the exact one. -/
theorem exact_eq_rational? {e : Expr} (h : IntegerPowers e) : exact I ρ e = rational? I ρ e := by
  have hall {es : List Expr} (ih : ∀ e ∈ es, exact I ρ e = rational? I ρ e) :
      exactAll I ρ es = rationals? I ρ es := by
    induction es with
    | nil => rfl
    | cons e es iht =>
      obtain ⟨he, hes⟩ := List.forall_mem_cons.1 ih
      rw [exactAll, rationals?, he, iht hes]
  induction h with
  | const c => rfl
  | var s k => rfl
  | sum _ ih => rw [exact, rational?, hall ih]
  | product _ ih => rw [exact, rational?, hall ih]
  | pow n _ ih => rw [exact, rational?, ih]; rfl
  | apply f _ ih => rw [exact, rational?, ih]

theorem Valued.defined {e : Expr} (h : Valued I ρ e) :
    Defined I ρ e ∧ amount I ρ e = value I ρ e := by
  have hr : rational? I ρ e = some (value I ρ e) := by
    rw [← exact_eq_rational? (integerPowers_of_exact h)]
    exact h
  exact ⟨defined_of_rational? hr, amount_of_rational? hr⟩

end Symbolic.Expr
