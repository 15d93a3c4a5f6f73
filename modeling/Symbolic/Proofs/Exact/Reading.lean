import Symbolic.Proofs.Exact.Value

/-!
Ways to read rational values off expressions. A reading says what a constant, a sum, a product and a
power amount to, and gives the same value to expressions that are equal up to the order of operands;
the values of variables, of applications and of calls are its own matter. What the constructors do
with values (`Reading.sumOf` and its kin) rests on no more than that.
-/

namespace Symbolic.Expr

def amountBy (val : Expr → Option Rat) (e : Expr) : Rat := (val e).getD 0

def DefinedBy (val : Expr → Option Rat) (e : Expr) : Prop := val e = some (amountBy val e)

/-- A base can be raised to a value: that is an integer, and not negative if the base is zero. -/
def Raisable (x y : Rat) : Prop := y.den = 1 ∧ (x ≠ 0 ∨ 0 ≤ y.num)

/-- Constants have their own values, sums, products and integer powers those of the operation, and
expressions that are equal up to the order of operands have the same. -/
structure Reading (val : Expr → Option Rat) : Prop where
  const : ∀ c, val (.const c) = some c
  sum : ∀ es, val (.sum es) = (es.mapM val).map List.sum
  product : ∀ es, val (.product es) = (es.mapM val).map List.prod
  pow : ∀ b p, val (.pow b p) =
    (val p).bind fun c => if c.den = 1 then (val b).bind (intPower? · c.num) else none
  congr : ∀ {a b}, alike a b = true → val a = val b

variable {val : Expr → Option Rat}

theorem definedBy_of_eq {e : Expr} {v : Rat} (h : val e = some v) : DefinedBy val e := by
  rw [DefinedBy, amountBy, h, Option.getD_some]

theorem amountBy_of_eq {e : Expr} {v : Rat} (h : val e = some v) : amountBy val e = v := by
  rw [amountBy, h, Option.getD_some]

theorem mapM_eq_some {es : List Expr} {vs : List Rat} :
    es.mapM val = some vs ↔ (∀ e ∈ es, DefinedBy val e) ∧ vs = es.map (amountBy val) := by
  induction es generalizing vs with
  | nil => simp [eq_comm]
  | cons e es ih =>
    simp only [List.mapM_cons, Option.bind_eq_bind, Option.bind_eq_some_iff, Option.pure_def,
      Option.some.injEq, List.forall_mem_cons, List.map_cons]
    constructor
    · rintro ⟨v, hv, vs, hvs, rfl⟩
      obtain ⟨hes, rfl⟩ := ih.1 hvs
      exact ⟨⟨definedBy_of_eq hv, hes⟩, by rw [amountBy_of_eq hv]⟩
    · rintro ⟨⟨he, hes⟩, rfl⟩
      exact ⟨_, he, _, ih.2 ⟨hes, rfl⟩, rfl⟩

theorem sum_mapM_eq_some {es : List Expr} {v : Rat} :
    (es.mapM val).map List.sum = some v ↔
      (∀ e ∈ es, DefinedBy val e) ∧ v = (es.map (amountBy val)).sum := by
  simp only [Option.map_eq_some_iff, mapM_eq_some]
  constructor
  · rintro ⟨_, ⟨hes, rfl⟩, rfl⟩
    exact ⟨hes, rfl⟩
  · rintro ⟨hes, rfl⟩
    exact ⟨_, ⟨hes, rfl⟩, rfl⟩

theorem prod_mapM_eq_some {es : List Expr} {v : Rat} :
    (es.mapM val).map List.prod = some v ↔
      (∀ e ∈ es, DefinedBy val e) ∧ v = (es.map (amountBy val)).prod := by
  simp only [Option.map_eq_some_iff, mapM_eq_some]
  constructor
  · rintro ⟨_, ⟨hes, rfl⟩, rfl⟩
    exact ⟨hes, rfl⟩
  · rintro ⟨hes, rfl⟩
    exact ⟨_, ⟨hes, rfl⟩, rfl⟩

/-- The sum of a list does not depend on the order, nor does the product. -/
theorem mapM_perm {as bs : List Expr} (h : as.Perm bs) :
    (as.mapM val).map List.sum = (bs.mapM val).map List.sum ∧
      (as.mapM val).map List.prod = (bs.mapM val).map List.prod := by
  have hv : (∀ e ∈ as, DefinedBy val e) ↔ ∀ e ∈ bs, DefinedBy val e := by simp only [h.mem_iff]
  constructor
  · ext v
    rw [sum_mapM_eq_some, sum_mapM_eq_some, hv, (h.map (amountBy val)).sum_eq]
  · ext v
    rw [prod_mapM_eq_some, prod_mapM_eq_some, hv, (h.map (amountBy val)).prod_eq]

theorem mapM_congr {val' : Expr → Option Rat} {as bs : List Expr}
    (h : List.Forall₂ (fun a b => val a = val' b) as bs) : as.mapM val = bs.mapM val' := by
  induction h with
  | nil => rfl
  | cons hab _ ih => rw [List.mapM_cons, List.mapM_cons, hab, ih]

namespace Reading

theorem sum_eq_some (h : Reading val) {es : List Expr} {v : Rat} :
    val (.sum es) = some v ↔
      (∀ e ∈ es, DefinedBy val e) ∧ v = (es.map (amountBy val)).sum := by
  rw [h.sum, sum_mapM_eq_some]

theorem product_eq_some (h : Reading val) {es : List Expr} {v : Rat} :
    val (.product es) = some v ↔
      (∀ e ∈ es, DefinedBy val e) ∧ v = (es.map (amountBy val)).prod := by
  rw [h.product, prod_mapM_eq_some]

theorem pow_eq_some (h : Reading val) {b p : Expr} {v : Rat} :
    val (.pow b p) = some v ↔ DefinedBy val b ∧ DefinedBy val p ∧
      Raisable (amountBy val b) (amountBy val p) ∧ v = amountBy val b ^ (amountBy val p).num := by
  simp only [h.pow, Option.ite_none_right_eq_some, Option.bind_eq_some_iff, intPower?_eq_some]
  constructor
  · rintro ⟨c, hc, hden, x, hx, hd, rfl⟩
    rw [← amountBy_of_eq hx] at hd ⊢
    rw [← amountBy_of_eq hc] at hden hd ⊢
    exact ⟨definedBy_of_eq hx, definedBy_of_eq hc, ⟨hden, hd⟩, rfl⟩
  · rintro ⟨hb, hp, ⟨hden, hd⟩, rfl⟩
    exact ⟨_, hp, hden, _, hb, hd, rfl⟩

theorem amount_const (h : Reading val) (c : Rat) : amountBy val (.const c) = c :=
  amountBy_of_eq (h.const c)

theorem defined_const (h : Reading val) (c : Rat) : DefinedBy val (.const c) :=
  definedBy_of_eq (h.const c)

theorem amount_alike (h : Reading val) {b c : Expr} (hbc : b.alike c = true) :
    amountBy val b = amountBy val c := by
  rw [amountBy, amountBy, h.congr hbc]

end Reading

end Symbolic.Expr
