import Mathlib.Algebra.BigOperators.Ring.List
import Symbolic.Proofs.Expr.Groups
import Symbolic.Proofs.Expr.Order
import Symbolic.Proofs.Exact.Reading

/-!
What the constructors have to do with rational values: add them up, multiply them, and raise them
to integers. Terms and factors taken apart, and put together again, keep the value.
-/

namespace Symbolic.Expr

/-! What the constructors have to do. -/

/-- A list is added up. -/
def AddsUp (val : Expr → Option Rat) (f : List Expr → Option Expr) : Prop :=
  ∀ ts e, (∀ t ∈ ts, DefinedBy val t) → f ts = some e →
    val e = some (ts.map (amountBy val)).sum

/-- A list is multiplied. -/
def Multiplies (val : Expr → Option Rat) (f : List Expr → Option Expr) : Prop :=
  ∀ fs e, (∀ f ∈ fs, DefinedBy val f) → f fs = some e →
    val e = some (fs.map (amountBy val)).prod

/-- A base is raised to what it can be raised to. -/
def Raises (val : Expr → Option Rat) (f : Expr → Expr → Option Expr) : Prop :=
  ∀ b p e, DefinedBy val b → DefinedBy val p → Raisable (amountBy val b) (amountBy val p) →
    f b p = some e → val e = some (amountBy val b ^ (amountBy val p).num)

variable {val : Expr → Option Rat} (reads : Reading val)
include reads

/-! Pieces of sums and products. -/

theorem defined_terms {e : Expr} (h : DefinedBy val e) :
    (∀ t ∈ e.terms, DefinedBy val t) ∧ (e.terms.map (amountBy val)).sum = amountBy val e := by
  cases e with
  | sum ts => exact ⟨(reads.sum_eq_some.1 h).1, (reads.sum_eq_some.1 h).2.symm⟩
  | _ => simpa [terms] using h

theorem defined_factors {e : Expr} (h : DefinedBy val e) :
    (∀ f ∈ e.factors, DefinedBy val f) ∧ (e.factors.map (amountBy val)).prod = amountBy val e := by
  cases e with
  | product fs => exact ⟨(reads.product_eq_some.1 h).1, (reads.product_eq_some.1 h).2.symm⟩
  | _ => simpa [factors] using h

theorem map_amount_const (cs : List Rat) : (cs.map const).map (amountBy val) = cs := by
  simp [Function.comp_def, reads.amount_const]

theorem sum_amount_split (es : List Expr) :
    (es.map (amountBy val)).sum = ((nonConstants es).map (amountBy val)).sum + (constants es).sum := by
  have hp := (perm_nonConstants_append es).map (amountBy val)
  rw [hp.sum_eq, List.map_append, List.sum_append, map_amount_const reads]

theorem prod_amount_split (es : List Expr) :
    (es.map (amountBy val)).prod = ((nonConstants es).map (amountBy val)).prod * (constants es).prod := by
  have hp := (perm_nonConstants_append es).map (amountBy val)
  rw [hp.prod_eq, List.map_append, List.prod_append, map_amount_const reads]

theorem bareProduct_exact {es : List Expr} (h : ∀ e ∈ es, DefinedBy val e) :
    val (bareProduct es) = some (es.map (amountBy val)).prod := by
  unfold bareProduct
  split
  · rw [List.map_singleton, List.prod_singleton]
    exact h _ List.mem_cons_self
  · exact reads.product_eq_some.2 ⟨h, rfl⟩

theorem amount_asMultiple {e : Expr} (h : DefinedBy val e) :
    DefinedBy val (asMultiple e).1 ∧
      amountBy val e = amountBy val (asMultiple e).1 * (asMultiple e).2 := by
  cases e with
  | product fs =>
    obtain ⟨hfs, hv⟩ := reads.product_eq_some.1 h
    cases ht : takeConst? fs with
    | none => simpa [asMultiple, ht] using h
    | some cr =>
      obtain ⟨c, rest⟩ := cr
      -- the constant and the other factors are a rearrangement of the product
      have hp := perm_of_takeConst? ht
      have hrest : val (bareProduct rest) = _ :=
        bareProduct_exact reads fun e he => hfs e (hp.mem_iff.2 (List.mem_cons_of_mem _ he))
      simp only [asMultiple, ht]
      refine ⟨definedBy_of_eq hrest, ?_⟩
      calc amountBy val (product fs) = (fs.map (amountBy val)).prod := hv
        _ = ((const c :: rest).map (amountBy val)).prod := (hp.map _).prod_eq
        _ = c * (rest.map (amountBy val)).prod := by
          rw [List.map_cons, List.prod_cons, reads.amount_const]
        _ = amountBy val (bareProduct rest) * c := by rw [amountBy_of_eq hrest, mul_comm]
  | _ => simpa [asMultiple] using h

theorem amount_asPower {e : Expr} (h : DefinedBy val e) :
    DefinedBy val (asPower e).1 ∧ DefinedBy val (asPower e).2 ∧
      Raisable (amountBy val (asPower e).1) (amountBy val (asPower e).2) ∧
        amountBy val e = amountBy val (asPower e).1 ^ (amountBy val (asPower e).2).num := by
  have hone : DefinedBy val e ∧ DefinedBy val (const 1) ∧
      Raisable (amountBy val e) (amountBy val (const 1)) ∧
        amountBy val e = amountBy val e ^ (amountBy val (const 1)).num := by
    rw [reads.amount_const]
    exact ⟨h, reads.defined_const 1, ⟨rfl, .inr Int.one_nonneg⟩, (zpow_one _).symm⟩
  cases e with
  | pow b p =>
    rw [asPower]
    split
    · exact hone
    · exact reads.pow_eq_some.1 h
  | _ => exact hone

/-! What the constructors put together. -/

theorem withConst_addsUp {es : List Expr} (h : ∀ e ∈ es, DefinedBy val e) (c : Rat) :
    (∀ e ∈ withConst 0 c es, DefinedBy val e) ∧
      ((withConst 0 c es).map (amountBy val)).sum = (es.map (amountBy val)).sum + c := by
  refine ⟨forall_withConst h (reads.defined_const c), ?_⟩
  rw [withConst]
  split
  · next hc => rw [hc, add_zero]
  · simp [reads.amount_const]

theorem withConst_multiplies {es : List Expr} (h : ∀ e ∈ es, DefinedBy val e) (c : Rat) :
    (∀ e ∈ withConst 1 c es, DefinedBy val e) ∧
      ((withConst 1 c es).map (amountBy val)).prod = (es.map (amountBy val)).prod * c := by
  refine ⟨forall_withConst h (reads.defined_const c), ?_⟩
  rw [withConst]
  split
  · next hc => rw [hc, mul_one]
  · simp [reads.amount_const]

theorem finish_addsUp {es : List Expr} (h : ∀ e ∈ es, DefinedBy val e) :
    val (finish 0 sum es) = some (es.map (amountBy val)).sum := by
  unfold finish
  split
  · exact reads.const 0
  · rw [List.map_singleton, List.sum_singleton, reads.congr (alike_copied _)]
    exact h _ List.mem_cons_self
  · rw [reads.sum, (mapM_perm (sorted_perm es)).1, sum_mapM_eq_some]
    exact ⟨h, rfl⟩

theorem finish_multiplies {es : List Expr} (h : ∀ e ∈ es, DefinedBy val e) :
    val (finish 1 product es) = some (es.map (amountBy val)).prod := by
  unfold finish
  split
  · exact reads.const 1
  · rw [List.map_singleton, List.prod_singleton, reads.congr (alike_copied _)]
    exact h _ List.mem_cons_self
  · rw [reads.product, (mapM_perm (sorted_perm es)).2, prod_mapM_eq_some]
    exact ⟨h, rfl⟩

end Symbolic.Expr
