import Symbolic.Proofs.Exact.Steps

/-!
The sum keeps rational values, over products and sums that do: a group of like terms has the value of
its base times the sum of the coefficients.
-/

namespace Symbolic.Expr

variable {val : Expr → Option Rat} (reads : Reading val)
include reads

theorem likeTerm_exact {product : List Expr → Option Expr} (hp : Multiplies val product)
    {g : Group Rat} {r : Option Expr} (hb : DefinedBy val g.base) (hr : likeTerm product g = some r) :
    r.elim (some 0) (val) = some (amountBy val g.base * g.parts.sum) := by
  simp only [likeTerm, foldr_add] at hr
  split at hr
  · next h0 => rw [← Option.some.inj hr, h0, mul_zero, Option.elim_none]
  split at hr
  · next h1 => rw [← Option.some.inj hr, h1, mul_one, Option.elim_some, hb]
  · obtain ⟨e, he, rfl⟩ := Option.map_eq_some_iff.1 hr
    have hv := hp [const g.parts.sum, g.base] e (by simp [hb, reads.defined_const]) he
    rw [Option.elim_some, hv]
    simp [reads.amount_const, mul_comm]

theorem sum_likeTerms {es : List Expr} (h : ∀ e ∈ es, DefinedBy val e) :
    ((groupAll asMultiple es).map fun g => amountBy val g.base * g.parts.sum).sum =
      (es.map (amountBy val)).sum := by
  have hg (g : Group Rat) : amountBy val g.base * g.parts.sum =
      (g.parts.map fun c => amountBy val g.base * c).sum := by
    rw [List.sum_map_mul_left, List.map_id']
  calc ((groupAll asMultiple es).map fun g => amountBy val g.base * g.parts.sum).sum
      = ((groupAll asMultiple es).map fun g =>
          (g.parts.map fun c => amountBy val g.base * c).sum).sum := by simp only [hg]
    _ = (es.map fun e => amountBy val (asMultiple e).1 * (asMultiple e).2).sum :=
        sum_groupAll (fun b c => amountBy val b * c) es fun b c hbc => by rw [reads.amount_alike hbc]
    _ = (es.map (amountBy val)).sum := by
        rw [List.map_congr_left fun e he => (amount_asMultiple reads (h e he)).2]

/-- What is left of the groups of like terms has the value of the terms. -/
theorem likeTerms_exact {product : List Expr → Option Expr} (hp : Multiplies val product)
    {es : List Expr} (h : ∀ e ∈ es, DefinedBy val e) {merged : List (Option Expr)}
    (hm : (groupAll asMultiple es).mapM (likeTerm product) = some merged) :
    (∀ e ∈ merged.filterMap id, DefinedBy val e) ∧
      ((merged.filterMap id).map (amountBy val)).sum = (es.map (amountBy val)).sum := by
  have hgr : ∀ g ∈ groupAll asMultiple es, ∀ r, likeTerm product g = some r →
      r.elim (some 0) (val) = some (amountBy val g.base * g.parts.sum) := by
    intro g hg r hr
    obtain ⟨hf, hb, _⟩ := groupAll_first hg
    exact likeTerm_exact reads hp (hb ▸ (amount_asMultiple reads (h _ hf)).1) hr
  have hmerged := forall₂_of_mapM hm
  constructor
  · exact forall_mem_of_mapM hm fun g hg _ hr => definedBy_of_eq (hgr g hg _ hr)
  · have hgroup : ∀ g ∈ groupAll asMultiple es, ∀ r, likeTerm product g = some r →
        amountBy val g.base * g.parts.sum = r.elim 0 (amountBy val) := by
      intro g hg r hr
      have hv := hgr g hg r hr
      cases r with
      | none => exact (Option.some.inj hv).symm
      | some e => exact (amountBy_of_eq hv).symm
    calc ((merged.filterMap id).map (amountBy val)).sum
        = (merged.map fun r => r.elim 0 (amountBy val)).sum := sum_map_filterMap_id _ _
      _ = ((groupAll asMultiple es).map fun g => amountBy val g.base * g.parts.sum).sum :=
          (sum_map_eq_of_forall₂ hmerged hgroup).symm
      _ = (es.map (amountBy val)).sum := sum_likeTerms reads h

theorem sumBody_addsUp {product again : List Expr → Option Expr} (hp : Multiplies val product)
    (ha : AddsUp val again) : AddsUp val (sumBody product again) := by
  intro ts e hts he
  simp only [sumBody, gather_eq_groupAll, foldr_add, Option.bind_eq_bind,
    Option.bind_eq_some_iff] at he
  obtain ⟨merged, hm, he⟩ := he
  have hflat : ∀ t ∈ ts.flatMap terms, DefinedBy val t := by
    intro t ht
    obtain ⟨t', ht', htt'⟩ := List.mem_flatMap.1 ht
    exact (defined_terms reads (hts t' ht')).1 t htt'
  obtain ⟨hkept, hsum⟩ := likeTerms_exact reads hp
    (fun t ht => hflat t (mem_nonConstants.1 ht).1) hm
  obtain ⟨hall, hall'⟩ := withConst_addsUp reads hkept (constants (ts.flatMap terms)).sum
  have hv : ((withConst 0 (constants (ts.flatMap terms)).sum
      (merged.filterMap id)).map (amountBy val)).sum = (ts.map (amountBy val)).sum :=
    calc _ = ((merged.filterMap id).map (amountBy val)).sum +
            (constants (ts.flatMap terms)).sum := hall'
      _ = ((ts.flatMap terms).map (amountBy val)).sum := by rw [hsum, ← sum_amount_split reads]
      _ = (ts.map (amountBy val)).sum := sum_map_flatMap fun t ht => (defined_terms reads (hts t ht)).2
  rw [← hv]
  split at he
  · exact ha _ _ hall he
  · exact Option.some.inj he ▸ finish_addsUp reads hall

end Symbolic.Expr
