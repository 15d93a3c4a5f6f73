import Symbolic.Proofs.Canonical.Exponents

/-!
The multiples of an expression. All of them are made of one constant and one base without a constant
factor (`sharesBase`): the product of a coefficient and the expression is the `multiple` of the base by
the coefficient times the constant.
-/

namespace Symbolic.Expr

variable {xs ys fs : List Expr}

theorem productOf_congr (hx : ∀ f ∈ xs, Canonical f) (hy : ∀ f ∈ ys, Canonical f)
    (hc : constantFactor xs = constantFactor ys)
    (hn : nonConstants (xs.flatMap factors) = nonConstants (ys.flatMap factors)) :
    productOf xs = productOf ys := by
  rw [productOf_eq_merged hx, productOf_eq_merged hy, hc, mergedFactors_congr hn]

/-- A canonical expression other than a constant, with no constant among its factors. -/
structure Bare (b : Expr) : Prop where
  canonical : Canonical b
  factors : ∀ f ∈ b.factors, f.isConst = false

def multiple (c : Rat) (b : Expr) : Expr :=
  if c = 0 then const 0 else if c = 1 then b else product (const c :: b.factors)

namespace Bare

variable {b : Expr} {c d : Rat}

theorem isConst (h : Bare b) : b.isConst = false := by
  cases b with
  | const c => exact h.factors _ List.mem_cons_self
  | _ => rfl

theorem canonical_multiple (h : Bare b) (c : Rat) : Canonical (multiple c b) := by
  rw [multiple]
  split
  · exact .const 0
  split
  · exact h.canonical
  · refine .product (productShape_scaled h.canonical h.factors ‹_› ‹_›) ?_
    exact List.forall_mem_cons.2 ⟨.const c, fun f hf => (h.canonical.factors f hf).1⟩

theorem isConst_multiple (h : Bare b) (h0 : c ≠ 0) : (multiple c b).isConst = false := by
  rw [multiple, if_neg h0]
  split
  · exact h.isConst
  · rfl

theorem not_alike_const (h : Bare b) (h0 : c ≠ 0) : ¬Alike (const d) (multiple c b) := by
  intro hd
  have hc := h.isConst_multiple h0
  rw [hd.eq_const] at hc
  cases hc

theorem asMultiple_multiple (h : Bare b) (h0 : c ≠ 0) : asMultiple (multiple c b) = (b, c) := by
  rw [multiple, if_neg h0]
  split
  · next h1 => rw [asMultiple_bare h.factors, h1]
  · show (bareProduct b.factors, c) = (b, c)
    rw [bareProduct_factors h.canonical]

end Bare

theorem multiple_zero (b : Expr) : multiple 0 b = const 0 := if_pos rfl

theorem multiple_one (b : Expr) : multiple 1 b = b := by
  rw [multiple, if_neg one_ne_zero, if_pos rfl]

theorem eq_one_of_isSum_multiple {b : Expr} {c : Rat} (h : (multiple c b).isSum = true) :
    c = 1 ∧ b.isSum = true := by
  rw [multiple] at h
  split at h
  · cases h
  split at h
  · exact ⟨‹_›, h⟩
  · cases h

theorem finish_alike_multiple (hne : fs ≠ [])
    (hfs : ∀ f ∈ fs, Canonical f ∧ f.isConst = false ∧ f.isProduct = false) :
    ∃ b, Bare b ∧ ∀ c : Rat, c ≠ 0 →
      Alike (finish 1 product (withConst 1 c fs)) (multiple c b) := by
  have hsorted (c : Rat) : sorted (fs ++ [const c]) = const c :: sorted fs :=
    sorted_concat_const (fun f hf => (hfs f hf).2.1) c
  have hcanonical : Canonical (finish 1 product (withConst 1 1 fs)) :=
    canonical_finish (fun _ (h : ProductShape _) => .product h) rfl hfs (.inl rfl)
  rcases fs with _ | ⟨f, _ | ⟨f', fs⟩⟩
  · exact absurd rfl hne
  · obtain ⟨hf, hconst, hprod⟩ := hfs f List.mem_cons_self
    have hfactors : f.factors = [f] := factors_eq hprod
    refine ⟨f, ⟨hf, hfactors ▸ List.forall_mem_singleton.2 hconst⟩, fun c h0 => ?_⟩
    rw [multiple, if_neg h0, withConst]
    split
    · exact alike_copied f
    · have hscaled : sorted [f, const c] = [const c, f] := hsorted c
      show Alike (product (sorted [f, const c])) (product (const c :: f.factors))
      rw [hscaled, hfactors]
      exact .refl _
  · refine ⟨product (sorted (f :: f' :: fs)), ⟨hcanonical, fun d hd => ?_⟩, fun c h0 => ?_⟩
    · exact (hfs d ((sorted_perm _).mem_iff.1 hd)).2.1
    · rw [multiple, if_neg h0, withConst]
      split
      · exact .refl _
      · have hscaled : Alike (product (sorted (f :: f' :: fs ++ [const c])))
            (product (const c :: sorted (f :: f' :: fs))) := hsorted c ▸ .refl _
        exact hscaled

theorem constantFactor_withConst (c : Rat) (fs : List Expr) :
    constantFactor (withConst 1 c fs) = constantFactor fs * c := by
  rw [withConst]
  split
  · next h1 => rw [h1, mul_one]
  · rw [constantFactor_append]
    exact congrArg _ List.prod_singleton

theorem nonConstants_withConst {opened : Expr → List Expr}
    (hopened : ∀ c : Rat, opened (const c) = [const c]) (unit c : Rat) (es : List Expr) :
    nonConstants ((withConst unit c es).flatMap opened) = nonConstants (es.flatMap opened) := by
  rw [withConst]
  split
  · rfl
  · rw [List.flatMap_append, List.flatMap_singleton, hopened, nonConstants_append]
    exact List.append_nil _

theorem constantFactor_cons (k : Rat) (fs : List Expr) :
    constantFactor (const k :: fs) = k * constantFactor fs := List.prod_cons

theorem mergedFactors_cons (k : Rat) (fs : List Expr) :
    mergedFactors (const k :: fs) = mergedFactors fs := mergedFactors_congr rfl

/-- The products of the factors and one more constant differ in their constants alone. -/
def SharesBase (fs : List Expr) : Prop :=
  ∃ c : Rat, (∀ k : Rat, productOf (const k :: fs) = const (k * c)) ∨
    c ≠ 0 ∧ ∃ b, Bare b ∧ ∀ k : Rat, Alike (productOf (const k :: fs)) (multiple (k * c) b)

/-- Where a product is taken once more, it is taken once more for every constant. -/
theorem productOf_cons_again (h : ∀ f ∈ fs, Canonical f)
    (hagain : ((mergedFactors fs).any fun e => e.isProduct || e.isConst) = true) (k : Rat) :
    productOf (const k :: fs) =
      productOf (const k :: withConst 1 (constantFactor fs) (mergedFactors fs)) := by
  have hall := List.forall_mem_cons.2 ⟨.const k, h⟩
  have hnext := List.forall_mem_cons.2 ⟨.const k, canonical_mergedFactors h⟩
  have hconst : constantFactor (const k :: withConst 1 (constantFactor fs) (mergedFactors fs)) =
      constantFactor (mergedFactors fs) * (k * constantFactor fs) := by
    rw [constantFactor_cons, constantFactor_withConst, mul_left_comm]
  rw [productOf_eq_merged hall, constantFactor_cons, mergedFactors_cons, if_pos hagain]
  split
  · next hz => rw [productOf_eq_merged hnext, hconst, hz, mul_zero, if_pos rfl]
  · refine productOf_congr (canonical_withConst fun f hf => ?_) hnext ?_ ?_
    · exact canonical_of_mem_mergedFactors h hf
    · rw [hconst, constantFactor_withConst]
    · rw [nonConstants_withConst fun _ => rfl]
      exact (nonConstants_withConst (fun _ => rfl) _ _ _).symm

/-- Where a product is put together, it is put together of the same factors for every constant. -/
theorem sharesBase_of_kept (h : ∀ f ∈ fs, Canonical f) (h0 : constantFactor fs ≠ 0)
    (hkept : ((mergedFactors fs).any fun e => e.isProduct || e.isConst) = false) :
    SharesBase fs := by
  have heq (k : Rat) := productOf_eq_merged (List.forall_mem_cons.2 ⟨.const k, h⟩)
  simp only [constantFactor_cons, mergedFactors_cons, hkept, Bool.false_eq_true, if_false] at heq
  refine ⟨constantFactor fs, ?_⟩
  by_cases hnil : mergedFactors fs = []
  · refine .inl fun k => ?_
    rw [heq, hnil, withConst]
    split
    · next hz => rw [hz]
    split
    · next h1 => rw [h1]; rfl
    · rfl
  · obtain ⟨b, hb, hfin⟩ := finish_alike_multiple hnil fun f hf =>
      ⟨canonical_of_mem_mergedFactors h hf, any_again_eq_false.1 hkept f hf⟩
    refine .inr ⟨h0, b, hb, fun k => ?_⟩
    rw [heq]
    split
    · next hz =>
      rw [hz, multiple_zero]
      exact .refl _
    · exact hfin _ ‹_›

theorem sharesBase (h : ∀ f ∈ fs, Canonical f) : SharesBase fs := by
  refine productOf_induction (fun fs hfs ih => ?_) h
  by_cases h0 : constantFactor fs = 0
  · refine ⟨0, .inl fun k => ?_⟩
    rw [productOf_eq_merged (List.forall_mem_cons.2 ⟨.const k, hfs⟩), constantFactor_cons, h0,
      mul_zero, if_pos rfl]
  by_cases hagain : ((mergedFactors fs).any fun e => e.isProduct || e.isConst) = true
  · obtain ⟨c, hc⟩ := ih h0 hagain
    simp only [← productOf_cons_again hfs hagain] at hc
    exact ⟨c, hc⟩
  · exact sharesBase_of_kept hfs h0 (Bool.not_eq_true _ ▸ hagain)

end Symbolic.Expr
