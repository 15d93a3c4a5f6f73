import Symbolic.Proofs.Canonical.Partial
import Symbolic.Proofs.Canonical.Steady

/-!
Operands of a steady node, grouped. Sums and products have this in common (`Regroups`): a group of
two or more operands of a steady node makes a node of these operands, and what opens to the operands
of a steady node makes that node again. So a node may be taken apart into groups and put together.
-/

namespace Symbolic.Expr

/-- Nodes, how they are rebuilt, and what is opened when it stands under one of them. -/
structure Regroups (node rebuild : List Expr → Expr) (opened : Expr → List Expr) : Prop where
  commutes : Commutes rebuild
  node_alike : ∀ {as bs}, Rearranged Alike as bs → Alike (node as) (node bs)
  opened_alike : ∀ {a b}, Alike a b → Rearranged Alike (opened a) (opened b)
  opened_node : ∀ es, opened (node es) = es
  opened_operand : ∀ {es}, Canonical (node es) → ∀ e ∈ es, opened e = [e]
  operands_node : ∀ es, (node es).operands = es
  withOperands_node : ∀ es ds, (node es).withOperands ds = rebuild ds
  part : ∀ {es gs rest}, Canonical (node es) → Steady (node es) → es.Perm (gs ++ rest) →
    2 ≤ gs.length → ∃ ds, rebuild gs = node ds ∧ ds.Perm gs
  whole : ∀ {es ds}, Canonical (node es) → Steady (node es) → (ds.flatMap opened).Perm es →
    Alike (rebuild ds) (node es)

variable {es gs rest ds : List Expr}

/-- Where two operands or more are left, the node is not folded away. -/
theorem exists_finish_eq {unit : Rat} {node : List Expr → Expr} {all : List Expr}
    (hp : all.Perm gs) (hl : 2 ≤ gs.length) : ∃ ds, finish unit node all = node ds ∧ ds.Perm gs := by
  have hlen := hp.length_eq
  rcases finish_cases unit node all with h | ⟨e, h, -⟩ | ⟨ds, hds, hperm⟩
  · rw [h, List.length_nil] at hlen
    omega
  · rw [h, List.length_singleton] at hlen
    omega
  · exact ⟨ds, hds, hperm.trans hp⟩

theorem constants_part {nested : Expr → Bool} {folded : List Rat}
    (h : OperandsShape nested folded es) (hp : es.Perm (gs ++ rest)) :
    (constants gs).length ≤ 1 ∧ ∀ c ∈ folded, c ∉ constants gs := by
  have hc : (constants es).Perm (constants gs ++ constants rest) := by
    rw [← constants_append]
    exact hp.filterMap _
  constructor
  · have hlen := hc.length_eq
    have hone := h.one_const
    rw [List.length_append] at hlen
    omega
  · exact fun c hfold hgs => h.kept c (hc.mem_iff.2 (List.mem_append_left _ hgs)) hfold

theorem terms_of_steady (he : Canonical (sum es)) (hs : Steady (sum es)) : Terms es :=
  terms_spec he (settled_of_same he (hs _ .self))

theorem factors_of_steady (he : Canonical (product es)) (hs : Steady (product es)) : Factors es :=
  (factors_spec he (settled_of_same he (hs _ .self)) (by simp)).1

theorem regroups_sum : Regroups sum sumOf terms where
  commutes := commutes_sumOf
  node_alike := alike_sum.2
  opened_alike := Alike.terms
  opened_node _ := rfl
  opened_operand he e hmem := terms_eq (he.sum_shape.opened e hmem)
  operands_node _ := rfl
  withOperands_node _ _ := rfl
  part he hs hp hl := by
    have hterms := ((terms_of_steady he hs).perm hp).sublist (List.sublist_append_left _ _)
    obtain ⟨hone, hkept⟩ := constants_part he.sum_shape hp
    rw [hterms.sumOf_eq]
    exact exists_finish_eq (perm_withConst List.sum_nil (fun _ => List.sum_singleton) hone
      (hkept 0 (by simp))) hl
  whole {es ds} he hs hp := by
    have hterms := terms_of_steady he hs
    have hperm := hterms.perm hp.symm
    have hc : (constants (ds.flatMap terms)).Perm (constants es) := hp.filterMap _
    refine Alike.trans ?_ hs.rebuilt
    show Alike (sumOf ds) (sumOf es)
    rw [hterms.sumOf_eq, sumOf_of_merged hperm.opened hperm.merged, hc.sum_eq]
    exact alike_finish_perm alike_sum.2 (hp.filter _)

theorem regroups_product : Regroups product productOf factors where
  commutes := commutes_productOf
  node_alike := alike_product.2
  opened_alike := Alike.factors
  opened_node _ := rfl
  opened_operand he e hmem := factors_eq (he.product_shape.opened e hmem)
  operands_node _ := rfl
  withOperands_node _ _ := rfl
  part he hs hp hl := by
    have hfactors := ((factors_of_steady he hs).perm hp).sublist (List.sublist_append_left _ _)
    obtain ⟨hone, hkept⟩ := constants_part he.product_shape hp
    rw [hfactors.productOf_eq]
    exact exists_finish_eq (perm_withConst List.prod_nil (fun _ => List.prod_singleton) hone
      (hkept 1 (by simp))) hl
  whole {es ds} he hs hp := by
    have hfactors := factors_of_steady he hs
    have hperm := hfactors.perm hp.symm
    have hc : (constants (ds.flatMap factors)).Perm (constants es) := hp.filterMap _
    refine Alike.trans ?_ hs.rebuilt
    show Alike (productOf ds) (productOf es)
    rw [hfactors.productOf_eq, productOf_of_merged hperm.opened hperm.merged, if_neg,
      hc.prod_eq]
    · exact alike_finish_perm alike_product.2 (hp.filter _)
    · exact fun hz => hperm.kept (List.prod_eq_zero_iff.1 hz)

namespace Regroups

open Symbolic.Matcher

variable {node rebuild : List Expr → Expr} {opened : Expr → List Expr}

/-- A group of operands of a steady node is steady, and it opens to its members. -/
theorem group_spec (h : Regroups node rebuild opened) (he : Canonical (node es))
    (hs : Steady (node es)) (hp : es.Perm (gs ++ rest)) (hne : gs ≠ []) :
    Steady (groupExpr rebuild gs) ∧ (opened (groupExpr rebuild gs)).Perm gs := by
  have hmem : ∀ e ∈ gs, e ∈ (node es).operands := by
    intro e hg
    rw [h.operands_node]
    exact hp.mem_iff.2 (List.mem_append_left _ hg)
  match gs, hne with
  | [e], _ =>
    have heq := h.opened_operand he e (hp.mem_iff.2 (by simp))
    exact ⟨hs.operands e (hmem e (by simp)), .of_eq heq⟩
  | d :: d' :: gs, _ =>
    obtain ⟨ds, hds, hperm⟩ := h.part he hs hp (by simp)
    have hcan : ∀ e ∈ ds, Canonical e := fun e he' => he.operands e (hmem e (hperm.mem_iff.1 he'))
    have hrebuilt : Alike (rebuild ds) (node ds) := by
      rw [← hds]
      exact h.commutes.alike hcan (fun e he' => hcan e (hperm.mem_iff.2 he'))
        (.of_perm (fun e _ => .refl e) hperm)
    rw [groupExpr.eq_2 _ _ (by simp), hds, h.opened_node]
    refine ⟨steady_iff.2 ⟨?_, fun e he' => ?_⟩, hperm⟩
    · rw [h.operands_node, h.withOperands_node]
      exact same_iff.2 hrebuilt
    · rw [h.operands_node] at he'
      exact hs.operands e (hmem e (hperm.mem_iff.1 he'))

end Regroups

end Symbolic.Expr
