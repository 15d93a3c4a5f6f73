import Symbolic.Proofs.Exact.Substitution
import Symbolic.Proofs.Pattern.Fits

/-!
Rewriting keeps values. A pattern that fits a target has the target's value where its free variables
have the values of what they stand for (`rational?_of_fits`). So a rule whose replacement has the
value of the pattern, wherever that has one, leads to expressions of the same value, at whatever
place it is applied (`rational?_of_mem_results`).
-/

namespace Symbolic

open Symbolic.Expr Symbolic.Matcher

variable {I : Interpretation} {ρ : Symbol → Rat} {free : List Symbol} {a : Assignment}

theorem rational?_groupExpr_sum {g : List Expr} (h : ∀ e ∈ g, Defined I ρ e) :
    rational? I ρ (groupExpr sumOf g) = some (g.map (amount I ρ)).sum := by
  unfold groupExpr
  split
  · rw [List.map_singleton, List.sum_singleton]
    exact h _ List.mem_cons_self
  · exact rational?_sumOf h

theorem rational?_groupExpr_product {g : List Expr} (h : ∀ e ∈ g, Defined I ρ e) :
    rational? I ρ (groupExpr productOf g) = some (g.map (amount I ρ)).prod := by
  unfold groupExpr
  split
  · rw [List.map_singleton, List.prod_singleton]
    exact h _ List.mem_cons_self
  · exact rational?_productOf h

theorem forall₂_rational? {f : List Rat → Rat} {rebuild : List Expr → Expr} {ps es : List Expr}
    {gs : List (List Expr)} {ρ' : Symbol → Rat}
    (hrebuild : ∀ g : List Expr, (∀ e ∈ g, Defined I ρ e) →
      rational? I ρ (groupExpr rebuild g) = some (f (g.map (amount I ρ))))
    (hes : ∀ e ∈ es, Defined I ρ e)
    (ih : ∀ p ∈ ps, ∀ {e v}, Fits free a p e → rational? I ρ e = some v →
      rational? I ρ' p = some v)
    (hgs : List.Forall₂ (fun p g => Fits free a p (groupExpr rebuild g)) ps gs)
    (hperm : es.Perm gs.flatten) :
    (∀ p ∈ ps, Defined I ρ' p) ∧
      ps.map (amount I ρ') = gs.map fun g => f (g.map (amount I ρ)) := by
  have hmem : ∀ g ∈ gs, ∀ e ∈ g, Defined I ρ e := fun g hg e he =>
    hes e (hperm.mem_iff.2 (List.mem_flatten_of_mem hg he))
  refine defined_of_forall₂ ?_
  clear hperm
  induction hgs with
  | nil => exact .nil
  | cons hpg _ ihg =>
    obtain ⟨hp, hps⟩ := List.forall_mem_cons.1 ih
    obtain ⟨hg, hgs⟩ := List.forall_mem_cons.1 hmem
    exact .cons (hp hpg (hrebuild _ hg)) (ihg hps hgs)

theorem rational?_of_fits (ha : ∀ s d, a.get? s = some d → s ∈ free) {p : Expr} :
    ∀ {e v}, Fits free a p e → rational? I ρ e = some v →
      rational? I (valuesAfter I ρ a.get?) p = some v := by
  induction p with
  | const c =>
    intro e v h hv
    rw [Fits] at h
    subst h
    exact hv
  | var s k =>
    intro e v h hv
    rw [Fits] at h
    rw [rational?, valuesAfter]
    split at h
    · obtain ⟨d, hd, hde⟩ := h
      rw [hd, Option.elim_some, amount, rational?_congr hde, hv, Option.getD_some]
    · next hs =>
      -- what is not free is not bound, and stands for itself
      obtain ⟨l, rfl⟩ := h
      have hn : a.get? s = none := Option.eq_none_iff_forall_ne_some.2 fun d hd => hs (ha s d hd)
      rw [hn, Option.elim_none]
      exact hv
  | sum ps ih =>
    intro e v h hv
    rw [Fits] at h
    obtain ⟨es, rfl, h⟩ := h
    obtain ⟨gs, hgs, -, hperm⟩ := exists_groups_of_fitsGroups h
    obtain ⟨hes, rfl⟩ := rational?_sum_eq_some.1 hv
    obtain ⟨hps, hmap⟩ := forall₂_rational? (f := List.sum) (fun _ => rational?_groupExpr_sum) hes
      ih hgs hperm
    refine rational?_sum_eq_some.2 ⟨hps, ?_⟩
    rw [hmap, (hperm.map _).sum_eq, ← List.flatMap_id]
    exact sum_map_flatMap fun g _ => rfl
  | product ps ih =>
    intro e v h hv
    rw [Fits] at h
    obtain ⟨es, rfl, h⟩ := h
    obtain ⟨gs, hgs, -, hperm⟩ := exists_groups_of_fitsGroups h
    obtain ⟨hes, rfl⟩ := rational?_product_eq_some.1 hv
    obtain ⟨hps, hmap⟩ := forall₂_rational? (f := List.prod)
      (fun _ => rational?_groupExpr_product) hes ih hgs hperm
    refine rational?_product_eq_some.2 ⟨hps, ?_⟩
    rw [hmap, (hperm.map _).prod_eq, ← List.flatMap_id]
    exact prod_map_flatMap fun g _ => rfl
  | pow b p ihb ihp =>
    intro e v h hv
    rw [Fits] at h
    obtain ⟨b', p', rfl, hb, hp⟩ := h
    obtain ⟨hb', hp', hr, rfl⟩ := rational?_pow_eq_some.1 hv
    have hb := ihb hb hb'
    have hp := ihp hp hp'
    rw [← amount_of_rational? hb, ← amount_of_rational? hp] at hr ⊢
    exact rational?_pow_eq_some.2 ⟨defined_of_rational? hb, defined_of_rational? hp, hr, rfl⟩
  | apply f p ih =>
    intro e v h hv
    rw [Fits] at h
    obtain ⟨d, rfl, h⟩ := h
    obtain ⟨x, hx, rfl⟩ := Option.map_eq_some_iff.1 hv
    rw [rational?, ih h hx]
    rfl
  | call f ss b ps =>
    intro e v h hv
    rw [Fits] at h
    obtain ⟨b', es, rfl, -, -⟩ := h
    cases hv

theorem Expr.Defined.operands {e : Expr} (h : Defined I ρ e) : ∀ d ∈ e.operands, Defined I ρ d := by
  cases e with
  | const c => exact List.forall_mem_nil _
  | var s k => exact List.forall_mem_nil _
  | sum es => exact (rational?_sum_eq_some.1 h).1
  | product es => exact (rational?_product_eq_some.1 h).1
  | pow b p =>
    obtain ⟨hb, hp, -⟩ := rational?_pow_eq_some.1 h
    exact Closed.forall_pair hb hp
  | apply f e =>
    obtain ⟨x, hx, -⟩ := Option.map_eq_some_iff.1 h
    exact List.forall_mem_singleton.2 (defined_of_rational? hx)
  | call f ps b es => cases h

namespace Rule

/-- Wherever the pattern has a value, the replacement has the same. -/
def Keeps (I : Interpretation) (r : Rule) : Prop :=
  ∀ ρ v, rational? I ρ r.pattern.expr = some v → rational? I ρ r.replacement = some v

variable {r : Rule}

theorem rational?_of_mem_atRoot (hr : r.Keeps I) {e : Expr} {v : Rat} (he : rational? I ρ e = some v) :
    ∀ d ∈ r.atRoot e, rational? I ρ d = some v := by
  intro d hd
  obtain ⟨a, ha, rfl⟩ := List.mem_map.1 hd
  have hmatch := matcher_finds r.pattern.free r.pattern.expr e a ha
  have hdef : a.Holds (Defined I ρ) :=
    Kept.matcherKeeps (fun es h => defined_of_rational? (rational?_sumOf h))
      (fun es h => defined_of_rational? (rational?_productOf h)) (fun e h => h.operands) _ _ e
      (defined_of_rational? he) a ha
  refine rational?_substitute (fun s d hd => hdef.get? hd) (hr _ v ?_)
  exact rational?_of_fits (fun s d hd => (hmatch.bound s d hd).1) hmatch.fits he

/-- A part of the operands is rewritten as a whole, the others stay. -/
theorem rational?_of_mem_amongOperands (hr : r.Keeps I) {f : List Rat → Rat}
    (hf : ∀ {xs ys}, xs.Perm ys → f xs = f ys)
    (hf' : ∀ xs ys, f (ys ++ [f xs]) = f (xs ++ ys)) {rebuild : List Expr → Expr}
    (hrebuild : ∀ es : List Expr, (∀ e ∈ es, Defined I ρ e) →
      rational? I ρ (rebuild es) = some (f (es.map (amount I ρ))))
    {es : List Expr} (hes : ∀ e ∈ es, Defined I ρ e) :
    ∀ d ∈ r.amongOperands rebuild es, rational? I ρ d = some (f (es.map (amount I ρ))) := by
  intro d hd
  rw [amongOperands] at hd
  split at hd
  · cases hd
  obtain ⟨⟨inside, outside⟩, hs, hd⟩ := List.mem_flatMap.1 hd
  have hp := Kept.perm_of_mem_splits _ hs
  simp only at hd hp
  split at hd
  · cases hd
  obtain ⟨e, he, rfl⟩ := List.mem_map.1 hd
  have hin : ∀ e ∈ inside, Defined I ρ e := fun e he =>
    hes e (hp.mem_iff.1 (List.mem_append_left _ he))
  have hout : ∀ e ∈ outside, Defined I ρ e := fun e he =>
    hes e (hp.mem_iff.1 (List.mem_append_right _ he))
  have hroot := rational?_of_mem_atRoot hr (hrebuild inside hin) e he
  have hall : ∀ d ∈ outside ++ [e], Defined I ρ d := by
    intro d hd
    rcases List.mem_append.1 hd with hd | hd
    · exact hout d hd
    · rw [List.mem_singleton.1 hd]
      exact defined_of_rational? hroot
  calc rational? I ρ (rebuild (outside ++ [e]))
      = some (f ((outside ++ [e]).map (amount I ρ))) := hrebuild _ hall
    _ = some (f ((inside ++ outside).map (amount I ρ))) := by
      rw [List.map_append, List.map_singleton, amount_of_rational? hroot, hf', ← List.map_append]
    _ = some (f (es.map (amount I ρ))) := by rw [hf (hp.map _)]

theorem rational?_of_mem_atOperands (hr : r.Keeps I) {e : Expr} {v : Rat}
    (he : rational? I ρ e = some v) : ∀ d ∈ r.atOperands e, rational? I ρ d = some v := by
  intro d hd
  cases e with
  | sum es =>
    obtain ⟨hes, rfl⟩ := rational?_sum_eq_some.1 he
    rw [atOperands] at hd
    split at hd
    · refine rational?_of_mem_amongOperands hr (f := List.sum) (fun hp => hp.sum_eq) ?_
        (fun es h => rational?_sumOf h) hes d hd
      intro xs ys
      rw [List.sum_append, List.sum_append, List.sum_singleton, add_comm]
    · cases hd
  | product es =>
    obtain ⟨hes, rfl⟩ := rational?_product_eq_some.1 he
    rw [atOperands] at hd
    split at hd
    · refine rational?_of_mem_amongOperands hr (f := List.prod) (fun hp => hp.prod_eq) ?_
        (fun es h => rational?_productOf h) hes d hd
      intro xs ys
      rw [List.prod_append, List.prod_append, List.prod_singleton, mul_comm]
    · cases hd
  | _ => cases hd

end Rule

/-- An operand may give way to one of the same value. -/
theorem Expr.Frame.rational? {c : Expr → Expr} {x y e : Expr} {v : Rat} (h : Frame c x e)
    (he : Expr.rational? I ρ e = some v) (hy : Expr.rational? I ρ y = Expr.rational? I ρ x) :
    Expr.rational? I ρ (c y) = some v := by
  have hes := (defined_of_rational? he).operands
  have hx : Defined I ρ x := hes x h.mem_operands
  have hdy : Defined I ρ y := defined_of_rational? (hy.trans hx)
  have hyx : amount I ρ y = amount I ρ x := congrArg (·.getD 0) hy
  have hmap (us vs : List Expr) :
      (us ++ y :: vs).map (amount I ρ) = (us ++ x :: vs).map (amount I ρ) := by
    rw [List.map_append, List.map_append, List.map_cons, List.map_cons, hyx]
  cases h with
  | sum us x vs =>
    obtain ⟨-, rfl⟩ := rational?_sum_eq_some.1 he
    rw [rational?_sumOf (forall_mem_replaced hes hdy), hmap]
  | product us x vs =>
    obtain ⟨-, rfl⟩ := rational?_product_eq_some.1 he
    rw [rational?_productOf (forall_mem_replaced hes hdy), hmap]
  | base b p =>
    obtain ⟨-, hp, hraise, rfl⟩ := rational?_pow_eq_some.1 he
    rw [← hyx] at hraise ⊢
    exact rational?_powOf hdy hp hraise
  | power b p =>
    obtain ⟨hb, -, hraise, rfl⟩ := rational?_pow_eq_some.1 he
    rw [← hyx] at hraise ⊢
    exact rational?_powOf hb hdy hraise
  | apply f x =>
    obtain ⟨q, hq, rfl⟩ := Option.map_eq_some_iff.1 he
    exact rational?_applyOf f (hy.trans hq)
  | call => cases he

namespace Rule

variable {r : Rule}

/-- A rule that keeps values keeps them at whatever place it is applied. -/
theorem rational?_of_mem_results (hr : r.Keeps I) {e : Expr} :
    ∀ {v}, rational? I ρ e = some v → ∀ d ∈ r.results e, rational? I ρ d = some v := by
  induction e using operand_induction with
  | h e ih =>
    intro v hv d hd
    obtain hd | hd | ⟨c, x, hf, y, hy, rfl⟩ := mem_results.1 hd
    · exact rational?_of_mem_atRoot hr hv d hd
    · exact rational?_of_mem_atOperands hr hv d hd
    · have hx : Defined I ρ x := (defined_of_rational? hv).operands x hf.mem_operands
      exact hf.rational? hv ((ih x hf.mem_operands hx y hy).trans hx.symm)

theorem rational?_of_mem_apply (hr : r.Keeps I) {e : Expr} {v : Rat}
    (he : rational? I ρ e = some v) : ∀ d ∈ r.apply e, rational? I ρ d = some v :=
  fun d hd => rational?_of_mem_results hr he d (mem_of_mem_distinctFrom d hd)

end Rule

end Symbolic
