import Symbolic.Expr.Nesting
import Symbolic.Proofs.Canonical.Expansion
import Symbolic.Proofs.Expr.Nodewise
import Symbolic.Proofs.Expr.Substitution

/-!
How deep calls go in what is put together. The constructors add no calls, so they do not go deeper
than their operands (`nodewise_callDepth`); what is put in for variables goes on top of the expression
that it is put into (`callDepth_substitute_le`).
-/

namespace Symbolic.Expr

variable {es : List Expr} {k : Nat}

theorem callDepths_le : callDepths es ≤ k ↔ ∀ e ∈ es, callDepth e ≤ k := by
  induction es with
  | nil => simp [callDepths]
  | cons e es ih => rw [callDepths, Nat.max_le, ih, List.forall_mem_cons]

theorem callDepth_le_of_mem {e : Expr} (he : e ∈ es) : callDepth e ≤ callDepths es :=
  callDepths_le.1 (Nat.le_refl _) e he

theorem callDepth_operand {d e : Expr} (h : d ∈ e.operands) : callDepth d ≤ callDepth e := by
  cases e with
  | const _ | var _ _ => cases h
  | sum es | product es => exact callDepth_le_of_mem h
  | pow b p =>
    rcases List.mem_pair.1 h with rfl | rfl
    · exact Nat.le_max_left _ _
    · exact Nat.le_max_right _ _
  | apply f e =>
    rw [List.mem_singleton.1 h]
    exact Nat.le_refl _
  | call f ps b es =>
    have hes : callDepth d ≤ callDepths es := callDepth_le_of_mem h
    rw [callDepth, Nat.add_right_comm]
    exact hes.trans (Nat.le_add_left _ _)

theorem nodewise_callDepth (k : Nat) : Nodewise fun e => callDepth e ≤ k where
  const _ := Nat.zero_le k
  site h := h
  sum := callDepths_le
  product := callDepths_le
  pow := Nat.max_le
  apply := .rfl

theorem callDepth_substitute_le {σ : Symbol → Option Expr}
    (hσ : ∀ s r, σ s = some r → callDepth r ≤ k) (e : Expr) :
    callDepth (e.substitute σ) ≤ callDepth e + k := by
  have hmap {es : List Expr} (ih : ∀ e ∈ es, callDepth (e.substitute σ) ≤ callDepth e + k) :
      ∀ d ∈ es.map (substitute σ), callDepth d ≤ callDepths es + k := by
    refine List.forall_mem_map.2 fun e he => (ih e he).trans ?_
    exact Nat.add_le_add_right (callDepth_le_of_mem he) k
  induction e with
  | const c => exact Nat.zero_le _
  | var s l =>
    rw [substitute_var, callDepth, Nat.zero_add]
    cases hs : σ s with
    | none => exact Nat.zero_le k
    | some r => exact hσ s r hs
  | sum es ih =>
    rcases substitute_sum (σ := σ) es with ⟨h, -⟩ | h
    · rw [h]
      exact Nat.le_add_right _ _
    · rw [h]
      exact (nodewise_callDepth _).sumOf (hmap ih)
  | product es ih =>
    rcases substitute_product (σ := σ) es with ⟨h, -⟩ | h
    · rw [h]
      exact Nat.le_add_right _ _
    · rw [h]
      exact (nodewise_callDepth _).productOf (hmap ih)
  | pow b p ihb ihp =>
    rcases substitute_pow (σ := σ) b p with ⟨h, -⟩ | h
    · rw [h]
      exact Nat.le_add_right _ _
    · rw [h, callDepth]
      refine (nodewise_callDepth _).powOf (ihb.trans ?_) (ihp.trans ?_)
      · omega
      · omega
  | apply f e ih =>
    rcases substitute_apply (σ := σ) f e with ⟨h, -⟩ | h
    · rw [h]
      exact Nat.le_add_right _ _
    · rw [h]
      exact (nodewise_callDepth _).applyOf f ih
  | call f ps b es _ ih =>
    rw [substitute_call, callDepth, callDepth]
    have := callDepths_le.2 (hmap ih)
    omega

/-- The body of a call, with the arguments in place, goes less deep than the call. -/
theorem callDepth_inlined_le {ps : List Symbol} {b : Expr} (h : ∀ e ∈ es, callDepth e ≤ k) :
    callDepth (substitutePairs (ps.zip es) b) ≤ callDepth b + k := by
  refine callDepth_substitute_le (fun s r hs => ?_) b
  exact h r (List.of_mem_zip (Kept.mem_of_lookupLast hs)).2

theorem callDepth_of_isAtomic {e : Expr} (h : isAtomic e = true) : callDepth e ≤ 0 := by
  have hlist {es : List Expr} (ih : ∀ e ∈ es, isAtomic e = true → callDepth e ≤ 0)
      (h : allAtomic es = true) : callDepths es ≤ 0 := by
    rw [allAtomic_eq_all, List.all_eq_true] at h
    exact callDepths_le.2 fun e he => ih e he (h e he)
  induction e with
  | const c => exact Nat.le_refl 0
  | var s k => exact Nat.le_refl 0
  | sum es ih => exact hlist ih h
  | product es ih => exact hlist ih h
  | pow b p ihb ihp =>
    rw [isAtomic, Bool.and_eq_true] at h
    exact Nat.max_le.2 ⟨ihb h.1, ihp h.2⟩
  | apply f e ih => exact ih h
  | call f ps b es => cases h

theorem callDepth_expandWithin {e : Expr} (h : callDepth e ≤ k) :
    callDepth (expandWithin k e) ≤ 0 := by
  have hn := nodewise_callDepth 0
  induction k generalizing e with
  | zero => exact h
  | succ k ih =>
    rw [expandWithin]
    induction e with
    | const c => exact Nat.le_refl 0
    | var s l => exact Nat.le_refl 0
    | sum es ihs =>
      rw [expandWith, expandListWith_eq_map]
      split
      · next ha => exact callDepth_of_isAtomic ha
      · exact hn.sumOf (List.forall_mem_map.2 fun e he => ihs e he (callDepths_le.1 h e he))
    | product es ihs =>
      rw [expandWith, expandListWith_eq_map]
      split
      · next ha => exact callDepth_of_isAtomic ha
      · exact hn.productOf (List.forall_mem_map.2 fun e he => ihs e he (callDepths_le.1 h e he))
    | pow b p ihb ihp =>
      obtain ⟨hb, hp⟩ := Nat.max_le.1 h
      rw [expandWith]
      split
      · next ha => exact callDepth_of_isAtomic ha
      · exact hn.powOf (ihb hb) (ihp hp)
    | apply f e ihe =>
      rw [expandWith]
      split
      · next ha => exact callDepth_of_isAtomic ha
      · exact hn.applyOf f (ihe h)
    | call f ps b es _ ihs =>
      have hb : callDepth b + callDepths es + 1 ≤ k + 1 := h
      have hes : ∀ e ∈ es, callDepth e ≤ k + 1 := callDepths_le.1 (by omega)
      rw [expandWith, expandListWith_eq_map]
      refine hn.copied (ih ((callDepth_inlined_le (k := 0) (List.forall_mem_map.2 ?_)).trans (by omega)))
      exact fun e he => ihs e he (hes e he)

/-- The body of a call, with the expanded arguments in place, goes less deep than the call. -/
theorem callDepth_inlined_expandWith {f : String} {ps : List Symbol} {b : Expr}
    (h : callDepth (call f ps b es) ≤ k + 1) :
    callDepth (substitutePairs (ps.zip (es.map (expandWith (expandWithin k)))) b) ≤ k := by
  rw [callDepth] at h
  refine (callDepth_inlined_le (k := 0) (List.forall_mem_map.2 fun e he => ?_)).trans (by omega)
  exact callDepth_expandWithin (k := k + 1) (callDepths_le.1 (by omega) e he)

end Symbolic.Expr
