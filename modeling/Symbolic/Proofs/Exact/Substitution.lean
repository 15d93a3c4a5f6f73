import Symbolic.Proofs.Exact.Constructors
import Symbolic.Proofs.Expr.Variables

/-!
Replacement keeps values: an expression has, after variables are replaced, the value that it has
where these variables have the values of what they are replaced by. A node that is rebuilt over
operands that keep their values keeps its own (`Reading.sum_map` and its kin). In the fragment
replacement stays in the fragment, where the value is the exact one (`substitutePairs_exact`).
-/

namespace Symbolic.Expr

/-! Nodes that are rebuilt, or left in place, over operands with the same values. -/

section Rebuilt

variable {val val' : Expr → Option Rat} {f : Expr → Expr} {es : List Expr} {v : Rat}

theorem defined_of_forall₂ {α : Type} {g : α → Rat} {es : List Expr} {xs : List α}
    (h : List.Forall₂ (fun e x => val e = some (g x)) es xs) :
    (∀ e ∈ es, DefinedBy val e) ∧ es.map (amountBy val) = xs.map g := by
  induction h with
  | nil => exact ⟨List.forall_mem_nil _, rfl⟩
  | cons he _ ih =>
    refine ⟨List.forall_mem_cons.2 ⟨definedBy_of_eq he, ih.1⟩, ?_⟩
    rw [List.map_cons, List.map_cons, amountBy_of_eq he, ih.2]

theorem defined_map (hf : ∀ e ∈ es, ∀ v, val e = some v → val' (f e) = some v)
    (hes : ∀ e ∈ es, DefinedBy val e) :
    (∀ d ∈ es.map f, DefinedBy val' d) ∧
      (es.map f).map (amountBy val') = es.map (amountBy val) := by
  refine defined_of_forall₂ (List.forall₂_map_left_iff.2 (List.forall₂_same.2 fun e he => ?_))
  exact hf e he _ (hes e he)

variable (reads : Reading val) (reads' : Reading val')
include reads reads'

theorem Reading.sum_map (hf : ∀ e ∈ es, ∀ v, val e = some v → val' (f e) = some v)
    (hv : val (.sum es) = some v) :
    val' (.sum (es.map f)) = some v ∧ val' (.sumOf (es.map f)) = some v := by
  obtain ⟨hes, rfl⟩ := reads.sum_eq_some.1 hv
  obtain ⟨hall, hmap⟩ := defined_map hf hes
  rw [← hmap]
  exact ⟨reads'.sum_eq_some.2 ⟨hall, rfl⟩, reads'.sumOf hall⟩

theorem Reading.product_map (hf : ∀ e ∈ es, ∀ v, val e = some v → val' (f e) = some v)
    (hv : val (.product es) = some v) :
    val' (.product (es.map f)) = some v ∧ val' (.productOf (es.map f)) = some v := by
  obtain ⟨hes, rfl⟩ := reads.product_eq_some.1 hv
  obtain ⟨hall, hmap⟩ := defined_map hf hes
  rw [← hmap]
  exact ⟨reads'.product_eq_some.2 ⟨hall, rfl⟩, reads'.productOf hall⟩

theorem Reading.pow_map {b p : Expr} (hb : ∀ v, val b = some v → val' (f b) = some v)
    (hp : ∀ v, val p = some v → val' (f p) = some v) (hv : val (.pow b p) = some v) :
    val' (.pow (f b) (f p)) = some v ∧ val' (.powOf (f b) (f p)) = some v := by
  obtain ⟨hdb, hdp, hr, rfl⟩ := reads.pow_eq_some.1 hv
  have hb := hb _ hdb
  have hp := hp _ hdp
  rw [← amountBy_of_eq hb, ← amountBy_of_eq hp] at hr ⊢
  exact ⟨reads'.pow_eq_some.2 ⟨definedBy_of_eq hb, definedBy_of_eq hp, hr, rfl⟩,
    reads'.powOf (definedBy_of_eq hb) (definedBy_of_eq hp) hr⟩

variable {σ : Symbol → Option Expr}

theorem Reading.substitute_sum
    (ih : ∀ e ∈ es, ∀ v, val e = some v → val' (substitute σ e) = some v)
    (hv : val (.sum es) = some v) : val' (substitute σ (.sum es)) = some v := by
  obtain ⟨hraw, hof⟩ := reads.sum_map reads' ih hv
  rcases Expr.substitute_sum es (σ := σ) with ⟨hs, hstay⟩ | hs
  · rw [hs]
    rwa [hstay] at hraw
  · rwa [hs]

theorem Reading.substitute_product
    (ih : ∀ e ∈ es, ∀ v, val e = some v → val' (substitute σ e) = some v)
    (hv : val (.product es) = some v) : val' (substitute σ (.product es)) = some v := by
  obtain ⟨hraw, hof⟩ := reads.product_map reads' ih hv
  rcases Expr.substitute_product es (σ := σ) with ⟨hs, hstay⟩ | hs
  · rw [hs]
    rwa [hstay] at hraw
  · rwa [hs]

theorem Reading.substitute_pow {b p : Expr}
    (ihb : ∀ v, val b = some v → val' (substitute σ b) = some v)
    (ihp : ∀ v, val p = some v → val' (substitute σ p) = some v)
    (hv : val (.pow b p) = some v) : val' (substitute σ (.pow b p)) = some v := by
  obtain ⟨hraw, hof⟩ := reads.pow_map reads' ihb ihp hv
  rcases Expr.substitute_pow b p (σ := σ) with ⟨hs, hb, hp⟩ | hs
  · rw [hs]
    rwa [hb, hp] at hraw
  · rwa [hs]

end Rebuilt

variable {I : Interpretation} {ρ : Symbol → Rat} {σ : Symbol → Option Expr}

/-- The values of the variables, those that are replaced having the values of what replaces them. -/
def valuesAfter (I : Interpretation) (ρ : Symbol → Rat) (σ : Symbol → Option Expr) (s : Symbol) : Rat :=
  (σ s).elim (ρ s) (amount I ρ)

theorem rational?_substitute (hσ : ∀ s d, σ s = some d → Defined I ρ d) {e : Expr} :
    ∀ {v}, rational? I (valuesAfter I ρ σ) e = some v → rational? I ρ (substitute σ e) = some v := by
  have reads := reading_rational I (valuesAfter I ρ σ)
  have reads' := reading_rational I ρ
  induction e with
  | const c => exact fun h => h
  | var s k =>
    intro v h
    rw [substitute_var]
    rw [rational?, valuesAfter] at h
    cases hs : σ s with
    | none =>
      rw [hs] at h
      exact h
    | some d =>
      rw [hs] at h
      exact (hσ s d hs).trans h
  | sum es ih => exact reads.substitute_sum reads' fun e he v => ih e he
  | product es ih => exact reads.substitute_product reads' fun e he v => ih e he
  | pow b p ihb ihp => exact reads.substitute_pow reads' (fun v => ihb) (fun v => ihp)
  | apply f e ih =>
    intro v h
    obtain ⟨x, hx, rfl⟩ := Option.map_eq_some_iff.1 h
    have he := ih hx
    rcases substitute_apply f e (σ := σ) with ⟨hs, hstay⟩ | hs
    · rw [hstay] at he
      rw [hs, rational?, he]
      rfl
    · rw [hs]
      exact rational?_applyOf f he
  | call f ps b es => intro v h; cases h

/-! In the fragment. -/

theorem IntegerPowers.substitute (hσ : ∀ s d, σ s = some d → IntegerPowers d) {e : Expr}
    (he : IntegerPowers e) : IntegerPowers (e.substitute σ) := by
  induction he with
  | const c => exact .const c
  | var s k =>
    rw [substitute_var]
    cases hs : σ s with
    | none => exact .var s k
    | some d => exact hσ s d hs
  | sum h ih =>
    rcases substitute_sum (σ := σ) _ with ⟨hs, -⟩ | hs
    · rw [hs]
      exact .sum h
    · rw [hs]
      exact integerPowers_sumOf (List.forall_mem_map.2 ih)
  | product h ih =>
    rcases substitute_product (σ := σ) _ with ⟨hs, -⟩ | hs
    · rw [hs]
      exact .product h
    · rw [hs]
      exact integerPowers_productOf (List.forall_mem_map.2 ih)
  | pow n h ih =>
    -- the exponent is a constant, in which nothing is replaced
    rcases substitute_pow (σ := σ) _ (Expr.const n) with ⟨hs, -⟩ | hs
    · rw [hs]
      exact .pow n h
    · rw [hs]
      exact integerPowers_powOf ih n
  | apply f h ih =>
    rcases substitute_apply (σ := σ) f _ with ⟨hs, -⟩ | hs
    · rw [hs]
      exact .apply f h
    · rw [hs]
      exact integerPowers_applyOf f ih

/-- The values of the variables, those that are bound having the values of what they are bound to. -/
def boundValues (I : Interpretation) (ρ : Symbol → Rat) (pairs : List (Symbol × Expr))
    (s : Symbol) : Rat :=
  match lookupLast s pairs with
  | some d => value I ρ d
  | none => ρ s

/-- Replacement, all at once, by expressions of the fragment stays in the fragment; it keeps the value
that the expression has where the variables have the values of what they are bound to; and it leaves
the variables that are not bound and those of the expressions put in, which are not looked through
again. -/
theorem substitutePairs_exact {pairs : List (Symbol × Expr)}
    (hpairs : ∀ s d, lookupLast s pairs = some d → IntegerPowers d) {e : Expr}
    (he : IntegerPowers e) :
    IntegerPowers (e.substitutePairs pairs) ∧
      (∀ (I : Interpretation) (ρ : Symbol → Rat) (v : Rat),
        (∀ s d, lookupLast s pairs = some d → ∃ w, exact I ρ d = some w) →
          exact I (boundValues I ρ pairs) e = some v →
            exact I ρ (e.substitutePairs pairs) = some v) ∧
      ∀ s ∈ (e.substitutePairs pairs).vars, s ∈ e.vars ∧ lookupLast s pairs = none ∨
        ∃ t ∈ e.vars, ∃ d, lookupLast t pairs = some d ∧ s ∈ d.vars := by
  have hin : IntegerPowers (e.substitutePairs pairs) := he.substitute hpairs
  refine ⟨hin, fun I ρ v hvalued hv => ?_, fun s hs => mem_vars_substitute hs⟩
  have hdefined : ∀ s d, lookupLast s pairs = some d → Defined I ρ d ∧ amount I ρ d = value I ρ d :=
    fun s d hd => (valued_of_exact (hvalued s d hd).choose_spec).defined
  have hvalues : boundValues I ρ pairs = valuesAfter I ρ fun s => lookupLast s pairs := by
    funext s
    rw [boundValues, valuesAfter]
    split
    · next d hd => rw [hd, Option.elim_some, (hdefined s d hd).2]
    · next hn => rw [hn, Option.elim_none]
  rw [exact_eq_rational? he, hvalues] at hv
  rw [exact_eq_rational? hin]
  exact rational?_substitute (fun s d hd => (hdefined s d hd).1) hv

/-- In `x ^ -2 * y`, of `y + 1` put in for `x` and `x` for `y`: at `x = 4` and `y = 1` the result has
the value that `x ^ -2 * y` has at `x = 2` and `y = 4`. -/
theorem substitutePairs_exact_crossed :
    exact .flat (fun s => if s = ⟨"x"⟩ then 4 else 1)
      ((product [pow (ofName "x") (const (-2)), ofName "y"]).substitutePairs
        [(⟨"x"⟩, sum [const 1, ofName "y"]), (⟨"y"⟩, ofName "x")]) = some 1 := by
  have he : IntegerPowers (product [pow (ofName "x") (const (-2)), ofName "y"]) :=
    .product (Closed.forall_pair (.pow (-2) (.var _ _)) (.var _ _))
  have hin : ∀ s d, lookupLast s [(⟨"x"⟩, sum [const 1, ofName "y"]), (⟨"y"⟩, ofName "x")] = some d →
      d = sum [const 1, ofName "y"] ∨ d = ofName "x" := by
    intro s d hd
    simp only [lookupLast] at hd
    split at hd <;> simp_all
  refine (substitutePairs_exact (fun s d hd => ?_) he).2.1 _ _ _ (fun s d hd => ?_) ?_
  · rcases hin s d hd with rfl | rfl
    · exact .sum (Closed.forall_pair (.const 1) (.var _ _))
    · exact .var _ _
  · rcases hin s d hd with rfl | rfl
    · exact ⟨2, by decide +kernel⟩
    · exact ⟨4, by decide +kernel⟩
  · decide +kernel

end Symbolic.Expr
