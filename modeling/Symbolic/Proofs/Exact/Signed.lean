import Symbolic.Proofs.Exact.Fragment
import Symbolic.Proofs.Expr.Expanded

/-!
Sums, products, integer powers and signs. What is built of these, with calls of functions whose bodies
are built so, is expanded to what is built of these without calls (`SignedCalls.signed_atomic`): the
constructors keep integer powers, and a body keeps them with any arguments in place.
-/

namespace Symbolic.Expr

/-- Built of constants and variables by sums, products, integer powers and signs. -/
inductive Signed : Expr → Prop where
  | const (c : Rat) : Signed (const c)
  | var (s : Symbol) (k : Site) : Signed (var s k)
  | sum {es : List Expr} : (∀ e ∈ es, Signed e) → Signed (sum es)
  | product {es : List Expr} : (∀ e ∈ es, Signed e) → Signed (product es)
  | pow {b : Expr} (n : Int) : Signed b → Signed (pow b (.const n))
  | sign {e : Expr} : Signed e → Signed (apply .sign e)

/-- The same with calls of functions whose bodies are built in this way. -/
inductive SignedCalls : Expr → Prop where
  | const (c : Rat) : SignedCalls (const c)
  | var (s : Symbol) (k : Site) : SignedCalls (var s k)
  | sum {es : List Expr} : (∀ e ∈ es, SignedCalls e) → SignedCalls (sum es)
  | product {es : List Expr} : (∀ e ∈ es, SignedCalls e) → SignedCalls (product es)
  | pow {b : Expr} (n : Int) : SignedCalls b → SignedCalls (pow b (.const n))
  | sign {e : Expr} : SignedCalls e → SignedCalls (apply .sign e)
  | call {f : String} {ps : List Symbol} {b : Expr} {es : List Expr} :
      SignedCalls b → (∀ e ∈ es, SignedCalls e) → SignedCalls (call f ps b es)

theorem integerPowered_signedCalls : IntegerPowered SignedCalls where
  const := .const
  site _ := .var _ _
  sum := ⟨fun h => by cases h; assumption, .sum⟩
  product := ⟨fun h => by cases h; assumption, .product⟩
  pow := by
    intro b p
    constructor
    · intro h
      cases h with
      | pow n hb => exact ⟨hb, n, rfl⟩
    · rintro ⟨hb, n, rfl⟩
      exact .pow n hb
  one := ⟨1, rfl⟩

namespace SignedCalls

variable {e : Expr} {es : List Expr}

theorem sumOf (h : ∀ e ∈ es, SignedCalls e) : SignedCalls (sumOf es) :=
  IntegerPowered.sumOf integerPowered_signedCalls h

theorem productOf (h : ∀ e ∈ es, SignedCalls e) : SignedCalls (productOf es) :=
  IntegerPowered.productOf integerPowered_signedCalls h

theorem powOf {b : Expr} (n : Int) (h : SignedCalls b) : SignedCalls (powOf b (.const n)) :=
  IntegerPowered.powOf integerPowered_signedCalls h n

theorem signOf (h : SignedCalls e) : SignedCalls (applyOf .sign e) := by
  unfold applyOf
  split
  · next hf => cases hf
  · exact .const _
  · exact h
  · next _ hf => exact absurd rfl hf
  · exact .sign h

/-! The bodies of the magnitude, the minimum and the maximum. -/

theorem half : SignedCalls half := powOf (-1) (.const 2)

theorem subtract {a b : Expr} (ha : SignedCalls a) (hb : SignedCalls b) : SignedCalls (subtract a b) :=
  sumOf (Closed.forall_pair ha (productOf (Closed.forall_pair (.const (-1)) hb)))

theorem magnitudeBody {e : Expr} (h : SignedCalls e) : SignedCalls (magnitudeBody e) :=
  productOf (Closed.forall_pair h (signOf h))

theorem spread : SignedCalls spread := magnitudeBody (subtract (.var _ _) (.var _ _))

theorem minimum : SignedCalls minimum.body :=
  productOf (Closed.forall_pair half
    (subtract (sumOf (Closed.forall_pair (.var _ _) (.var _ _))) spread))

theorem maximum : SignedCalls maximum.body :=
  productOf (Closed.forall_pair half
    (sumOf (List.forall_mem_cons.2 ⟨.var _ _, Closed.forall_pair (.var _ _) spread⟩)))

/-! Replacement and expansion. -/

theorem substitute {σ : Symbol → Option Expr} (hσ : ∀ s d, σ s = some d → SignedCalls d)
    (h : SignedCalls e) : SignedCalls (substitute σ e) := by
  induction h with
  | const c => exact .const c
  | var s k =>
    rw [substitute_var]
    cases hs : σ s with
    | none => exact .var s k
    | some d => exact hσ s d hs
  | sum h ih =>
    rcases substitute_sum (σ := σ) _ with ⟨hs, -⟩ | hs
    · rw [hs]
      exact .sum h
    · rw [hs]
      exact sumOf (List.forall_mem_map.2 ih)
  | product h ih =>
    rcases substitute_product (σ := σ) _ with ⟨hs, -⟩ | hs
    · rw [hs]
      exact .product h
    · rw [hs]
      exact productOf (List.forall_mem_map.2 ih)
  | pow n h ih =>
    rcases substitute_pow (σ := σ) _ _ with ⟨hs, -⟩ | hs
    · rw [hs]
      exact .pow n h
    · rw [hs]
      exact powOf n ih
  | sign h ih =>
    rcases substitute_apply (σ := σ) .sign _ with ⟨hs, -⟩ | hs
    · rw [hs]
      exact .sign h
    · rw [hs]
      exact signOf ih
  | call hb _ _ ih =>
    rw [substitute_call]
    exact .call hb (List.forall_mem_map.2 ih)

theorem expandWith {again : Expr → Expr} (ha : ∀ e, SignedCalls e → SignedCalls (again e))
    (h : SignedCalls e) : SignedCalls (expandWith again e) := by
  induction h with
  | const c => exact .const c
  | var s k => exact .var s k
  | sum h ih =>
    rw [Expr.expandWith, expandListWith_eq_map]
    split
    · exact .sum h
    · exact sumOf (List.forall_mem_map.2 ih)
  | product h ih =>
    rw [Expr.expandWith, expandListWith_eq_map]
    split
    · exact .product h
    · exact productOf (List.forall_mem_map.2 ih)
  | pow n h ih =>
    rw [Expr.expandWith]
    split
    · exact .pow n h
    · exact powOf n ih
  | sign h ih =>
    rw [Expr.expandWith]
    split
    · exact .sign h
    · exact signOf ih
  | call hb _ _ ih =>
    rw [Expr.expandWith, expandListWith_eq_map]
    refine copied_of (fun s k _ => .var s k.next) (ha _ (substitute (fun s d hd => ?_) hb))
    exact List.forall_mem_map.2 ih d (List.of_mem_zip (Kept.mem_of_lookupLast hd)).2

theorem expandWithin (k : Nat) (h : SignedCalls e) : SignedCalls (expandWithin k e) := by
  induction k generalizing e with
  | zero => exact h
  | succ k ih => exact expandWith (fun e he => ih he) h

theorem signed (h : SignedCalls e) (hfree : CallFree e) : Signed e := by
  have hops := (callFree_iff.1 hfree).2
  induction h with
  | const c => exact .const c
  | var s k => exact .var s k
  | sum _ ih => exact .sum fun e he => ih e he (hops e he) (callFree_iff.1 (hops e he)).2
  | product _ ih => exact .product fun e he => ih e he (hops e he) (callFree_iff.1 (hops e he)).2
  | pow n _ ih =>
    have hb := hops _ List.mem_cons_self
    exact .pow n (ih hb (callFree_iff.1 hb).2)
  | sign _ ih =>
    have he := hops _ List.mem_cons_self
    exact .sign (ih he (callFree_iff.1 he).2)
  | call => cases (callFree_iff.1 hfree).1

/-- Expanded, nothing is left but sums, products, integer powers and signs. -/
theorem signed_atomic (h : SignedCalls e) : Signed e.atomic := by
  refine signed ?_ (isAtomic_iff_callFree.1 (isAtomic_atomic e))
  rw [atomic_eq_expandWithin]
  exact h.expandWithin _

end SignedCalls

end Symbolic.Expr
