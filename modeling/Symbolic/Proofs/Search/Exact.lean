import Mathlib.Tactic.Ring
import Symbolic.Proofs.Exact.Rewriting
import Symbolic.Proofs.Search.Invariant

/-!
A search by true rules finds expressions of one value. The rules are said to be true of exact values.
A rule whose pattern is a constant may rewrite an exponent, so that what is found leaves the fragment
and has no exact value (`not_members_exact`). It has a rational value still, where a power has one as
soon as its exponent has an integer value, and that is the value of the start (`members_exact`).
-/

namespace Symbolic

open Symbolic.Expr

variable {I : Interpretation}

/-- Both sides are in the fragment, and wherever the pattern has a value the replacement has the
same. -/
structure Rule.Valid (I : Interpretation) (r : Rule) : Prop where
  pattern : IntegerPowers r.pattern.expr
  replacement : IntegerPowers r.replacement
  exact : ∀ ρ v, Expr.exact I ρ r.pattern.expr = some v → Expr.exact I ρ r.replacement = some v

theorem Rule.Valid.keeps {r : Rule} (h : r.Valid I) : r.Keeps I := by
  intro ρ v hv
  rw [← exact_eq_rational? h.pattern] at hv
  rw [← exact_eq_rational? h.replacement]
  exact h.exact ρ v hv

namespace Search

theorem rules_of_not_useDefinitions {s : Search} (hs : s.useDefinitions = false) (es : List Expr) :
    s.rules es = s.identities.flatMap Identity.rules := by
  rw [rules, hs, if_neg Bool.false_ne_true, List.append_nil]

/-- Searching by valid rules, to any depth and in either order, leads from an expression of the
fragment to expressions that have the same value wherever it has one; so has the simplest. -/
theorem members_exact {s : Search} (hs : s.useDefinitions = false)
    (hr : ∀ i ∈ s.identities, ∀ r ∈ i.rules, r.Valid I) {e : Expr} (he : IntegerPowers e)
    {ρ : Symbol → Rat} {v : Rat} (hv : exact I ρ e = some v) :
    (∀ d ∈ s.members e, rational? I ρ d = some v ∧ (IntegerPowers d → exact I ρ d = some v)) ∧
      rational? I ρ (s.simplest e) = some v ∧
        (IntegerPowers (s.simplest e) → exact I ρ (s.simplest e) = some v) := by
  have hrules : ∀ r ∈ s.rules [e], ∀ e, rational? I ρ e = some v →
      ∀ d ∈ r.apply e, rational? I ρ d = some v := by
    intro r hmem e he
    rw [rules_of_not_useDefinitions hs] at hmem
    obtain ⟨i, hi, hmem⟩ := List.mem_flatMap.1 hmem
    exact Rule.rational?_of_mem_apply (hr i hi r hmem).keeps he
  rw [exact_eq_rational? he] at hv
  have hmembers := forall_mem_members hrules hv
  have hsimplest : rational? I ρ (s.simplest e) = some v := simplestBy_holds size hrules hv
  refine ⟨fun d hd => ⟨hmembers d hd, fun hi => ?_⟩, hsimplest, fun hi => ?_⟩
  · rw [exact_eq_rational? hi]
    exact hmembers d hd
  · rw [exact_eq_rational? hi]
    exact hsimplest

/-- The number 2 and the sum of 1 and the sign of 2^65, a power too large to be folded. -/
def twoAndSum : Identity :=
  let two := const 2
  let sum := .sum [.const 1, .apply .sign (.pow (.const 2) (.const 65))]
  ⟨⟨.ofExpr two, sum⟩, ⟨.ofExpr sum, two⟩⟩

theorem twoAndSum_valid : ∀ r ∈ twoAndSum.rules, r.Valid I := by
  have hpower : IntegerPowers (.pow (.const 2) (.const 65)) := .pow 65 (.const 2)
  have hsum : IntegerPowers (.sum [.const 1, .apply .sign (.pow (.const 2) (.const 65))]) :=
    .sum (Closed.forall_pair (.const 1) (.apply .sign hpower))
  have hvalue (ρ : Symbol → Rat) :
      exact I ρ (.sum [.const 1, .apply .sign (.pow (.const 2) (.const 65))]) = some 2 := by
    have hexact : exact I ρ (.pow (.const 2) (.const 65)) = some (2 ^ 65) :=
      exact_pow_eq_some.2 ⟨65, rfl, rfl, rfl, .inr (by decide), rfl⟩
    have hsign : I.value .sign (2 ^ 65) = 1 := by
      rw [I.sign_eq, if_pos (by decide +kernel)]
    have hone : exact I ρ (.apply .sign (.pow (.const 2) (.const 65))) = some 1 := by
      rw [exact, hexact, Option.map_some, hsign]
    rw [exact, exactAll, exactAll, exactAll, hone, exact]
    decide +kernel
  intro r hr
  rcases List.mem_pair.1 (List.mem_of_mem_filter hr) with rfl | rfl
  · exact ⟨.const 2, hsum, fun ρ v hv => (hvalue ρ).trans hv⟩
  · exact ⟨hsum, .const 2, fun ρ v hv => (hvalue ρ).symm.trans hv⟩

/-- Not all that valid rules lead to has an exact value: one step from `x^2` is `x^(1 + sign(2^65))`. -/
theorem not_members_exact :
    ¬ ∀ (I : Interpretation) (s : Search), s.useDefinitions = false →
      (∀ i ∈ s.identities, ∀ r ∈ i.rules, r.Valid I) → ∀ e, IntegerPowers e →
      ∀ (ρ : Symbol → Rat) (v : Rat), exact I ρ e = some v →
        ∀ d ∈ s.members e, exact I ρ d = some v := by
  intro h
  have hnone : ((members ⟨some 1, .wide, [twoAndSum], false⟩
      (.pow (ofName "x") (.const 2))).any fun d => (exact .flat (fun _ => 3) d).isNone) = true := by
    decide +kernel
  obtain ⟨d, hd, hnone⟩ := List.any_eq_true.1 hnone
  have hsquare : exact .flat (fun _ => 3) (.pow (ofName "x") (.const 2)) = some 9 := by
    decide +kernel
  have hsome := h .flat ⟨some 1, .wide, [twoAndSum], false⟩ rfl
    (List.forall_mem_singleton.2 twoAndSum_valid) _ (.pow 2 (.var _ _)) _ 9 hsquare d hd
  rw [hsome] at hnone
  cases hnone

/-- Multiplication of a sum term by term, `a * (b + c)` on the left. -/
def distributivity : Identity :=
  let factored := .product [ofName "a", .sum [ofName "b", ofName "c"]]
  let expanded := .sum [.product [ofName "a", ofName "b"], .product [ofName "a", ofName "c"]]
  ⟨⟨.ofExpr factored, expanded⟩, ⟨.ofExpr expanded, factored⟩⟩

theorem distributivity_valid : ∀ r ∈ distributivity.rules, r.Valid I := by
  have hvar (s : String) : IntegerPowers (ofName s) := .var _ _
  have hfactored : IntegerPowers (.product [ofName "a", .sum [ofName "b", ofName "c"]]) :=
    .product (Closed.forall_pair (hvar _) (.sum (Closed.forall_pair (hvar _) (hvar _))))
  have hexpanded : IntegerPowers
      (.sum [.product [ofName "a", ofName "b"], .product [ofName "a", ofName "c"]]) :=
    .sum (Closed.forall_pair (.product (Closed.forall_pair (hvar _) (hvar _)))
      (.product (Closed.forall_pair (hvar _) (hvar _))))
  have heq (ρ : Symbol → Rat) :
      exact I ρ (.product [ofName "a", .sum [ofName "b", ofName "c"]]) =
        exact I ρ (.sum [.product [ofName "a", ofName "b"], .product [ofName "a", ofName "c"]]) := by
    simp only [ofName, exact, exactAll, Option.map_some, Option.bind_some, List.sum_cons,
      List.prod_cons, List.sum_nil, List.prod_nil, Option.some.injEq]
    ring
  intro r hr
  rcases List.mem_pair.1 (List.mem_of_mem_filter hr) with rfl | rfl
  · exact ⟨hfactored, hexpanded, fun ρ v hv => (heq ρ).symm.trans hv⟩
  · exact ⟨hexpanded, hfactored, fun ρ v hv => (heq ρ).trans hv⟩

/-- Three steps deep by distributivity, all that is found from `x * (y + 1)` has its value, and so
has the simplest. -/
theorem members_exact_distributivity :
    (∀ d ∈ members ⟨some 3, .deep, [distributivity], false⟩
        (.product [ofName "x", .sum [ofName "y", .const 1]]),
      rational? .flat (fun _ => 2) d = some 6) ∧
      rational? .flat (fun _ => 2) (simplest ⟨some 3, .deep, [distributivity], false⟩
        (.product [ofName "x", .sum [ofName "y", .const 1]])) = some 6 := by
  have he : IntegerPowers (.product [ofName "x", .sum [ofName "y", .const 1]]) :=
    .product (Closed.forall_pair (.var _ _) (.sum (Closed.forall_pair (.var _ _) (.const 1))))
  have hv : exact .flat (fun _ => 2) (.product [ofName "x", .sum [ofName "y", .const 1]]) =
      some 6 := by
    decide +kernel
  have hr : ∀ i ∈ [distributivity], ∀ r ∈ i.rules, r.Valid .flat :=
    List.forall_mem_singleton.2 distributivity_valid
  obtain ⟨hmembers, hsimplest, -⟩ := members_exact (s := ⟨some 3, .deep, [distributivity], false⟩)
    rfl hr he hv
  exact ⟨fun d hd => (hmembers d hd).1, hsimplest⟩

end Search

end Symbolic
