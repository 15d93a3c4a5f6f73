import Symbolic.Proofs.Exact.Fragment
import Symbolic.Proofs.Exact.Power
import Symbolic.Proofs.Exact.Product
import Symbolic.Proofs.Exact.Rational
import Symbolic.Proofs.Exact.Sum

/-!
The constructors keep values. Each body does, over constructors that do; so they do within any number
of steps (`Reading.within`), and a node that is left as it is has the value by definition. They also
stay in the fragment, where the value is the exact one (`constructors_exact`).
-/

namespace Symbolic.Expr

section Reading

variable {val : Expr → Option Rat} (reads : Reading val)
include reads

/-- Within any number of steps the constructors keep values. -/
theorem Reading.within (n : Nat) :
    AddsUp val (sumWithin n) ∧ Multiplies val (productWithin n) ∧ Raises val (powWithin n) := by
  induction n with
  | zero =>
    refine ⟨?_, ?_, ?_⟩
    · intro ts e _ he
      cases he
    · intro fs e _ he
      cases he
    · intro b p e _ _ _ he
      cases he
  | succ n ih =>
    obtain ⟨hs, hp, hw⟩ := ih
    exact ⟨sumBody_addsUp reads hp hs, productBody_multiplies reads hs hp hw,
      powBody_raises reads hp hw⟩

theorem Reading.sumOf {ts : List Expr} (h : ∀ t ∈ ts, DefinedBy val t) :
    val (sumOf ts) = some (ts.map (amountBy val)).sum := by
  rw [sumOf_eq]
  cases hs : sumWithin (steps (weights ts)) ts with
  | some e => exact (reads.within _).1 ts e h hs
  | none => exact reads.sum_eq_some.2 ⟨h, rfl⟩

theorem Reading.productOf {fs : List Expr} (h : ∀ f ∈ fs, DefinedBy val f) :
    val (productOf fs) = some (fs.map (amountBy val)).prod := by
  rw [productOf_eq]
  cases hs : productWithin (steps (weights fs)) fs with
  | some e => exact (reads.within _).2.1 fs e h hs
  | none => exact reads.product_eq_some.2 ⟨h, rfl⟩

theorem Reading.powOf {b p : Expr} (hb : DefinedBy val b) (hp : DefinedBy val p)
    (hr : Raisable (amountBy val b) (amountBy val p)) :
    val (powOf b p) = some (amountBy val b ^ (amountBy val p).num) := by
  rw [powOf_eq]
  cases hs : powWithin (steps (weight b + weight p)) b p with
  | some e => exact (reads.within _).2.2 b p e hb hp hr hs
  | none => exact reads.pow_eq_some.2 ⟨hb, hp, hr, rfl⟩

end Reading

variable {I : Interpretation} {ρ : Symbol → Rat}

theorem rational?_sumOf {ts : List Expr} (h : ∀ t ∈ ts, Defined I ρ t) :
    rational? I ρ (sumOf ts) = some (ts.map (amount I ρ)).sum :=
  (reading_rational I ρ).sumOf h

theorem rational?_productOf {fs : List Expr} (h : ∀ f ∈ fs, Defined I ρ f) :
    rational? I ρ (productOf fs) = some (fs.map (amount I ρ)).prod :=
  (reading_rational I ρ).productOf h

theorem rational?_powOf {b p : Expr} (hb : Defined I ρ b) (hp : Defined I ρ p)
    (hr : Raisable (amount I ρ b) (amount I ρ p)) :
    rational? I ρ (powOf b p) = some (amount I ρ b ^ (amount I ρ p).num) :=
  (reading_rational I ρ).powOf hb hp hr

theorem signum_eq (x : Rat) :
    Rational.signum x = if 0 < x then 1 else if x < 0 then -1 else 0 := by
  rw [Rational.signum]
  rcases lt_trichotomy x 0 with h | h | h
  · rw [if_pos (Rat.num_neg.2 h), if_neg h.not_gt, if_pos h]
  · simp [h]
  · rw [if_neg (Rat.num_pos.2 h).not_gt, if_neg (Rat.num_pos.2 h).ne', if_pos h]

theorem signum_signum (x : Rat) : Rational.signum (Rational.signum x) = Rational.signum x := by
  simp only [Rational.signum]
  split
  · rfl
  · split <;> rfl

theorem value_sign (x : Rat) : I.value .sign x = Rational.signum x := by
  rw [I.sign_eq, signum_eq]

/-- An application has the value that the primitive is read to have. -/
theorem rational?_applyOf (f : Primitive) {e : Expr} {v : Rat} (h : rational? I ρ e = some v) :
    rational? I ρ (applyOf f e) = some (I.value f v) := by
  have happly : rational? I ρ (apply f e) = some (I.value f v) := by
    rw [rational?, h]
    rfl
  unfold applyOf
  split
  · next c =>
    cases h
    split
    · next h1 => rw [h1, I.ln_one, rational?]
    · exact happly
  · next c =>
    cases h
    rw [rational?, value_sign]
  · next e =>
    obtain ⟨x, hx, rfl⟩ := Option.map_eq_some_iff.1 h
    rw [rational?, hx, Option.map_some, value_sign, value_sign, signum_signum]
  · next c hln hsign =>
    cases h
    split
    · next h0 =>
      subst h0
      cases f with
      | ln => exact (hln rfl).elim
      | sign => exact (hsign rfl).elim
      | sin => rw [I.sin_zero, rational?]
      | arcsin => rw [I.arcsin_zero, rational?]
      | arctan => rw [I.arctan_zero, rational?]
    · exact happly
  · exact happly

/-! On the fragment these are the exact values. -/

theorem map_amount_of_valued {es : List Expr} (h : ∀ e ∈ es, Valued I ρ e) :
    es.map (amount I ρ) = es.map (value I ρ) :=
  List.map_congr_left fun e he => (h e he).defined.2

theorem sumOf_exact {ts : List Expr} (h : ∀ t ∈ ts, Valued I ρ t) :
    exact I ρ (sumOf ts) = some (ts.map (value I ρ)).sum := by
  rw [exact_eq_rational? (integerPowers_sumOf fun t ht => integerPowers_of_exact (h t ht)),
    rational?_sumOf fun t ht => (h t ht).defined.1, map_amount_of_valued h]

theorem productOf_exact {fs : List Expr} (h : ∀ f ∈ fs, Valued I ρ f) :
    exact I ρ (productOf fs) = some (fs.map (value I ρ)).prod := by
  rw [exact_eq_rational? (integerPowers_productOf fun f hf => integerPowers_of_exact (h f hf)),
    rational?_productOf fun f hf => (h f hf).defined.1, map_amount_of_valued h]

theorem powOf_exact {b : Expr} {c : Rat} (hb : Valued I ρ b) (hc : c.den = 1)
    (hd : value I ρ b ≠ 0 ∨ 0 ≤ c.num) :
    exact I ρ (powOf b (const c)) = some (value I ρ b ^ c.num) := by
  have hraise : Raisable (amount I ρ b) (amount I ρ (const c)) := by
    rw [hb.defined.2]
    exact ⟨hc, hd⟩
  have hint : IntegerPowers (powOf b (const c)) := by
    rw [← (Rat.den_eq_one_iff c).1 hc]
    exact integerPowers_powOf (integerPowers_of_exact hb) c.num
  rw [exact_eq_rational? hint, rational?_powOf hb.defined.1 (defined_const c) hraise, hb.defined.2,
    amount_const]

theorem applyOf_exact (f : Primitive) {e : Expr} {v : Rat} (h : exact I ρ e = some v) :
    exact I ρ (applyOf f e) = some (I.value f v) := by
  have hint := integerPowers_of_exact (valued_of_exact h)
  rw [exact_eq_rational? hint] at h
  rw [exact_eq_rational? (integerPowers_applyOf f hint), rational?_applyOf f h]

/-- The constructors keep exact values: on expressions of the fragment that have values, sums,
products, integer powers where they are defined, and applications stay in the fragment and have the
value of the operation. -/
theorem constructors_exact (I : Interpretation) (ρ : Symbol → Rat) :
    (∀ es vs, (∀ e ∈ es, IntegerPowers e) → exactAll I ρ es = some vs →
      IntegerPowers (sumOf es) ∧ exact I ρ (sumOf es) = some vs.sum ∧
        IntegerPowers (productOf es) ∧ exact I ρ (productOf es) = some vs.prod) ∧
    (∀ e v, ∀ n : Int, IntegerPowers e → exact I ρ e = some v → v ≠ 0 ∨ 0 ≤ n →
      IntegerPowers (powOf e (const n)) ∧ exact I ρ (powOf e (const n)) = some (v ^ n)) ∧
    (∀ f e v, IntegerPowers e → exact I ρ e = some v →
      IntegerPowers (applyOf f e) ∧ exact I ρ (applyOf f e) = some (I.value f v)) := by
  refine ⟨?_, ?_, ?_⟩
  · intro es vs _ hvs
    obtain ⟨hes, rfl⟩ := exactAll_eq_some.1 hvs
    have hs := sumOf_exact hes
    have hp := productOf_exact hes
    exact ⟨integerPowers_of_exact (valued_of_exact hs), hs,
      integerPowers_of_exact (valued_of_exact hp), hp⟩
  · intro e v n _ he hd
    have hv := value_of_exact he
    have hw := powOf_exact (c := n) (valued_of_exact he) (Rat.den_intCast n)
      (by rwa [hv, Rat.num_intCast])
    rw [hv, Rat.num_intCast] at hw
    exact ⟨integerPowers_of_exact (valued_of_exact hw), hw⟩
  · intro f e v _ he
    have ha := applyOf_exact f he
    exact ⟨integerPowers_of_exact (valued_of_exact ha), ha⟩

/-- At one half, the variable, its power to -2, and the sum and the product of the two. -/
theorem constructors_exact_half :
    exact .flat (fun _ => 1 / 2) (sumOf [var ⟨"x"⟩ 0, pow (var ⟨"x"⟩ 0) (const (-2))]) =
        some ([1 / 2, 4] : List Rat).sum ∧
      exact .flat (fun _ => 1 / 2) (powOf (var ⟨"x"⟩ 0) (const (-2 : Int))) =
        some ((1 / 2 : Rat) ^ (-2 : Int)) ∧
      exact .flat (fun _ => 1 / 2) (applyOf .sign (var ⟨"x"⟩ 0)) =
        some (Interpretation.flat.value .sign (1 / 2)) := by
  obtain ⟨hlist, hpow, happly⟩ := constructors_exact .flat fun _ => 1 / 2
  have hx : IntegerPowers (var ⟨"x"⟩ 0) := .var _ _
  have hes : ∀ e ∈ [var ⟨"x"⟩ 0, pow (var ⟨"x"⟩ 0) (const (-2))], IntegerPowers e := by
    intro e he
    rcases List.mem_pair.1 he with rfl | rfl
    · exact hx
    · exact .pow (-2) hx
  refine ⟨(hlist _ _ hes ?_).2.1, (hpow _ _ _ hx rfl (.inl (by decide +kernel))).2,
    (happly _ _ _ hx rfl).2⟩
  decide +kernel

end Symbolic.Expr
