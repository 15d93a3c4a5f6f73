import Symbolic.Proofs.Canonical.Power
import Symbolic.Proofs.Canonical.Product
import Symbolic.Proofs.Canonical.Sum

/-!
The constructors give canonical expressions when they are given such, and they do come to an end.
The bodies do so over constructors that do with one step less, so the constructors do by induction
on the steps (`constructorsWithin_suffice`), and the steps that they are given are enough.
-/

namespace Symbolic.Expr

/-- The constructors give canonical expressions, within the steps that the masses ask for. -/
theorem constructorsWithin_suffice (n : Nat) :
    SumsWithin n (sumWithin n) ∧ MultipliesWithin n (productWithin n) ∧
      RaisesWithin n (powWithin n) := by
  induction n with
  | zero =>
    -- every list and every base asks for a step at least
    refine ⟨fun ts _ h => absurd h (by omega), fun fs _ h => absurd h (by omega), ?_⟩
    intro b p _ _ h
    have := (spreadSteps_le b).1
    omega
  | succ n ih =>
    obtain ⟨hs, hp, hw⟩ := ih
    exact ⟨sumsWithin_sumBody hp hs, multipliesWithin_productBody hs hp hw, raisesWithin_powBody hp hw⟩

/-! The constructors. -/

/-- The steps that are taken are enough. -/
theorem lt_steps (w : Nat) : 16 * w + 64 ≤ steps w := by
  rw [steps]
  have : 4 * 4 * (w + 4) ≤ (w + 4) * (w + 4) * (w + 4) :=
    Nat.mul_le_mul_right _ (Nat.mul_le_mul (Nat.le_add_left 4 w) (Nat.le_add_left 4 w))
  omega

theorem sumOf_spec {ts : List Expr} (h : ∀ t ∈ ts, Canonical t) : SumSpec ts (sumOf ts) := by
  have hm := masses_le_weights ts
  have hw := lt_steps (weights ts)
  obtain ⟨e, he, hs⟩ := (constructorsWithin_suffice (steps (weights ts))).1 ts h (by omega)
  rw [sumOf_eq, he]
  exact hs

theorem productOf_spec {fs : List Expr} (h : ∀ f ∈ fs, Canonical f) :
    ProductSpec fs (productOf fs) := by
  have hm := masses_le_weights fs
  have hw := lt_steps (weights fs)
  obtain ⟨e, he, hs⟩ := (constructorsWithin_suffice (steps (weights fs))).2.1 fs h (by omega)
  rw [productOf_eq, he]
  exact hs

theorem powOf_spec {b p : Expr} (hb : Canonical b) (hp : Canonical p) : PowSpec b p (powOf b p) := by
  have hm := (mass_le_weight b).1
  have hs := (spreadSteps_le b).2
  have hw := lt_steps (weight b + weight p)
  obtain ⟨e, he, hspec⟩ :=
    (constructorsWithin_suffice (steps (weight b + weight p))).2.2 b p hb hp (by omega)
  rw [powOf_eq, he]
  exact hspec

end Symbolic.Expr
