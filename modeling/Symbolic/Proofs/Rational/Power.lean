import Mathlib.Algebra.Order.Ring.Basic
import Mathlib.Algebra.Order.Ring.Cast
import Mathlib.Algebra.Order.Ring.Int
import Mathlib.Algebra.Order.Ring.Rat
import Mathlib.Data.Rat.Lemmas
import Symbolic.Rational.Power

/-!
Exact powers. The bits of a root are settled from the highest down, and the root found so far stays
within the place of its last bit of the true one (`rootBits_spec`). So `natRoot n q` is the root of
degree `q` rounded down, and exact roots are found wherever there are any: of integers
(`exactRoot?_eq_some`), and of rationals, because in lowest terms a power has the powers of
numerator and denominator (`root?_eq_some`).
-/

namespace Symbolic.Rational

variable {n q k r : Nat}

/-! Roots of naturals. -/

/-- While bits are settled, the power of the root found so far is at most `n`, and one more in the
place of the last bit would be too much. -/
theorem rootBits_spec (hle : r ^ q ≤ n) (hlt : n < (r + 2 ^ k) ^ q) :
    rootBits n q k r ^ q ≤ n ∧ n < (rootBits n q k r + 1) ^ q := by
  induction k generalizing r with
  | zero => exact ⟨hle, hlt⟩
  | succ k ih =>
    rw [rootBits, Nat.one_shiftLeft, Nat.pow_eq]
    by_cases hbit : (r + 2 ^ k) ^ q ≤ n
    · rw [if_pos hbit]
      refine ih hbit ?_
      rwa [Nat.add_assoc, ← Nat.two_mul, ← Nat.pow_succ']
    · rw [if_neg hbit]
      exact ih hle (Nat.not_le.1 hbit)

/-- The root is the greatest natural whose power is at most `n`. -/
theorem natRoot_spec (n : Nat) (hq : q ≠ 0) : natRoot n q ^ q ≤ n ∧ n < (natRoot n q + 1) ^ q := by
  refine rootBits_spec ?_ ?_
  · rw [Nat.zero_pow (Nat.pos_of_ne_zero hq)]
    exact Nat.zero_le n
  · have hbits : n.log2 + 1 ≤ (n.log2 / q + 1) * q := by
      have := Nat.lt_div_mul_add (a := n.log2) (Nat.pos_of_ne_zero hq)
      rw [Nat.add_mul, Nat.one_mul]
      omega
    calc n < 2 ^ (n.log2 + 1) := Nat.lt_log2_self
      _ ≤ 2 ^ ((n.log2 / q + 1) * q) := Nat.pow_le_pow_right (by decide) hbits
      _ = (0 + 2 ^ (n.log2 / q + 1)) ^ q := by rw [Nat.zero_add, Nat.pow_mul]

theorem natRoot_pow (r : Nat) (hq : q ≠ 0) : natRoot (r ^ q) q = r := by
  obtain ⟨hle, hlt⟩ := natRoot_spec (r ^ q) hq
  have hle := (Nat.pow_le_pow_iff_left hq).1 hle
  have hlt := (Nat.pow_lt_pow_iff_left hq).1 hlt
  omega

/-! Roots of integers and rationals. -/

/-- The root of a power is its base; of the two bases of even degree it is the one that is not
negative. -/
theorem intRoot_pow {r : Int} (hq : q ≠ 0) (hr : Even q → 0 ≤ r) : intRoot (r ^ q) q = r := by
  have habs : natRoot (r ^ q).natAbs q = r.natAbs := by rw [Int.natAbs_pow, natRoot_pow _ hq]
  rw [intRoot, habs]
  split
  · next hneg =>
    have : r < 0 := not_le.1 fun h => absurd (pow_nonneg h q) (not_le.2 hneg)
    omega
  · next hneg =>
    have : 0 ≤ r := by
      rcases Nat.even_or_odd q with heven | hodd
      · exact hr heven
      · exact hodd.pow_nonneg_iff.1 (not_lt.1 hneg)
    omega

/-- An exact root of an integer is found wherever there is one. -/
theorem exactRoot?_eq_some {z r : Int} (hq : q ≠ 0) :
    exactRoot? z q = some r ↔ r ^ q = z ∧ (Even q → 0 ≤ r) := by
  rw [exactRoot?, Int.pow_eq]
  constructor
  · intro h
    split at h
    · next hz =>
      obtain rfl := Option.some.inj h
      refine ⟨hz, fun heven => ?_⟩
      have hnonneg : 0 ≤ z := hz ▸ heven.pow_nonneg _
      rw [intRoot, if_neg (not_lt.2 hnonneg)]
      exact Int.natCast_nonneg _
    · cases h
  · rintro ⟨rfl, hr⟩
    rw [intRoot_pow hq hr, if_pos rfl]

/-- An exact root of a rational is found wherever there is one. In lowest terms its numerator and
denominator are roots of those of the power. -/
theorem root?_eq_some {b s : Rat} (hq : q ≠ 0) :
    root? b q = some s ↔ s ^ q = b ∧ (Even q → 0 ≤ s) := by
  rw [root?]
  split
  · next h1 =>
    subst h1
    rw [pow_one, Option.some_inj, eq_comm, and_iff_left (fun h => absurd h (by decide))]
  split
  · next hneg =>
    rw [Bool.and_eq_true, decide_eq_true_eq, beq_iff_eq, Rat.num_neg] at hneg
    refine iff_of_false (by simp) fun ⟨hs, _⟩ => not_le.2 hneg.1 ?_
    exact hs ▸ (Nat.even_iff.2 hneg.2).pow_nonneg s
  · constructor
    · intro h
      obtain ⟨n, hn, h⟩ := Option.bind_eq_some_iff.1 h
      obtain ⟨d, hd, h⟩ := Option.bind_eq_some_iff.1 h
      obtain ⟨hn, hn0⟩ := (exactRoot?_eq_some hq).1 hn
      obtain ⟨hd, hd0⟩ := (exactRoot?_eq_some hq).1 hd
      obtain rfl := Option.some.inj h
      rw [Rat.divInt_eq_div]
      refine ⟨?_, fun heven => ?_⟩
      · calc ((n : Rat) / d) ^ q = ((n ^ q : Int) : Rat) / ((d ^ q : Int) : Rat) := by
              rw [div_pow, Int.cast_pow, Int.cast_pow]
          _ = b := by rw [hn, hd, Int.cast_natCast, Rat.num_div_den]
      · exact div_nonneg (Int.cast_nonneg (hn0 heven)) (Int.cast_nonneg (hd0 heven))
    · rintro ⟨rfl, hs⟩
      have hn : exactRoot? (s ^ q).num q = some s.num :=
        (exactRoot?_eq_some hq).2 ⟨(Rat.num_pow s q).symm, fun h => Rat.num_nonneg.2 (hs h)⟩
      have hd : exactRoot? (s ^ q).den q = some (s.den : Int) := by
        refine (exactRoot?_eq_some hq).2 ⟨?_, fun _ => Int.natCast_nonneg _⟩
        rw [Rat.den_pow, Nat.cast_pow]
      rw [hn, hd]
      exact congrArg some (Rat.num_divInt_den s)

/-! Powers. -/

/-- A power is exact if the exponent is small and some root of the base, not negative where the
degree is even, is rational; zero has positive powers only. The result is the power of the root to
the numerator of the exponent. -/
theorem exactPower?_eq_some_iff (b p v : Rat) :
    exactPower? b p = some v ↔
      p.den ≤ maxDegree ∧ p.num.natAbs ≤ maxPower ∧ (b ≠ 0 ∨ 0 < p.num) ∧
        ∃ s : Rat, s ^ p.den = b ∧ (Even p.den → 0 ≤ s) ∧ v = s ^ p.num := by
  have hden : p.den ≠ 0 := p.den_ne_zero
  rw [exactPower?]
  split
  · next hlarge =>
    rw [Bool.or_eq_true, decide_eq_true_eq, decide_eq_true_eq] at hlarge
    refine iff_of_false (by simp) fun ⟨hd, hp, _⟩ => ?_
    omega
  next hsmall =>
  rw [Bool.or_eq_true, decide_eq_true_eq, decide_eq_true_eq, not_or, Nat.not_lt, Nat.not_lt]
    at hsmall
  rw [and_iff_right hsmall.1, and_iff_right hsmall.2]
  split
  · next hb =>
    -- zero is its own root
    have hroot {s : Rat} (hs : s ^ p.den = b) : s = 0 := by
      rwa [hb, pow_eq_zero_iff hden] at hs
    split
    · next hpos =>
      have hzero : (0 : Rat) ^ p.num = 0 := zero_zpow _ (by omega)
      constructor
      · intro h
        obtain rfl := Option.some.inj h
        exact ⟨.inr hpos, 0, by rw [hb, zero_pow hden], fun _ => le_rfl, hzero.symm⟩
      · rintro ⟨-, s, hs, -, rfl⟩
        rw [hroot hs, hzero]
    · next hpos =>
      exact iff_of_false (by simp) fun ⟨h, _⟩ => h.elim (fun h => h hb) hpos
  · next hb =>
    rw [and_iff_right (.inl hb), Option.map_eq_some_iff]
    constructor
    · rintro ⟨s, hs, rfl⟩
      obtain ⟨hs, hs0⟩ := (root?_eq_some hden).1 hs
      exact ⟨s, hs, hs0, rfl⟩
    · rintro ⟨s, hs, hs0, rfl⟩
      exact ⟨s, (root?_eq_some hden).2 ⟨hs, hs0⟩, rfl⟩

end Symbolic.Rational
