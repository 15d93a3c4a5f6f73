import Symbolic.Proofs.Canonical.Steps

/-!
The power of canonical expressions, over products and powers that do with one step less. An integer
power goes into the base of a power (`exists_nestedPow_spec`) and into the factors of a product
(`exists_spreadPow_spec`); any other power stands as it is (`powSpec_barePow`).
-/

namespace Symbolic.Expr

theorem barePow_spec {b p : Expr} (hb : Canonical b) (hp : Canonical p)
    (hs : b ≠ const 1 → PowShape b p) :
    Canonical (barePow b p) ∧ mass (barePow b p) ≤ mass b + mass p + 2 := by
  unfold barePow
  split
  · split
    · exact ⟨.const 1, by rw [mass]; omega⟩
    · next c h1 => exact ⟨.pow (hs fun h => h1 (const.inj h)) hb hp, Nat.le_refl _⟩
  · next h =>
    refine ⟨.pow (hs ?_) hb hp, Nat.le_refl _⟩
    rintro rfl
    exact h 1 rfl

theorem spreadSteps_le_of_not_product {b : Expr} (hb : Canonical b) (h : b.isProduct = false) :
    spreadSteps b ≤ 4 * mass b := by
  have := hb.one_le_mass
  unfold spreadSteps
  split
  · cases h
  · omega
  · omega

theorem spreadMass_le {b : Expr} (hb : Canonical b) : spreadMass b ≤ 2 * mass b + 2 := by
  have := hb.one_le_mass
  unfold spreadMass
  split
  · rw [mass]
  · split <;> omega
  · omega

theorem spreadMass_atom {b : Expr} (hpow : b.isPow = false) (hprod : b.isProduct = false) :
    spreadMass b = mass b + 3 := by
  cases b with
  | pow _ _ => cases hpow
  | product _ => cases hprod
  | _ => rfl

theorem powSpec_barePow {b p : Expr} (hb : Canonical b) (hp : Canonical p)
    (hs : b ≠ const 1 → PowShape b p) : PowSpec b p (barePow b p) := by
  obtain ⟨hc, hm⟩ := barePow_spec hb hp hs
  refine ⟨hc, ?_, fun _ => hm⟩
  rintro ⟨c, rfl, hden⟩
  by_cases h1 : b = const 1
  · subst h1
    exact Nat.le_trans (by simp [barePow, mass]) (mass_le_spreadMass _)
  · obtain ⟨hpow, hprod⟩ := (hs h1).not_spread c rfl hden
    rw [spreadMass_atom hpow hprod]
    rw [mass] at hm
    omega

variable {n : Nat} {product : List Expr → Option Expr} {again : Expr → Expr → Option Expr} {c : Rat}

/-- An integer power of a power multiplies the exponents. -/
theorem exists_nestedPow_spec (hp : MultipliesWithin n product) (ha : RaisesWithin n again)
    {b q : Expr} (hb : Canonical b) (hq : Canonical q) (hc : c.den = 1)
    (hn : 4 * mass (pow b q) ≤ n + 1) :
    ∃ e, (product [q, const c] >>= again b) = some e ∧ PowSpec (pow b q) (const c) e := by
  have hmass : mass (pow b q) = mass b + mass q + 2 := rfl
  have hlist : masses [q, const c] = mass q + 1 := rfl
  have hb1 := hb.one_le_mass
  have hq1 := hq.one_le_mass
  have hbm := spreadMass_le hb
  have hsteps := (spreadSteps_le b).2
  have hcanon : ∀ e ∈ [q, const c], Canonical e := by
    intro e he
    rcases List.mem_pair.1 he with rfl | rfl
    · exact hq
    · exact .const c
  obtain ⟨q', hq', hqs⟩ := hp [q, const c] hcanon (by omega)
  obtain ⟨e, he, hes⟩ := ha b q' hb hqs.canonical (by omega)
  refine ⟨e, by rw [hq']; exact he, hes.canonical, fun _ => ?_, fun h => absurd ⟨c, rfl, hc⟩ h⟩
  have hqm := hqs.mass_le
  simp only [spreadMass, hmass]
  by_cases hi : IsInteger q'
  · -- the new exponent may be spread again, over the base of the base
    have hle := hes.mass_le_spread hi
    split
    · next hconst =>
      obtain ⟨x, rfl⟩ := isConst_eq_true.1 hconst
      have hx : spreadMass (const x) = 4 := rfl
      omega
    · omega
  · have hle := hes.mass_le hi
    split <;> omega

/-- An integer power of a product is spread over the factors. -/
theorem exists_spreadPow_spec (hp : MultipliesWithin n product) (ha : RaisesWithin n again)
    {fs : List Expr} (hs : ProductShape fs) (hfs : ∀ f ∈ fs, Canonical f) (hc : c.den = 1)
    (hn : 4 * masses fs + 6 ≤ n + 1) :
    ∃ e, (fs.mapM (fun f => again f (const c)) >>= product) = some e ∧
      PowSpec (.product fs) (const c) e := by
  have hint : IsInteger (const c) := ⟨c, rfl, hc⟩
  have heach : ∀ f ∈ fs, ∃ e, again f (const c) = some e ∧ PowSpec f (const c) e := by
    intro f hf
    have hm := mass_le_masses hf
    have hsteps := spreadSteps_le_of_not_product (hfs f hf) (hs.opened f hf)
    exact ha f (const c) (hfs f hf) (.const c) (by omega)
  obtain ⟨es, hes, hspec⟩ := exists_mapM heach
  have hcanon : ∀ e ∈ es, Canonical e := by
    intro e he
    obtain ⟨f, _, h⟩ := exists_of_forall₂_mem hspec e he
    exact h.canonical
  have hm : masses es ≤ 2 * masses fs + 2 := by
    rw [masses_eq_sum]
    calc
      (es.map mass).sum ≤ (fs.map spreadMass).sum :=
        sum_le_of_forall₂ hspec fun _ _ h => h.mass_le_spread hint
      _ ≤ 2 * masses fs + 2 := sum_spreadMass_le hs hfs
  obtain ⟨e, he, hprod⟩ := hp es hcanon (by omega)
  refine ⟨e, by rw [hes]; exact he, hprod.canonical, fun _ => ?_, fun h => absurd hint h⟩
  have hle := hprod.mass_le
  simp only [spreadMass]
  omega

theorem raisesWithin_powBody (hp : MultipliesWithin n product) (ha : RaisesWithin n again) :
    RaisesWithin (n + 1) (powBody product again) := by
  intro b p hb hpc hn
  cases p with
  | const c =>
    have hb1 := hb.one_le_mass
    have hbs := mass_le_spreadMass b
    have hlight (e : Expr) (he : Canonical e) (hm : mass e ≤ mass b) : PowSpec b (const c) e :=
      ⟨he, fun _ => by omega, fun _ => by omega⟩
    simp only [powBody]
    split
    · exact ⟨_, rfl, hlight _ (.const 1) hb1⟩
    next h0 =>
    split
    · exact ⟨_, rfl, hlight _ hb.copied (mass_copied b).le⟩
    next h1 =>
    split
    · next v _ => exact ⟨_, rfl, hlight _ (.const v) hb1⟩
    next hf =>
    -- the power does not fold; whether it stands depends on the base
    have hshape (hs : c.den = 1 → b.isPow = false ∧ b.isProduct = false) (hb1 : b ≠ const 1) :
        PowShape b (const c) := by
      refine ⟨fun h => h0 (const.inj h), fun h => h1 (const.inj h), hb1, ?_, ?_⟩
      · rintro d ⟨⟩ hd
        exact hs hd
      · rintro x d rfl ⟨⟩
        simp only [foldedPower?] at hf
        split at hf
        · cases hf
        · next hz => exact ⟨by simpa using hz, hf⟩
    split
    · next hden =>
      cases b with
      | pow b q =>
        cases hb with
        | pow _ hb hq => exact exists_nestedPow_spec hp ha hb hq hden hn
      | product fs =>
        cases hb with
        | product hs hfs => exact exists_spreadPow_spec hp ha hs hfs hden hn
      | _ => exact ⟨_, rfl, powSpec_barePow hb hpc (hshape fun _ => ⟨rfl, rfl⟩)⟩
    · next hden => exact ⟨_, rfl, powSpec_barePow hb hpc (hshape fun h => absurd h hden)⟩
  | _ =>
    refine ⟨_, rfl, powSpec_barePow hb hpc fun hb1 => ⟨by simp, by simp, hb1, ?_, ?_⟩⟩
    · rintro c ⟨⟩
    · rintro x c _ ⟨⟩

end Symbolic.Expr
