import Symbolic.Proofs.Canonical.Mass

/-!
What the groups of like powers weigh. A group of two factors or more is heavier than the power it
gives way to, and heavy enough for the steps that adding up its exponents and taking that power need.
-/

namespace Symbolic.Expr

def groupMass (g : Group Expr) : Nat := (g.parts.map (factorMass g.base)).sum

/-- What holds of the groups of the factors of a product. A base that stands there without an
exponent is not one that an integer power goes into. -/
structure PowerGroup (g : Group Expr) : Prop where
  base : Canonical g.base
  base_ne : g.base.isConst = false
  parts : ∀ p ∈ g.parts, Canonical p
  bare : const 1 ∈ g.parts → g.base.isProduct = false ∧ ∀ b q, g.base = pow b q → b.isConst = true
  first : Canonical g.first ∧ g.first.isConst = false ∧ g.first.isProduct = false
  ne_nil : g.parts ≠ []
  single : g.parts.length = 1 → mass g.first = groupMass g

theorem isProduct_alike {a b : Expr} (h : alike a b = true) : a.isProduct = b.isProduct := by
  cases a <;> cases b <;> first | rfl | cases h

theorem isConst_alike {a b : Expr} (h : alike a b = true) : a.isConst = b.isConst := by
  cases a <;> cases b <;> first | rfl | cases h

theorem powerGroup_of_mem {es : List Expr}
    (h : ∀ e ∈ es, Canonical e ∧ e.isConst = false ∧ e.isProduct = false) {g : Group Expr}
    (hg : g ∈ groupAll asPower es) : PowerGroup g := by
  obtain ⟨hf, hb, ps, hps⟩ := groupAll_first hg
  obtain ⟨hfc, hfn, hfp⟩ := h _ hf
  obtain ⟨hbc, hbn, -, hm⟩ := asPower_spec hfc hfn
  refine ⟨hb ▸ hbc, hb ▸ hbn, ?_, ?_, ⟨hfc, hfn, hfp⟩, by simp [hps], ?_⟩
  · intro p hp
    obtain ⟨e, he, rfl, -⟩ := groupAll_parts hg p hp
    exact (asPower_spec (h e he).1 (h e he).2.1).2.2.1
  · intro hp
    obtain ⟨e, he, h1, ha⟩ := groupAll_parts hg _ hp
    have hself := asPower_one (h e he).1 h1.symm
    rw [hself] at ha
    refine ⟨(isProduct_alike ha).trans (h e he).2.2, ?_⟩
    -- a power whose base is no constant is split, so it does not stand there as it is
    intro b q hbq
    rw [hbq] at ha
    cases e with
    | pow b' q' =>
      simp only [alike, Bool.and_eq_true] at ha
      rw [isConst_alike ha.1]
      by_contra hc
      rw [asPower, if_neg hc, Prod.mk.injEq] at hself
      exact absurd (congrArg sizeOf hself.1) (by simp only [pow.sizeOf_spec]; omega)
    | _ => cases ha
  -- the mass of a factor is that of its base and exponent
  · intro hl
    rw [hps, List.length_cons] at hl
    have : ps = [] := List.eq_nil_of_length_eq_zero (by omega)
    rw [groupMass, hps, this, hm, hb]
    rfl

theorem masses_le_factorMasses {b : Expr} (hb : 4 ≤ mass b) (ps : List Expr) :
    masses ps + 3 * ps.length ≤ (ps.map (factorMass b)).sum := by
  induction ps with
  | nil => exact Nat.le_refl 0
  | cons p ps ih =>
    rw [masses, List.map_cons, List.sum_cons, List.length_cons, factorMass]
    split
    · next h1 =>
      have : mass p = 1 := by rw [h1, mass]
      omega
    · omega

theorem factorMass_cases (b p : Expr) :
    factorMass b p = mass b ∧ p = const 1 ∧ mass p = 1 ∨
      factorMass b p = mass b + mass p + 2 ∧ p ≠ const 1 := by
  rw [factorMass]
  split
  · next h1 => exact .inl ⟨rfl, h1, by rw [h1, mass]⟩
  · next h1 => exact .inr ⟨rfl, h1⟩

/-- An integer power goes into the base only if no factor stands bare. -/
theorem PowerGroup.spread {g : Group Expr} (h : PowerGroup g) :
    spreadMass g.base ≤ mass g.base + 3 ∧ spreadSteps g.base ≤ 4 * mass g.base ∨
      const 1 ∉ g.parts ∧ spreadMass g.base ≤ 2 * mass g.base + 2 := by
  have hb := h.base.four_le_mass h.base_ne
  match hgb : g.base with
  | product fs =>
    refine .inr ⟨fun hm => ?_, by simp only [spreadMass, mass]; omega⟩
    have := (h.bare hm).1
    rw [hgb] at this
    cases this
  | pow b r =>
    by_cases hc : b.isConst = true
    · exact .inl ⟨by simp only [spreadMass, if_pos hc]; omega, Nat.le_refl _⟩
    · refine .inr ⟨fun hm => hc ((h.bare hm).2 b r hgb), ?_⟩
      simp only [spreadMass, if_neg hc]
      omega
  | const c => exact .inl ⟨Nat.le_refl _, by simp [spreadSteps, mass]⟩
  | var s k => exact .inl ⟨Nat.le_refl _, by simp [spreadSteps, mass]⟩
  | sum ts =>
    rw [hgb] at hb
    refine .inl ⟨Nat.le_refl _, ?_⟩
    simp only [spreadSteps]
    omega
  | apply f e => exact .inl ⟨Nat.le_refl _, by simp [spreadSteps, mass]⟩
  | call f rs d es => exact .inl ⟨Nat.le_refl _, by simp [spreadSteps, mass]⟩

/-- The steps and the mass that a group of two factors or more has to give. -/
theorem PowerGroup.bounds {g : Group Expr} (h : PowerGroup g) (h2 : 2 ≤ g.parts.length) :
    masses g.parts + 6 ≤ groupMass g ∧ spreadSteps g.base ≤ 2 * groupMass g ∧
      spreadMass g.base < groupMass g ∧ mass g.base + 3 < groupMass g ∧
        (4 ≤ masses g.parts → mass g.base + masses g.parts + 2 < groupMass g) := by
  have hb := h.base.four_le_mass h.base_ne
  have hsum := masses_le_factorMasses hb g.parts
  have hspread := h.spread
  have hsteps := (spreadSteps_le g.base).2
  have hcanon := h.parts
  rw [groupMass]
  -- two factors are enough: each further one weighs more than its exponent
  obtain ⟨p, q, ps, hps⟩ := exists_cons_cons_of_two_le h2
  rw [hps] at hspread hcanon hsum ⊢
  have hp1 := (hcanon p (by simp)).one_le_mass
  have hq1 := (hcanon q (by simp)).one_le_mass
  have hrest := masses_le_factorMasses hb ps
  have hnil : ps.length = 0 → masses ps = 0 := by
    intro h0
    rw [List.eq_nil_of_length_eq_zero h0, masses]
  have hpow : const 1 ∉ p :: q :: ps →
      factorMass g.base p = mass g.base + mass p + 2 ∧
        factorMass g.base q = mass g.base + mass q + 2 := by
    intro hn
    simp only [List.mem_cons, not_or] at hn
    exact ⟨((factorMass_cases _ p).resolve_left fun h => hn.1 h.2.1.symm).1,
      ((factorMass_cases _ q).resolve_left fun h => hn.2.1 h.2.1.symm).1⟩
  simp only [masses, List.map_cons, List.sum_cons, List.length_cons] at hsum ⊢
  have hp := factorMass_cases g.base p
  have hq := factorMass_cases g.base q
  refine ⟨by omega, ?_, ?_, by omega, by omega⟩
  · rcases hspread with ⟨-, hs⟩ | ⟨hn, -⟩
    · omega
    · have := hpow hn
      omega
  · rcases hspread with ⟨hs, -⟩ | ⟨hn, hs⟩
    · omega
    · have := hpow hn
      omega

theorem sum_groupMass {es : List Expr} (h : ∀ e ∈ es, Canonical e ∧ e.isConst = false) :
    ((groupAll asPower es).map groupMass).sum = masses es := by
  have hF (b c : Expr) (hbc : b.alike c = true) : factorMass b = factorMass c := by
    funext p
    rw [factorMass, factorMass, mass_alike hbc]
  rw [masses_eq_sum, List.map_congr_left fun e he => (asPower_spec (h e he).1 (h e he).2).2.2.2]
  exact sum_groupAll factorMass es hF

end Symbolic.Expr
