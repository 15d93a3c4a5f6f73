import Symbolic.Proofs.Canonical.Collected

/-!
Integer powers of factors. The power of a factor has the base of the factor and the multiple of its
exponent (`powOf_asPower`), unless the exponent comes to zero, or to an integer that goes into the base
(`Powered`). So a list of factors that are not merged is raised to another such list, with the exponents
of each base scaled (`factors_powers`, `scales_raised`).
-/

namespace Symbolic.Expr

/-- A power of a constant, which is a base of its own. -/
def isPowOfConst : Expr → Bool
  | pow b _ => b.isConst
  | _ => false

/-- An integer power of the factor is a power of the base of the factor. It is not where the exponent
comes to an integer and the base is a power or a product, which the exponent goes into. -/
def KeepsBase (k : Rat) (f : Expr) : Prop :=
  k = 0 ∨ k = 1 ∨ (asPower f).1.isPow = false ∧ (asPower f).1.isProduct = false ∨
    ∀ c : Rat, const k * (asPower f).2 = const c → c.den ≠ 1

/-! The power of a factor. -/

section Factor

variable {b p f : Expr} {k : Rat}

theorem const_mul (k : Rat) (p : Expr) : const k * p = productOf [const k, p] := rfl

theorem canonical_const_mul (k : Rat) (hp : Canonical p) : Canonical (const k * p) :=
  closed_canonical.product (Closed.forall_pair (.const k) hp)

theorem powOf_alike_powerFactor (hb : Canonical b) :
    Alike (powOf b p) ((powerFactor b p).getD (const 1)) := by
  rw [powerFactor]
  split
  · next h0 =>
    rw [h0, powOf_zero hb]
    exact .refl _
  split
  · next h1 =>
    rw [h1, powOf_one hb]
    exact alike_copied b
  · exact .refl _

theorem asPower_of_isPowOfConst (hb : f.isPowOfConst = false) :
    (∃ b p, f = pow b p ∧ asPower f = (b, p)) ∨ f.isPow = false ∧ asPower f = (f, const 1) := by
  cases f with
  | pow b p =>
    refine .inl ⟨b, p, rfl, ?_⟩
    rw [asPower, if_neg]
    exact Bool.not_eq_true _ ▸ hb
  | _ => exact .inr ⟨rfl, rfl⟩

/-- The power of a factor is that of its base by the exponent times as much. -/
theorem powOf_asPower (hf : Canonical f) (hb : f.isPowOfConst = false)
    (hp : Alike (productOf [(asPower f).2]) (asPower f).2) (hk : k.den = 1) :
    Alike (powOf f (const k)) (powOf (asPower f).1 (const k * (asPower f).2)) := by
  rcases asPower_of_isPowOfConst hb with ⟨b, p, rfl, hsplit⟩ | ⟨-, hsplit⟩
  · rw [hsplit] at hp ⊢
    have hbc : Canonical b := hf.operands b (by simp [operands])
    have hpc : Canonical p := hf.operands p (by simp [operands])
    have hone := List.forall_mem_singleton.2 hpc
    have hkp := canonical_const_mul k hpc
    by_cases h0 : k = 0
    · rw [h0, powOf_zero hf, const_mul, productOf_zero_cons hone, powOf_zero hbc]
      exact .refl _
    by_cases h1 : k = 1
    · have hq : Alike (const k * p) p := by
        rw [h1, const_mul, productOf_one_cons hone]
        exact hp
      have hself : powOf (pow b p) (const 1) = powOf b p :=
        (powOf_one hf).trans (powOf_eq_self hf.pow_shape).symm
      rw [h1, hself, ← h1]
      exact (powOf_alike hbc hkp hbc hpc (.refl b) hq).symm
    · have hswap := Rearranged.of_perm (fun e _ => Alike.refl e) (List.Perm.swap (const k) p [])
      have hpk := Closed.forall_pair hpc (.const k)
      rw [powOf_pow hf hk h0 h1]
      exact powOf_alike hbc (closed_canonical.product hpk) hbc hkp (.refl b)
        (productOf_alike hpk (Closed.forall_pair (.const k) hpc) hswap)
  · rw [hsplit, const_mul, productOf_consts, mul_one]
    exact .refl _

theorem asPower_powerFactor_of_kept (hc : b.isConst = false)
    (hk : b.isPow = false ∧ b.isProduct = false ∨ ∀ c : Rat, p = const c → c.den ≠ 1)
    (hf : f ∈ powerFactor b p) : f.isProduct = false ∧ f.isConst = false ∧ asPower f = (b, p) := by
  rcases hk with ⟨hpow, hprod⟩ | hk
  · exact asPower_powerFactor hc hpow hprod hf
  · have hbase (x : Rat) : b ≠ const x := by
      rintro rfl
      cases hc
    have h0 : p ≠ const 0 := fun h => hk 0 h rfl
    have h1 : p ≠ const 1 := fun h => hk 1 h rfl
    have hshape : PowShape b p := ⟨h0, h1, hbase 1, fun c hp hden => absurd hden (hk c hp),
      fun x _ hx => absurd hx (hbase x)⟩
    rw [Option.mem_def, powerFactor, if_neg h0, if_neg h1, powOf_eq_self hshape] at hf
    obtain rfl := Option.some.inj hf
    refine ⟨rfl, rfl, ?_⟩
    rw [asPower, hc]
    rfl

end Factor

/-! The powers of factors. -/

/-- What the power of a factor is: a constant if the factor is one; else nothing, if the exponent comes
to zero, or a factor of the same base. -/
inductive Powered (k : Int) (f : Expr) : Prop where
  | constant {c : Rat} : f = const c → c ≠ 0 → powOf f (const k) = const (c ^ k) → Powered k f
  | one : f.isConst = false → const k * (asPower f).2 = const 0 → powOf f (const k) = const 1 →
      Powered k f
  | factor : f.isConst = false → const k * (asPower f).2 ≠ const 0 →
      (powOf f (const k)).isConst = false → (powOf f (const k)).isProduct = false →
      Alike (asPower (powOf f (const k))).1 (asPower f).1 →
      Alike (asPower (powOf f (const k))).2 (const k * (asPower f).2) → Powered k f

/-- The exponent goes into the base only if the factor is left as it is. -/
theorem KeepsBase.exponent {f : Expr} {k : Rat} (h : KeepsBase k f) (hf : Canonical f)
    (hc : f.isConst = false) (hprod : f.isProduct = false) (hb : f.isPowOfConst = false)
    (hp : Alike (productOf [(asPower f).2]) (asPower f).2)
    (h0 : const k * (asPower f).2 ≠ const 0) :
    (asPower f).1.isPow = false ∧ (asPower f).1.isProduct = false ∨
      ∀ c : Rat, const k * (asPower f).2 = const c → c.den ≠ 1 := by
  obtain ⟨-, -, hpc, -⟩ := asPower_spec hf hc
  rcases h with rfl | rfl | h
  · exact absurd (productOf_zero_cons (List.forall_mem_singleton.2 hpc)) h0
  · rcases asPower_of_isPowOfConst hb with ⟨b, p, rfl, hsplit⟩ | ⟨hpow, hsplit⟩
    · rw [hsplit] at hp hpc ⊢
      have hq : Alike (const 1 * p) p := by
        rw [const_mul, productOf_one_cons (List.forall_mem_singleton.2 hpc)]
        exact hp
      by_cases hkept : b.isPow = false ∧ b.isProduct = false
      · exact .inl hkept
      · exact .inr fun c hc hden => hkept (hf.pow_shape.not_spread c ((hq.eq_const_iff c).1 hc) hden)
    · rw [hsplit]
      exact .inl ⟨hpow, hprod⟩
  · exact h

theorem powered_of_const {c : Rat} (h0 : c ≠ 0) {k : Int} (hk : k.natAbs ≤ Rational.maxPower) :
    Powered k (const c) := .constant rfl h0 (powOf_const h0 hk)

theorem powered_of_keepsBase {f : Expr} {k : Int} (hf : Canonical f) (hc : f.isConst = false)
    (hprod : f.isProduct = false) (hb : f.isPowOfConst = false)
    (hp : Alike (productOf [(asPower f).2]) (asPower f).2) (h : KeepsBase k f) : Powered k f := by
  obtain ⟨hbc, hbn, hpc, -⟩ := asPower_spec hf hc
  have hpow := (powOf_asPower hf hb hp (Rat.den_intCast k)).trans (powOf_alike_powerFactor hbc)
  by_cases h0 : const k * (asPower f).2 = const 0
  · rw [powerFactor_eq_none.2 h0] at hpow
    exact .one hc h0 hpow.symm.eq_const
  · obtain ⟨g, hg⟩ := Option.ne_none_iff_exists'.1 (mt powerFactor_eq_none.1 h0)
    obtain ⟨hgp, hgc, hsplit⟩ :=
      asPower_powerFactor_of_kept hbn (h.exponent hf hc hprod hb hp h0) hg
    rw [hg, Option.getD_some] at hpow
    obtain ⟨-, hbase, hpart⟩ := splitAlike_asPower hpow
    rw [hsplit] at hbase hpart
    exact .factor hc h0 ((isConst_alike hpow).trans hgc) ((isProduct_alike hpow).trans hgp)
      hbase hpart

section Powers

variable {fs : List Expr} {k : Int}

def powers (k : Int) (fs : List Expr) : List Expr := fs.map fun f => powOf f (const k)

/-- The power of a factor, unless the exponent comes to zero. -/
def raised (k : Int) (f : Expr) : Option Expr :=
  if const k * (asPower f).2 = const 0 then none else some (powOf f (const k))

theorem nonConstants_powers (h : ∀ f ∈ fs, Powered k f) :
    nonConstants (powers k fs) = (nonConstants fs).filterMap (raised k) := by
  induction fs with
  | nil => rfl
  | cons f fs ih =>
    obtain ⟨hf, hfs⟩ := List.forall_mem_cons.1 h
    have ih := ih hfs
    rw [nonConstants, nonConstants] at ih ⊢
    rw [powers, List.map_cons, List.filter_cons, List.filter_cons]
    cases hf with
    | constant hc _ hpow =>
      rw [hpow, hc]
      exact ih
    | one hfc h0 hpow =>
      have hnone : raised k f = none := if_pos h0
      rw [hpow, hfc]
      exact ih.trans (List.filterMap_cons_none hnone).symm
    | factor hfc h0 hpc =>
      have hsome : raised k f = some (powOf f (const k)) := if_neg h0
      rw [hpc, hfc]
      exact (congrArg (_ :: ·) ih).trans (List.filterMap_cons_some hsome).symm

theorem prod_constants_powers (h : ∀ f ∈ fs, Powered k f) :
    (constants (powers k fs)).prod = (constants fs).prod ^ k := by
  induction fs with
  | nil => exact (one_zpow k).symm
  | cons f fs ih =>
    obtain ⟨hf, hfs⟩ := List.forall_mem_cons.1 h
    have hsplit : constants (powers k (f :: fs)) =
        constants [powOf f (const k)] ++ constants (powers k fs) := constants_append [_] _
    have hsplit' : constants (f :: fs) = constants [f] ++ constants fs := constants_append [_] _
    rw [hsplit, hsplit', List.prod_append, List.prod_append, ih hfs, mul_zpow]
    congr 1
    cases hf with
    | constant hc _ hpow =>
      rw [hpow, hc]
      simp [constants, const?]
    | one hfc _ hpow =>
      rw [hpow, constants_eq_nil (List.forall_mem_singleton.2 hfc)]
      simp [constants, const?]
    | factor hfc _ hpc =>
      rw [constants_eq_nil (List.forall_mem_singleton.2 hfc),
        constants_eq_nil (List.forall_mem_singleton.2 hpc), List.prod_nil, one_zpow]

/-- The power of a factor that is no constant has the base of the factor. -/
theorem Powered.of_mem_raised {f g : Expr} (h : Powered k f) (hc : f.isConst = false)
    (hg : g ∈ raised k f) :
    g.isProduct = false ∧ Alike (asPower g).1 (asPower f).1 ∧
      Alike (asPower g).2 (const k * (asPower f).2) := by
  rw [Option.mem_def, raised] at hg
  split at hg
  · cases hg
  · obtain rfl := Option.some.inj hg
    cases h with
    | constant hf => rw [hf] at hc; cases hc
    | one _ h0 => exact absurd h0 ‹_›
    | factor _ _ _ hprod hbase hpart => exact ⟨hprod, hbase, hpart⟩

/-- The powers of factors that are not merged are not merged, nor opened or folded to zero. -/
theorem factors_powers (h : ∀ f ∈ fs, Powered k f) (hm : PowersMerged fs) : Factors (powers k fs) where
  opened := by
    refine List.forall_mem_map.2 fun f hf => ?_
    cases h f hf with
    | constant _ _ hpow => rw [hpow]; rfl
    | one _ _ hpow => rw [hpow]; rfl
    | factor _ _ _ hprod => exact hprod
  kept hz := by
    obtain ⟨f, hf, hpow⟩ := List.mem_map.1 (mem_constants.1 hz)
    cases h f hf with
    | constant _ h0 hc =>
      rw [hc, const.injEq] at hpow
      exact zpow_ne_zero k h0 hpow
    | one _ _ hc =>
      rw [hc] at hpow
      cases hpow
    | factor _ _ hc =>
      rw [hpow] at hc
      cases hc
  merged := by
    rw [PowersMerged, nonConstants_powers h]
    refine List.pairwise_filterMap.2 (List.Pairwise.imp_of_mem ?_ hm)
    intro f f' hf hf' hff g hg g' hg'
    obtain ⟨hf, hc⟩ := mem_nonConstants.1 hf
    obtain ⟨hf', hc'⟩ := mem_nonConstants.1 hf'
    obtain ⟨-, hbase, -⟩ := (h f hf).of_mem_raised hc hg
    obtain ⟨-, hbase', -⟩ := (h f' hf').of_mem_raised hc' hg'
    rw [Bool.eq_false_iff] at hff ⊢
    exact fun hgg => hff (hbase.symm.trans (Alike.trans hgg hbase'))

/-- Of no exponent or one, what the multiple leaves: nothing where it comes to zero. -/
inductive Scales (k : Int) : List Expr → List Expr → Prop where
  | nil : Scales k [] []
  | zero {p : Expr} : const k * p = const 0 → Scales k [p] []
  | single {p q : Expr} : Alike q (const k * p) → Scales k [p] [q]

theorem Scales.rearranged {ps qs rs : List Expr} (h : Scales k ps qs) (hr : Rearranged Alike rs qs) :
    Scales k ps rs := by
  cases h with
  | nil =>
    rw [List.length_eq_zero_iff.1 hr.length_eq]
    exact .nil
  | zero h0 =>
    rw [List.length_eq_zero_iff.1 hr.length_eq]
    exact .zero h0
  | single hq =>
    obtain ⟨r, rfl, hrq⟩ := hr.singleton_right
    exact .single (hrq.trans hq)

theorem scales_raised (h : ∀ f ∈ fs, Powered k f) (hm : PowersMerged fs) (b : Expr) :
    Scales k (partsOfBase asPower b (nonConstants fs))
      (partsOfBase asPower b ((nonConstants fs).filterMap (raised k))) := by
  have hgroups := groupAll_of_apart hm
  have hraised : (nonConstants fs).filterMap (raised k) =
      (groupAll asPower (nonConstants fs)).filterMap fun g => raised k g.first := by
    rw [hgroups, List.filterMap_map]
    rfl
  have hmem (g : Group Expr) (hg : g ∈ groupAll asPower (nonConstants fs)) :
      ∃ f ∈ fs, f.isConst = false ∧ g = single asPower f := by
    rw [hgroups] at hg
    obtain ⟨f, hf, rfl⟩ := List.mem_map.1 hg
    exact ⟨f, (mem_nonConstants.1 hf).1, (mem_nonConstants.1 hf).2, rfl⟩
  rw [hraised, partsOfBase_merged]
  · rcases group_of_base asPower b (nonConstants fs) with ⟨hnil, hfilter⟩ | ⟨g, hg, -, hgp, hfilter⟩
    · rw [hnil, hfilter]
      exact .nil
    · obtain ⟨f, hf, hc, rfl⟩ := hmem g hg
      have hone : ([single asPower f].filterMap fun g => raised k g.first) =
          (raised k f).toList := by
        rw [List.filterMap_cons]
        cases hr : raised k f <;> simp [single, hr]
      rw [hfilter, ← hgp, hone]
      cases hr : raised k f with
      | none =>
        refine .zero ?_
        by_contra h0
        rw [raised, if_neg h0] at hr
        cases hr
      | some d => exact .single ((h f hf).of_mem_raised hc hr).2.2
  · intro g hg d hd
    obtain ⟨f, hf, hc, rfl⟩ := hmem g hg
    exact ((h f hf).of_mem_raised hc hd).2.1

end Powers

/-- A multiple is zero only if the coefficient is, or all multiples are. -/
theorem const_mul_eq_zero {p : Expr} (hp : Canonical p) {k : Rat} (h : const k * p = const 0) :
    k = 0 ∨ ∀ j : Rat, const j * p = const 0 := by
  obtain ⟨c, hc | ⟨hc0, b, hb, hc⟩⟩ := sharesBase (List.forall_mem_singleton.2 hp)
  · rw [const_mul, hc, const.injEq, mul_eq_zero] at h
    refine h.imp_right fun h0 j => ?_
    rw [const_mul, hc, h0, mul_zero]
  · refine .inl ?_
    by_contra hk
    refine absurd ?_ (hb.not_alike_const (d := 0) (mul_ne_zero hk hc0))
    rw [← h]
    exact hc k

theorem mergedExponent_scales {m n : Int} {ps qs rs : List Expr} (hps : ∀ p ∈ ps, Canonical p)
    (hqs : ∀ q ∈ qs, Canonical q) (hrs : ∀ r ∈ rs, Canonical r) (hm : Scales m ps qs)
    (hn : Scales n ps rs)
    (hsum : ∀ p ∈ ps, Alike (const m * p + const n * p) (const (m + n : Int) * p)) :
    Alike (mergedExponent (qs ++ rs)) (mergedExponent (ps.map (const (m + n : Int) * ·))) := by
  cases hm with
  | nil =>
    cases hn
    exact .refl _
  | @zero p hmp =>
    have hpc : Canonical p := hps p List.mem_cons_self
    have hother : const (m + n : Int) * p = const n * p := by
      rcases const_mul_eq_zero hpc hmp with h0 | hall
      · rw [Int.cast_add, h0, zero_add]
      · rw [hall, hall]
    cases hn with
    | zero hnp =>
      show Alike (const 0) (const (m + n : Int) * p)
      rw [hother, hnp]
      exact .refl _
    | @single _ r hr =>
      show Alike r (const (m + n : Int) * p)
      rw [hother]
      exact hr
  | @single p q hq =>
    have hpc : Canonical p := hps p List.mem_cons_self
    have hqc : Canonical q := hqs q List.mem_cons_self
    cases hn with
    | zero hnp =>
      have hother : const (m + n : Int) * p = const m * p := by
        rcases const_mul_eq_zero hpc hnp with h0 | hall
        · rw [Int.cast_add, h0, add_zero]
        · rw [hall, hall]
      show Alike q (const (m + n : Int) * p)
      rw [hother]
      exact hq
    | @single _ r hr =>
      have hrc : Canonical r := hrs r List.mem_cons_self
      refine Alike.trans ?_ (hsum p List.mem_cons_self)
      exact commutes_sumOf.pair hqc hrc (canonical_const_mul _ hpc) (canonical_const_mul _ hpc) hq hr

end Symbolic.Expr
