import Symbolic.Proofs.Canonical.Raised

/-!
Powers of one expression merge. The exponents of two powers add up to those of the power by both
(`mergedExponent_powers`), so the product of the two is put together of the same factors
(`productOf_two_powers`). What is divided by itself comes to one exactly if all exponents cancel
(`divide_alike_iff`). The main statement is `productOf_powers_same`.
-/

namespace Symbolic.Expr

/-! The power of an expression. -/

section Whole

variable {e : Expr} {k m n : Int}

theorem canonical_powers {fs : List Expr} (h : ∀ f ∈ fs, Canonical f) (k : Int) :
    ∀ f ∈ powers k fs, Canonical f :=
  List.forall_mem_map.2 fun f hf => closed_canonical.pow (h f hf) (.const _)

theorem powers_of_not_isProduct (h : e.isProduct = false) (k : Int) :
    powers k e.factors = [powOf e (const k)] := by
  rw [powers, factors_eq h, List.map_singleton]

theorem productOf_ones {fs : List Expr} (h : ∀ f ∈ fs, f = const 1) : productOf fs = const 1 := by
  induction fs with
  | nil => rfl
  | cons f fs ih =>
    obtain ⟨rfl, hfs⟩ := List.forall_mem_cons.1 h
    rw [productOf_one_cons fun f hf => hfs f hf ▸ .const 1, ih hfs]

/-- The power of a product is put together of those of its factors. -/
theorem powOf_product_powers {fs : List Expr} (h : Canonical (product fs)) (hm : PowersMerged fs)
    (k : Int) : Alike (powOf (product fs) (const k)) (productOf (powers k fs)) := by
  by_cases h0 : k = 0
  · subst h0
    rw [Int.cast_zero, powOf_zero h, productOf_ones]
    · exact .refl _
    refine List.forall_mem_map.2 fun f hf => ?_
    rw [Int.cast_zero, powOf_zero (h.operands f hf)]
  by_cases h1 : k = 1
  · subst h1
    have hself : List.Forall₂ Alike fs (powers 1 fs) := by
      refine List.forall₂_map_right_iff.2 (List.forall₂_same.2 fun f hf => ?_)
      rw [Int.cast_one, powOf_one (h.operands f hf)]
      exact Alike.symm (alike_copied f)
    have hwhole : Alike (productOf fs) (productOf (powers 1 fs)) :=
      productOf_alike h.operands (canonical_powers h.operands 1) (.of_forall₂ hself)
    have hnode : productOf fs = product fs := withOperands_operands h hm
    rw [hnode] at hwhole
    rw [Int.cast_one, powOf_one h]
    exact hwhole
  · rw [powOf_product h (Rat.den_intCast k) (fun h => h0 (Rat.intCast_inj.1 h))
      fun h => h1 (Rat.intCast_inj.1 h)]
    exact .refl _

/-- So is that of any other expression, if it is left as it is in a product by itself. -/
theorem powOf_alike_powers (he : Canonical e) (hm : PowersMerged e.factors)
    (hself : e.isProduct = true ∨ Alike (productOf [powOf e (const k)]) (powOf e (const k))) :
    Alike (powOf e (const k)) (productOf (powers k e.factors)) := by
  by_cases hprod : e.isProduct = true
  · obtain ⟨fs, rfl⟩ := isProduct_eq_true.1 hprod
    exact powOf_product_powers he hm k
  · rw [powers_of_not_isProduct (Bool.not_eq_true _ ▸ hprod)]
    exact (hself.resolve_left hprod).symm

theorem powOf_alike_productOf (he : Canonical e) (hm : PowersMerged e.factors)
    (hr : ∀ f ∈ e.factors, Powered k f) :
    Alike (powOf e (const k)) (productOf (powers k e.factors)) := by
  by_cases hprod : e.isProduct = true
  · exact powOf_alike_powers he hm (.inl hprod)
  · have hf := factors_powers hr hm
    rw [powers_of_not_isProduct (Bool.not_eq_true _ ▸ hprod) k] at hf
    refine powOf_alike_powers he hm (.inr ?_)
    rw [hf.productOf_singleton]
    exact alike_copied _

/-- The power has the constant of the expression to that power, and for each base what the multiple of
its exponent leaves. -/
theorem exponents_powOf (he : Canonical e) (hm : PowersMerged e.factors)
    (hr : ∀ f ∈ e.factors, Powered k f) :
    constantFactor [powOf e (const k)] = (constants e.factors).prod ^ k ∧
      ∀ b, Scales k (partsOfBase asPower b (nonConstants e.factors))
        (exponents b [powOf e (const k)]) := by
  obtain ⟨hc, hn, -⟩ := (factors_powers hr hm).opened_productOf
  have hfactors := (powOf_alike_productOf he hm hr).factors
  rw [nonConstants_powers hr] at hn
  have hparts {xs ys : List Expr} (b : Expr) (h : Rearranged Alike xs ys) :
      Rearranged Alike (partsOfBase asPower b xs) (partsOfBase asPower b ys) :=
    rearranged_partsOfBase b (h.imp fun _ _ _ _ hab => splitAlike_asPower hab)
  refine ⟨?_, fun b => ?_⟩
  · rw [constantFactor, List.flatMap_singleton, (perm_constants hfactors).prod_eq, hc,
      prod_constants_powers hr]
  · rw [exponents, List.flatMap_singleton]
    exact ((scales_raised hr hm b).rearranged (hparts b hn)).rearranged
      (hparts b (rearranged_nonConstants hfactors))

/-- The factors of an expression, of which none is a power of a constant, are not merged any further,
and their exponents are left as they are in a product. -/
structure SimpleFactors (e : Expr) : Prop where
  base : ∀ f ∈ e.factors, f.isPowOfConst = false
  merged : PowersMerged e.factors
  exponent : ∀ f ∈ e.factors, (productOf [(asPower f).2]).same (asPower f).2 = true

theorem SimpleFactors.powOf_alike (h : SimpleFactors e) (he : Canonical e) {f : Expr} (hf : f ∈ e.factors)
    (k : Int) :
    Alike (powOf f (const k)) (powOf (asPower f).1 (const k * (asPower f).2)) :=
  powOf_asPower (he.factors f hf).1 (h.base f hf) (same_iff.1 (h.exponent f hf)) (Rat.den_intCast k)

/-- Two powers of an expression. -/
def twoPowers (m n : Int) (e : Expr) : List Expr := [powOf e (const m), powOf e (const n)]

theorem canonical_power (he : Canonical e) (k : Int) : ∀ f ∈ [powOf e (const k)], Canonical f :=
  List.forall_mem_singleton.2 (closed_canonical.pow he (.const _))

theorem canonical_twoPowers (he : Canonical e) (m n : Int) : ∀ f ∈ twoPowers m n e, Canonical f :=
  Closed.forall_pair (closed_canonical.pow he (.const _)) (closed_canonical.pow he (.const _))

theorem exponents_twoPowers (b : Expr) (m n : Int) (e : Expr) :
    exponents b (twoPowers m n e) =
      exponents b [powOf e (const m)] ++ exponents b [powOf e (const n)] :=
  exponents_append b [_] [_]

theorem exists_of_mem_exponents {fs : List Expr} {b p : Expr}
    (hp : p ∈ partsOfBase asPower b (nonConstants fs)) :
    ∃ f ∈ fs, f.isConst = false ∧ p = (asPower f).2 := by
  obtain ⟨f, hf, rfl⟩ := List.mem_map.1 hp
  obtain ⟨hf, hc⟩ := mem_nonConstants.1 (List.mem_filter.1 hf).1
  exact ⟨f, hf, hc, rfl⟩

/-- The exponents of two powers add up to those of the power by both. -/
theorem mergedExponent_powers (he : Canonical e) (hs : SimpleFactors e)
    (hm : ∀ f ∈ e.factors, Powered m f) (hn : ∀ f ∈ e.factors, Powered n f)
    (hsum : ∀ f ∈ e.factors, Alike (const m * (asPower f).2 + const n * (asPower f).2)
      (const (m + n : Int) * (asPower f).2)) (b : Expr) :
    Alike (mergedExponent (exponents b (twoPowers m n e)))
      (mergedExponent ((partsOfBase asPower b (nonConstants e.factors)).map
        (const (m + n : Int) * ·))) := by
  rw [exponents_twoPowers]
  refine mergedExponent_scales (fun p hp => ?_) (canonical_exponents (canonical_power he m) b)
    (canonical_exponents (canonical_power he n) b) ((exponents_powOf he hs.merged hm).2 b)
    ((exponents_powOf he hs.merged hn).2 b) fun p hp => ?_
  · obtain ⟨f, hf, hc, rfl⟩ := exists_of_mem_exponents hp
    exact (asPower_spec (he.factors f hf).1 hc).2.2.1
  · obtain ⟨f, hf, -, rfl⟩ := exists_of_mem_exponents hp
    exact hsum f hf

/-- The factors that two powers are merged to are those of the power by both. -/
theorem rearranged_powers (he : Canonical e) (hs : SimpleFactors e)
    (hm : ∀ f ∈ e.factors, Powered m f) (hn : ∀ f ∈ e.factors, Powered n f)
    (hsum : ∀ f ∈ e.factors, Alike (const m * (asPower f).2 + const n * (asPower f).2)
      (const (m + n : Int) * (asPower f).2)) :
    Rearranged Alike (mergedFactors (twoPowers m n e))
      ((nonConstants e.factors).filterMap (raised (m + n))) := by
  have hpair := canonical_twoPowers he m n
  have hexp := mergedExponent_powers he hs hm hn hsum
  have hgroups := groupAll_of_apart hs.merged
  -- the power that a group of one factor gives way to
  let merge (g : Group Expr) : Option Expr :=
    if mergedExponent (g.parts.map (const (m + n : Int) * ·)) = const 0 then none
    else some (powOf g.first (const (m + n : Int)))
  have hraised : (nonConstants e.factors).filterMap (raised (m + n)) =
      (groupAll asPower (nonConstants e.factors)).filterMap merge := by
    rw [hgroups, List.filterMap_map]
    rfl
  rw [hraised]
  refine rearranged_merged (fun ps => decide (mergedExponent ps ≠ const 0))
    (fun ps => decide (mergedExponent (ps.map (const (m + n : Int) * ·)) ≠ const 0)) rfl rfl
    (fun g hg => powerFactor_eq_none.2 (by simpa using hg)) (fun g hg => if_pos (by simpa using hg))
    (fun b => decide_eq_decide.2 (not_congr ((hexp b).eq_const_iff 0))) ?_
  intro g hg g' hg' hb
  have hpower := powerGroup_of_mem_likeFactors hpair hg
  have hparts : Alike (mergedExponent g.parts)
      (mergedExponent (g'.parts.map (const (m + n : Int) * ·))) := by
    rw [parts_eq_of_mem_groupAll hg, parts_eq_of_mem_groupAll hg', ← partsOfBase_congr hb]
    exact hexp g.base
  rw [hgroups] at hg'
  obtain ⟨f, hf, rfl⟩ := List.mem_map.1 hg'
  obtain ⟨hf, hc⟩ := mem_nonConstants.1 hf
  obtain ⟨hbc, -, hpc, -⟩ := asPower_spec (he.factors f hf).1 hc
  have hparts : Alike (mergedExponent g.parts) (const (m + n : Int) * (asPower f).2) := hparts
  show Option.Rel Alike (mergedFactor g) (raised (m + n) f)
  rw [mergedFactor, raised]
  split
  · next h0 =>
    rw [powerFactor_eq_none.2 ((hparts.eq_const_iff 0).2 h0)]
    exact .none
  · next h0 =>
    obtain ⟨d, hd⟩ := Option.ne_none_iff_exists'.1
      (mt powerFactor_eq_none.1 (mt (hparts.eq_const_iff 0).1 h0))
    have hpow : Alike (powOf g.base (mergedExponent g.parts)) d := by
      have hpow := @powOf_alike_powerFactor _ (mergedExponent g.parts) hpower.base
      rwa [hd, Option.getD_some] at hpow
    rw [hd]
    refine .some (hpow.symm.trans (Alike.trans ?_ (hs.powOf_alike he hf _).symm))
    exact powOf_alike hpower.base (canonical_mergedExponent hpower.parts) hbc
      (canonical_const_mul _ hpc) hb hparts

/-- What the power of a factor is, whether it keeps the base or not. -/
inductive Splits (k : Int) (f : Expr) : Prop where
  | constant {c : Rat} : f = const c → powOf f (const k) = const (c ^ k) → Splits k f
  | one : f.isConst = false → const k * (asPower f).2 = const 0 →
      powOf f (const k) = const 1 → Splits k f
  | other : f.isConst = false → const k * (asPower f).2 ≠ const 0 → Splits k f

theorem SimpleFactors.splits (h : SimpleFactors e) (he : Canonical e) {f : Expr}
    (hf : f ∈ e.factors) (hc : ∀ c : Rat, f = const c → c ≠ 0 ∧ k.natAbs ≤ Rational.maxPower) :
    Splits k f := by
  by_cases hfc : f.isConst = true
  · obtain ⟨c, rfl⟩ := isConst_eq_true.1 hfc
    exact .constant rfl (powOf_const (hc c rfl).1 (hc c rfl).2)
  have hfc : f.isConst = false := Bool.not_eq_true _ ▸ hfc
  by_cases h0 : const k * (asPower f).2 = const 0
  · have hpow := h.powOf_alike he hf k
    rw [h0, powOf_zero (asPower_spec (he.factors f hf).1 hfc).1] at hpow
    exact .one hfc h0 hpow.symm.eq_const
  · exact .other hfc h0

theorem raised_sublist (k : Int) (fs : List Expr) :
    ((nonConstants fs).filterMap (raised k)).Sublist (powers k fs) := by
  refine (List.Sublist.filterMap _ List.filter_sublist).trans ?_
  induction fs with
  | nil => exact .slnil
  | cons f fs ih =>
    rw [List.filterMap_cons, raised]
    split
    · next hnone => exact ih.trans (List.sublist_cons_self _ _)
    · next g hsome =>
      split at hsome
      · cases hsome
      · obtain rfl := Option.some.inj hsome
        exact ih.cons_cons _

theorem canonical_raised {fs : List Expr} (h : ∀ f ∈ fs, Canonical f) (k : Int) :
    ∀ g ∈ (nonConstants fs).filterMap (raised k), Canonical g :=
  fun g hg => canonical_powers h k g ((raised_sublist k fs).subset hg)

/-- The power of a factor is folded to a constant, or is one of those that are kept. -/
theorem parts_power {f : Expr} (h : Splits k f) :
    constantFactor [powOf f (const k)] =
        constantFactor ((nonConstants [f]).filterMap (raised k)) * (constants [f]).prod ^ k ∧
      nonConstants ([powOf f (const k)].flatMap factors) =
        nonConstants (((nonConstants [f]).filterMap (raised k)).flatMap factors) := by
  have hunit : constantFactor [] = 1 := List.prod_nil
  cases h with
  | @constant c hf hpow =>
    rw [hpow, hf]
    refine ⟨?_, rfl⟩
    show [c ^ k].prod = constantFactor [] * [c].prod ^ k
    rw [hunit, List.prod_singleton, List.prod_singleton, one_mul]
  | one hfc h0 hpow =>
    have hf : ∀ d ∈ [f], d.isConst = false := List.forall_mem_singleton.2 hfc
    have hnone : raised k f = none := if_pos h0
    have hraised : [f].filterMap (raised k) = [] := List.filterMap_cons_none hnone
    rw [hpow, nonConstants_eq_self hf, constants_eq_nil hf, hraised, hunit, List.prod_nil, one_zpow,
      mul_one]
    exact ⟨List.prod_singleton, rfl⟩
  | other hfc h0 =>
    have hf : ∀ d ∈ [f], d.isConst = false := List.forall_mem_singleton.2 hfc
    have hsome : raised k f = some (powOf f (const k)) := if_neg h0
    have hraised : [f].filterMap (raised k) = [powOf f (const k)] :=
      List.filterMap_cons_some hsome
    rw [nonConstants_eq_self hf, constants_eq_nil hf, hraised, List.prod_nil, one_zpow, mul_one]
    exact ⟨rfl, rfl⟩

/-- The factors of the powers are constants and those of the powers that are not folded. -/
theorem parts_powers {fs : List Expr} (h : ∀ f ∈ fs, Splits k f) :
    constantFactor (powers k fs) =
        constantFactor ((nonConstants fs).filterMap (raised k)) * (constants fs).prod ^ k ∧
      nonConstants ((powers k fs).flatMap factors) =
        nonConstants (((nonConstants fs).filterMap (raised k)).flatMap factors) := by
  induction fs with
  | nil => exact ⟨by rw [constants, List.filterMap_nil, List.prod_nil, one_zpow, mul_one]; rfl, rfl⟩
  | cons f fs ih =>
    obtain ⟨hf, hfs⟩ := List.forall_mem_cons.1 h
    obtain ⟨hconst, hnon⟩ := parts_power hf
    obtain ⟨hconsts, hnons⟩ := ih hfs
    have hpowers : powers k (f :: fs) = [powOf f (const k)] ++ powers k fs := rfl
    have hcons : f :: fs = [f] ++ fs := rfl
    rw [hpowers, hcons, constants_append, nonConstants_append, List.filterMap_append,
      constantFactor_append, constantFactor_append, List.prod_append, mul_zpow, hconst, hconsts,
      List.flatMap_append, List.flatMap_append, nonConstants_append, nonConstants_append, hnon, hnons]
    exact ⟨mul_mul_mul_comm _ _ _ _, rfl⟩

/-- The product of the powers is that of those that are not folded, and of a constant. -/
theorem productOf_powers {fs : List Expr} (hfs : ∀ f ∈ fs, Canonical f) (h : ∀ f ∈ fs, Splits k f) :
    productOf (powers k fs) =
      productOf (withConst 1 ((constants fs).prod ^ k) ((nonConstants fs).filterMap (raised k))) := by
  obtain ⟨hconst, hnon⟩ := parts_powers h
  refine productOf_congr (canonical_powers hfs k) (canonical_withConst (canonical_raised hfs k)) ?_ ?_
  · rw [hconst, constantFactor_withConst]
  · rw [hnon]
    exact (nonConstants_withConst (fun _ => rfl) _ _ _).symm

/-- What the powers of the factors come to is not merged any further, or the product is taken once
more. -/
def Rejoins (k : Int) (e : Expr) : Prop :=
  if e.isProduct = true then
    (∃ f ∈ e.factors, (powOf f (const k)).isProduct = true) ∨ PowersMerged (powers k e.factors)
  else (productOf [powOf e (const k)]).same (powOf e (const k)) = true

/-- Where the product is not taken once more, nothing is left to be merged in it. -/
theorem Rejoins.factors (h : Rejoins k e) (hk : ∀ f ∈ e.factors, Splits k f)
    (hkept : ∀ g ∈ (nonConstants e.factors).filterMap (raised k),
      g.isConst = false ∧ g.isProduct = false) :
    Factors ((nonConstants e.factors).filterMap (raised k)) := by
  have hsub := raised_sublist k e.factors
  have hmerged : PowersMerged ((nonConstants e.factors).filterMap (raised k)) := by
    rw [Rejoins] at h
    split at h
    · rcases h with ⟨f, hf, hprod⟩ | h
      · -- a power that is a product would be among those that are kept
        have hpc : (powOf f (const k)).isConst = false := by
          obtain ⟨gs, hgs⟩ := isProduct_eq_true.1 hprod
          rw [hgs]
          rfl
        cases hk f hf with
        | constant _ hpow =>
          rw [hpow] at hpc
          cases hpc
        | one _ _ hpow =>
          rw [hpow] at hpc
          cases hpc
        | other hc h0 =>
          have hmem : powOf f (const k) ∈ (nonConstants e.factors).filterMap (raised k) :=
            List.mem_filterMap.2 ⟨f, mem_nonConstants.2 ⟨hf, hc⟩, if_neg h0⟩
          rw [(hkept _ hmem).2] at hprod
          cases hprod
      · exact h.sublist hsub
    · next hprod =>
      rw [powers_of_not_isProduct (Bool.not_eq_true _ ▸ hprod)] at hsub
      exact PowersMerged.sublist (apart_singleton _ _) hsub
  refine ⟨fun g hg => (hkept g hg).2, ?_, hmerged⟩
  rw [constants_eq_nil fun g hg => (hkept g hg).1]
  exact List.not_mem_nil

/-- Factors that are not merged are only put together, with a constant that is not zero. -/
theorem Factors.finish_withConst {fs : List Expr} {c : Rat} (h : Factors fs) (hc : c ≠ 0)
    (hfs : ∀ f ∈ fs, f.isConst = false) :
    productOf (withConst 1 c fs) = finish 1 product (withConst 1 c fs) := by
  have hnil : constants fs = [] := constants_eq_nil hfs
  have hself : nonConstants fs = fs := nonConstants_eq_self hfs
  by_cases h1 : c = 1
  · rw [withConst, if_pos h1, h.productOf_eq, hnil, hself, List.prod_nil, withConst, if_pos rfl]
  · have hall : Factors (fs ++ [const c]) :=
      (h.cons_const hc).perm (List.perm_append_singleton (const c) fs).symm
    have hconst : constants (fs ++ [const c]) = [c] := by
      rw [constants_append, hnil]
      rfl
    have hothers : nonConstants (fs ++ [const c]) = fs := by
      rw [nonConstants_append, hself]
      exact List.append_nil _
    rw [withConst, if_neg h1, hall.productOf_eq, hconst, hothers, List.prod_singleton, withConst,
      if_neg h1]

theorem constantFactor_twoPowers (he : Canonical e) (hs : SimpleFactors e)
    (hm : ∀ f ∈ e.factors, Powered m f) (hn : ∀ f ∈ e.factors, Powered n f)
    (h0 : 0 ∉ constants e.factors) :
    constantFactor (twoPowers m n e) = (constants e.factors).prod ^ (m + n) := by
  have hc : (constants e.factors).prod ≠ 0 := fun hz => h0 (List.prod_eq_zero_iff.1 hz)
  have happend := constantFactor_append [powOf e (const m)] [powOf e (const n)]
  rw [List.singleton_append, (exponents_powOf he hs.merged hm).1,
    (exponents_powOf he hs.merged hn).1, ← zpow_add₀ hc] at happend
  exact happend

/-- The product of two powers is the power by both, where the exponents of each factor add up. -/
theorem productOf_two_powers (he : Canonical e) (hs : SimpleFactors e)
    (hm : ∀ f ∈ e.factors, Powered m f) (hn : ∀ f ∈ e.factors, Powered n f)
    (hk : ∀ f ∈ e.factors, Splits (m + n) f) (h0 : 0 ∉ constants e.factors)
    (hsum : ∀ f ∈ e.factors, Alike (const m * (asPower f).2 + const n * (asPower f).2)
      (const (m + n : Int) * (asPower f).2)) (hj : Rejoins (m + n) e) :
    Alike (productOf (twoPowers m n e)) (powOf e (const (m + n : Int))) := by
  have hpair := canonical_twoPowers he m n
  have hfs : ∀ f ∈ e.factors, Canonical f := fun f hf => (he.factors f hf).1
  have hc : (constants e.factors).prod ≠ 0 := fun hz => h0 (List.prod_eq_zero_iff.1 hz)
  have hconst := constantFactor_twoPowers he hs hm hn h0
  have hkept := canonical_mergedFactors hpair
  have hraised := @canonical_withConst 1 ((constants e.factors).prod ^ (m + n)) _
    (canonical_raised hfs (m + n))
  have hall := productOf_powers hfs hk
  have hpow : Alike (productOf (powers (m + n) e.factors)) (powOf e (const (m + n : Int))) := by
    refine (powOf_alike_powers he hs.merged ?_).symm
    rw [Rejoins] at hj
    split at hj
    · exact .inl ‹_›
    · exact .inr (same_iff.1 hj)
  -- both products are put together of the same constant and like factors
  rw [hconst] at hkept
  rw [productOf_eq_merged hpair, hconst, if_neg (zpow_ne_zero _ hc)]
  refine (finish_or_rebuild_alike commutes_productOf alike_product.2 isProduct_alike hkept hraised
    (rearranged_powers he hs hm hn hsum)).trans ?_
  split
  · rwa [← hall]
  · next hagain =>
    have hnone := any_again_eq_false.1 (Bool.not_eq_true _ ▸ hagain)
    have hf := hj.factors hk hnone
    rw [← hf.finish_withConst (zpow_ne_zero _ hc) fun g hg => (hnone g hg).1, ← hall]
    exact hpow

theorem zero_notMem_constants (he : Canonical e) (hc : e.isConst = false) :
    0 ∉ constants e.factors := by
  intro hz
  by_cases hprod : e.isProduct = true
  · obtain ⟨fs, rfl⟩ := isProduct_eq_true.1 hprod
    exact he.product_shape.kept 0 hz (by simp)
  · rw [factors_eq (Bool.not_eq_true _ ▸ hprod)] at hz
    rw [← List.mem_singleton.1 (mem_constants.1 hz)] at hc
    cases hc

theorem canonical_exponent {f : Expr} (hf : Canonical f) : Canonical (asPower f).2 := by
  by_cases hc : f.isConst = true
  · obtain ⟨c, rfl⟩ := isConst_eq_true.1 hc
    exact .const 1
  · exact (asPower_spec hf (Bool.not_eq_true _ ▸ hc)).2.2.1

theorem SimpleFactors.powered (hs : SimpleFactors e) (he : Canonical e) (hc : e.isConst = false)
    (hconst : ∀ c : Rat, const c ∈ e.factors → k.natAbs ≤ Rational.maxPower)
    (hk : ∀ f ∈ e.factors, KeepsBase k f) : ∀ f ∈ e.factors, Powered k f := by
  intro f hf
  by_cases hfc : f.isConst = true
  · obtain ⟨c, rfl⟩ := isConst_eq_true.1 hfc
    refine powered_of_const ?_ (hconst c hf)
    rintro rfl
    exact zero_notMem_constants he hc (mem_constants.2 hf)
  · obtain ⟨hfcan, hfp⟩ := he.factors f hf
    exact powered_of_keepsBase hfcan (Bool.not_eq_true _ ▸ hfc) hfp (hs.base f hf)
      (same_iff.1 (hs.exponent f hf)) (hk f hf)

/-- The reciprocal goes into no base that its power did not go into. -/
theorem keepsBase_neg_one {f : Expr} (hf : Canonical f) (hprod : f.isProduct = false)
    (hb : f.isPowOfConst = false) (hp : Alike (productOf [(asPower f).2]) (asPower f).2) :
    KeepsBase (-1) f := by
  rcases asPower_of_isPowOfConst hb with ⟨b, p, rfl, hsplit⟩ | ⟨hpow, hsplit⟩
  · have hpc : Canonical p := hf.operands p (by simp [operands])
    have hone := List.forall_mem_singleton.2 hpc
    refine .inr (.inr ?_)
    rw [hsplit] at hp ⊢
    by_cases hkept : b.isPow = false ∧ b.isProduct = false
    · exact .inl hkept
    refine .inr fun c hc hden => hkept ?_
    rw [← productOf_one_cons hone] at hp
    obtain ⟨d, hd | ⟨h0, b', hb', hd⟩⟩ := sharesBase hone
    · rw [hd, one_mul] at hp
      rw [const_mul, hd, neg_one_mul, const.injEq] at hc
      refine hf.pow_shape.not_spread d hp.eq_const ?_
      rw [← hden, ← hc, Rat.neg_den]
    · refine absurd ?_ (hb'.not_alike_const (mul_ne_zero (neg_ne_zero.2 one_ne_zero) h0) (d := c))
      rw [← hc]
      exact hd (-1)
  · refine .inr (.inr (.inl ?_))
    rw [hsplit]
    exact ⟨hpow, hprod⟩

/-! What is divided by itself. -/

theorem divide_self (he : Canonical e) :
    Alike (divide e e) (productOf (twoPowers 1 (-1) e)) := by
  have hinv : Canonical (powOf e (const (-1))) := closed_canonical.pow he (.const _)
  rw [divide, twoPowers, Int.cast_one, powOf_one he, Int.cast_neg, Int.cast_one]
  exact commutes_productOf.pair he hinv he.copied hinv (Alike.symm (alike_copied e)) (.refl _)

/-- An exponent that is not zero has no multiple that is, other than by zero. -/
theorem Scales.eq_singleton {p : Expr} {qs : List Expr} (hp : Canonical p)
    (hself : Alike (productOf [p]) p) (h0 : p ≠ const 0) (hk : k ≠ 0) (h : Scales k [p] qs) :
    ∃ q, qs = [q] ∧ Alike q (const k * p) := by
  cases h with
  | zero hkp =>
    rcases const_mul_eq_zero hp hkp with hzero | hall
    · exact absurd (Rat.intCast_inj.1 hzero) hk
    · have hone := hall 1
      rw [const_mul, productOf_one_cons (List.forall_mem_singleton.2 hp)] at hone
      exact absurd ((hself.eq_const_iff 0).1 hone) h0
  | single hq => exact ⟨_, rfl, hq⟩

theorem asPower_ne_zero {f : Expr} (hf : Canonical f) (hb : f.isPowOfConst = false) :
    (asPower f).2 ≠ const 0 := by
  rcases asPower_of_isPowOfConst hb with ⟨b, p, rfl, hsplit⟩ | ⟨-, hsplit⟩
  · rw [hsplit]
    exact hf.pow_shape.1
  · rw [hsplit]
    simp

/-- Of each base, the exponent of the one factor that has it is left, less itself. -/
theorem exponents_divide (he : Canonical e) (hs : SimpleFactors e)
    (hone : ∀ f ∈ e.factors, Powered 1 f) (hneg : ∀ f ∈ e.factors, Powered (-1) f) (b : Expr) :
    partsOfBase asPower b (nonConstants e.factors) = [] ∧
        exponents b (twoPowers 1 (-1) e) = [] ∨
      ∃ f ∈ e.factors, f.isConst = false ∧
        partsOfBase asPower b (nonConstants e.factors) = [(asPower f).2] ∧
        Alike (mergedExponent (exponents b (twoPowers 1 (-1) e)))
          (subtract (asPower f).2 (asPower f).2) := by
  have hq := (exponents_powOf he hs.merged hone).2 b
  have hr := (exponents_powOf he hs.merged hneg).2 b
  have hqc := canonical_exponents (canonical_power he 1) b
  have hrc := canonical_exponents (canonical_power he (-1)) b
  rw [exponents_twoPowers]
  generalize exponents b [powOf e (const (1 : Int))] = qs at hq hqc
  generalize exponents b [powOf e (const (-1 : Int))] = rs at hr hrc
  match hps : partsOfBase asPower b (nonConstants e.factors) with
  | [] =>
    rw [hps] at hq hr
    cases hq
    cases hr
    exact .inl ⟨rfl, rfl⟩
  | p :: ps =>
    obtain ⟨f, hf, hc, rfl⟩ := exists_of_mem_exponents (hps ▸ List.mem_cons_self)
    obtain ⟨hfc, -⟩ := he.factors f hf
    obtain ⟨-, -, hpc, -⟩ := asPower_spec hfc hc
    obtain rfl : ps = [] := by
      rw [hps] at hq
      cases hq <;> rfl
    rw [hps] at hq hr
    have hself := same_iff.1 (hs.exponent f hf)
    have h0 := asPower_ne_zero hfc (hs.base f hf)
    obtain ⟨q, rfl, hqp⟩ := hq.eq_singleton hpc hself h0 one_ne_zero
    obtain ⟨r, rfl, hrp⟩ := hr.eq_singleton hpc hself h0 (neg_ne_zero.2 one_ne_zero)
    rw [Int.cast_one, const_mul, productOf_one_cons (List.forall_mem_singleton.2 hpc)] at hqp
    rw [Int.cast_neg, Int.cast_one] at hrp
    refine .inr ⟨f, hf, hc, rfl, ?_⟩
    exact commutes_sumOf.pair (hqc q List.mem_cons_self) (hrc r List.mem_cons_self) hpc
      (closed_canonical.negate hpc) (hqp.trans hself) hrp

/-- A base that is left has an exponent that is no constant, so nothing goes into it. -/
theorem mergedFactors_divide (he : Canonical e) (hs : SimpleFactors e)
    (hone : ∀ f ∈ e.factors, Powered 1 f) (hneg : ∀ f ∈ e.factors, Powered (-1) f) :
    ∀ d ∈ mergedFactors (twoPowers 1 (-1) e),
      d.isConst = false ∧ d.isProduct = false := by
  have hpair := canonical_twoPowers he 1 (-1)
  intro d hd
  obtain ⟨g, hg, hd⟩ := List.mem_filterMap.1 hd
  have hpower := powerGroup_of_mem_likeFactors hpair hg
  have hparts : g.parts = exponents g.base _ := parts_eq_of_mem_groupAll hg
  rcases exponents_divide he hs hone hneg g.base with ⟨-, hnil⟩ | ⟨f, hf, hc, -, hexp⟩
  · exact absurd (hparts.trans hnil) hpower.ne_nil
  · obtain ⟨hfc, -⟩ := he.factors f hf
    obtain ⟨-, -, hpc, -⟩ := asPower_spec hfc hc
    rw [← hparts] at hexp
    have h0 : ¬Alike (subtract (asPower f).2 (asPower f).2) (const 0) := by
      intro hzero
      rw [mergedFactor, powerFactor_eq_none.2 (hexp.trans hzero).symm.eq_const] at hd
      cases hd
    have hopen := (isConst_alike hexp).trans
      (isConst_subtract hpc (same_iff.1 (hs.exponent f hf)) h0)
    have hkept : ∀ c : Rat, mergedExponent g.parts = const c → c.den ≠ 1 := by
      intro c hq
      rw [hq] at hopen
      cases hopen
    obtain ⟨hprod, hconst, -⟩ := asPower_powerFactor_of_kept hpower.base_ne (.inr hkept) hd
    exact ⟨hconst, hprod⟩

/-- A base is left unless its exponent less itself comes to zero. -/
theorem mergedFactors_divide_eq_nil_iff (he : Canonical e) (hs : SimpleFactors e)
    (hone : ∀ f ∈ e.factors, Powered 1 f) (hneg : ∀ f ∈ e.factors, Powered (-1) f) :
    mergedFactors (twoPowers 1 (-1) e) = [] ↔
      ∀ f ∈ e.factors, f.isConst = false →
        Alike (subtract (asPower f).2 (asPower f).2) (const 0) := by
  rw [mergedFactors, List.filterMap_eq_nil_iff]
  refine ⟨fun hnone f hf hc => ?_, fun hall g hg => ?_⟩
  · have hmem : (asPower f).2 ∈ partsOfBase asPower (asPower f).1 (nonConstants e.factors) :=
      List.mem_map.2 ⟨f, List.mem_filter.2 ⟨mem_nonConstants.2 ⟨hf, hc⟩, alike_refl _⟩, rfl⟩
    rcases exponents_divide he hs hone hneg (asPower f).1 with ⟨hnil, -⟩ | ⟨f', -, -, hps, hexp⟩
    · rw [hnil] at hmem
      cases hmem
    rw [hps] at hmem
    rw [List.mem_singleton.1 hmem]
    refine hexp.symm.trans ?_
    rcases group_of_base asPower (asPower f).1 (nonConstants _) with ⟨hnil, -⟩ | ⟨g, hg, -, hgp, -⟩
    · rw [exponents, hnil]
      exact .refl _
    · rw [exponents, ← hgp, powerFactor_eq_none.1 (hnone g hg)]
      exact .refl _
  · have hparts : g.parts = exponents g.base _ := parts_eq_of_mem_groupAll hg
    rw [mergedFactor, powerFactor_eq_none, hparts]
    rcases exponents_divide he hs hone hneg g.base with ⟨-, hnil⟩ | ⟨f, hf, hc, -, hexp⟩
    · rw [hnil]
      rfl
    · exact (hexp.trans (hall f hf hc)).symm.eq_const

/-- An expression divided by itself comes to one exactly if each exponent less itself comes to zero. -/
theorem divide_alike_iff (he : Canonical e) (hs : SimpleFactors e) (h0 : 0 ∉ constants e.factors)
    (hone : ∀ f ∈ e.factors, Powered 1 f) (hneg : ∀ f ∈ e.factors, Powered (-1) f) :
    Alike (divide e e) (const 1) ↔
      ∀ f ∈ e.factors, f.isConst = false →
        Alike (subtract (asPower f).2 (asPower f).2) (const 0) := by
  rw [(divide_self he).congr (.refl _), ← mergedFactors_divide_eq_nil_iff he hs hone hneg]
  have hpair := canonical_twoPowers he 1 (-1)
  have hkept := mergedFactors_divide he hs hone hneg
  have heq := productOf_eq_merged hpair
  rw [constantFactor_twoPowers he hs hone hneg h0, add_neg_cancel, zpow_zero, if_neg one_ne_zero,
    any_again_eq_false.2 hkept, if_neg Bool.false_ne_true] at heq
  refine ⟨fun hdiv => ?_, fun hnil => ?_⟩
  · rw [hdiv.symm.eq_const] at heq
    obtain ⟨-, hr, -⟩ :=
      opened_finish (fun _ => rfl) (fun _ => factors_eq) isProduct_alike (fun _ => rfl) hkept heq
    exact List.length_eq_zero_iff.1 hr.length_eq.symm
  · rw [heq, hnil]
    exact .refl _

end Whole

/-- Powers of one expression merge: the product of the powers by two integers is the power by their
sum, if the exponents add up, and neither power goes into a base. Constants among the factors are raised
to exponents that they are folded by. An expression divided by itself is one exactly if no exponent and
no negative of one is a sum. -/
theorem productOf_powers_same {e : Expr} (he : Constructible e) (hc : e.isConst = false)
    (hs : SimpleFactors e) :
    (∀ m n : Int,
      (∀ c : Rat, const c ∈ e.factors → m.natAbs ≤ Rational.maxPower ∧
        n.natAbs ≤ Rational.maxPower ∧ (m + n).natAbs ≤ Rational.maxPower) →
      (∀ f ∈ e.factors, (const m * (asPower f).2 + const n * (asPower f).2).same
        (const (m + n : Int) * (asPower f).2) = true) →
      (∀ f ∈ e.factors, KeepsBase m f ∧ KeepsBase n f) → Rejoins (m + n) e →
      (productOf [powOf e (const m), powOf e (const n)]).same (powOf e (const (m + n : Int))) =
        true) ∧
      ((divide e e).same (const 1) = true ↔
        ∀ f ∈ e.factors, (asPower f).2.isSum = false ∧ (negate (asPower f).2).isSum = false) := by
  have hcan := constructible_canonical he
  have h0 := zero_notMem_constants hcan hc
  refine ⟨fun m n hconst hsum hkeeps hj => ?_, ?_⟩
  · refine same_iff.2 (productOf_two_powers hcan hs ?_ ?_ (fun f hf => ?_) h0
      (fun f hf => same_iff.1 (hsum f hf)) hj)
    · exact hs.powered hcan hc (fun c h => (hconst c h).1) fun f hf => (hkeeps f hf).1
    · exact hs.powered hcan hc (fun c h => (hconst c h).2.1) fun f hf => (hkeeps f hf).2
    · refine hs.splits hcan hf fun c hfc => ⟨?_, (hconst c (hfc ▸ hf)).2.2⟩
      rintro rfl
      exact h0 (mem_constants.2 (hfc ▸ hf))
  · have hone : ∀ f ∈ e.factors, Powered 1 f :=
      hs.powered hcan hc (fun _ _ => by decide) fun f _ => .inr (.inl Int.cast_one)
    have hneg : ∀ f ∈ e.factors, Powered (-1) f := by
      refine hs.powered hcan hc (fun _ _ => by decide) fun f hf => ?_
      obtain ⟨hfc, hfp⟩ := hcan.factors f hf
      rw [Int.cast_neg, Int.cast_one]
      exact keepsBase_neg_one hfc hfp (hs.base f hf) (same_iff.1 (hs.exponent f hf))
    rw [same_iff, divide_alike_iff hcan hs h0 hone hneg]
    have hcancels (f : Expr) (hf : f ∈ e.factors) :=
      subtract_alike_iff (canonical_exponent (hcan.factors f hf).1) (same_iff.1 (hs.exponent f hf))
    refine ⟨fun h f hf => ?_, fun h f hf _ => (hcancels f hf).2 (h f hf)⟩
    by_cases hfc : f.isConst = true
    · obtain ⟨c, rfl⟩ := isConst_eq_true.1 hfc
      refine (hcancels _ hf).1 ?_
      show Alike (sumOf [const 1, productOf [const (-1), const 1]]) (const 0)
      rw [productOf_consts, sumOf_consts, mul_one, add_neg_cancel]
      exact .refl _
    · exact (hcancels f hf).1 (h f hf (Bool.not_eq_true _ ▸ hfc))

/-- The cube of `3 * x ^ 2 * y ^ z` and its reciprocal, and `3 * x ^ 2 * y ^ z` by itself. -/
theorem productOf_powers_same_monomial :
    (productOf [
        powOf (productOf [const 3, powOf (ofName "x") (const 2), powOf (ofName "y") (ofName "z")])
          (const (3 : Int)),
        powOf (productOf [const 3, powOf (ofName "x") (const 2), powOf (ofName "y") (ofName "z")])
          (const (-1 : Int))]).same
        (powOf (productOf [const 3, powOf (ofName "x") (const 2), powOf (ofName "y") (ofName "z")])
          (const (3 + -1 : Int))) = true ∧
      (divide (productOf [const 3, powOf (ofName "x") (const 2), powOf (ofName "y") (ofName "z")])
        (productOf [const 3, powOf (ofName "x") (const 2), powOf (ofName "y") (ofName "z")])).same
          (const 1) = true := by
  have he : Constructible
      (productOf [const 3, powOf (ofName "x") (const 2), powOf (ofName "y") (ofName "z")]) := by
    refine .product (List.forall_mem_cons.2 ⟨.const 3, Closed.forall_pair ?_ ?_⟩)
    · exact .pow (.var _ _) (.const 2)
    · exact .pow (.var _ _) (.var _ _)
  have hs : SimpleFactors
      (productOf [const 3, powOf (ofName "x") (const 2), powOf (ofName "y") (ofName "z")]) :=
    ⟨by decide +kernel, by rw [PowersMerged]; decide +kernel, by decide +kernel⟩
  have hbases : ∀ f ∈ (productOf [const 3, powOf (ofName "x") (const 2),
      powOf (ofName "y") (ofName "z")]).factors,
      (asPower f).1.isPow = false ∧ (asPower f).1.isProduct = false := by decide +kernel
  obtain ⟨hpowers, hdiv⟩ := productOf_powers_same he (by decide +kernel) hs
  refine ⟨hpowers 3 (-1) (fun _ _ => by decide) (by decide +kernel)
    (fun f hf => ⟨.inr (.inr (.inl (hbases f hf))), .inr (.inr (.inl (hbases f hf)))⟩) ?_,
    hdiv.2 (by decide +kernel)⟩
  rw [Rejoins, if_pos (by decide +kernel), PowersMerged]
  exact .inr (by decide +kernel)

/-- The exponent of `x ^ (y + z)` is opened, so it does not meet its negative. The square of
`(x * y) ^ (1 / 2)` has the bases `x` and `y`, and does not meet what it was taken of. -/
theorem not_productOf_powers_same :
    (Constructible (powOf (ofName "x") (ofName "y" + ofName "z")) ∧
      (∀ f ∈ (powOf (ofName "x") (ofName "y" + ofName "z")).factors,
        f.isConst = false ∧ f.isPowOfConst = false) ∧
      (productOf [powOf (powOf (ofName "x") (ofName "y" + ofName "z")) (const 1),
        powOf (powOf (ofName "x") (ofName "y" + ofName "z")) (const (-1))]).same
          (powOf (powOf (ofName "x") (ofName "y" + ofName "z")) (const (1 + -1))) = false ∧
      (divide (powOf (ofName "x") (ofName "y" + ofName "z"))
        (powOf (ofName "x") (ofName "y" + ofName "z"))).same (const 1) = false) ∧
      (productOf [powOf (powOf (ofName "x" * ofName "y") (const (1 / 2))) (const 2),
        powOf (powOf (ofName "x" * ofName "y") (const (1 / 2))) (const 1)]).same
          (powOf (powOf (ofName "x" * ofName "y") (const (1 / 2))) (const (2 + 1))) = false :=
  ⟨⟨.pow (.var _ _) (.sum (Closed.forall_pair (.var _ _) (.var _ _))), by decide +kernel,
    by decide +kernel, by decide +kernel⟩, by decide +kernel⟩

end Symbolic.Expr
