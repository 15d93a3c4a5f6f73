import Symbolic.Proofs.Canonical.LikePowers
import Symbolic.Proofs.Canonical.Steps

/-!
The product of canonical expressions, over sums, products and powers that do with one step less.
The product starts over only when a merged factor is a product or a constant; then mass was lost.
-/

namespace Symbolic.Expr

/-- What is left of a group: neither a constant nor a product. -/
def KeptFactor (_ : Group Expr) (r : Option Expr) : Prop :=
  ∀ e, r = some e → e.isConst = false ∧ e.isProduct = false

/-- The power that a group of two factors or more gives way to is lighter than the group. -/
theorem exists_mergedPow_lt {n : Nat} {pow : Expr → Expr → Option Expr} (hw : RaisesWithin n pow)
    {g : Group Expr} (hg : PowerGroup g) (h2 : 2 ≤ g.parts.length) (hn : 2 * groupMass g ≤ n)
    {p : Expr} (hp : SumSpec g.parts p) :
    ∃ e, pow g.base p = some e ∧ Canonical e ∧ mass e < groupMass g := by
  obtain ⟨hsteps, hspread, hlt, hlt3, hlt4⟩ := hg.bounds h2
  have hpm := hp.mass_le
  obtain ⟨e, he, hes⟩ := hw g.base p hg.base hp.canonical (by omega)
  refine ⟨e, he, hes.canonical, ?_⟩
  by_cases hi : IsInteger p
  · exact lt_of_le_of_lt (hes.mass_le_spread hi) hlt
  · have hle := hes.mass_le hi
    by_cases hpc : p.isConst = true
    · -- a constant adds one to the base, and there is room for three
      obtain ⟨c, rfl⟩ := isConst_eq_true.1 hpc
      rw [mass] at hle
      omega
    · have hp4 := hp.canonical.four_le_mass (Bool.not_eq_true _ ▸ hpc)
      omega

/-- A group of like powers gives way to one factor. A group of two factors or more loses mass. -/
theorem exists_likePower_spec {n : Nat} {sum : List Expr → Option Expr}
    {pow : Expr → Expr → Option Expr} (hs : SumsWithin n sum) (hw : RaisesWithin n pow)
    {g : Group Expr} (hg : PowerGroup g) (hn : 2 * groupMass g ≤ n) :
    ∃ r, likePower sum pow g = some r ∧ GroupSpec groupMass KeptFactor g r := by
  unfold likePower
  split
  · next p hp =>
    have hlen : g.parts.length = 1 := by rw [hp, List.length_singleton]
    obtain ⟨hc, hne, hnp⟩ := hg.first
    refine ⟨_, rfl, ?_, (hg.single hlen).le, fun _ => ⟨hlen, ?_⟩⟩
    · rintro e ⟨⟩
      exact hc
    · rintro e ⟨⟩
      exact ⟨hne, hnp⟩
  · next hp =>
    have h2 : 2 ≤ g.parts.length := by
      match hps : g.parts with
      | [] => exact absurd hps hg.ne_nil
      | [p] => exact absurd hps (hp p)
      | _ :: _ :: _ => simp
    obtain ⟨hsteps, -, -, hlt3, -⟩ := hg.bounds h2
    -- the exponents are added up, and the base is raised to their sum
    obtain ⟨p, hsum, hspec⟩ := hs g.parts hg.parts (by omega)
    obtain ⟨e, he, hec, hem⟩ := exists_mergedPow_lt hw hg h2 hn hspec
    have hpow : ∃ r, (pow g.base p).map some = some r ∧ GroupSpec groupMass KeptFactor g r := by
      refine ⟨some e, by rw [he]; rfl, .of_lt ?_ hem⟩
      rintro _ ⟨⟩
      exact hec
    rw [hsum, Option.bind_eq_bind, Option.bind_some]
    split
    · split
      · have h0 : 0 < groupMass g := by omega
        exact ⟨none, rfl, .of_lt (fun e he => by cases he) h0⟩
      split
      · have hb : mass g.base < groupMass g := by omega
        refine ⟨some g.base, rfl, .of_lt ?_ hb⟩
        rintro _ ⟨⟩
        exact hg.base
      · exact hpow
    · exact hpow

/-- The groups of like powers give way to factors that together weigh no more. If they weigh as much,
nothing was merged, and the factors are neither constants nor products. -/
theorem exists_mergedPowers {n : Nat} {sum : List Expr → Option Expr} {pow : Expr → Expr → Option Expr}
    (hs : SumsWithin n sum) (hw : RaisesWithin n pow) {es : List Expr}
    (hes : ∀ e ∈ es, Canonical e ∧ e.isConst = false ∧ e.isProduct = false)
    (hn : 2 * masses es ≤ n) :
    ∃ merged, (groupAll asPower es).mapM (likePower sum pow) = some merged ∧
      (∀ e ∈ merged.filterMap id, Canonical e) ∧ masses (merged.filterMap id) ≤ masses es ∧
        (masses (merged.filterMap id) = masses es → Apart asPower es ∧
          ∀ e ∈ merged.filterMap id, e.isConst = false ∧ e.isProduct = false) := by
  have hsum := sum_groupMass fun e he => ⟨(hes e he).1, (hes e he).2.1⟩
  have hgroup : ∀ g ∈ groupAll asPower es, ∃ r, likePower sum pow g = some r ∧
      GroupSpec groupMass KeptFactor g r := by
    intro g hg
    refine exists_likePower_spec hs hw (powerGroup_of_mem hes hg) ?_
    have hle := List.le_sum_of_mem (List.mem_map_of_mem (f := groupMass) hg)
    omega
  obtain ⟨merged, hm, hcanon, hle, hkept⟩ := exists_mergedGroups hsum hgroup
  refine ⟨merged, hm, hcanon, hle, fun heq => ⟨(hkept heq).1, fun e he => ?_⟩⟩
  obtain ⟨r, hr, rfl⟩ := List.mem_filterMap.1 he
  obtain ⟨g, _, h⟩ := exists_of_forall₂_mem (hkept heq).2 _ hr
  exact h e rfl

theorem isSum_finish_product {kept : List Expr} {c : Rat} (hc : c ≠ 1) :
    (finish 1 product (withConst 1 c kept)).isSum = false := by
  rw [withConst, if_neg hc]
  unfold finish
  split
  · rfl
  · next e he =>
    have : const c ∈ [e] := he ▸ List.mem_append_right _ List.mem_cons_self
    rw [← List.mem_singleton.1 this]
    rfl
  · rfl

/-- Where a sum is left of a product, the constants of the product are one together, and the sum does
without them. -/
theorem mass_lt_of_isSum_finish {kept : List Expr} {cs : List Rat} {c : Rat}
    (hcan : Canonical (finish 1 product (withConst 1 c kept))) (hnil : cs = [] → c = 1)
    (hne : cs ≠ []) (hsum : (finish 1 product (withConst 1 c kept)).isSum = true) :
    mass (finish 1 product (withConst 1 c kept)) < masses kept + cs.length := by
  have h1 : c = 1 := by
    by_contra h1
    rw [isSum_finish_product h1] at hsum
    cases hsum
  have hnc : (finish 1 product (withConst 1 c kept)).isConst = false := by
    obtain ⟨ts, hts⟩ := isSum_eq_true.1 hsum
    rw [hts]
    rfl
  have hlt := (masses_withConst hnil kept).2 hne h1
  have hfin := mass_finish 1 product (fun _ => rfl) (withConst 1 c kept)
  have h4 := hcan.four_le_mass hnc
  omega

theorem multipliesWithin_productBody {n : Nat} {sum again : List Expr → Option Expr}
    {pow : Expr → Expr → Option Expr} (hs : SumsWithin n sum) (ha : MultipliesWithin n again)
    (hw : RaisesWithin n pow) : MultipliesWithin (n + 1) (productBody sum again pow) := by
  intro fs hfs hn
  have hflat : ∀ f ∈ fs.flatMap factors, Canonical f ∧ f.isProduct = false := by
    intro f hf
    obtain ⟨f', hf', h⟩ := List.mem_flatMap.1 hf
    exact (hfs f' hf').factors f h
  have hmass := masses_factors fs
  simp only [productBody, gather_eq_groupAll, foldr_mul]
  generalize hfl : fs.flatMap factors = flat at hflat hmass
  have hsplit := masses_split flat
  have hfour := four_le_masses fun f hf => (hflat f hf).1
  have hnil : constants flat = [] → (constants flat).prod = 1 := fun h => by rw [h]; rfl
  have hcan4 : ¬PowersMerged flat → 4 ≤ masses flat := fun h => hfour (ne_nil_of_not_apart h)
  split
  · refine ⟨_, rfl, .const 0, ?_, fun h => ?_, fun _ h => by cases h⟩
    · rw [mass]
      omega
    · have h4 := hcan4 (hfl ▸ h)
      rw [mass]
      omega
  next hz =>
  have hrest : ∀ e ∈ nonConstants flat, Canonical e ∧ e.isConst = false ∧ e.isProduct = false := by
    intro e he
    obtain ⟨he, hc⟩ := mem_nonConstants.1 he
    exact ⟨(hflat e he).1, hc, (hflat e he).2⟩
  obtain ⟨merged, hm, hcanon, hle, hkept⟩ := exists_mergedPowers hs hw hrest (by omega)
  rw [hm, Option.bind_eq_bind, Option.bind_some]
  generalize hk : merged.filterMap id = kept at hcanon hle hkept
  generalize hc : (constants flat).prod = c at hz hnil
  have hall := (masses_withConst hnil kept).1
  have hcf : c = 1 ∨ c ∉ [0, 1] := by
    rw [List.mem_pair, not_or]
    exact (em _).imp_right fun h1 => ⟨hz, h1⟩
  -- the product starts over only if something was merged, and then mass was lost
  have hagain : ¬(∀ e ∈ kept, e.isConst = false ∧ e.isProduct = false) →
      ∃ e, again (withConst 1 c kept) = some e ∧ Canonical e ∧
        mass e ≤ max 1 (masses (withConst 1 c kept)) := by
    intro h
    have hne := mt (fun heq => (hkept heq).2) h
    obtain ⟨e, he, hes⟩ := ha (withConst 1 c kept) (canonical_withConst hcanon) (by omega)
    exact ⟨e, he, hes.canonical, hes.mass_le⟩
  obtain ⟨e, he, hec, hem, hfin⟩ :=
    finish_or_again (fun _ => Canonical.product) (fun _ => rfl) rfl hcf hcanon hagain
  refine ⟨e, he, hec, by omega, fun h => ?_, fun hne hsum => ?_⟩
  · have hne := mt (fun heq => (hkept heq).1) (hfl ▸ h)
    have h4 := hcan4 (hfl ▸ h)
    omega
  · by_cases hlost : masses kept = masses (nonConstants flat)
    · obtain rfl := hfin (hkept hlost).2
      have hlt := mass_lt_of_isSum_finish hec hnil (hfl ▸ hne) hsum
      omega
    · have h4 := hec.four_le_mass (by obtain ⟨ts, rfl⟩ := isSum_eq_true.1 hsum; rfl)
      omega

end Symbolic.Expr
