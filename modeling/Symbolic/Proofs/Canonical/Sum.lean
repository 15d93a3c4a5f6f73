import Symbolic.Proofs.Canonical.Steps

/-!
The sum of canonical expressions, over products and sums that do with one step less. The sum starts
over only when a merged term is a sum or a constant; then mass was lost.
-/

namespace Symbolic.Expr

def termGroupMass (g : Group Rat) : Nat := (g.parts.map (termMass g.base)).sum

/-- What holds of the groups of the terms of a sum. -/
structure TermGroup (g : Group Rat) : Prop where
  base : Canonical g.base
  base_ne : g.base.isConst = false
  first : Canonical g.first ∧ g.first.isConst = false ∧ g.first.isSum = false
  split : g.base = (asMultiple g.first).1 ∧ ∃ cs, g.parts = (asMultiple g.first).2 :: cs

theorem termGroup_of_mem {es : List Expr}
    (h : ∀ e ∈ es, Canonical e ∧ e.isConst = false ∧ e.isSum = false) {g : Group Rat}
    (hg : g ∈ groupAll asMultiple es) : TermGroup g := by
  obtain ⟨hf, hb, cs, hcs⟩ := groupAll_first hg
  obtain ⟨hfc, hfn, hfs⟩ := h _ hf
  obtain ⟨hbc, hbn, -⟩ := asMultiple_spec hfc hfn
  exact ⟨hb ▸ hbc, hb ▸ hbn, ⟨hfc, hfn, hfs⟩, hb, cs, hcs⟩

theorem sum_termGroupMass {es : List Expr} (h : ∀ e ∈ es, Canonical e ∧ e.isConst = false) :
    ((groupAll asMultiple es).map termGroupMass).sum = masses es := by
  have hF (b c : Expr) (hbc : b.alike c = true) : termMass b = termMass c := by
    funext p
    rw [termMass, termMass, mass_alike hbc]
  rw [masses_eq_sum, List.map_congr_left fun e he => (asMultiple_spec (h e he).1 (h e he).2).2.2.2]
  exact sum_groupAll termMass es hF

/-- The factors of what is left of a product without its constant. -/
theorem factors_bareProduct {rest : List Expr} (h : ∀ e ∈ rest, e.isProduct = false) :
    (bareProduct rest).factors = rest := by
  unfold bareProduct
  split
  · next e =>
    cases e with
    | product fs => exact absurd (h _ List.mem_cons_self) (by simp [isProduct])
    | _ => rfl
  · rfl

theorem factors_scaled {c : Rat} {b : Expr} {rest : List Expr} (h : ProductShape (const c :: rest))
    (hb : b = bareProduct rest) : [const c, b].flatMap factors = const c :: rest := by
  have hopen : ∀ d ∈ rest, d.isProduct = false :=
    fun d hd => h.opened d (List.mem_cons_of_mem _ hd)
  show [const c] ++ (b.factors ++ []) = const c :: rest
  rw [hb, factors_bareProduct hopen, List.append_nil, List.singleton_append]

/-- A term that stands alone in its group comes out as it is, unless like powers are merged in it. -/
theorem likeTerm_single {n : Nat} {product : List Expr → Option Expr} (hp : MultipliesWithin n product)
    {e : Expr} (he : Canonical e) (hc : e.isConst = false) (hs : e.isSum = false)
    (hn : 2 * mass e + 1 ≤ n) :
    ∃ d, likeTerm product (single asMultiple e) = some (some d) ∧ Canonical d ∧ mass d ≤ mass e ∧
      (mass d = mass e → (d.isConst = false ∧ d.isSum = false) ∧
        ∀ fs, e = .product fs → constants fs ≠ [] → PowersMerged fs) := by
  obtain ⟨hb, hbn, h0, hm⟩ := asMultiple_spec he hc
  have hsum : (single asMultiple e).parts.foldr (· + ·) 0 = (asMultiple e).2 := add_zero _
  simp only [likeTerm, hsum, if_neg h0]
  by_cases h1 : (asMultiple e).2 = 1
  · rw [if_pos h1]
    refine ⟨e, congrArg (some ∘ some) (asMultiple_one he h1), he, Nat.le_refl _, fun _ => ?_⟩
    refine ⟨⟨hc, hs⟩, ?_⟩
    rintro fs rfl hfs
    cases ht : takeConst? fs with
    | none => exact absurd (constants_eq_nil (takeConst?_eq_none ht)) hfs
    | some cr =>
      simp only [asMultiple, ht] at h1
      exact absurd h1 (ProductShape.eq_cons he.product_shape ht).2.2.1
  · rw [if_neg h1]
    obtain ⟨rest, heq, hbase, hne, hrest⟩ := asMultiple_ne_one he h1
    have hlist : masses [const (asMultiple e).2, (asMultiple e).1] = mass e := by
      rw [hm, termMass, if_neg h1, masses, masses_singleton, mass]
      omega
    have hflat := factors_scaled (heq ▸ he).product_shape hbase
    -- the term is built again from its constant and its factors, which may be merged on the way
    obtain ⟨d, hd, hspec⟩ := hp [const (asMultiple e).2, (asMultiple e).1]
      (by simp [hb, Canonical.const]) (by omega)
    have h4 := he.four_le_mass hc
    have hle := hspec.mass_le
    have hlt := hspec.mass_lt
    have hlts := hspec.mass_lt_of_sum
    rw [hflat, hlist] at hlt hlts
    refine ⟨d, by rw [show (single asMultiple e).base = (asMultiple e).1 from rfl, hd]; rfl,
      hspec.canonical, by omega, fun heqm => ⟨⟨?_, ?_⟩, ?_⟩⟩
    · by_contra hdc
      obtain ⟨c, rfl⟩ := isConst_eq_true.1 (Bool.not_eq_false _ ▸ hdc)
      rw [mass] at heqm
      omega
    · by_contra hds
      have := hlts (by simp [constants, const?]) (Bool.not_eq_false _ ▸ hds)
      omega
    · intro fs hfs _
      obtain rfl : const (asMultiple e).2 :: rest = fs :=
        Expr.product.inj (heq.symm.trans hfs)
      by_contra hmerged
      have := hlt hmerged
      omega

/-- What is left of a group: neither a constant nor a sum; and no like powers were merged in its first
term, if that has a coefficient. -/
def KeptTerm (g : Group Rat) (r : Option Expr) : Prop :=
  (∀ e, r = some e → e.isConst = false ∧ e.isSum = false) ∧
    ∀ fs, g.first = product fs → constants fs ≠ [] → PowersMerged fs

/-- A group of two terms or more is as heavy as two of its bases. -/
theorem two_mass_le {g : Group Rat} (h2 : 2 ≤ g.parts.length) :
    2 * mass g.base ≤ termGroupMass g := by
  have hone (c : Rat) : mass g.base ≤ termMass g.base c := by
    rw [termMass]
    split <;> omega
  obtain ⟨c, d, cs, hps⟩ := exists_cons_cons_of_two_le h2
  have hc := hone c
  have hd := hone d
  rw [termGroupMass, hps]
  simp only [List.map_cons, List.sum_cons]
  omega

theorem likeTerm_merged {n : Nat} {product : List Expr → Option Expr} (hp : MultipliesWithin n product)
    {g : Group Rat} (hg : TermGroup g) (h2 : 2 ≤ g.parts.length)
    (hn : 2 * termGroupMass g + 1 ≤ n) :
    ∃ r, likeTerm product g = some r ∧ GroupSpec termGroupMass KeptTerm g r := by
  have h4 := hg.base.four_le_mass hg.base_ne
  have hm := two_mass_le h2
  simp only [likeTerm]
  split
  · have h0 : 0 < termGroupMass g := by omega
    exact ⟨none, rfl, .of_lt (fun e he => by cases he) h0⟩
  split
  · have hb : mass g.base < termGroupMass g := by omega
    refine ⟨some g.base, rfl, .of_lt ?_ hb⟩
    rintro _ ⟨⟩
    exact hg.base
  -- the product of coefficient and base weighs one more than the base, and the group twice as much
  · have hlist (c : Rat) : masses [const c, g.base] = mass g.base + 1 := by
      rw [masses, masses_singleton, mass]
      omega
    obtain ⟨d, hd, hspec⟩ := hp [const (g.parts.foldr (· + ·) 0), g.base]
      (by simp [hg.base, Canonical.const]) (by rw [hlist]; omega)
    have hle := hspec.mass_le
    rw [hlist] at hle
    have hlt : mass d < termGroupMass g := by omega
    refine ⟨some d, by rw [hd]; rfl, .of_lt ?_ hlt⟩
    rintro _ ⟨⟩
    exact hspec.canonical

theorem exists_likeTerm_spec {n : Nat} {product : List Expr → Option Expr}
    (hp : MultipliesWithin n product) {g : Group Rat} (hg : TermGroup g)
    (hn : 2 * termGroupMass g + 1 ≤ n) :
    ∃ r, likeTerm product g = some r ∧ GroupSpec termGroupMass KeptTerm g r := by
  by_cases h2 : 2 ≤ g.parts.length
  · exact likeTerm_merged hp hg h2 hn
  · obtain ⟨hfc, hfn, hfs⟩ := hg.first
    obtain ⟨hb, cs, hcs⟩ := hg.split
    have hg1 : g = single asMultiple g.first := by
      rw [hcs, List.length_cons] at h2
      have hnil : cs = [] := List.eq_nil_of_length_eq_zero (by omega)
      rw [hnil] at hcs
      cases g
      rw [single, ← hcs, ← hb]
    have hm : termGroupMass g = mass g.first := by
      rw [(asMultiple_spec hfc hfn).2.2.2, hg1]
      exact add_zero _
    obtain ⟨d, hd, hdc, hle, hkept⟩ := likeTerm_single hp hfc hfn hfs (by omega)
    rw [← hg1] at hd
    refine ⟨some d, hd, ?_, hm ▸ hle, fun he => ⟨by rw [hg1]; rfl, ?_, (hkept (hm ▸ he)).2⟩⟩
    · rintro _ ⟨⟩
      exact hdc
    · rintro _ ⟨⟩
      exact (hkept (hm ▸ he)).1

/-- The groups of like terms give way to terms that together weigh no more. If they weigh as much,
nothing was merged, not even in a term, and the terms are neither constants nor sums. -/
theorem exists_mergedTerms {n : Nat} {product : List Expr → Option Expr}
    (hp : MultipliesWithin n product) {es : List Expr}
    (hes : ∀ e ∈ es, Canonical e ∧ e.isConst = false ∧ e.isSum = false)
    (hn : 2 * masses es + 1 ≤ n) :
    ∃ merged, (groupAll asMultiple es).mapM (likeTerm product) = some merged ∧
      (∀ e ∈ merged.filterMap id, Canonical e) ∧ masses (merged.filterMap id) ≤ masses es ∧
        (masses (merged.filterMap id) = masses es → (Apart asMultiple es ∧
          ∀ fs, .product fs ∈ es → constants fs ≠ [] → PowersMerged fs) ∧
            ∀ e ∈ merged.filterMap id, e.isConst = false ∧ e.isSum = false) := by
  have hsum := sum_termGroupMass fun e he => ⟨(hes e he).1, (hes e he).2.1⟩
  have hgroup : ∀ g ∈ groupAll asMultiple es, ∃ r, likeTerm product g = some r ∧
      GroupSpec termGroupMass KeptTerm g r := by
    intro g hg
    refine exists_likeTerm_spec hp (termGroup_of_mem hes hg) ?_
    have hle := List.le_sum_of_mem (List.mem_map_of_mem (f := termGroupMass) hg)
    omega
  obtain ⟨merged, hm, hcanon, hle, hkept⟩ := exists_mergedGroups hsum hgroup
  refine ⟨merged, hm, hcanon, hle, fun heq => ?_⟩
  obtain ⟨hapart, hall⟩ := hkept heq
  refine ⟨⟨hapart, fun fs hfs => ?_⟩, fun e he => ?_⟩
  · have hg : single asMultiple (.product fs) ∈ groupAll asMultiple es := by
      rw [groupAll_of_apart hapart]
      exact List.mem_map_of_mem hfs
    obtain ⟨r, _, h⟩ := exists_of_forall₂_mem hall.flip _ hg
    exact h.2 fs rfl
  · obtain ⟨r, hr, rfl⟩ := List.mem_filterMap.1 he
    obtain ⟨g, _, h⟩ := exists_of_forall₂_mem hall _ hr
    exact h.1 e rfl

theorem sumsWithin_sumBody {n : Nat} {product again : List Expr → Option Expr}
    (hp : MultipliesWithin n product) (ha : SumsWithin n again) :
    SumsWithin (n + 1) (sumBody product again) := by
  intro ts hts hn
  have hflat : ∀ t ∈ ts.flatMap terms, Canonical t ∧ t.isSum = false := by
    intro t ht
    obtain ⟨t', ht', h⟩ := List.mem_flatMap.1 ht
    exact (hts t' ht').terms t h
  have hmass := masses_terms ts
  simp only [sumBody, gather_eq_groupAll, foldr_add]
  generalize hfl : ts.flatMap terms = flat at hflat hmass
  have hsplit := masses_split flat
  have hfour := four_le_masses fun t ht => (hflat t ht).1
  have hnil : constants flat = [] → (constants flat).sum = 0 := fun h => by rw [h]; rfl
  have hrest : ∀ e ∈ nonConstants flat, Canonical e ∧ e.isConst = false ∧ e.isSum = false := by
    intro e he
    obtain ⟨he, hc⟩ := mem_nonConstants.1 he
    exact ⟨(hflat e he).1, hc, (hflat e he).2⟩
  obtain ⟨merged, hm, hcanon, hle, hkept⟩ := exists_mergedTerms hp hrest (by omega)
  rw [hm, Option.bind_eq_bind, Option.bind_some]
  generalize hk : merged.filterMap id = kept at hcanon hle hkept
  generalize hc : (constants flat).sum = c at hnil
  have hall := (masses_withConst hnil kept).1
  have hcf : c = 0 ∨ c ∉ [0] := by
    rw [List.mem_singleton]
    exact em _
  -- the sum starts over only if something was merged, and then mass was lost
  have hagain : ¬(∀ e ∈ kept, e.isConst = false ∧ e.isSum = false) →
      ∃ e, again (withConst 0 c kept) = some e ∧ Canonical e ∧
        mass e ≤ max 1 (masses (withConst 0 c kept)) := by
    intro h
    have hne := mt (fun heq => (hkept heq).2) h
    obtain ⟨e, he, hes⟩ := ha (withConst 0 c kept) (canonical_withConst hcanon) (by omega)
    exact ⟨e, he, hes.canonical, hes.mass_le⟩
  obtain ⟨e, he, hec, hem, _⟩ :=
    finish_or_again (fun _ => Canonical.sum) (fun _ => rfl) rfl hcf hcanon hagain
  refine ⟨e, he, hec, by omega, fun h => ?_⟩
  have hlost : masses kept ≠ masses (nonConstants flat) := by
    intro heq
    obtain ⟨hapart, hpowers⟩ := (hkept heq).1
    refine h ⟨hfl ▸ hapart, fun fs hfs => ?_⟩
    exact hpowers fs (mem_nonConstants.2 ⟨hfl ▸ hfs, rfl⟩)
  have h4 : 4 ≤ masses flat := by
    refine hfour fun h => hlost ?_
    rw [h] at hle ⊢
    exact Nat.le_zero.1 hle
  omega

end Symbolic.Expr
