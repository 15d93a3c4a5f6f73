import Symbolic.Expr.Builtin
import Symbolic.Proofs.Canonical.Coefficients

/-!
Products by their exponents. A product is put together from its constant and from one merged factor
for each base (`productOf_eq_merged`), so it is determined by its constant and by what the exponents
of each base add up to (`productOf_alike_of_exponents`).

The product of two products adds the exponents up in two rounds, and so do the sums of exponents; it
is the product of all factors where the merged factors of the first round bring the second the base
and the exponent that they were merged from (`MultipliesInParts`, `productOf_nested`), for which it
is enough that several exponents stand on bases only that are no powers and no products
(`multipliesInParts_of_settled`).
-/

namespace Symbolic.Expr

variable {xs ys fs : List Expr}

def likeFactors (fs : List Expr) : List (Group Expr) :=
  groupAll asPower (nonConstants (fs.flatMap factors))

/-- The sum of some exponents; one alone stays as it is. -/
def mergedExponent : List Expr → Expr
  | [p] => p
  | ps => sumOf ps

/-- A power as a factor: none for the exponent zero, and the base for one. -/
def powerFactor (b p : Expr) : Option Expr :=
  if p = const 0 then none else if p = const 1 then some b else some (powOf b p)

/-- The factor that a group gives way to: none if its exponents cancel. -/
def mergedFactor (g : Group Expr) : Option Expr := powerFactor g.base (mergedExponent g.parts)

def mergedFactors (fs : List Expr) : List Expr := (likeFactors fs).filterMap mergedFactor

def constantFactor (fs : List Expr) : Rat := (constants (fs.flatMap factors)).prod

def exponents (b : Expr) (fs : List Expr) : List Expr :=
  partsOfBase asPower b (nonConstants (fs.flatMap factors))

theorem constantFactor_append (xs ys : List Expr) :
    constantFactor (xs ++ ys) = constantFactor xs * constantFactor ys := by
  rw [constantFactor, List.flatMap_append, constants_append, List.prod_append]
  rfl

theorem exponents_append (b : Expr) (xs ys : List Expr) :
    exponents b (xs ++ ys) = exponents b xs ++ exponents b ys := by
  rw [exponents, List.flatMap_append, nonConstants_append, partsOfBase_append]
  rfl

theorem powerGroup_of_mem_likeFactors (h : ∀ f ∈ fs, Canonical f) {g : Group Expr}
    (hg : g ∈ likeFactors fs) : PowerGroup g :=
  powerGroup_of_mem (opened_factors h) hg

theorem canonical_mergedExponent {ps : List Expr} (h : ∀ p ∈ ps, Canonical p) :
    Canonical (mergedExponent ps) := by
  unfold mergedExponent
  split
  · exact h _ List.mem_cons_self
  · exact closed_canonical.sum h

theorem powerFactor_eq_none {b p : Expr} : powerFactor b p = none ↔ p = const 0 := by
  rw [powerFactor]
  split
  · simp [*]
  split
  · simp [*]
  · simp [*]

theorem canonical_powerFactor {b p : Expr} (hb : Canonical b) (hp : Canonical p) :
    ∀ f ∈ powerFactor b p, Canonical f := by
  intro f hf
  rw [Option.mem_def, powerFactor] at hf
  split at hf
  · cases hf
  split at hf
  · exact Option.some.inj hf ▸ hb
  · exact Option.some.inj hf ▸ closed_canonical.pow hb hp

theorem canonical_of_mem_mergedFactors (h : ∀ f ∈ fs, Canonical f) {f : Expr}
    (hf : f ∈ mergedFactors fs) : Canonical f := by
  obtain ⟨g, hg, hgf⟩ := List.mem_filterMap.1 hf
  have hpower := powerGroup_of_mem_likeFactors h hg
  exact canonical_powerFactor hpower.base (canonical_mergedExponent hpower.parts) f hgf

theorem canonical_mergedFactors (h : ∀ f ∈ fs, Canonical f) :
    ∀ f ∈ withConst 1 (constantFactor fs) (mergedFactors fs), Canonical f :=
  canonical_withConst fun _ hf => canonical_of_mem_mergedFactors h hf

theorem powerFactor_asPower {f : Expr} (hf : Canonical f) :
    powerFactor (asPower f).1 (asPower f).2 = some f := by
  have hone (e : Expr) : powerFactor e (const 1) = some e := by
    rw [powerFactor, if_neg (by decide), if_pos rfl]
  cases f with
  | pow b p =>
    rw [asPower]
    split
    · exact hone _
    · have hs := hf.pow_shape
      rw [powerFactor, if_neg hs.power_ne_zero, if_neg hs.power_ne_one, powOf_eq_self hs]
  | _ => exact hone _

theorem mergedFactor_single (h : ∀ f ∈ fs, Canonical f) {g : Group Expr} (hg : g ∈ likeFactors fs)
    {p : Expr} (hp : g.parts = [p]) : mergedFactor g = some g.first ∧ p = (asPower g.first).2 := by
  obtain ⟨-, hb, ps, hps⟩ := groupAll_first hg
  obtain ⟨rfl, -⟩ := List.cons.inj (hp.symm.trans hps)
  rw [mergedFactor, hp, mergedExponent, hb]
  exact ⟨powerFactor_asPower (powerGroup_of_mem_likeFactors h hg).first.1, rfl⟩

theorem likePower_eq (h : ∀ f ∈ fs, Canonical f) {n : Nat} {g : Group Expr}
    (hg : g ∈ likeFactors fs) {r : Option Expr}
    (hr : likePower (sumWithin n) (powWithin n) g = some r) : r = mergedFactor g := by
  have hpower := powerGroup_of_mem_likeFactors h hg
  unfold likePower at hr
  split at hr
  · next p hp => rw [← Option.some.inj hr, (mergedFactor_single h hg hp).1]
  · next hp =>
    have hmany : mergedExponent g.parts = sumOf g.parts := by
      unfold mergedExponent
      split
      · next q hq => exact (hp q hq).elim
      · rfl
    obtain ⟨p, hsum, hr⟩ := Option.bind_eq_some_iff.1 hr
    obtain rfl := sumOf_of_within hpower.parts hsum
    have hpow (hr : (powWithin n g.base (sumOf g.parts)).map some = some r) :
        r = some (powOf g.base (sumOf g.parts)) := by
      obtain ⟨d, hd, rfl⟩ := map_some_eq hr
      rw [powOf_of_within hpower.base (closed_canonical.sum hpower.parts) hd]
    rw [mergedFactor, hmany, powerFactor]
    generalize sumOf g.parts = p at hr hpow
    cases p with
    | const c =>
      simp only [const.injEq] at hr ⊢
      split at hr
      · rw [if_pos ‹_›, Option.some.inj hr]
      rw [if_neg ‹_›]
      split at hr
      · rw [if_pos ‹_›, Option.some.inj hr]
      rw [if_neg ‹_›]
      exact hpow hr
    | _ => exact hpow hr

/-- Within one step, a product is put together from its constant and the merged factors, or it is left
to the other steps. -/
theorem productWithin_succ (h : ∀ f ∈ fs, Canonical f) {n : Nat} {e : Expr}
    (hn : productWithin (n + 1) fs = some e) :
    if constantFactor fs = 0 then e = const 0
    else if (mergedFactors fs).any fun e => e.isProduct || e.isConst then
      productWithin n (withConst 1 (constantFactor fs) (mergedFactors fs)) = some e
    else e = finish 1 product (withConst 1 (constantFactor fs) (mergedFactors fs)) := by
  simp only [productWithin, productBody, gather_eq_groupAll, foldr_mul] at hn
  split at hn
  · rw [constantFactor, if_pos ‹_›]
    exact (Option.some.inj hn).symm
  rw [constantFactor, if_neg ‹_›]
  simp only [Option.bind_eq_bind, Option.bind_eq_some_iff] at hn
  obtain ⟨merged, hm, he⟩ := hn
  have hmerged : merged.filterMap id = mergedFactors fs :=
    filterMap_of_mapM hm fun g hg r hr => likePower_eq h hg hr
  rw [hmerged] at he
  split at he
  · rw [if_pos ‹_›]
    exact he
  · rw [if_neg ‹_›]
    exact (Option.some.inj he).symm

/-- A product is put together from its constant and the merged factors, and taken once more if one
of them is a product or a constant. -/
theorem productOf_eq_merged (h : ∀ f ∈ fs, Canonical f) :
    productOf fs =
      if constantFactor fs = 0 then const 0
      else if (mergedFactors fs).any fun e => e.isProduct || e.isConst then
        productOf (withConst 1 (constantFactor fs) (mergedFactors fs))
      else finish 1 product (withConst 1 (constantFactor fs) (mergedFactors fs)) := by
  obtain ⟨n, hn⟩ := exists_productWithin h
  cases n with
  | zero => cases hn
  | succ n =>
    have he := productWithin_succ h hn
    split at he
    · rw [if_pos ‹_›]
      exact he
    rw [if_neg ‹_›]
    split at he
    · rw [if_pos ‹_›]
      exact (productOf_of_within (canonical_mergedFactors h) he).symm
    · rw [if_neg ‹_›]
      exact he

/-- What holds of a list of factors if it holds of the one for which its product is taken once
more. -/
theorem productOf_induction {P : List Expr → Prop}
    (step : ∀ fs, (∀ f ∈ fs, Canonical f) →
      (constantFactor fs ≠ 0 → ((mergedFactors fs).any fun e => e.isProduct || e.isConst) = true →
        P (withConst 1 (constantFactor fs) (mergedFactors fs))) → P fs)
    (h : ∀ f ∈ fs, Canonical f) : P fs := by
  obtain ⟨n, hn⟩ := exists_productWithin h
  generalize productOf fs = e at hn
  induction n generalizing fs with
  | zero => cases hn
  | succ n ih =>
    refine step fs h fun h0 hagain => ih (canonical_mergedFactors h) ?_
    have he := productWithin_succ h hn
    rwa [if_neg h0, if_pos hagain] at he

/-- Which factors there are, and how they are put together, does not depend on the constants. -/
theorem mergedFactors_congr
    (h : nonConstants (xs.flatMap factors) = nonConstants (ys.flatMap factors)) :
    mergedFactors xs = mergedFactors ys := by
  rw [mergedFactors, likeFactors, h]
  rfl

/-! Equal exponents. -/

theorem Alike.eq_const_iff {p q : Expr} (h : Alike p q) (c : Rat) : p = const c ↔ q = const c :=
  ⟨fun hp => (hp ▸ h).eq_const, fun hq => (hq ▸ h.symm).eq_const⟩

theorem powerFactor_alike {b b' p p' : Expr} (hb : Canonical b) (hp : Canonical p)
    (hb' : Canonical b') (hp' : Canonical p') (hbb : Alike b b') (hpp : Alike p p') :
    Option.Rel Alike (powerFactor b p) (powerFactor b' p') := by
  rw [powerFactor, powerFactor]
  simp only [hpp.eq_const_iff]
  split
  · exact .none
  split
  · exact .some hbb
  · exact .some (powOf_alike hb hp hb' hp' hbb hpp)

theorem rearranged_mergedFactors (hx : ∀ f ∈ xs, Canonical f) (hy : ∀ f ∈ ys, Canonical f)
    (h : ∀ b, Alike (mergedExponent (exponents b xs)) (mergedExponent (exponents b ys))) :
    Rearranged Alike (mergedFactors xs) (mergedFactors ys) := by
  have hnone (g : Group Expr) (hg : decide (mergedExponent g.parts ≠ const 0) = false) :
      mergedFactor g = none := powerFactor_eq_none.2 (by simpa using hg)
  refine rearranged_merged (fun ps => decide (mergedExponent ps ≠ const 0))
    (fun ps => decide (mergedExponent ps ≠ const 0)) rfl rfl hnone hnone (fun b => ?_) ?_
  · exact decide_eq_decide.2 (not_congr ((h b).eq_const_iff 0))
  · intro g hg g' hg' hb
    have hpower := powerGroup_of_mem_likeFactors hx hg
    have hpower' := powerGroup_of_mem_likeFactors hy hg'
    refine powerFactor_alike hpower.base (canonical_mergedExponent hpower.parts) hpower'.base
      (canonical_mergedExponent hpower'.parts) hb ?_
    rw [parts_eq_of_mem_groupAll hg, parts_eq_of_mem_groupAll hg', ← partsOfBase_congr hb]
    exact h g.base

/-- A product is determined by its constant and by its exponents. -/
theorem productOf_alike_of_exponents (hx : ∀ f ∈ xs, Canonical f) (hy : ∀ f ∈ ys, Canonical f)
    (hc : constantFactor xs = constantFactor ys)
    (h : ∀ b, Alike (mergedExponent (exponents b xs)) (mergedExponent (exponents b ys))) :
    Alike (productOf xs) (productOf ys) := by
  have hkx := canonical_mergedFactors hx
  have hky := canonical_mergedFactors hy
  rw [productOf_eq_merged hx, productOf_eq_merged hy]
  rw [hc] at hkx ⊢
  split
  · exact .refl _
  · exact finish_or_rebuild_alike commutes_productOf alike_product.2 isProduct_alike hkx hky
      (rearranged_mergedFactors hx hy h)

/-! Products of products. -/

/-- Every merged factor splits again into the base and the exponent that it was merged from, none is
opened or folded, and the exponents of a base can be added up in parts. -/
def MultipliesInParts (fs : List Expr) : Prop :=
  ∀ g ∈ likeFactors fs, AddsInParts g.parts ∧ ∀ f ∈ mergedFactor g, f.isProduct = false ∧
    f.isConst = false ∧ (asPower f).1.same g.base = true ∧
      (asPower f).2.same (sumOf g.parts) = true

instance (fs : List Expr) : Decidable (MultipliesInParts fs) :=
  inferInstanceAs (Decidable (∀ g ∈ likeFactors fs, AddsInParts g.parts ∧ ∀ f ∈ mergedFactor g,
    f.isProduct = false ∧ f.isConst = false ∧ (asPower f).1.same g.base = true ∧
      (asPower f).2.same (sumOf g.parts) = true))

/-- A power of a base that is no constant, no power and no product, taken apart. -/
theorem asPower_powerFactor {b p f : Expr} (hc : b.isConst = false) (hpow : b.isPow = false)
    (hprod : b.isProduct = false) (hf : f ∈ powerFactor b p) :
    f.isProduct = false ∧ f.isConst = false ∧ asPower f = (b, p) := by
  rw [Option.mem_def, powerFactor] at hf
  split at hf
  · cases hf
  next h0 =>
  split at hf
  · next h1 =>
    obtain rfl := Option.some.inj hf
    refine ⟨hprod, hc, ?_⟩
    rw [h1]
    cases b with
    | pow _ _ => cases hpow
    | _ => rfl
  · next h1 =>
    have hbase (x : Rat) : b ≠ const x := by
      rintro rfl
      cases hc
    have hshape : PowShape b p :=
      ⟨h0, h1, hbase 1, fun _ _ _ => ⟨hpow, hprod⟩, fun x _ hx => absurd hx (hbase x)⟩
    rw [powOf_eq_self hshape] at hf
    obtain rfl := Option.some.inj hf
    refine ⟨rfl, rfl, ?_⟩
    rw [asPower, hc]
    rfl

theorem addsInParts_of_consts {ps : List Expr} (h : ∀ p ∈ ps, p.isConst = true) : AddsInParts ps := by
  have hnil : nonConstants (ps.flatMap terms) = [] := by
    rw [nonConstants, List.filter_eq_nil_iff]
    intro t ht
    obtain ⟨p, hp, htp⟩ := List.mem_flatMap.1 ht
    obtain ⟨c, rfl⟩ := isConst_eq_true.1 (h p hp)
    rw [List.mem_singleton.1 htp]
    exact Bool.false_ne_true
  intro g hg
  rw [likeTerms, hnil] at hg
  cases hg

/-- Like powers can be multiplied in parts where their exponents can be added up in parts, where
nothing is left to be merged in an exponent that is alone on its base, and where a base of several
exponents is no power and no product. -/
theorem multipliesInParts_of_settled (h : ∀ f ∈ fs, Canonical f)
    (hs : ∀ g ∈ likeFactors fs, AddsInParts g.parts ∧ (∀ p, g.parts = [p] → Settled p) ∧
      (1 < g.parts.length → g.base.isPow = false ∧ g.base.isProduct = false)) :
    MultipliesInParts fs := by
  intro g hg
  have hpower := powerGroup_of_mem_likeFactors h hg
  obtain ⟨hparts, hone, hmany⟩ := hs g hg
  refine ⟨hparts, fun f hf => ?_⟩
  match hp : g.parts with
  | [] => exact absurd hp hpower.ne_nil
  | [p] =>
    obtain ⟨hfirst, heq⟩ := mergedFactor_single h hg hp
    obtain rfl : g.first = f := Option.some.inj (hfirst.symm.trans hf)
    obtain ⟨-, hb, -⟩ := groupAll_first hg
    have hsum : sumOf [p] = p.copied :=
      sumOf_singleton (hpower.parts p (hp ▸ List.mem_cons_self)) (hone p hp)
    refine ⟨hpower.first.2.2, hpower.first.2.1, same_iff.2 (hb ▸ .refl _), same_iff.2 ?_⟩
    rw [hsum, heq]
    exact Alike.symm (alike_copied _)
  | p :: q :: ps =>
    obtain ⟨hpow, hprod⟩ := hmany (by simp [hp])
    rw [mergedFactor, hp] at hf
    obtain ⟨hfp, hfc, hsplit⟩ := asPower_powerFactor hpower.base_ne hpow hprod hf
    rw [hsplit]
    exact ⟨hfp, hfc, same_iff.2 (.refl _), same_iff.2 (.refl _)⟩

theorem sumOf_nil : sumOf [] = const 0 := rfl

theorem canonical_exponents (h : ∀ f ∈ fs, Canonical f) (b : Expr) :
    ∀ p ∈ exponents b fs, Canonical p := by
  rcases group_of_base asPower b (nonConstants (fs.flatMap factors)) with
    ⟨hnil, -⟩ | ⟨g, hg, -, hp, -⟩
  · rw [exponents, hnil]
    exact List.forall_mem_nil _
  · rw [exponents, ← hp]
    exact (powerGroup_of_mem_likeFactors h hg).parts

/-- The exponents of a base can be added up in parts, and one alone is the sum of itself. -/
theorem MultipliesInParts.exponents (h : MultipliesInParts fs) (hfs : ∀ f ∈ fs, Canonical f)
    (b : Expr) :
    AddsInParts (exponents b fs) ∧ ∀ p, Expr.exponents b fs = [p] → Alike p (sumOf [p]) := by
  rcases group_of_base asPower b (nonConstants (fs.flatMap factors)) with
    ⟨hnil, -⟩ | ⟨g, hg, -, hp, -⟩
  · rw [Expr.exponents, hnil]
    exact ⟨List.forall_mem_nil _, fun p hp => by cases hp⟩
  · rw [Expr.exponents, ← hp]
    refine ⟨(h g hg).1, fun p hgp => ?_⟩
    obtain ⟨hf, rfl⟩ := mergedFactor_single hfs hg hgp
    have := ((h g hg).2 _ hf).2.2.2
    rw [hgp] at this
    exact same_iff.1 this

theorem sumOf_of_mergedFactor_none {g : Group Expr} (h : mergedFactor g = none) :
    sumOf g.parts = const 0 := by
  have hzero : mergedExponent g.parts = const 0 := powerFactor_eq_none.1 h
  unfold mergedExponent at hzero
  split at hzero
  · next p hp =>
    rw [hp, hzero]
    exact sumOf_singleton (.const 0) trivial
  · exact hzero

/-- A product has the constant of its factors, and for each base one exponent, which is the sum of
theirs, or none if that is zero. -/
theorem MultipliesInParts.productOf (h : MultipliesInParts fs) (hfs : ∀ f ∈ fs, Canonical f)
    (h0 : constantFactor fs ≠ 0) :
    constantFactor [productOf fs] = constantFactor fs ∧
      ∀ b, (Expr.exponents b [Expr.productOf fs] = [] ∧ sumOf (Expr.exponents b fs) = const 0) ∨
        ∃ q, Expr.exponents b [Expr.productOf fs] = [q] ∧
          Alike q (sumOf (Expr.exponents b fs)) := by
  have hopen : ∀ f ∈ mergedFactors fs, f.isConst = false ∧ f.isProduct = false := by
    intro f hf
    obtain ⟨g, hg, hgf⟩ := List.mem_filterMap.1 hf
    obtain ⟨hp, hc, -⟩ := (h g hg).2 f hgf
    exact ⟨hc, hp⟩
  have heq := productOf_eq_merged hfs
  rw [if_neg h0, any_again_eq_false.2 hopen, if_neg Bool.false_ne_true] at heq
  obtain ⟨hc, hn, -⟩ := opened_finish (fun _ => rfl) (fun _ => factors_eq) isProduct_alike
    (fun _ => rfl) hopen heq
  have hflat : [Expr.productOf fs].flatMap factors = (Expr.productOf fs).factors :=
    List.append_nil _
  refine ⟨?_, fun b => ?_⟩
  · rw [constantFactor, hflat]
    rcases hc with hc | ⟨hc, hone⟩
    · rw [hc, List.prod_singleton]
    · rw [hc, hone, List.prod_nil]
  · -- the one group of the base, if there is one, stands for all of its exponents
    have hsplit : ∀ g ∈ likeFactors fs, ∀ f ∈ mergedFactor g, Alike (asPower f).1 g.base :=
      fun g hg f hf => same_iff.1 ((h g hg).2 f hf).2.2.1
    have hr : Rearranged Alike (Expr.exponents b [Expr.productOf fs])
        ((((likeFactors fs).filter (b.alike ·.base)).filterMap mergedFactor).map
          fun f => (asPower f).2) := by
      rw [Expr.exponents, hflat, likeFactors, ← partsOfBase_merged hsplit]
      exact rearranged_partsOfBase b (hn.imp fun _ _ _ _ hab => splitAlike_asPower hab)
    rcases group_of_base asPower b (nonConstants (fs.flatMap factors)) with
      ⟨hnil, hfilter⟩ | ⟨g, hg, -, hgp, hfilter⟩
    · rw [likeFactors, hfilter] at hr
      rw [Expr.exponents, Expr.exponents, hnil] at *
      exact .inl ⟨List.length_eq_zero_iff.1 hr.length_eq, sumOf_nil⟩
    · rw [likeFactors, hfilter] at hr
      have hgp : Expr.exponents b fs = g.parts := hgp.symm
      rw [hgp]
      cases hf : mergedFactor g with
      | none =>
        rw [List.filterMap_cons_none hf] at hr
        exact .inl ⟨List.length_eq_zero_iff.1 hr.length_eq, sumOf_of_mergedFactor_none hf⟩
      | some f =>
        rw [List.filterMap_cons_some hf, List.filterMap_nil, List.map_singleton] at hr
        obtain ⟨q, hq, hqf⟩ := hr.singleton_right
        exact .inr ⟨q, hq, hqf.trans (same_iff.1 ((h g hg).2 f hf).2.2.2)⟩

theorem sumOf_zero {ps : List Expr} (hps : ∀ p ∈ ps, Canonical p) (ha : AddsInParts ps) :
    Alike (sumOf [sumOf ps, const 0]) (sumOf ps) := by
  have hs : Canonical (sumOf ps) := closed_canonical.sum hps
  obtain ⟨hc, hb⟩ := ha.sumOf hps
  have hpair : [sumOf ps, const 0] = [sumOf ps] ++ [const 0] := rfl
  have hzero : constantTerm [const 0] = 0 := List.sum_singleton
  have hnone (b : Expr) : coefficient b [const 0] = 0 := rfl
  refine sumOf_alike_of_coefficients (Closed.forall_pair hs (.const 0)) hps ?_ fun b => ?_
  · rw [hpair, constantTerm_append, hc, hzero, add_zero]
  · rw [hpair, coefficient_append, hb, hnone, add_zero]

/-- The exponents of a base in the product of two products add up to those of all factors. -/
theorem mergedExponent_nested {ps qs : List Expr} (hps : ∀ p ∈ ps, Canonical p)
    (hqs : ∀ q ∈ qs, Canonical q)
    (ha : AddsInParts ps) (hb : AddsInParts qs) (hp1 : ∀ p, ps = [p] → Alike p (sumOf [p]))
    (hq1 : ∀ q, qs = [q] → Alike q (sumOf [q])) {ps' qs' : List Expr}
    (hps' : ps' = [] ∧ sumOf ps = const 0 ∨ ∃ p, ps' = [p] ∧ Canonical p ∧ Alike p (sumOf ps))
    (hqs' : qs' = [] ∧ sumOf qs = const 0 ∨ ∃ q, qs' = [q] ∧ Canonical q ∧ Alike q (sumOf qs)) :
    Alike (mergedExponent (ps' ++ qs')) (mergedExponent (ps ++ qs)) := by
  have hcp : Canonical (sumOf ps) := closed_canonical.sum hps
  have hcq : Canonical (sumOf qs) := closed_canonical.sum hqs
  have hall : Alike (mergedExponent (ps ++ qs)) (sumOf (ps ++ qs)) := by
    unfold mergedExponent
    split
    · next r hr =>
      rw [hr]
      rcases List.append_eq_singleton_iff.1 hr with ⟨-, hq⟩ | ⟨hp, -⟩
      · exact hq1 r hq
      · exact hp1 r hp
    · exact .refl _
  have hboth : Alike (mergedExponent (ps' ++ qs')) (sumOf [sumOf ps, sumOf qs]) := by
    rcases hps' with ⟨rfl, hp0⟩ | ⟨p, rfl, hpc, hp⟩
    · rcases hqs' with ⟨rfl, hq0⟩ | ⟨q, rfl, hqc, hq⟩
      · have hzero : sumOf [const 0, const 0] = const 0 := by decide +kernel
        rw [hp0, hq0, hzero]
        exact .refl _
      · have hswap := Rearranged.of_perm (fun e _ => Alike.refl e)
          (List.Perm.swap (const 0) (sumOf qs) [])
        rw [hp0]
        calc Alike q (sumOf qs) := hq
          Alike _ (sumOf [sumOf qs, const 0]) := (sumOf_zero hqs hb).symm
          Alike _ (sumOf [const 0, sumOf qs]) := sumOf_alike (Closed.forall_pair hcq (.const 0))
            (Closed.forall_pair (.const 0) hcq) hswap
    · rcases hqs' with ⟨rfl, hq0⟩ | ⟨q, rfl, hqc, hq⟩
      · rw [hq0]
        exact hp.trans (sumOf_zero hps ha).symm
      · exact commutes_sumOf.pair hpc hqc hcp hcq hp hq
  calc Alike (mergedExponent (ps' ++ qs')) (sumOf [sumOf ps, sumOf qs]) := hboth
    Alike _ (sumOf (ps ++ qs)) := sumOf_nested hps hqs ha hb
    Alike _ (mergedExponent (ps ++ qs)) := hall.symm

theorem productOf_nested (hx : ∀ f ∈ xs, Canonical f) (hy : ∀ f ∈ ys, Canonical f)
    (hmx : MultipliesInParts xs) (hmy : MultipliesInParts ys) :
    Alike (productOf [productOf xs, productOf ys]) (productOf (xs ++ ys)) := by
  have hcx : Canonical (productOf xs) := closed_canonical.product hx
  have hcy : Canonical (productOf ys) := closed_canonical.product hy
  have hpair := Closed.forall_pair hcx hcy
  have happend := List.forall_mem_append.2 ⟨hx, hy⟩
  have hsplit : [productOf xs, productOf ys] = [productOf xs] ++ [productOf ys] := rfl
  -- a product of factors with zero among them is zero
  have hzero {fs : List Expr} (hfs : ∀ f ∈ fs, Canonical f) (h0 : constantFactor fs = 0) :
      constantFactor [productOf fs] = 0 := by
    rw [productOf_eq_merged hfs, if_pos h0]
    exact List.prod_singleton
  by_cases h0 : constantFactor xs = 0 ∨ constantFactor ys = 0
  · have hall : constantFactor (xs ++ ys) = 0 := by
      rw [constantFactor_append, mul_eq_zero]
      exact h0
    have hboth : constantFactor [productOf xs, productOf ys] = 0 := by
      rw [hsplit, constantFactor_append, mul_eq_zero]
      exact h0.imp (hzero hx) (hzero hy)
    rw [productOf_eq_merged hpair, if_pos hboth, productOf_eq_merged happend, if_pos hall]
    exact .refl _
  · obtain ⟨h0x, h0y⟩ := not_or.1 h0
    obtain ⟨hconstx, hbx⟩ := hmx.productOf hx h0x
    obtain ⟨hconsty, hby⟩ := hmy.productOf hy h0y
    refine productOf_alike_of_exponents hpair happend ?_ fun b => ?_
    · rw [hsplit, constantFactor_append, hconstx, hconsty, constantFactor_append]
    · rw [hsplit, exponents_append, exponents_append]
      obtain ⟨hax, hx1⟩ := hmx.exponents hx b
      obtain ⟨hay, hy1⟩ := hmy.exponents hy b
      have hcanonical {e : Expr} (he : Canonical e) {p : Expr} (hp : exponents b [e] = [p]) :
          Canonical p :=
        canonical_exponents (List.forall_mem_singleton.2 he) b p (hp ▸ List.mem_cons_self)
      refine mergedExponent_nested (canonical_exponents hx b) (canonical_exponents hy b) hax hay
        hx1 hy1 ((hbx b).imp id ?_) ((hby b).imp id ?_)
      · rintro ⟨p, hp, hpq⟩
        exact ⟨p, hp, hcanonical hcx hp, hpq⟩
      · rintro ⟨q, hq, hqp⟩
        exact ⟨q, hq, hcanonical hcy hq, hqp⟩

/-! Nested lists. -/

/-- A sum of two sums is that of all terms if the like terms of each can be merged first, and a
product of two products is that of all factors if the like powers of each can. -/
theorem nested_same {as bs : List Expr} (ha : ∀ a ∈ as, Constructible a)
    (hb : ∀ b ∈ bs, Constructible b) :
    (AddsInParts as → AddsInParts bs →
        (sumOf [sumOf as, sumOf bs]).same (sumOf (as ++ bs)) = true) ∧
      (MultipliesInParts as → MultipliesInParts bs →
        (productOf [productOf as, productOf bs]).same (productOf (as ++ bs)) = true) := by
  have hca : ∀ a ∈ as, Canonical a := fun a h => constructible_canonical (ha a h)
  have hcb : ∀ b ∈ bs, Canonical b := fun b h => constructible_canonical (hb b h)
  exact ⟨fun hs ht => same_iff.2 (sumOf_nested hca hcb hs ht),
    fun hs ht => same_iff.2 (productOf_nested hca hcb hs ht)⟩

/-- The sums `x + 2 * x + 3` and `x - 4`, and the products `x * x ^ 2 * 3` and `x * -4`, taken
together. -/
theorem nested_same_like :
    (sumOf [sumOf [ofName "x", const 2 * ofName "x", const 3], sumOf [ofName "x", const (-4)]]).same
        (sumOf [ofName "x", const 2 * ofName "x", const 3, ofName "x", const (-4)]) = true ∧
      (productOf [productOf [ofName "x", powOf (ofName "x") (const 2), const 3],
          productOf [ofName "x", const (-4)]]).same
        (productOf [ofName "x", powOf (ofName "x") (const 2), const 3, ofName "x", const (-4)]) =
          true := by
  have hx : Constructible (ofName "x") := .var _ _
  have hc (c : Rat) : Constructible (const c) := .const c
  have hdouble : Constructible (const 2 * ofName "x") := .product (Closed.forall_pair (hc 2) hx)
  have hsquare : Constructible (powOf (ofName "x") (const 2)) := .pow hx (hc 2)
  have hright := Closed.forall_pair hx (hc (-4))
  have hsum := List.forall_mem_cons.2 ⟨hx, Closed.forall_pair hdouble (hc 3)⟩
  have hproduct := List.forall_mem_cons.2 ⟨hx, Closed.forall_pair hsquare (hc 3)⟩
  -- every list has the one base `x`, which is no sum, and only constants as exponents
  have hadds {ts : List Expr} (hts : ∀ t ∈ ts, Constructible t)
      (hb : ∀ g ∈ likeTerms ts, g.base = ofName "x") : AddsInParts ts := by
    refine addsInParts_of_settled (fun t ht => constructible_canonical (hts t ht)) fun g hg => ?_
    rw [hb g hg]
    exact ⟨trivial, fun _ => rfl⟩
  have hmultiplies {fs : List Expr} (hfs : ∀ f ∈ fs, Constructible f)
      (hb : ∀ g ∈ likeFactors fs, g.base = ofName "x" ∧ ∀ p ∈ g.parts, p.isConst = true) :
      MultipliesInParts fs := by
    refine multipliesInParts_of_settled (fun f hf => constructible_canonical (hfs f hf)) fun g hg => ?_
    obtain ⟨hx, hconst⟩ := hb g hg
    refine ⟨addsInParts_of_consts hconst, fun p hp => ?_, fun _ => by rw [hx]; exact ⟨rfl, rfl⟩⟩
    obtain ⟨c, rfl⟩ := isConst_eq_true.1 (hconst p (hp ▸ List.mem_cons_self))
    trivial
  exact ⟨(nested_same hsum hright).1 (hadds hsum (by decide +kernel))
      (hadds hright (by decide +kernel)),
    (nested_same hproduct hright).2 (hmultiplies hproduct (by decide +kernel))
      (hmultiplies hright (by decide +kernel))⟩

def halfSum : Expr := half * (ofName "x" + ofName "y")

def powerOfTwo : Expr := powOf (const 2) (ofName "x")

theorem constructible_halfSum : Constructible halfSum :=
  .product (Closed.forall_pair (.pow (.const 2) (.const (-1)))
    (.sum (Closed.forall_pair (.var _ _) (.var _ _))))

/-- Two halves of a sum are the sum, of which the terms are added one by one, so the negative of the
sum does not cancel them. Two powers of two are a power of two with another exponent, which a third
one does not change. -/
theorem not_nested_same :
    Constructible halfSum ∧ Constructible powerOfTwo ∧
      (sumOf [sumOf [halfSum, halfSum], sumOf [negate (ofName "x" + ofName "y")]]).same
        (sumOf ([halfSum, halfSum] ++ [negate (ofName "x" + ofName "y")])) = false ∧
      (productOf [productOf [powerOfTwo, powerOfTwo], productOf [powerOfTwo]]).same
        (productOf ([powerOfTwo, powerOfTwo] ++ [powerOfTwo])) = false :=
  ⟨constructible_halfSum, .pow (.const 2) (.var _ _), by decide +kernel, by decide +kernel⟩

end Symbolic.Expr
