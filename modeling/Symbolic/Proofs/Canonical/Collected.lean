import Symbolic.Proofs.Canonical.Multiples

/-!
Like terms collect. The sum of multiples of one base is the multiple by all coefficients together, if
none of them is opened (`sumOf_multiples`). One that is opened is a sum, and is the heaviest base of the
list then: however often the sum is taken once more, the terms of that base stay what they are
(`coefficient_sumOf`), and those that were opened do not come to it. The main statement is
`sumOf_multiples_same_iff`.
-/

namespace Symbolic.Expr

variable {xs ys ts : List Expr}

theorem sumOf_congr (hx : ∀ t ∈ xs, Canonical t) (hy : ∀ t ∈ ys, Canonical t)
    (hc : constantTerm xs = constantTerm ys) (hm : mergedTerms xs = mergedTerms ys) :
    sumOf xs = sumOf ys := by
  rw [sumOf_eq_merged hx, sumOf_eq_merged hy, hc, hm]

/-! Sums of multiples. -/

section Sums

variable {b : Expr} {c d : Rat} {cs : List Rat}

/-- Multiples that are neither folded nor opened in a sum. -/
def Plain (b : Expr) (cs : List Rat) : Prop := ∀ c ∈ cs, c ≠ 0 ∧ (multiple c b).isSum = false

theorem Plain.flatMap_terms (h : Plain b cs) :
    (cs.map (multiple · b)).flatMap terms = cs.map (multiple · b) :=
  flatMap_eq_self (List.forall_mem_map.2 fun c hc => terms_eq (h c hc).2)

theorem Plain.isConst (h : Plain b cs) (hb : Bare b) :
    ∀ t ∈ cs.map (multiple · b), t.isConst = false :=
  List.forall_mem_map.2 fun c hc => hb.isConst_multiple (h c hc).1

theorem Plain.constantTerm (h : Plain b cs) (hb : Bare b) :
    Expr.constantTerm (cs.map (multiple · b)) = 0 := by
  rw [Expr.constantTerm, h.flatMap_terms, constants_eq_nil (h.isConst hb), List.sum_nil]

theorem groupAll_multiples (hb : Bare b) (hc : c ≠ 0) (hcs : ∀ d ∈ cs, d ≠ 0) :
    groupAll asMultiple ((c :: cs).map (multiple · b)) = [⟨b, multiple c b, c :: cs⟩] := by
  induction cs using List.reverseRecOn with
  | nil =>
    rw [List.map_singleton, groupAll, List.foldl_cons, hb.asMultiple_multiple hc]
    rfl
  | append_singleton cs d ih =>
    obtain ⟨hcs, hd⟩ := List.forall_mem_append.1 hcs
    have hsame : b.same b = true := same_iff.2 (.refl b)
    rw [← List.cons_append, List.map_append, List.map_singleton, groupAll_concat, ih hcs,
      hb.asMultiple_multiple (hd d List.mem_cons_self), Group.insert, if_pos hsame]
    rfl

theorem Plain.mergedTerms (h : Plain b (c :: cs)) (hb : Bare b) :
    Expr.mergedTerms ((c :: cs).map (multiple · b)) =
      (mergedTerm ⟨b, multiple c b, c :: cs⟩).toList := by
  obtain ⟨hc, hcs⟩ := List.forall_mem_cons.1 h
  rw [Expr.mergedTerms, likeTerms, h.flatMap_terms, nonConstants_eq_self (h.isConst hb),
    groupAll_multiples hb hc.1 fun d hd => (hcs d hd).1, List.filterMap_cons]
  cases mergedTerm ⟨b, multiple c b, c :: cs⟩ <;> rfl

theorem canonical_multiples (hb : Bare b) (cs : List Rat) :
    ∀ t ∈ cs.map (multiple · b), Canonical t :=
  List.forall_mem_map.2 fun c _ => hb.canonical_multiple c

/-- Coefficients are added up, if no multiple is opened. -/
theorem sumOf_multiples (hb : Bare b) (h : Plain b (c :: cs)) :
    sumOf ((c :: cs).map (multiple · b)) = sumOf [multiple (c :: cs).sum b] := by
  have hall := canonical_multiples hb (c :: cs)
  have hone := canonical_multiples hb [(c :: cs).sum]
  by_cases h0 : (c :: cs).sum = 0
  · have hnone : mergedTerm ⟨b, multiple c b, c :: cs⟩ = none := mergedTerm_eq_none.2 h0
    rw [sumOf_eq_merged hall, h.mergedTerms hb, h.constantTerm hb, hnone, h0, multiple_zero,
      sumOf_singleton (.const 0) trivial]
    rfl
  by_cases hsum : (multiple (c :: cs).sum b).isSum = true
  · -- the base is merged to itself, and opened
    obtain ⟨h1, hbs⟩ := eq_one_of_isSum_multiple hsum
    have hself : mergedTerm ⟨b, multiple c b, c :: cs⟩ = some b := by
      rw [mergedTerm, h1, if_neg one_ne_zero, if_pos rfl]
    rw [sumOf_eq_merged hall, h.mergedTerms hb, h.constantTerm hb, hself, h1, multiple_one,
      Option.toList_some, List.any_cons, hbs, Bool.true_or, Bool.true_or, if_pos rfl]
    rfl
  · have hplain : Plain b [(c :: cs).sum] :=
      List.forall_mem_singleton.2 ⟨h0, Bool.not_eq_true _ ▸ hsum⟩
    refine sumOf_congr hall hone ?_ ?_
    · exact (h.constantTerm hb).trans (hplain.constantTerm hb).symm
    · have hmerged : Expr.mergedTerms [multiple (c :: cs).sum b] = _ := hplain.mergedTerms hb
      rw [h.mergedTerms hb, hmerged, mergedTerm, mergedTerm]
      simp only [List.sum_singleton]

theorem sumOf_zero_cons (h : ∀ t ∈ ts, Canonical t) : sumOf (const 0 :: ts) = sumOf ts := by
  refine sumOf_congr (List.forall_mem_cons.2 ⟨.const 0, h⟩) h ?_ (mergedTerms_congr rfl)
  exact List.sum_cons.trans (zero_add _)

theorem sumOf_zero_concat (h : ∀ t ∈ ts, Canonical t) : sumOf (ts ++ [const 0]) = sumOf ts := by
  refine sumOf_congr (List.forall_mem_append.2 ⟨h, by simp [Canonical.const]⟩) h ?_
    (mergedTerms_congr ?_)
  · have hzero : Expr.constantTerm [const 0] = 0 := List.sum_singleton
    rw [constantTerm_append, hzero, add_zero]
  · rw [List.flatMap_append, nonConstants_append]
    exact List.append_nil _

/-- Two coefficients are added up if one of them is zero or neither multiple is opened. -/
theorem sumOf_pair_multiples (hb : Bare b)
    (h : c = 0 ∨ d = 0 ∨ (multiple c b).isSum = false ∧ (multiple d b).isSum = false) :
    sumOf [multiple c b, multiple d b] = sumOf [multiple (c + d) b] := by
  by_cases hc : c = 0
  · rw [hc, multiple_zero, zero_add]
    exact sumOf_zero_cons (canonical_multiples hb [d])
  by_cases hd : d = 0
  · rw [hd, multiple_zero, add_zero]
    exact @sumOf_zero_concat [multiple c b] (canonical_multiples hb [c])
  obtain ⟨hcs, hds⟩ := (h.resolve_left hc).resolve_left hd
  have hplain : Plain b [c, d] := by simp [Plain, hc, hd, hcs, hds]
  have hsum := sumOf_multiples hb hplain
  rwa [List.sum_pair] at hsum

end Sums

/-! A sum, and a multiple of it. -/

/-- Every term has the base `b` or a lighter one. -/
def Heaviest (b : Expr) (ts : List Expr) : Prop :=
  ∀ t ∈ nonConstants (ts.flatMap terms), Alike b (asMultiple t).1 ∨ mass (asMultiple t).1 < mass b

section Heaviest

variable {b : Expr} {g : Group Rat}

theorem mass_asMultiple_le {u t : Expr} (hu : Canonical u) (ht : t ∈ nonConstants u.terms) :
    mass (asMultiple t).1 ≤ mass u := by
  obtain ⟨ht, hc⟩ := mem_nonConstants.1 ht
  obtain ⟨-, -, -, hm⟩ := asMultiple_spec (hu.terms t ht).1 hc
  have hle : mass t ≤ masses u.terms := mass_le_masses ht
  have hterms : masses u.terms = mass u := by
    have := masses_terms [u]
    rwa [List.flatMap_singleton, masses_singleton] at this
  have hbase : mass (asMultiple t).1 ≤ mass t := by
    rw [hm, termMass]
    split <;> omega
  omega

/-- Of a merged term, no base is heavier than the one that it was merged from. -/
theorem mass_asMultiple_mergedTerm_le (hg : TermGroup g) {u : Expr} (hu : u ∈ mergedTerm g) :
    ∀ t ∈ nonConstants u.terms, mass (asMultiple t).1 ≤ mass g.base := by
  intro t ht
  have hk : ∀ f ∈ g.base.factors, f.isConst = false := by
    rw [hg.split.1]
    exact bare_asMultiple hg.first.1 hg.first.2.1
  rw [Option.mem_def, mergedTerm] at hu
  split at hu
  · cases hu
  next h0 =>
  split at hu
  · obtain rfl := Option.some.inj hu
    exact mass_asMultiple_le hg.base ht
  · next h1 =>
    obtain rfl := Option.some.inj hu
    have hpair := Closed.forall_pair (Canonical.const g.parts.sum) hg.base
    have hflat : [const g.parts.sum, g.base].flatMap factors = const g.parts.sum :: g.base.factors :=
      congrArg (const _ :: ·) (List.append_nil _)
    by_cases hm : PowersMerged g.base.factors
    · -- nothing is merged, so the base is found again
      rw [productOf_scaled hg.base hm hk h0 h1] at ht
      obtain rfl : t = _ := List.mem_singleton.1 (mem_nonConstants.1 ht).1
      show mass (bareProduct g.base.factors) ≤ _
      rw [bareProduct_factors hg.base]
    · -- what is merged makes up for the coefficient
      have hlt := (productOf_spec hpair).mass_lt (hflat ▸ hm)
      have hmass : masses [const g.parts.sum, g.base] = 1 + mass g.base := rfl
      have hle := mass_asMultiple_le (productOf_spec hpair).canonical ht
      omega

theorem coefficient_eq_sum (b : Expr) (ts : List Expr) :
    coefficient b ts = (ts.map fun t => coefficient b [t]).sum := by
  induction ts with
  | nil => rfl
  | cons t ts ih => rw [List.map_cons, List.sum_cons, ← ih, ← coefficient_append]; rfl

theorem coefficient_eq_zero
    (h : ∀ t ∈ nonConstants (ts.flatMap terms), mass (asMultiple t).1 < mass b) :
    coefficient b ts = 0 := by
  have hnone : partsOfBase asMultiple b (nonConstants (ts.flatMap terms)) = [] := by
    rw [partsOfBase, List.map_eq_nil_iff, List.filter_eq_nil_iff]
    exact fun t ht hb => (h t ht).ne (mass_alike hb).symm
  rw [coefficient, hnone, List.sum_nil]

theorem coefficient_eq_likeTerms (b : Expr) (ts : List Expr) :
    coefficient b ts =
      ((likeTerms ts).map fun g => if b.alike g.base then g.parts.sum else 0).sum := by
  have hfilter : ((likeTerms ts).map fun g => if b.alike g.base then g.parts.sum else 0).sum =
      (((likeTerms ts).filter (b.alike ·.base)).map fun g => g.parts.sum).sum := by
    induction likeTerms ts with
    | nil => rfl
    | cons g gs ih =>
      rw [List.map_cons, List.sum_cons, ih, List.filter_cons]
      split
      · rw [List.map_cons, List.sum_cons]
      · exact zero_add _
  rw [hfilter, coefficient]
  rcases group_of_base asMultiple b (nonConstants (ts.flatMap terms)) with
    ⟨hnil, hfilter⟩ | ⟨g, -, -, hgp, hfilter⟩
  · rw [likeTerms, hfilter, hnil]
    rfl
  · rw [likeTerms, hfilter, List.map_singleton, List.sum_singleton, hgp]

theorem coefficient_term {t : Expr} (hc : t.isConst = false) (hs : t.isSum = false) :
    coefficient b [t] = if b.alike (asMultiple t).1 then (asMultiple t).2 else 0 := by
  have hflat : nonConstants ([t].flatMap terms) = [t] := by
    rw [List.flatMap_singleton, terms_eq hs]
    exact nonConstants_eq_self (List.forall_mem_singleton.2 hc)
  rw [coefficient, hflat, partsOfBase, List.filter_cons]
  split
  · exact List.sum_singleton
  · rfl

theorem TermGroup.bare (h : TermGroup g) : Bare g.base where
  canonical := h.base
  factors := by
    rw [h.split.1]
    exact bare_asMultiple h.first.1 h.first.2.1

/-- Where no like powers are in a base, its terms are merged to a multiple of it. -/
theorem mergedTerm_eq_multiple (hb : Bare g.base) (hm : PowersMerged g.base.factors)
    (h0 : g.parts.sum ≠ 0) : mergedTerm g = some (multiple g.parts.sum g.base) := by
  rw [mergedTerm, multiple, if_neg h0, if_neg h0]
  split
  · rfl
  · rw [productOf_scaled hb.canonical hm hb.factors h0 ‹_›]

theorem heaviest_iff : Heaviest b ts ↔ ∀ u ∈ ts, Heaviest b [u] := by
  simp only [Heaviest, List.flatMap_singleton, mem_nonConstants, List.mem_flatMap]
  exact ⟨fun h u hu t ht => h t ⟨⟨u, hu, ht.1⟩, ht.2⟩,
    fun h t ⟨⟨u, hu, ht⟩, hc⟩ => h u hu t ⟨ht, hc⟩⟩

/-- The terms of a sum are merged to one that is not opened, unless they come to the sum itself. Those
of lighter bases are merged to such. -/
theorem heaviest_mergedTerm (hs : b.isSum = true) (hg : TermGroup g)
    (hh : Alike b g.base ∨ mass g.base < mass b) (h1 : Alike b g.base → g.parts.sum ≠ 1) {u : Expr}
    (hu : u ∈ mergedTerm g) :
    Heaviest b [u] ∧ coefficient b [u] = if b.alike g.base then g.parts.sum else 0 := by
  rcases hh with hb | hlt
  · have h0 : g.parts.sum ≠ 0 := fun h0 => by
      rw [mergedTerm_eq_none.2 h0] at hu
      cases hu
    have hbase : g.base.isSum = true := (isSum_alike hb).symm.trans hs
    have hm : PowersMerged g.base.factors := by
      obtain ⟨us, hus⟩ := isSum_eq_true.1 hbase
      rw [hus]
      exact apart_singleton _ _
    rw [mergedTerm_eq_multiple hg.bare hm h0, Option.mem_some_iff] at hu
    subst hu
    have hopen : (multiple g.parts.sum g.base).isSum = false :=
      Bool.not_eq_true _ ▸ fun h => h1 hb (eq_one_of_isSum_multiple h).1
    have hc := hg.bare.isConst_multiple h0
    have hsplit := hg.bare.asMultiple_multiple h0
    refine ⟨fun t ht => .inl ?_, by rw [coefficient_term hc hopen, hsplit]⟩
    rw [List.flatMap_singleton, terms_eq hopen] at ht
    rw [List.mem_singleton.1 (mem_nonConstants.1 ht).1, hsplit]
    exact hb
  · have hlight : ∀ t ∈ nonConstants ([u].flatMap terms), mass (asMultiple t).1 < mass b := by
      rw [List.flatMap_singleton]
      exact fun t ht => (mass_asMultiple_mergedTerm_le hg hu t ht).trans_lt hlt
    refine ⟨fun t ht => .inr (hlight t ht), ?_⟩
    rw [coefficient_eq_zero hlight, if_neg fun hb => hlt.ne (mass_alike hb).symm]

/-- What is taken once more has no heavier terms, and the same coefficient. -/
theorem heaviest_again (hs : b.isSum = true) (hts : ∀ t ∈ ts, Canonical t)
    (hh : Heaviest b ts) (h1 : coefficient b ts ≠ 1) :
    Heaviest b (mergedTerms ts) ∧ coefficient b (mergedTerms ts) = coefficient b ts := by
  have hgroup : ∀ g ∈ likeTerms ts, ∀ u ∈ mergedTerm g,
      Heaviest b [u] ∧ coefficient b [u] = if b.alike g.base then g.parts.sum else 0 := by
    intro g hg u hu
    have hterm := termGroup_of_mem_likeTerms hts hg
    refine heaviest_mergedTerm hs hterm ?_ (fun hb => ?_) hu
    · obtain ⟨hf, hgb, -⟩ := groupAll_first hg
      rw [hgb]
      exact hh _ hf
    · rwa [parts_eq_of_mem_groupAll hg, ← partsOfBase_congr hb]
  refine ⟨heaviest_iff.2 fun u hu => ?_, ?_⟩
  · obtain ⟨g, hg, hgu⟩ := List.mem_filterMap.1 hu
    exact (hgroup g hg u hgu).1
  · have hmap : mergedTerms ts = ((likeTerms ts).map mergedTerm).filterMap id := by
      rw [List.filterMap_map]
      rfl
    rw [coefficient_eq_sum, hmap, sum_map_filterMap_id, List.map_map, coefficient_eq_likeTerms b ts]
    refine congrArg List.sum (List.map_congr_left fun g hg => ?_)
    show (mergedTerm g).elim 0 (fun u => coefficient b [u]) = _
    cases hu : mergedTerm g with
    | none =>
      rw [mergedTerm_eq_none.1 hu, ite_self]
      rfl
    | some u => exact (hgroup g hg u hu).2

/-- A sum that is the heaviest base of a list keeps its coefficient when the list is summed up. -/
theorem coefficient_sumOf (hs : b.isSum = true) (hts : ∀ t ∈ ts, Canonical t)
    (hh : Heaviest b ts) (h1 : coefficient b ts ≠ 1) :
    coefficient b [sumOf ts] = coefficient b ts := by
  refine sumOf_induction (P := fun ts => Heaviest b ts → coefficient b ts ≠ 1 →
    coefficient b [sumOf ts] = coefficient b ts) (fun ts hts ih hh h1 => ?_) hts hh h1
  obtain ⟨hnext, hcoeff⟩ := heaviest_again hs hts hh h1
  have hall : nonConstants ((withConst 0 (constantTerm ts) (mergedTerms ts)).flatMap terms) =
      nonConstants ((mergedTerms ts).flatMap terms) := nonConstants_withConst (fun _ => rfl) _ _ _
  have heq := sumOf_eq_merged hts
  split at heq
  · next hagain =>
    have hkept : coefficient b (withConst 0 (constantTerm ts) (mergedTerms ts)) =
        coefficient b ts := by
      rw [← hcoeff, coefficient, hall]
      rfl
    rw [heq, ih hagain ?_ (hkept ▸ h1), hkept]
    rw [Heaviest, hall]
    exact hnext
  · next hkept =>
    have hkept := any_again_eq_false.1 (Bool.not_eq_true _ ▸ hkept)
    obtain ⟨-, hr, -⟩ :=
      opened_finish (fun _ => rfl) (fun _ => terms_eq) isSum_alike (fun _ => rfl) hkept heq
    have hflat : nonConstants ((mergedTerms ts).flatMap terms) = mergedTerms ts := by
      rw [flatMap_eq_self fun t ht => terms_eq (hkept t ht).2]
      exact nonConstants_eq_self fun t ht => (hkept t ht).1
    rw [← hcoeff, coefficient, coefficient, List.flatMap_singleton, hflat]
    refine sum_partsOfBase b (fun t ht => ?_) hr
    exact ((closed_canonical.sum hts).terms t (mem_nonConstants.1 ht).1).1

theorem coefficient_alike {u v : Expr} (hu : Canonical u) (h : Alike u v) :
    coefficient b [u] = coefficient b [v] := by
  rw [coefficient, coefficient, List.flatMap_singleton, List.flatMap_singleton]
  refine sum_partsOfBase b (fun t ht => ?_) (rearranged_nonConstants h.terms)
  exact (hu.terms t (mem_nonConstants.1 ht).1).1

theorem mass_lt_of_mem_terms {t : Expr} (hb : Canonical b) (hs : b.isSum = true) (ht : t ∈ b.terms) :
    mass t < mass b := by
  obtain ⟨us, rfl⟩ := isSum_eq_true.1 hs
  have htwo := hb.sum_shape.two_le
  have hall : ∀ u ∈ us, Canonical u := hb.operands
  obtain ⟨vs, ws, rfl⟩ := List.append_of_mem (show t ∈ us from ht)
  obtain ⟨hvs, hws⟩ := List.forall_mem_append.1 hall
  have hv := length_le_masses hvs
  have hw := length_le_masses (List.forall_mem_cons.1 hws).2
  rw [List.length_append, List.length_cons] at htwo
  rw [mass, masses_append, masses]
  omega

theorem bare_of_isSum (hb : Canonical b) (hs : b.isSum = true) : Bare b := by
  obtain ⟨us, rfl⟩ := isSum_eq_true.1 hs
  exact ⟨hb, List.forall_mem_singleton.2 rfl⟩

/-- A sum is the base of its multiples, but not of itself: it is opened, and its terms are lighter. -/
theorem coefficient_multiple (hb : Canonical b) (hs : b.isSum = true) (d : Rat) :
    Heaviest b [multiple d b] ∧ coefficient b [multiple d b] = if d = 1 then 0 else d := by
  have hbare := bare_of_isSum hb hs
  by_cases h0 : d = 0
  · rw [h0, multiple_zero, if_neg zero_ne_one]
    exact ⟨fun _ ht => (List.not_mem_nil ht).elim, rfl⟩
  by_cases h1 : d = 1
  · have hlight : ∀ t ∈ nonConstants ([b].flatMap terms), mass (asMultiple t).1 < mass b := by
      intro t ht
      rw [List.flatMap_singleton] at ht
      obtain ⟨htb, hc⟩ := mem_nonConstants.1 ht
      obtain ⟨htc, hts⟩ := hb.terms t htb
      refine (mass_asMultiple_le htc ?_).trans_lt (mass_lt_of_mem_terms hb hs htb)
      rw [terms_eq hts]
      exact mem_nonConstants.2 ⟨List.mem_cons_self, hc⟩
    rw [h1, multiple_one, if_pos rfl]
    exact ⟨fun t ht => .inr (hlight t ht), coefficient_eq_zero hlight⟩
  · have hopen : (multiple d b).isSum = false :=
      Bool.not_eq_true _ ▸ fun h => h1 (eq_one_of_isSum_multiple h).1
    have hsplit := hbare.asMultiple_multiple h0
    refine ⟨fun t ht => .inl ?_, ?_⟩
    · rw [List.flatMap_singleton, terms_eq hopen] at ht
      rw [List.mem_singleton.1 (mem_nonConstants.1 ht).1, hsplit]
      exact .refl b
    · rw [coefficient_term (hbare.isConst_multiple h0) hopen, hsplit, if_pos (alike_refl b), if_neg h1]

/-- A sum and a multiple of it, added up, have the coefficient of the multiple. -/
theorem coefficient_sumOf_multiple (hb : Canonical b) (hs : b.isSum = true) (d : Rat) :
    coefficient b [sumOf [b, multiple d b]] = if d = 1 then 0 else d := by
  have hbare := bare_of_isSum hb hs
  have hpair := Closed.forall_pair hb (hbare.canonical_multiple d)
  obtain ⟨hself, hnone⟩ := coefficient_multiple hb hs 1
  obtain ⟨hother, hsome⟩ := coefficient_multiple hb hs d
  rw [multiple_one] at hself hnone
  rw [if_pos rfl] at hnone
  have hcoeff : coefficient b [b, multiple d b] = if d = 1 then 0 else d := by
    rw [← hsome, ← zero_add (coefficient b [multiple d b]), ← hnone, ← coefficient_append]
    rfl
  have hne : coefficient b [b, multiple d b] ≠ 1 := by
    rw [hcoeff]
    split
    · exact zero_ne_one
    · assumption
  rw [coefficient_sumOf hs hpair (heaviest_iff.2 (Closed.forall_pair hself hother)) hne, hcoeff]

theorem not_alike_sumOf_multiple {d : Rat} (hb : Canonical b) (hs : b.isSum = true) (hd : d ≠ 0) :
    ¬Alike (sumOf [b, multiple d b]) (multiple (1 + d) b) := by
  intro h
  have hpair := Closed.forall_pair hb ((bare_of_isSum hb hs).canonical_multiple d)
  have hkept := coefficient_sumOf_multiple hb hs d
  rw [coefficient_alike (closed_canonical.sum hpair) h, (coefficient_multiple hb hs (1 + d)).2,
    if_neg (by simpa using hd)] at hkept
  -- what is lost is the coefficient one of the sum
  split at hkept
  · next h1 =>
    rw [h1, one_add_one_eq_two] at hkept
    exact two_ne_zero hkept
  · exact absurd hkept (by simp)

theorem isConst_sumOf_negated (hb : Canonical b) (hs : b.isSum = true) :
    (sumOf [b, multiple (-1) b]).isConst = false := by
  by_contra hc
  obtain ⟨c, hc⟩ := isConst_eq_true.1 (Bool.not_eq_false _ ▸ hc)
  have hkept := coefficient_sumOf_multiple hb hs (-1)
  rw [hc, if_neg (by decide)] at hkept
  have hnone : coefficient b [const c] = 0 := rfl
  rw [hnone] at hkept
  exact absurd hkept (by decide)

end Heaviest

theorem sumOf_swap {u v : Expr} (hu : Canonical u) (hv : Canonical v) :
    Alike (sumOf [u, v]) (sumOf [v, u]) :=
  sumOf_alike (Closed.forall_pair hu hv) (Closed.forall_pair hv hu)
    (.of_perm (fun t _ => .refl t) (.swap _ _ _))

/-- Two multiples of a base add up to a multiple exactly if this is left as it is, and unless one of
them is opened though the other is not zero. -/
theorem sumOf_pair_multiples_iff {b : Expr} (hb : Bare b) (c d : Rat) :
    Alike (sumOf [multiple c b, multiple d b]) (multiple (c + d) b) ↔
      Alike (sumOf [multiple (c + d) b]) (multiple (c + d) b) ∧
        (c = 0 ∨ d = 0 ∨ (multiple c b).isSum = false ∧ (multiple d b).isSum = false) := by
  by_cases h : c = 0 ∨ d = 0 ∨ (multiple c b).isSum = false ∧ (multiple d b).isSum = false
  · rw [sumOf_pair_multiples hb h, and_iff_left h]
  · refine iff_of_false (fun hall => ?_) fun hall => h hall.2
    obtain ⟨hc, hd, hsum⟩ : c ≠ 0 ∧ d ≠ 0 ∧
        ((multiple c b).isSum = true ∨ (multiple d b).isSum = true) := by
      simp only [not_or, not_and_or, Bool.not_eq_false] at h
      exact h
    rcases hsum with hsum | hsum
    · obtain ⟨rfl, hs⟩ := eq_one_of_isSum_multiple hsum
      rw [multiple_one] at hall
      exact not_alike_sumOf_multiple hb.canonical hs hd hall
    · obtain ⟨rfl, hs⟩ := eq_one_of_isSum_multiple hsum
      rw [multiple_one, add_comm] at hall
      have hswap := sumOf_swap hb.canonical (hb.canonical_multiple c)
      exact not_alike_sumOf_multiple hb.canonical hs hc (hswap.trans hall)

theorem sumOf_consts (c d : Rat) : sumOf [const c, const d] = const (c + d) := by
  have hsum : constantTerm [const c, const d] = c + d := List.sum_pair
  rw [sumOf_eq_merged (Closed.forall_pair (.const c) (.const d)), hsum]
  show finish 0 sum (withConst 0 (c + d) []) = _
  rw [withConst]
  split
  · next h0 => rw [h0]; rfl
  · rfl

theorem productOf_one_cons (h : ∀ f ∈ fs, Canonical f) : productOf (const 1 :: fs) = productOf fs := by
  refine productOf_congr (List.forall_mem_cons.2 ⟨.const 1, h⟩) h ?_ rfl
  rw [constantFactor_cons, one_mul]

theorem productOf_zero_cons (h : ∀ f ∈ fs, Canonical f) : productOf (const 0 :: fs) = const 0 := by
  rw [productOf_eq_merged (List.forall_mem_cons.2 ⟨.const 0, h⟩), constantFactor_cons, zero_mul,
    if_pos rfl]

theorem sumOf_scaled_iff {e : Expr} (he : Canonical e) (m n : Rat) :
    Alike (sumOf [productOf [const m, e], productOf [const n, e]]) (productOf [const (m + n), e]) ↔
      Alike (sumOf [productOf [const (m + n), e]]) (productOf [const (m + n), e]) ∧
        (m = 0 ∨ n = 0 ∨
          (productOf [const m, e]).isSum = false ∧ (productOf [const n, e]).isSum = false) := by
  obtain ⟨c, hc | ⟨h0, b, hb, hc⟩⟩ := sharesBase (List.forall_mem_singleton.2 he)
  · have hsum : sumOf [const ((m + n) * c)] = const ((m + n) * c) :=
      sumOf_singleton (.const _) trivial
    rw [hc, hc, hc, sumOf_consts, hsum, add_mul]
    exact iff_of_true (.refl _) ⟨.refl _, .inr (.inr ⟨rfl, rfl⟩)⟩
  · have hzero (k : Rat) : k = 0 ↔ k * c = 0 := by rw [mul_eq_zero, or_iff_left h0]
    have hscaled (k : Rat) : Canonical (productOf [const k, e]) :=
      closed_canonical.product (Closed.forall_pair (.const k) he)
    have hpair := commutes_sumOf.pair (hscaled m) (hscaled n) (hb.canonical_multiple _)
      (hb.canonical_multiple _) (hc m) (hc n)
    have hself := sumOf_alike (List.forall_mem_singleton.2 (hscaled (m + n)))
      (List.forall_mem_singleton.2 (hb.canonical_multiple _)) (.singleton (hc (m + n)))
    rw [hpair.congr (hc (m + n)), hself.congr (hc (m + n)), isSum_alike (hc m), isSum_alike (hc n),
      add_mul, hzero m, hzero n]
    exact sumOf_pair_multiples_iff hb _ _

/-- What is left as it is in a product by itself cancels exactly if neither it nor its negative is a
sum. -/
theorem subtract_alike_iff {e : Expr} (he : Canonical e) (hself : Alike (productOf [e]) e) :
    Alike (subtract e e) (const 0) ↔ e.isSum = false ∧ (negate e).isSum = false := by
  have hone := List.forall_mem_singleton.2 he
  rw [← productOf_one_cons hone] at hself
  have hzero : productOf [const (1 + -1), e] = const 0 := by
    rw [add_neg_cancel, productOf_zero_cons hone]
  have hsub : Alike (sumOf [productOf [const 1, e], negate e]) (subtract e e) :=
    commutes_sumOf.pair (closed_canonical.product (Closed.forall_pair (.const 1) he))
      (closed_canonical.negate he) he (closed_canonical.negate he) hself (.refl _)
  have hiff := sumOf_scaled_iff he 1 (-1)
  have hnone : sumOf [const 0] = const 0 := sumOf_singleton (.const 0) trivial
  rw [hzero, hnone, isSum_alike hself] at hiff
  calc Alike (subtract e e) (const 0)
      ↔ Alike (sumOf [productOf [const 1, e], negate e]) (const 0) := ⟨hsub.trans, hsub.symm.trans⟩
    _ ↔ e.isSum = false ∧ (negate e).isSum = false := by
        rw [negate, hiff]
        simp [Alike.refl]

/-- Where it does not cancel, what is left is no constant. -/
theorem isConst_subtract {e : Expr} (he : Canonical e) (hself : Alike (productOf [e]) e)
    (h : ¬Alike (subtract e e) (const 0)) : (subtract e e).isConst = false := by
  rw [subtract_alike_iff he hself] at h
  have hone := List.forall_mem_singleton.2 he
  have hneg := closed_canonical.negate he
  rw [← productOf_one_cons hone] at hself
  obtain ⟨c, hc | ⟨-, b, hb, hc⟩⟩ := sharesBase hone
  · rw [negate, hc, ← isSum_alike hself, hc] at h
    exact absurd ⟨rfl, rfl⟩ h
  have hnegate : Alike (negate e) (multiple (-1 * c) b) := hc (-1)
  replace hself : Alike (multiple c b) e := by
    rw [← one_mul c]
    exact (hc 1).symm.trans hself
  by_cases hsum : e.isSum = true
  · obtain ⟨rfl, hs⟩ := eq_one_of_isSum_multiple ((isSum_alike hself).trans hsum)
    rw [multiple_one] at hself
    rw [mul_one] at hnegate
    have hpair := commutes_sumOf.pair he hneg hb.canonical (hb.canonical_multiple _) hself.symm
      hnegate
    exact (isConst_alike hpair).trans (isConst_sumOf_negated hb.canonical hs)
  · have hnsum : (negate e).isSum = true := by
      by_contra hn
      exact h ⟨Bool.not_eq_true _ ▸ hsum, Bool.not_eq_true _ ▸ hn⟩
    obtain ⟨h1, hs⟩ := eq_one_of_isSum_multiple ((isSum_alike hnegate).symm.trans hnsum)
    obtain rfl : c = -1 := neg_eq_iff_eq_neg.1 (neg_one_mul c ▸ h1)
    rw [h1, multiple_one] at hnegate
    have hpair := commutes_sumOf.pair hneg he hb.canonical (hb.canonical_multiple _) hnegate
      hself.symm
    exact (isConst_alike ((sumOf_swap he hneg).trans hpair)).trans
      (isConst_sumOf_negated hb.canonical hs)

/-- Like terms collect: the sum of two multiples of an expression is its multiple by both coefficients
exactly if that multiple is left as it is in a sum by itself, and unless one of the two multiples is a
sum, which is opened, though the other is not zero. An expression that is left as it is in a product by
itself cancels against itself exactly if neither it nor its negative is a sum. -/
theorem sumOf_multiples_same_iff {e : Expr} (he : Constructible e) :
    (∀ m n : Rat,
      (sumOf [productOf [const m, e], productOf [const n, e]]).same
          (productOf [const (m + n), e]) = true ↔
        (sumOf [productOf [const (m + n), e]]).same (productOf [const (m + n), e]) = true ∧
          (m = 0 ∨ n = 0 ∨
            (productOf [const m, e]).isSum = false ∧ (productOf [const n, e]).isSum = false)) ∧
      ((productOf [e]).same e = true →
        ((subtract e e).same (const 0) = true ↔ e.isSum = false ∧ (negate e).isSum = false)) := by
  have hc := constructible_canonical he
  refine ⟨fun m n => by simpa only [same_iff] using sumOf_scaled_iff hc m n, fun hself => ?_⟩
  rw [same_iff]
  exact subtract_alike_iff hc (same_iff.1 hself)

/-- Two thirds and a third of `x ^ 2 * y`, and `x ^ 2 * y` less itself. -/
theorem sumOf_multiples_same_iff_square :
    Constructible (productOf [powOf (ofName "x") (const 2), ofName "y"]) ∧
      (sumOf [productOf [const (2 / 3), productOf [powOf (ofName "x") (const 2), ofName "y"]],
        productOf [const (1 / 3), productOf [powOf (ofName "x") (const 2), ofName "y"]]]).same
        (productOf [const (2 / 3 + 1 / 3), productOf [powOf (ofName "x") (const 2), ofName "y"]]) =
          true ∧
      (subtract (productOf [powOf (ofName "x") (const 2), ofName "y"])
        (productOf [powOf (ofName "x") (const 2), ofName "y"])).same (const 0) = true := by
  have he : Constructible (productOf [powOf (ofName "x") (const 2), ofName "y"]) :=
    .product (Closed.forall_pair (.pow (.var _ _) (.const 2)) (.var _ _))
  obtain ⟨hsum, hzero⟩ := sumOf_multiples_same_iff he
  refine ⟨he, (hsum _ _).2 ⟨by decide +kernel, .inr (.inr ⟨?_, ?_⟩)⟩, (hzero ?_).2 ⟨?_, ?_⟩⟩
  all_goals decide +kernel

/-- The sum `x + y` is opened, so its terms do not meet its negative; twice the sum and its negative do
cancel. -/
theorem not_sumOf_multiples_same :
    Constructible (ofName "x" + ofName "y") ∧
      (sumOf [productOf [const 1, ofName "x" + ofName "y"],
        productOf [const (-1), ofName "x" + ofName "y"]]).same
          (productOf [const (1 + -1), ofName "x" + ofName "y"]) = false ∧
      (subtract (ofName "x" + ofName "y") (ofName "x" + ofName "y")).same (const 0) = false ∧
      (sumOf [productOf [const 2, ofName "x" + ofName "y"],
        productOf [const (-2), ofName "x" + ofName "y"]]).same
          (productOf [const (2 + -2), ofName "x" + ofName "y"]) = true :=
  ⟨.sum (Closed.forall_pair (.var _ _) (.var _ _)), by decide +kernel, by decide +kernel,
    by decide +kernel⟩

end Symbolic.Expr
