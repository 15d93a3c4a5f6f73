import Symbolic.Proofs.Canonical.Partial

/-!
Sums by their coefficients. A sum is put together from its constant and from one merged term for
each base (`sumOf_eq_merged`), so it is determined by its constant and by what the coefficients of
each base add up to (`sumOf_alike_of_coefficients`).

The sum of two sums adds the coefficients up in two rounds. It is the sum of all terms where the
merged terms of the first round bring the second the base and the coefficient that they were merged
from (`AddsInParts`, `sumOf_nested`): a base that is a sum must not be left alone, since its terms
would be added one by one, and like powers in a base would be merged (`addsInParts_of_settled`).
-/

namespace Symbolic.Expr

variable {xs ys ts : List Expr}

def likeTerms (ts : List Expr) : List (Group Rat) :=
  groupAll asMultiple (nonConstants (ts.flatMap terms))

/-- The term that a group gives way to: none if its coefficients cancel. -/
def mergedTerm (g : Group Rat) : Option Expr :=
  if g.parts.sum = 0 then none
  else if g.parts.sum = 1 then some g.base
  else some (productOf [const g.parts.sum, g.base])

def mergedTerms (ts : List Expr) : List Expr := (likeTerms ts).filterMap mergedTerm

def constantTerm (ts : List Expr) : Rat := (constants (ts.flatMap terms)).sum

def coefficient (b : Expr) (ts : List Expr) : Rat :=
  (partsOfBase asMultiple b (nonConstants (ts.flatMap terms))).sum

theorem constantTerm_append (xs ys : List Expr) :
    constantTerm (xs ++ ys) = constantTerm xs + constantTerm ys := by
  rw [constantTerm, List.flatMap_append, constants_append, List.sum_append]
  rfl

theorem coefficient_append (b : Expr) (xs ys : List Expr) :
    coefficient b (xs ++ ys) = coefficient b xs + coefficient b ys := by
  rw [coefficient, List.flatMap_append, nonConstants_append, partsOfBase_append,
    List.sum_append]
  rfl

/-- What a list is turned into, if every element is turned into what `m` says. -/
theorem filterMap_of_mapM {α β : Type} {f : α → Option (Option β)} {m : α → Option β}
    {us : List α} {vs : List (Option β)} (h : us.mapM f = some vs)
    (hm : ∀ u ∈ us, ∀ v, f u = some v → v = m u) : vs.filterMap id = us.filterMap m := by
  have hrel : List.Forall₂ (fun u v => m u = v) us vs :=
    forall₂_imp_of_mem (forall₂_of_mapM h) fun u hu v _ hv => (hm u hu v hv).symm
  have hmap : us.map m = vs := by
    rwa [← List.forall₂_eq_eq_eq, List.forall₂_map_left_iff]
  rw [← hmap, List.filterMap_map]
  rfl

theorem termGroup_of_mem_likeTerms (h : ∀ t ∈ ts, Canonical t) {g : Group Rat}
    (hg : g ∈ likeTerms ts) : TermGroup g :=
  termGroup_of_mem (opened_terms h) hg

theorem mergedTerm_eq_none {g : Group Rat} : mergedTerm g = none ↔ g.parts.sum = 0 := by
  rw [mergedTerm]
  split
  · simp [*]
  split
  · simp [*]
  · simp [*]

theorem canonical_mergedTerm {g : Group Rat} (hb : Canonical g.base) :
    ∀ t ∈ mergedTerm g, Canonical t := by
  intro t ht
  rw [Option.mem_def, mergedTerm] at ht
  split at ht
  · cases ht
  split at ht
  · exact Option.some.inj ht ▸ hb
  · exact Option.some.inj ht ▸ closed_canonical.product (Closed.forall_pair (.const _) hb)

theorem canonical_mergedTerms (h : ∀ t ∈ ts, Canonical t) :
    ∀ t ∈ withConst 0 (constantTerm ts) (mergedTerms ts), Canonical t := by
  refine canonical_withConst fun t ht => ?_
  obtain ⟨g, hg, hgt⟩ := List.mem_filterMap.1 ht
  exact canonical_mergedTerm (termGroup_of_mem_likeTerms h hg).base t hgt

theorem likeTerm_eq {n : Nat} {g : Group Rat} (hb : Canonical g.base) {r : Option Expr}
    (h : likeTerm (productWithin n) g = some r) : r = mergedTerm g := by
  simp only [likeTerm, foldr_add] at h
  rw [mergedTerm]
  split at h
  · rw [if_pos ‹_›, Option.some.inj h]
  rw [if_neg ‹_›]
  split at h
  · rw [if_pos ‹_›, Option.some.inj h]
  rw [if_neg ‹_›]
  obtain ⟨d, hd, rfl⟩ := map_some_eq h
  rw [productOf_of_within (Closed.forall_pair (.const _) hb) hd]

/-- Within one step, a sum is put together from its constant and the merged terms, or it is left to the
other steps. -/
theorem sumWithin_succ (h : ∀ t ∈ ts, Canonical t) {n : Nat} {e : Expr}
    (hn : sumWithin (n + 1) ts = some e) :
    if (mergedTerms ts).any fun e => e.isSum || e.isConst then
      sumWithin n (withConst 0 (constantTerm ts) (mergedTerms ts)) = some e
    else e = finish 0 sum (withConst 0 (constantTerm ts) (mergedTerms ts)) := by
  simp only [sumWithin, sumBody, gather_eq_groupAll, Option.bind_eq_bind,
    Option.bind_eq_some_iff, foldr_add] at hn
  obtain ⟨merged, hm, he⟩ := hn
  have hmerged : merged.filterMap id = mergedTerms ts :=
    filterMap_of_mapM hm fun g hg r hr =>
      likeTerm_eq (termGroup_of_mem_likeTerms h hg).base hr
  rw [hmerged] at he
  split at he
  · rw [if_pos ‹_›]
    exact he
  · rw [if_neg ‹_›]
    exact (Option.some.inj he).symm

/-- A sum is put together from its constant and the merged terms, and taken once more if one of them
is a sum or a constant. -/
theorem sumOf_eq_merged (h : ∀ t ∈ ts, Canonical t) :
    sumOf ts =
      if (mergedTerms ts).any fun e => e.isSum || e.isConst then
        sumOf (withConst 0 (constantTerm ts) (mergedTerms ts))
      else finish 0 sum (withConst 0 (constantTerm ts) (mergedTerms ts)) := by
  obtain ⟨n, hn⟩ := exists_sumWithin h
  cases n with
  | zero => cases hn
  | succ n =>
    have he := sumWithin_succ h hn
    split at he
    · rw [if_pos ‹_›]
      exact (sumOf_of_within (canonical_mergedTerms h) he).symm
    · rw [if_neg ‹_›]
      exact he

/-- What holds of a list of terms if it holds of the one for which its sum is taken once more. -/
theorem sumOf_induction {P : List Expr → Prop}
    (step : ∀ ts, (∀ t ∈ ts, Canonical t) →
      (((mergedTerms ts).any fun e => e.isSum || e.isConst) = true →
        P (withConst 0 (constantTerm ts) (mergedTerms ts))) → P ts)
    (h : ∀ t ∈ ts, Canonical t) : P ts := by
  obtain ⟨n, hn⟩ := exists_sumWithin h
  generalize sumOf ts = e at hn
  induction n generalizing ts with
  | zero => cases hn
  | succ n ih =>
    refine step ts h fun hagain => ih (canonical_mergedTerms h) ?_
    have he := sumWithin_succ h hn
    rwa [if_pos hagain] at he

/-- Which terms there are, and how they are put together, does not depend on the constants. -/
theorem mergedTerms_congr (h : nonConstants (xs.flatMap terms) = nonConstants (ys.flatMap terms)) :
    mergedTerms xs = mergedTerms ys := by
  rw [mergedTerms, likeTerms, h]
  rfl

/-! Equal coefficients. -/

theorem mergedTerm_alike {g g' : Group Rat} (hg : Canonical g.base) (hg' : Canonical g'.base)
    (hb : Alike g.base g'.base) (hp : g.parts.sum = g'.parts.sum) :
    Option.Rel Alike (mergedTerm g) (mergedTerm g') := by
  rw [mergedTerm, mergedTerm, hp]
  split
  · exact .none
  split
  · exact .some hb
  · exact .some (commutes_productOf.pair (.const _) hg (.const _) hg' (.refl _) hb)

theorem rearranged_mergedTerms (hx : ∀ t ∈ xs, Canonical t) (hy : ∀ t ∈ ys, Canonical t)
    (h : ∀ b, coefficient b xs = coefficient b ys) :
    Rearranged Alike (mergedTerms xs) (mergedTerms ys) := by
  have hnone (g : Group Rat) (hg : (g.parts.sum != 0) = false) : mergedTerm g = none :=
    mergedTerm_eq_none.2 (by simpa using hg)
  refine rearranged_merged (·.sum != 0) (·.sum != 0) rfl rfl hnone hnone (fun b => ?_) ?_
  · have hb := h b
    rw [coefficient, coefficient] at hb
    rw [hb]
  · intro g hg g' hg' hb
    refine mergedTerm_alike (termGroup_of_mem_likeTerms hx hg).base
      (termGroup_of_mem_likeTerms hy hg').base hb ?_
    rw [parts_eq_of_mem_groupAll hg, parts_eq_of_mem_groupAll hg', ← partsOfBase_congr hb]
    exact h g.base

theorem finish_or_rebuild_alike {rebuild : List Expr → Expr} (hr : Commutes rebuild) {unit c : Rat}
    {node : List Expr → Expr} {nested : Expr → Bool}
    (hnode : ∀ {as bs}, Rearranged Alike as bs → Alike (node as) (node bs))
    (hnested : ∀ {a b}, Alike a b → nested a = nested b) {kept kept' : List Expr}
    (hk : ∀ e ∈ withConst unit c kept, Canonical e)
    (hk' : ∀ e ∈ withConst unit c kept', Canonical e) (h : Rearranged Alike kept kept') :
    Alike
      (if kept.any fun e => nested e || e.isConst then rebuild (withConst unit c kept)
        else finish unit node (withConst unit c kept))
      (if kept'.any fun e => nested e || e.isConst then rebuild (withConst unit c kept')
        else finish unit node (withConst unit c kept')) := by
  have hall := rearranged_withConst unit c h
  rw [any_nested_eq hnested h]
  split
  · exact hr.alike hk hk' hall
  · exact alike_finish hnode hall

/-- A sum is determined by its constant and by its coefficients. -/
theorem sumOf_alike_of_coefficients (hx : ∀ t ∈ xs, Canonical t) (hy : ∀ t ∈ ys, Canonical t)
    (hc : constantTerm xs = constantTerm ys) (h : ∀ b, coefficient b xs = coefficient b ys) :
    Alike (sumOf xs) (sumOf ys) := by
  have hkx := canonical_mergedTerms hx
  have hky := canonical_mergedTerms hy
  rw [sumOf_eq_merged hx, sumOf_eq_merged hy]
  rw [hc] at hkx ⊢
  exact finish_or_rebuild_alike commutes_sumOf alike_sum.2 isSum_alike hkx hky
    (rearranged_mergedTerms hx hy h)

/-! Sums of sums. -/

/-- Every merged term splits again into the base and the coefficient that it was merged from, and
none is opened or folded. -/
def AddsInParts (ts : List Expr) : Prop :=
  ∀ g ∈ likeTerms ts, ∀ t ∈ mergedTerm g, t.isSum = false ∧ t.isConst = false ∧
    (asMultiple t).1.same g.base = true ∧ (asMultiple t).2 = g.parts.sum

instance (ts : List Expr) : Decidable (AddsInParts ts) :=
  inferInstanceAs (Decidable (∀ g ∈ likeTerms ts, ∀ t ∈ mergedTerm g, t.isSum = false ∧
    t.isConst = false ∧ (asMultiple t).1.same g.base = true ∧ (asMultiple t).2 = g.parts.sum))

theorem bare_asMultiple {e : Expr} (h : Canonical e) (hc : e.isConst = false) :
    ∀ f ∈ (asMultiple e).1.factors, f.isConst = false := by
  by_cases h1 : (asMultiple e).2 = 1
  · rw [asMultiple_one h h1]
    cases e with
    | product fs =>
      cases ht : takeConst? fs with
      | none => exact takeConst?_eq_none ht
      | some cr =>
        simp only [asMultiple, ht] at h1
        exact absurd h1 (ProductShape.eq_cons h.product_shape ht).2.2.1
    | _ => exact List.forall_mem_singleton.2 hc
  · obtain ⟨rest, heq, hbase, -, hrest⟩ := asMultiple_ne_one h h1
    have hopen : ∀ d ∈ rest, d.isProduct = false :=
      fun d hd => (heq ▸ h).product_shape.opened d (List.mem_cons_of_mem _ hd)
    rwa [hbase, factors_bareProduct hopen]

section Scaled

variable {b : Expr} {c : Rat}

theorem asMultiple_bare (hk : ∀ f ∈ b.factors, f.isConst = false) : asMultiple b = (b, 1) := by
  cases b with
  | product fs =>
    have hnil : constants fs = [] := constants_eq_nil hk
    have hnone : takeConst? fs = _ := takeConst?_of_one (by simp [hnil])
    rw [hnil, List.head?_nil, Option.map_none] at hnone
    simp only [asMultiple, hnone]
  | _ => rfl

theorem bareProduct_factors (hb : Canonical b) : bareProduct b.factors = b := by
  cases b with
  | product fs =>
    have htwo := hb.product_shape.two_le
    match fs with
    | [] => simp at htwo
    | [_] => simp at htwo
    | _ :: _ :: _ => rfl
  | _ => rfl

/-- The factors of a base, with a coefficient before them, are the factors of a product. -/
theorem productShape_scaled (hb : Canonical b) (hk : ∀ f ∈ b.factors, f.isConst = false)
    (h0 : c ≠ 0) (h1 : c ≠ 1) : ProductShape (const c :: b.factors) := by
  have hnil : constants (const c :: b.factors) = [c] := congrArg (c :: ·) (constants_eq_nil hk)
  have hfirst : ∀ f ∈ b.factors, order (const c) f ≠ .gt := by
    intro f hf
    rw [order_swap, order_const_right (hk f hf)]
    decide
  cases b with
  | product fs =>
    have hshape := hb.product_shape
    have htwo := hshape.two_le
    exact ⟨Nat.le_succ_of_le htwo, List.forall_mem_cons.2 ⟨rfl, hshape.opened⟩, by simp [hnil],
      by simp [hnil, h0, h1], List.pairwise_cons.2 ⟨hfirst, hshape.ascending⟩⟩
  | _ =>
    exact ⟨Nat.le_refl 2, Closed.forall_pair rfl rfl, by simp [hnil], by simp [hnil, h0, h1],
      List.pairwise_cons.2 ⟨hfirst, List.pairwise_singleton _ _⟩⟩

theorem Settled.powersMerged_factors {e : Expr} (h : Settled e) : PowersMerged e.factors := by
  cases e with
  | product fs => exact h
  | _ => exact apart_singleton _ _

/-- A base without like powers, with a coefficient, is the product of the coefficient and its
factors. -/
theorem productOf_scaled (hb : Canonical b) (hm : PowersMerged b.factors)
    (hk : ∀ f ∈ b.factors, f.isConst = false) (h0 : c ≠ 0) (h1 : c ≠ 1) :
    productOf [const c, b] = product (const c :: b.factors) := by
  have hnil : constants b.factors = [] := constants_eq_nil hk
  have hf : Factors b.factors := ⟨fun f hf => (hb.factors f hf).2, by simp [hnil], hm⟩
  have hall : Factors (const c :: b.factors) := hf.cons_const h0
  have hflat : [const c, b].flatMap factors = const c :: b.factors :=
    congrArg (const c :: ·) (List.append_nil _)
  rw [productOf_of_merged (hflat ▸ hall.opened) (hflat ▸ hall.merged), hflat, if_neg,
    finish_product_shape (productShape_scaled hb hk h0 h1)]
  exact fun hz => hall.kept (List.prod_eq_zero_iff.1 hz)

end Scaled

/-- Like terms can be added up in parts where nothing is left to be merged in their bases and where
no base that is a sum is left without a coefficient. -/
theorem addsInParts_of_settled (h : ∀ t ∈ ts, Canonical t)
    (hs : ∀ g ∈ likeTerms ts, Settled g.base ∧ (g.parts.sum = 1 → g.base.isSum = false)) :
    AddsInParts ts := by
  intro g hg t ht
  have hterm := termGroup_of_mem_likeTerms h hg
  obtain ⟨hsettled, hsum⟩ := hs g hg
  have hk : ∀ f ∈ g.base.factors, f.isConst = false := by
    rw [hterm.split.1]
    exact bare_asMultiple hterm.first.1 hterm.first.2.1
  rw [Option.mem_def, mergedTerm] at ht
  split at ht
  · cases ht
  next h0 =>
  split at ht
  · next h1 =>
    obtain rfl := Option.some.inj ht
    rw [asMultiple_bare hk]
    exact ⟨hsum h1, hterm.base_ne, same_iff.2 (.refl _), h1.symm⟩
  · next h1 =>
    obtain rfl := Option.some.inj ht
    rw [productOf_scaled hterm.base hsettled.powersMerged_factors hk h0 h1]
    refine ⟨rfl, rfl, ?_, rfl⟩
    show (bareProduct g.base.factors).same g.base = true
    rw [bareProduct_factors hterm.base]
    exact same_iff.2 (.refl _)

theorem sum_partsOfBase (b : Expr) (hxs : ∀ x ∈ xs, Canonical x) (h : Rearranged Alike xs ys) :
    (partsOfBase asMultiple b xs).sum = (partsOfBase asMultiple b ys).sum := by
  have hsplit : Rearranged (SplitAlike asMultiple Eq) xs ys :=
    h.imp fun x hx _ _ hxy => splitAlike_asMultiple (hxs x hx) hxy
  have hparts := (rearranged_partsOfBase b hsplit).perm_map (f := id) (g := id) fun _ _ _ _ h => h
  rw [List.map_id, List.map_id] at hparts
  exact hparts.sum_eq

theorem AddsInParts.sumOf (h : AddsInParts ts) (hts : ∀ t ∈ ts, Canonical t) :
    constantTerm [sumOf ts] = constantTerm ts ∧
      ∀ b, coefficient b [Expr.sumOf ts] = coefficient b ts := by
  have hopen : ∀ t ∈ mergedTerms ts, t.isConst = false ∧ t.isSum = false := by
    intro t ht
    obtain ⟨g, hg, hgt⟩ := List.mem_filterMap.1 ht
    obtain ⟨hs, hc, -⟩ := h g hg t hgt
    exact ⟨hc, hs⟩
  have heq := sumOf_eq_merged hts
  rw [any_again_eq_false.2 hopen, if_neg Bool.false_ne_true] at heq
  obtain ⟨hc, hn, -⟩ := opened_finish (fun _ => rfl) (fun _ => terms_eq) isSum_alike
    (fun _ => rfl) hopen heq
  have hflat : [Expr.sumOf ts].flatMap terms = (Expr.sumOf ts).terms := List.append_nil _
  refine ⟨?_, fun b => ?_⟩
  · rw [constantTerm, hflat]
    rcases hc with hc | ⟨hc, hzero⟩
    · rw [hc, List.sum_singleton]
    · rw [hc, hzero, List.sum_nil]
  · -- the one group of the base, if there is one, stands for all of its coefficients
    have hsplit : ∀ g ∈ likeTerms ts, ∀ t ∈ mergedTerm g, Alike (asMultiple t).1 g.base :=
      fun g hg t ht => same_iff.1 (h g hg t ht).2.2.1
    have hparts : coefficient b [Expr.sumOf ts] =
        ((((likeTerms ts).filter (b.alike ·.base)).filterMap mergedTerm).map
          fun t => (asMultiple t).2).sum := by
      have hcanon : ∀ t ∈ nonConstants (Expr.sumOf ts).terms, Canonical t := fun t ht =>
        ((closed_canonical.sum hts).terms t (mem_nonConstants.1 ht).1).1
      rw [coefficient, hflat, sum_partsOfBase b hcanon hn]
      exact congrArg List.sum (partsOfBase_merged hsplit b)
    rw [hparts]
    rcases group_of_base asMultiple b (nonConstants (ts.flatMap terms)) with
      ⟨hnil, hfilter⟩ | ⟨g, hg, -, hgp, hfilter⟩
    · rw [likeTerms, hfilter, coefficient, hnil]
      rfl
    · rw [likeTerms, hfilter, coefficient, ← hgp]
      cases ht : mergedTerm g with
      | none =>
        rw [List.filterMap_cons_none ht, mergedTerm_eq_none.1 ht]
        rfl
      | some t =>
        rw [List.filterMap_cons_some ht, List.filterMap_nil, List.map_singleton,
          List.sum_singleton, (h g hg t ht).2.2.2]

theorem canonical_pair_sumOf (hx : ∀ t ∈ xs, Canonical t) (hy : ∀ t ∈ ys, Canonical t) :
    ∀ t ∈ [sumOf xs, sumOf ys], Canonical t :=
  Closed.forall_pair (closed_canonical.sum hx) (closed_canonical.sum hy)

/-- The sum of two sums is that of all their terms. -/
theorem sumOf_nested (hx : ∀ t ∈ xs, Canonical t) (hy : ∀ t ∈ ys, Canonical t)
    (ha : AddsInParts xs) (hb : AddsInParts ys) :
    Alike (sumOf [sumOf xs, sumOf ys]) (sumOf (xs ++ ys)) := by
  obtain ⟨hcx, hbx⟩ := ha.sumOf hx
  obtain ⟨hcy, hby⟩ := hb.sumOf hy
  have hpair : [sumOf xs, sumOf ys] = [sumOf xs] ++ [sumOf ys] := rfl
  refine sumOf_alike_of_coefficients (canonical_pair_sumOf hx hy)
    (List.forall_mem_append.2 ⟨hx, hy⟩) ?_ fun b => ?_
  · rw [hpair, constantTerm_append, hcx, hcy, constantTerm_append]
  · rw [hpair, coefficient_append, hbx, hby, coefficient_append]

end Symbolic.Expr
