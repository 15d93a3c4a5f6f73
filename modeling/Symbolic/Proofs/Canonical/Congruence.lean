import Symbolic.Proofs.Canonical.Constructible
import Symbolic.Proofs.Expr.Regrouped

/-!
The constructors give equal expressions when they are given equal ones: the operands of sums and
products may be rearranged, and every operand may give way to an equal one.

The bodies respect equality if the constructors they need do so. Groups of like terms and of like
powers agree with those of the other list (`rearranged_groupAll`), and what they give way to agrees
in turn; what is put together at the end is sorted anyway. The constructors respect it by induction
on the steps (`within_respects`).

Of what is put in, canonical form is needed in one respect only: in a product with two constants the
coefficient would depend on their order.
-/

namespace Symbolic.Expr

/-! What equal expressions have in common. -/

theorem isSum_alike {a b : Expr} (h : Alike a b) : a.isSum = b.isSum := by
  cases a <;> cases b <;> first | rfl | cases h

theorem Alike.terms {a b : Expr} (h : Alike a b) : Rearranged Alike a.terms b.terms := by
  cases a <;> cases b <;> first | exact alike_sum.1 h | exact .singleton h | cases h

theorem Alike.factors {a b : Expr} (h : Alike a b) : Rearranged Alike a.factors b.factors := by
  cases a <;> cases b <;> first | exact alike_product.1 h | exact .singleton h | cases h

theorem Alike.const?_eq {a b : Expr} (h : Alike a b) : a.const? = b.const? := by
  cases a with
  | const c => rw [h.eq_const]
  | _ =>
    cases b with
    | const c => cases h
    | _ => rfl

variable {as bs : List Expr}

theorem perm_constants (h : Rearranged Alike as bs) : (constants as).Perm (constants bs) := by
  have hp : (as.map const?).Perm (bs.map const?) := h.perm_map fun _ _ _ _ hab => hab.const?_eq
  have := hp.filterMap id
  rwa [List.filterMap_map, List.filterMap_map] at this

theorem rearranged_nonConstants (h : Rearranged Alike as bs) :
    Rearranged Alike (nonConstants as) (nonConstants bs) :=
  h.filter fun _ _ _ _ hab => by rw [isConst_alike hab]

theorem alike_bareProduct (h : Rearranged Alike as bs) :
    Alike (bareProduct as) (bareProduct bs) :=
  h.induction_length (motive := fun as bs => Alike (bareProduct as) (bareProduct bs)) (.refl _) id
    alike_product.2

theorem takeConst?_of_one {es : List Expr} (h : (constants es).length ≤ 1) :
    takeConst? es = (constants es).head?.map fun c => (c, nonConstants es) := by
  cases ht : takeConst? es with
  | none => rw [constants_eq_nil (takeConst?_eq_none ht)]; rfl
  | some cr =>
    obtain ⟨c, rest⟩ := cr
    obtain ⟨us, vs, rfl, rfl, hus⟩ := takeConst?_eq_some ht
    have hc : constants (us ++ const c :: vs) = c :: constants vs := by
      rw [constants_append, constants_eq_nil hus]
      rfl
    have hvs : constants vs = [] := by
      rw [hc, List.length_cons] at h
      exact List.eq_nil_of_length_eq_zero (by omega)
    have hn : nonConstants (us ++ const c :: vs) = us ++ vs := by
      have hself : nonConstants (us ++ vs) = us ++ vs := nonConstants_eq_self fun e he => by
        rcases List.mem_append.1 he with he | he
        · exact hus e he
        · by_contra hec
          obtain ⟨d, rfl⟩ := isConst_eq_true.1 (Bool.not_eq_false _ ▸ hec)
          rw [← mem_constants, hvs] at he
          cases he
      rw [← hself, nonConstants_append, nonConstants_append]
      rfl
    rw [hc, hn]
    rfl

theorem splitAlike_asMultiple {a b : Expr} (ha : Canonical a) (h : Alike a b) :
    SplitAlike asMultiple Eq a b := by
  have hself : SplitAlike (fun e => (e, (1 : Rat))) Eq a b := ⟨h, h, rfl⟩
  cases a with
  | product fs =>
    cases b with
    | product gs =>
      have hfg := alike_product.1 h
      have hone := ha.product_shape.one_const
      have hperm := perm_constants hfg
      have heq : constants gs = constants fs := by
        match hcs : constants fs with
        | [] => rwa [hcs, List.nil_perm] at hperm
        | [c] => rwa [hcs, List.singleton_perm, eq_comm] at hperm
        | _ :: _ :: _ => simp [hcs] at hone
      have hf := takeConst?_of_one hone
      have hg : takeConst? gs = _ := takeConst?_of_one (heq ▸ hone)
      rw [heq] at hg
      refine ⟨h, ?_, ?_⟩
      all_goals
        simp only [asMultiple, hf, hg]
        cases (constants fs).head? with
        | none => first | exact h | rfl
        | some c => first | exact alike_bareProduct (rearranged_nonConstants hfg) | rfl
    | _ => cases h
  | _ =>
    cases b with
    | product gs => cases h
    | _ => exact ⟨h, hself.base, rfl⟩

theorem splitAlike_asPower {x y : Expr} (h : Alike x y) : SplitAlike asPower Alike x y := by
  cases x with
  | pow b p =>
    cases y with
    | pow b' p' =>
      obtain ⟨hb, hp⟩ := alike_pow.1 h
      refine ⟨h, ?_, ?_⟩
      all_goals
        simp only [asPower, isConst_alike hb]
        split
        · first | exact h | exact .refl _
        · assumption
    | _ => cases h
  | _ =>
    cases y with
    | pow b' p' => cases h
    | _ => exact ⟨h, h, .refl _⟩

/-! What is put together. -/

theorem rearranged_withConst (unit c : Rat) (h : Rearranged Alike as bs) :
    Rearranged Alike (withConst unit c as) (withConst unit c bs) := by
  rw [withConst, withConst]
  split
  · exact h
  · exact h.append (.singleton (.refl _))

theorem alike_finish {unit : Rat} {node : List Expr → Expr}
    (hnode : ∀ {xs ys}, Rearranged Alike xs ys → Alike (node xs) (node ys))
    (h : Rearranged Alike as bs) : Alike (finish unit node as) (finish unit node bs) := by
  refine h.induction_length (motive := fun as bs => Alike (finish unit node as) (finish unit node bs))
    (.refl _) (fun h => h.copied) fun h => ?_
  exact hnode ((h.perm_left (sorted_perm _)).perm_right (sorted_perm _).symm)

theorem opened_terms (h : ∀ a ∈ as, Canonical a) : ∀ t ∈ nonConstants (as.flatMap terms),
    Canonical t ∧ t.isConst = false ∧ t.isSum = false := by
  intro t ht
  obtain ⟨ht, hc⟩ := mem_nonConstants.1 ht
  obtain ⟨a, ha, hta⟩ := List.mem_flatMap.1 ht
  obtain ⟨htc, hts⟩ := (h a ha).terms t hta
  exact ⟨htc, hc, hts⟩

theorem opened_factors (h : ∀ a ∈ as, Canonical a) : ∀ f ∈ nonConstants (as.flatMap factors),
    Canonical f ∧ f.isConst = false ∧ f.isProduct = false := by
  intro f hf
  obtain ⟨hf, hc⟩ := mem_nonConstants.1 hf
  obtain ⟨a, ha, hfa⟩ := List.mem_flatMap.1 hf
  obtain ⟨hfc, hfp⟩ := (h a ha).factors f hfa
  exact ⟨hfc, hc, hfp⟩

/-! The bodies of the constructors. -/

/-- The function gives canonical expressions for canonical operands, and equal ones if the operands
are rearranged. -/
structure Respects (f : List Expr → Option Expr) : Prop where
  canonical : ∀ {as e}, (∀ a ∈ as, Canonical a) → f as = some e → Canonical e
  alike : ∀ {as bs e}, (∀ a ∈ as, Canonical a) → Rearranged Alike as bs → f as = some e →
    ∃ e', f bs = some e' ∧ Alike e e'

/-- The same of a function of base and power. -/
structure RespectsPow (f : Expr → Expr → Option Expr) : Prop where
  canonical : ∀ {b p e}, Canonical b → Canonical p → f b p = some e → Canonical e
  alike : ∀ {b p b' p' e}, Canonical b → Canonical p → Alike b b' → Alike p p' → f b p = some e →
    ∃ e', f b' p' = some e' ∧ Alike e e'

section Bodies

variable {sum product again : List Expr → Option Expr} {pow : Expr → Expr → Option Expr} {e : Expr}

theorem map_some_eq {f : Option Expr} {r : Option Expr} (h : f.map some = some r) :
    ∃ e, f = some e ∧ r = some e := by
  obtain ⟨e, he, rfl⟩ := Option.map_eq_some_iff.1 h
  exact ⟨e, he, rfl⟩

theorem canonical_likeTerm (hp : Respects product) {g : Group Rat} (hg : Canonical g.base)
    (h : likeTerm product g = some (some e)) : Canonical e := by
  simp only [likeTerm] at h
  split at h
  · cases h
  split at h
  · cases h
    exact hg
  · obtain ⟨d, hd, hde⟩ := map_some_eq h
    cases hde
    exact hp.canonical (Closed.forall_pair (.const _) hg) hd

theorem likeTerm_alike (hp : Respects product) {g g' : Group Rat} (hg : Canonical g.base)
    (h : GroupAlike Eq g g') {r : Option Expr} (hr : likeTerm product g = some r) :
    ∃ r', likeTerm product g' = some r' ∧ Option.Rel Alike r r' := by
  have hc : g'.parts.foldr (· + ·) 0 = g.parts.foldr (· + ·) 0 := by
    rw [foldr_add, foldr_add]
    have := (h.parts.perm_map (f := id) (g := id) fun _ _ _ _ he => he).sum_eq
    rw [List.map_id, List.map_id] at this
    exact this.symm
  simp only [likeTerm, hc] at hr ⊢
  split at hr
  · cases hr
    exact ⟨none, by rw [if_pos ‹_›], .none⟩
  rw [if_neg ‹_›]
  split at hr
  · cases hr
    exact ⟨some g'.base, by rw [if_pos ‹_›], .some h.base⟩
  rw [if_neg ‹_›]
  obtain ⟨d, hd, rfl⟩ := map_some_eq hr
  obtain ⟨d', hd', hdd⟩ := hp.alike (Closed.forall_pair (.const _) hg)
    (Rearranged.cons (.refl _) (.singleton h.base)) hd
  exact ⟨some d', by rw [hd']; rfl, .some hdd⟩

theorem any_nested_eq {nested : Expr → Bool} (hnested : ∀ {a b}, Alike a b → nested a = nested b)
    (h : Rearranged Alike as bs) :
    (bs.any fun e => nested e || e.isConst) = as.any fun e => nested e || e.isConst :=
  (h.any_eq fun _ _ _ _ hab => by rw [hnested hab, isConst_alike hab]).symm

/-- What stands at the end of a body: what is left is put together, or the constructor starts
over. -/
theorem finish_or_again_alike (ha : Respects again) {unit c : Rat} {node : List Expr → Expr}
    {nested : Expr → Bool} (hnode : ∀ {xs ys}, Rearranged Alike xs ys → Alike (node xs) (node ys))
    (hnested : ∀ {a b}, Alike a b → nested a = nested b) {kept kept' : List Expr}
    (hk : ∀ e ∈ kept, Canonical e) (h : Rearranged Alike kept kept')
    (he : (if kept.any fun e => nested e || e.isConst then again (withConst unit c kept)
      else some (finish unit node (withConst unit c kept))) = some e) :
    ∃ e', (if kept'.any fun e => nested e || e.isConst then again (withConst unit c kept')
      else some (finish unit node (withConst unit c kept'))) = some e' ∧ Alike e e' := by
  have hall := rearranged_withConst unit c h
  rw [any_nested_eq hnested h]
  split at he
  · rw [if_pos ‹_›]
    exact ha.alike (canonical_withConst hk) hall he
  · rw [if_neg ‹_›]
    cases he
    exact ⟨_, rfl, alike_finish hnode hall⟩

theorem sumBody_alike (hp : Respects product) (ha : Respects again)
    (has : ∀ a ∈ as, Canonical a) (h : Rearranged Alike as bs)
    (he : sumBody product again as = some e) :
    ∃ e', sumBody product again bs = some e' ∧ Alike e e' := by
  have hflat : Rearranged Alike (as.flatMap terms) (bs.flatMap terms) :=
    h.flatMap fun _ _ _ _ hab => hab.terms
  have hopen := opened_terms has
  have hgroups := rearranged_groupAll ((rearranged_nonConstants hflat).imp
    fun a ha b _ hab => splitAlike_asMultiple (hopen a ha).1 hab)
  have hbase : ∀ g ∈ groupAll asMultiple (nonConstants (as.flatMap terms)), Canonical g.base :=
    fun g hg => (termGroup_of_mem hopen hg).base
  have hconst : (constants (bs.flatMap terms)).foldr (· + ·) 0 =
      (constants (as.flatMap terms)).foldr (· + ·) 0 := by
    rw [foldr_add, foldr_add, (perm_constants hflat).sum_eq]
  simp only [sumBody, gather_eq_groupAll, Option.bind_eq_bind, Option.bind_eq_some_iff,
    hconst] at he ⊢
  obtain ⟨merged, hm, he⟩ := he
  obtain ⟨merged', hm', hmerged⟩ :=
    hgroups.mapM (fun g hg g' _ hgg _ hr => likeTerm_alike hp (hbase g hg) hgg hr) hm
  have hkept : ∀ e ∈ merged.filterMap id, Canonical e :=
    forall_mem_of_mapM hm fun g hg _ hge => canonical_likeTerm hp (hbase g hg) hge
  obtain ⟨e', he', hee⟩ :=
    finish_or_again_alike ha alike_sum.2 isSum_alike hkept hmerged.filterMap_id he
  exact ⟨e', ⟨merged', hm', he'⟩, hee⟩

theorem canonical_likePower (hs : Respects sum) (hw : RespectsPow pow) {g : Group Expr}
    (hg : PowerGroup g) (h : likePower sum pow g = some (some e)) : Canonical e := by
  have hpow {p : Expr} (hp : sum g.parts = some p) (he : (pow g.base p).map some = some (some e)) :
      Canonical e := by
    obtain ⟨d, hd, hde⟩ := map_some_eq he
    cases hde
    exact hw.canonical hg.base (hs.canonical hg.parts hp) hd
  unfold likePower at h
  split at h
  · cases h
    exact hg.first.1
  · obtain ⟨p, hp, h⟩ := Option.bind_eq_some_iff.1 h
    split at h
    · split at h
      · cases h
      split at h
      · cases h
        exact hg.base
      · exact hpow hp h
    · exact hpow hp h

theorem likePower_alike (hs : Respects sum) (hw : RespectsPow pow) {g g' : Group Expr}
    (hg : PowerGroup g) (h : GroupAlike Alike g g') {r : Option Expr}
    (hr : likePower sum pow g = some r) :
    ∃ r', likePower sum pow g' = some r' ∧ Option.Rel Alike r r' := by
  have hl := h.parts.length_eq
  unfold likePower at hr ⊢
  split at hr
  · next p hp =>
    cases hr
    obtain ⟨p', hp'⟩ := List.length_eq_one_iff.1 (hl.symm.trans (by rw [hp]; rfl))
    rw [hp']
    exact ⟨_, rfl, .some (h.first (by rw [hp]; rfl))⟩
  · next hp =>
    obtain ⟨p, hsum, hr⟩ := Option.bind_eq_some_iff.1 hr
    obtain ⟨p', hsum', hpp⟩ := hs.alike hg.parts h.parts hsum
    have hpow (hr : (pow g.base p).map some = some r) :
        ∃ r', (pow g'.base p').map some = some r' ∧ Option.Rel Alike r r' := by
      obtain ⟨d, hd, rfl⟩ := map_some_eq hr
      obtain ⟨d', hd', hdd⟩ := hw.alike hg.base (hs.canonical hg.parts hsum) h.base hpp hd
      exact ⟨some d', by rw [hd']; rfl, .some hdd⟩
    split
    · next q hq =>
      obtain ⟨q', hq'⟩ := List.length_eq_one_iff.1 (hl.trans (by rw [hq]; rfl))
      exact (hp q' hq').elim
    rw [hsum', Option.bind_eq_bind, Option.bind_some]
    cases p with
    | const c =>
      obtain rfl := hpp.eq_const
      dsimp only at hr ⊢
      split at hr
      · cases hr
        exact ⟨none, by rw [if_pos ‹_›], .none⟩
      rw [if_neg ‹_›]
      split at hr
      · cases hr
        exact ⟨some g'.base, by rw [if_pos ‹_›], .some h.base⟩
      rw [if_neg ‹_›]
      exact hpow hr
    | _ =>
      cases p' with
      | const c => cases hpp
      | _ => exact hpow hr

theorem productBody_alike (hs : Respects sum) (ha : Respects again) (hw : RespectsPow pow)
    (has : ∀ a ∈ as, Canonical a) (h : Rearranged Alike as bs)
    (he : productBody sum again pow as = some e) :
    ∃ e', productBody sum again pow bs = some e' ∧ Alike e e' := by
  have hflat : Rearranged Alike (as.flatMap factors) (bs.flatMap factors) :=
    h.flatMap fun _ _ _ _ hab => hab.factors
  have hopen := opened_factors has
  have hgroups := rearranged_groupAll ((rearranged_nonConstants hflat).imp
    fun a ha b _ hab => splitAlike_asPower hab)
  have hgroup : ∀ g ∈ groupAll asPower (nonConstants (as.flatMap factors)), PowerGroup g :=
    fun g hg => powerGroup_of_mem hopen hg
  have hconst : (constants (bs.flatMap factors)).foldr (· * ·) 1 =
      (constants (as.flatMap factors)).foldr (· * ·) 1 := by
    rw [foldr_mul, foldr_mul, (perm_constants hflat).prod_eq]
  simp only [productBody, gather_eq_groupAll, hconst] at he ⊢
  split at he
  · cases he
    exact ⟨_, by rw [if_pos ‹_›], .refl _⟩
  rw [if_neg ‹_›]
  simp only [Option.bind_eq_bind, Option.bind_eq_some_iff] at he ⊢
  obtain ⟨merged, hm, he⟩ := he
  obtain ⟨merged', hm', hmerged⟩ :=
    hgroups.mapM (fun g hg g' _ hgg _ hr => likePower_alike hs hw (hgroup g hg) hgg hr) hm
  have hkept : ∀ e ∈ merged.filterMap id, Canonical e :=
    forall_mem_of_mapM hm fun g hg _ hge => canonical_likePower hs hw (hgroup g hg) hge
  obtain ⟨e', he', hee⟩ :=
    finish_or_again_alike ha alike_product.2 isProduct_alike hkept hmerged.filterMap_id he
  exact ⟨e', ⟨merged', hm', he'⟩, hee⟩

theorem foldedPower?_alike {b b' : Expr} (h : Alike b b') (c : Rat) :
    foldedPower? b' c = foldedPower? b c := by
  cases b with
  | const x => rw [h.eq_const]
  | _ =>
    cases b' with
    | const x => cases h
    | _ => rfl

theorem barePow_alike {b b' p p' : Expr} (hb : Alike b b') (hp : Alike p p') :
    Alike (barePow b p) (barePow b' p') := by
  cases b with
  | const x =>
    obtain rfl := hb.eq_const
    rw [barePow, barePow]
    split
    · exact .refl _
    · exact alike_pow.2 ⟨hb, hp⟩
  | _ =>
    cases b' with
    | const x => cases hb
    | _ => exact alike_pow.2 ⟨hb, hp⟩

theorem powBody_alike (hp : Respects product) (ha : RespectsPow pow) {b b' p p' : Expr}
    (hbc : Canonical b) (hb : Alike b b') (hpp : Alike p p')
    (he : powBody product pow b p = some e) :
    ∃ e', powBody product pow b' p' = some e' ∧ Alike e e' := by
  have hbare := barePow_alike hb hpp
  cases p with
  | const c =>
    obtain rfl := hpp.eq_const
    simp only [powBody, foldedPower?_alike hb] at he ⊢
    split at he
    · cases he
      exact ⟨_, by rw [if_pos ‹_›], .refl _⟩
    rw [if_neg ‹_›]
    split at he
    · cases he
      exact ⟨_, by rw [if_pos ‹_›], hb.copied⟩
    rw [if_neg ‹_›]
    split at he
    · cases he
      exact ⟨_, rfl, .refl _⟩
    split at he
    · rw [if_pos ‹_›]
      cases b with
      | pow d q =>
        cases b' with
        | pow d' q' =>
          obtain ⟨hd, hq⟩ := alike_pow.1 hb
          obtain ⟨hdc, hqc⟩ : Canonical d ∧ Canonical q := by cases hbc; exact ⟨‹_›, ‹_›⟩
          have hqs := Closed.forall_pair hqc (.const c)
          obtain ⟨r, hr, he⟩ := Option.bind_eq_some_iff.1 he
          obtain ⟨r', hr', hrr⟩ := hp.alike hqs (Rearranged.cons hq (.singleton (.refl _))) hr
          obtain ⟨e', he', hee⟩ := ha.alike hdc (hp.canonical hqs hr) hd hrr he
          exact ⟨e', Option.bind_eq_some_iff.2 ⟨r', hr', he'⟩, hee⟩
        | _ => cases hb
      | product fs =>
        cases b' with
        | product gs =>
          obtain ⟨es, hes, he⟩ := Option.bind_eq_some_iff.1 he
          have hfs := hbc.operands
          obtain ⟨es', hes', hee⟩ := (alike_product.1 hb).mapM
            (fun f hf g _ hfg _ hr => ha.alike (hfs f hf) (.const c) hfg (.refl _) hr) hes
          have hesc : ∀ e ∈ es, Canonical e := by
            intro e hem
            obtain ⟨f, hf, hfe⟩ := exists_of_forall₂_mem (forall₂_of_mapM hes) _ hem
            exact ha.canonical (hfs f hf) (.const c) hfe
          obtain ⟨e', he', hee⟩ := hp.alike hesc hee he
          exact ⟨e', Option.bind_eq_some_iff.2 ⟨es', hes', he'⟩, hee⟩
        | _ => cases hb
      | _ =>
        cases he
        cases b' <;> first | exact ⟨_, rfl, hbare⟩ | cases hb
    · rw [if_neg ‹_›]
      cases he
      exact ⟨_, rfl, hbare⟩
  | _ =>
    cases he
    cases p' with
    | const c => cases hpp
    | _ => exact ⟨_, rfl, hbare⟩

end Bodies

/-! The constructors. -/

theorem canonical_sumWithin {n : Nat} {e : Expr} (h : ∀ a ∈ as, Canonical a)
    (he : sumWithin n as = some e) : Canonical e := by
  obtain ⟨d, hd, hs⟩ := (constructorsWithin_suffice (max n (2 * masses as + 2))).1 as h (by omega)
  have := sumWithin_extends (Nat.le_max_left n (2 * masses as + 2)) _ _ he
  rw [hd, Option.some.injEq] at this
  exact this ▸ hs.canonical

theorem canonical_productWithin {n : Nat} {e : Expr} (h : ∀ a ∈ as, Canonical a)
    (he : productWithin n as = some e) : Canonical e := by
  obtain ⟨d, hd, hs⟩ := (constructorsWithin_suffice (max n (2 * masses as + 1))).2.1 as h (by omega)
  have := productWithin_extends (Nat.le_max_left n (2 * masses as + 1)) _ _ he
  rw [hd, Option.some.injEq] at this
  exact this ▸ hs.canonical

theorem canonical_powWithin {n : Nat} {b p e : Expr} (hb : Canonical b) (hp : Canonical p)
    (he : powWithin n b p = some e) : Canonical e := by
  obtain ⟨d, hd, hs⟩ := (constructorsWithin_suffice (max n (spreadSteps b))).2.2 b p hb hp (by omega)
  have := powWithin_extends (Nat.le_max_left n (spreadSteps b)) _ _ _ he
  rw [hd, Option.some.injEq] at this
  exact this ▸ hs.canonical

/-- Within any number of steps the constructors respect equality. -/
theorem within_respects (n : Nat) :
    Respects (sumWithin n) ∧ Respects (productWithin n) ∧ RespectsPow (powWithin n) := by
  induction n with
  | zero =>
    refine ⟨⟨canonical_sumWithin, ?_⟩, ⟨canonical_productWithin, ?_⟩, ⟨canonical_powWithin, ?_⟩⟩
    · intro as bs e _ _ he
      cases he
    · intro as bs e _ _ he
      cases he
    · intro b p b' p' e _ _ _ _ he
      cases he
  | succ n ih =>
    obtain ⟨hs, hp, hw⟩ := ih
    exact ⟨⟨canonical_sumWithin, sumBody_alike hp hs⟩,
      ⟨canonical_productWithin, productBody_alike hs hp hw⟩,
      ⟨canonical_powWithin, fun hb _ => powBody_alike hp hw hb⟩⟩

theorem exists_sumWithin (h : ∀ a ∈ as, Canonical a) :
    ∃ n, sumWithin n as = some (sumOf as) := by
  have hm := masses_le_weights as
  have hw := lt_steps (weights as)
  obtain ⟨e, he, -⟩ := (constructorsWithin_suffice (steps (weights as))).1 as h (by omega)
  exact ⟨_, by rw [sumOf_eq, he]; rfl⟩

theorem exists_productWithin (h : ∀ a ∈ as, Canonical a) :
    ∃ n, productWithin n as = some (productOf as) := by
  have hm := masses_le_weights as
  have hw := lt_steps (weights as)
  obtain ⟨e, he, -⟩ := (constructorsWithin_suffice (steps (weights as))).2.1 as h (by omega)
  exact ⟨_, by rw [productOf_eq, he]; rfl⟩

theorem exists_powWithin {b p : Expr} (hb : Canonical b) (hp : Canonical p) :
    ∃ n, powWithin n b p = some (powOf b p) := by
  have hm := (mass_le_weight b).1
  have hs := (spreadSteps_le b).2
  have hw := lt_steps (weight b + weight p)
  obtain ⟨-, -, hpow⟩ := constructorsWithin_suffice (steps (weight b + weight p))
  obtain ⟨e, he, -⟩ := hpow b p hb hp (by omega)
  exact ⟨_, by rw [powOf_eq, he]; rfl⟩

theorem sumOf_of_within {n : Nat} {e : Expr} (h : ∀ a ∈ as, Canonical a)
    (he : sumWithin n as = some e) : sumOf as = e := by
  obtain ⟨m, hm⟩ := exists_sumWithin h
  have h₁ := sumWithin_extends (Nat.le_max_left m n) _ _ hm
  have h₂ := sumWithin_extends (Nat.le_max_right m n) _ _ he
  rw [h₁, Option.some.injEq] at h₂
  exact h₂

theorem productOf_of_within {n : Nat} {e : Expr} (h : ∀ a ∈ as, Canonical a)
    (he : productWithin n as = some e) : productOf as = e := by
  obtain ⟨m, hm⟩ := exists_productWithin h
  have h₁ := productWithin_extends (Nat.le_max_left m n) _ _ hm
  have h₂ := productWithin_extends (Nat.le_max_right m n) _ _ he
  rw [h₁, Option.some.injEq] at h₂
  exact h₂

theorem powOf_of_within {n : Nat} {b p e : Expr} (hb : Canonical b) (hp : Canonical p)
    (h : powWithin n b p = some e) : powOf b p = e := by
  obtain ⟨m, hm⟩ := exists_powWithin hb hp
  have h₁ := powWithin_extends (Nat.le_max_left m n) _ _ _ hm
  have h₂ := powWithin_extends (Nat.le_max_right m n) _ _ _ h
  rw [h₁, Option.some.injEq] at h₂
  exact h₂

theorem sumOf_alike (ha : ∀ a ∈ as, Canonical a) (hb : ∀ b ∈ bs, Canonical b)
    (h : Rearranged Alike as bs) : Alike (sumOf as) (sumOf bs) := by
  obtain ⟨n, hn⟩ := exists_sumWithin ha
  obtain ⟨e, he, hae⟩ := (within_respects n).1.alike ha h hn
  rwa [sumOf_of_within hb he]

theorem productOf_alike (ha : ∀ a ∈ as, Canonical a) (hb : ∀ b ∈ bs, Canonical b)
    (h : Rearranged Alike as bs) : Alike (productOf as) (productOf bs) := by
  obtain ⟨n, hn⟩ := exists_productWithin ha
  obtain ⟨e, he, hae⟩ := (within_respects n).2.1.alike ha h hn
  rwa [productOf_of_within hb he]

theorem powOf_alike {b p b' p' : Expr} (hb : Canonical b) (hp : Canonical p) (hb' : Canonical b')
    (hp' : Canonical p') (hbb : Alike b b') (hpp : Alike p p') :
    Alike (powOf b p) (powOf b' p') := by
  obtain ⟨n, hn⟩ := exists_powWithin hb hp
  obtain ⟨e, he, hae⟩ := (within_respects n).2.2.alike hb hp hbb hpp hn
  rwa [powOf_of_within hb' hp' he]

theorem applyOf_alike (f : Primitive) {a b : Expr} (h : Alike a b) :
    Alike (applyOf f a) (applyOf f b) := by
  cases a with
  | const c =>
    rw [h.eq_const]
    exact .refl _
  | apply g a =>
    cases b with
    | apply g' b =>
      obtain ⟨rfl, hab⟩ := alike_apply.1 h
      cases f <;> cases g <;> exact h
    | _ => cases h
  | _ =>
    cases b <;> first | cases f <;> exact alike_apply.2 ⟨rfl, h⟩ | cases h

/-- What sums and products have in common: canonical form, and that the order of operands does not
matter. -/
structure Commutes (rebuild : List Expr → Expr) : Prop where
  canonical : ∀ {as}, (∀ a ∈ as, Canonical a) → Canonical (rebuild as)
  alike : ∀ {as bs}, (∀ a ∈ as, Canonical a) → (∀ b ∈ bs, Canonical b) → Rearranged Alike as bs →
    Alike (rebuild as) (rebuild bs)

theorem commutes_sumOf : Commutes sumOf := ⟨closed_canonical.sum, sumOf_alike⟩

theorem commutes_productOf : Commutes productOf := ⟨closed_canonical.product, productOf_alike⟩

theorem Commutes.pair {rebuild : List Expr → Expr} (h : Commutes rebuild) {a b a' b' : Expr}
    (ha : Canonical a) (hb : Canonical b) (ha' : Canonical a') (hb' : Canonical b')
    (haa : Alike a a') (hbb : Alike b b') : Alike (rebuild [a, b]) (rebuild [a', b']) :=
  h.alike (Closed.forall_pair ha hb) (Closed.forall_pair ha' hb')
    (.of_forall₂ (.cons haa (.cons hbb .nil)))

theorem negate_alike {a b : Expr} (ha : Canonical a) (hb : Canonical b) (hab : Alike a b) :
    Alike (negate a) (negate b) :=
  commutes_productOf.pair (.const _) ha (.const _) hb (.refl _) hab

end Symbolic.Expr
