import Symbolic.Proofs.Canonical.Congruence
import Symbolic.Proofs.Canonical.FixedPoint

/-!
Sums and products that are taken in parts. Where nothing is merged, a product is determined by the
product of its constants and by its other factors in any order (`productOf_alike_of_perm`), so it can
be taken in parts: the product of two products is that of all the factors (`productOf_productOf`).
The same holds of sums (`sumOf_sumOf`). The reciprocal of a product is that of the reciprocals
(`powOf_productOf_neg_one`), and what is negated twice is what it was (`negate_negate`).
-/

namespace Symbolic.Expr

variable {as bs es : List Expr}

/-! What has been put together, opened again. -/

/-- The operands of what has been put together: the constant, unless it is the unit, and the
others. -/
theorem opened_finish {unit c : Rat} {node : List Expr → Expr} {nested : Expr → Bool}
    {opened : Expr → List Expr} (hnode : ∀ es, opened (node es) = es)
    (hatom : ∀ e, nested e = false → opened e = [e])
    (hnested : ∀ {a b}, Alike a b → nested a = nested b) (hconst : ∀ d, nested (const d) = false)
    (hes : ∀ e ∈ es, e.isConst = false ∧ nested e = false) {e : Expr}
    (he : e = finish unit node (withConst unit c es)) :
    (constants (opened e) = [c] ∨ constants (opened e) = [] ∧ c = unit) ∧
      Rearranged Alike (nonConstants (opened e)) es ∧ ∀ d ∈ opened e, nested d = false := by
  have hall : ∀ d ∈ withConst unit c es, nested d = false :=
    forall_withConst (fun d hd => (hes d hd).2) (hconst c)
  -- no operand is left only if there is none but the unit
  have hopen : Rearranged Alike (opened e) (withConst unit c es) ∨
      es = [] ∧ c = unit ∧ opened e = [const unit] := by
    subst he
    generalize hw : withConst unit c es = all at hall
    match all with
    | [] =>
      rw [withConst] at hw
      split at hw
      · next hu => exact .inr ⟨hw, hu, hatom _ (hconst unit)⟩
      · simp at hw
    | [d] =>
      have hd : Alike d.copied d := alike_copied d
      rw [finish, hatom d.copied ((hnested hd).trans (hall d List.mem_cons_self))]
      exact .inl (.singleton hd)
    | d :: d' :: ds =>
      refine .inl ?_
      show Rearranged Alike (opened (node (sorted (d :: d' :: ds)))) _
      rw [hnode]
      exact .of_perm (fun a _ => .refl a) (sorted_perm _)
  have hk : constants es = [] := constants_eq_nil fun e he => (hes e he).1
  have hn : nonConstants es = es := nonConstants_eq_self fun e he => (hes e he).1
  rcases hopen with hr | ⟨rfl, rfl, hopen⟩
  · refine ⟨?_, ?_, fun d hd => ?_⟩
    · have hc : (constants (opened e)).Perm (constants (withConst unit c es)) := perm_constants hr
      rw [withConst] at hc
      split at hc
      · next hu =>
        rw [hk] at hc
        exact .inr ⟨hc.eq_nil, hu⟩
      · rw [constants_append, hk] at hc
        exact .inl (List.perm_singleton.1 hc)
    · have hkept : nonConstants (withConst unit c es) = es := by
        rw [withConst]
        split
        · rw [hn]
        · rw [nonConstants_append, hn]
          simp [nonConstants, isConst]
      have hr := rearranged_nonConstants hr
      rwa [hkept] at hr
    · obtain ⟨d', hd', hdd⟩ := hr.exists_left d hd
      exact (hnested hdd).trans (hall d' hd')
  · rw [hopen]
    refine ⟨.inl rfl, .nil, List.forall_mem_singleton.2 (hconst c)⟩

theorem Apart.perm {α : Type} {split : Expr → Expr × α} (h : Apart split as) (hp : as.Perm bs) :
    Apart split bs := by
  refine (hp.pairwise_iff fun {a b} hab => ?_).1 h
  by_contra hn
  exact Bool.false_ne_true (hab.symm.trans (Alike.symm ((Bool.not_eq_false _).mp hn)))

theorem Apart.rearranged {α : Type} {split : Expr → Expr × α} (h : Apart split as)
    (hr : Rearranged (fun a b => Alike (split a).1 (split b).1) as bs) : Apart split bs := by
  obtain ⟨cs, hcs, hp⟩ := hr
  refine Apart.perm ?_ hp
  clear hp
  induction hcs with
  | nil => exact .nil
  | @cons a c as cs hac hcs ih =>
    obtain ⟨ha, has⟩ := List.pairwise_cons.1 h
    refine List.pairwise_cons.2 ⟨fun d hd => ?_, ih has⟩
    obtain ⟨b, hb, hbd⟩ := exists_of_forall₂_mem hcs d hd
    by_contra hn
    have hcd : Alike (split c).1 (split d).1 := (Bool.not_eq_false _).mp hn
    exact Bool.false_ne_true ((ha b hb).symm.trans ((hac.trans hcd).trans hbd.symm))

theorem PowersMerged.perm (h : PowersMerged as) (hp : (nonConstants as).Perm (nonConstants bs)) :
    PowersMerged bs := Apart.perm h hp

theorem PowersMerged.rearranged (h : PowersMerged as)
    (hr : Rearranged Alike (nonConstants as) (nonConstants bs)) : PowersMerged bs :=
  Apart.rearranged h (hr.imp fun _ _ _ _ hab => (splitAlike_asPower hab).base)

theorem PowersMerged.sublist (h : PowersMerged bs) (hs : as.Sublist bs) : PowersMerged as :=
  List.Pairwise.sublist (hs.filter _) h

theorem TermsMerged.sublist (h : TermsMerged bs) (hs : as.Sublist bs) : TermsMerged as :=
  ⟨List.Pairwise.sublist (hs.filter _) h.1, fun fs hfs => h.2 fs (hs.subset hfs)⟩

theorem TermsMerged.perm (h : TermsMerged as) (hp : (nonConstants as).Perm (nonConstants bs)) :
    TermsMerged bs := by
  refine ⟨h.1.perm hp, fun fs hfs => h.2 fs ?_⟩
  have hmem : product fs ∈ nonConstants bs := mem_nonConstants.2 ⟨hfs, rfl⟩
  exact (mem_nonConstants.1 (hp.mem_iff.2 hmem)).1

theorem TermsMerged.rearranged (h : TermsMerged as) (has : ∀ a ∈ as, Canonical a)
    (hr : Rearranged Alike (nonConstants as) (nonConstants bs)) : TermsMerged bs := by
  constructor
  · refine h.1.rearranged (hr.imp fun a ha b _ hab => ?_)
    exact (splitAlike_asMultiple (has a (mem_nonConstants.1 ha).1) hab).base
  · intro gs hgs hc
    obtain ⟨a, ha, hag⟩ := hr.exists_right _ (mem_nonConstants.2 ⟨hgs, rfl⟩)
    obtain ⟨fs, rfl, hfg⟩ := hag.symm.eq_product
    have hfg := hfg.symm.imp fun _ _ _ _ h => h.symm
    refine (h.2 fs (mem_nonConstants.1 ha).1 fun hnil => hc ?_).rearranged
      (rearranged_nonConstants hfg)
    have hp := perm_constants hfg
    rw [hnil] at hp
    exact hp.nil_eq.symm

/-! Products. -/

/-- Factors among which nothing is to be opened, folded to zero or merged. -/
structure Factors (fs : List Expr) : Prop where
  opened : ∀ f ∈ fs, f.isProduct = false
  kept : 0 ∉ constants fs
  merged : PowersMerged fs

theorem Factors.sublist (h : Factors bs) (hs : as.Sublist bs) : Factors as where
  opened f hf := h.opened f (hs.subset hf)
  kept hz := h.kept ((hs.filterMap _).subset hz)
  merged := h.merged.sublist hs

theorem Factors.perm (h : Factors as) (hp : as.Perm bs) : Factors bs where
  opened f hf := h.opened f (hp.mem_iff.2 hf)
  kept hz := h.kept ((hp.filterMap _).mem_iff.2 hz)
  merged := h.merged.perm (hp.filter _)

theorem Factors.productOf_eq (h : Factors es) :
    productOf es = finish 1 product (withConst 1 (constants es).prod (nonConstants es)) := by
  have hflat : es.flatMap factors = es := flatMap_eq_self fun f hf => factors_eq (h.opened f hf)
  rw [productOf_of_merged (hflat.symm ▸ h.opened) (hflat.symm ▸ h.merged), hflat, if_neg]
  exact fun hz => h.kept (List.prod_eq_zero_iff.1 hz)

theorem Factors.opened_productOf (h : Factors es) :
    (constants (productOf es).factors).prod = (constants es).prod ∧
      Rearranged Alike (nonConstants (productOf es).factors) (nonConstants es) ∧
        ∀ f ∈ (productOf es).factors, f.isProduct = false := by
  obtain ⟨hc, hn, ho⟩ := opened_finish (fun _ => rfl) (fun _ => factors_eq) isProduct_alike
    (fun _ => rfl)
    (fun e he => ⟨isConst_of_mem_nonConstants he, h.opened e (mem_nonConstants.1 he).1⟩)
    h.productOf_eq
  refine ⟨?_, hn, ho⟩
  rcases hc with hc | ⟨hc, hone⟩
  · rw [hc, List.prod_singleton]
  · rw [hc, hone, List.prod_nil]

theorem alike_finish_perm {unit c : Rat} {node : List Expr → Expr}
    (hnode : ∀ {xs ys}, Rearranged Alike xs ys → Alike (node xs) (node ys)) (hp : as.Perm bs) :
    Alike (finish unit node (withConst unit c as)) (finish unit node (withConst unit c bs)) :=
  alike_finish hnode (rearranged_withConst unit c (.of_perm (fun a _ => .refl a) hp))

/-- A product is determined by the product of its constants and by its other factors. -/
theorem productOf_alike_of_opened (hb : Factors bs)
    (ho : ∀ f ∈ as.flatMap factors, f.isProduct = false)
    (hc : (constants (as.flatMap factors)).prod = (constants bs).prod)
    (hn : Rearranged Alike (nonConstants (as.flatMap factors)) (nonConstants bs)) :
    Alike (productOf as) (productOf bs) := by
  have hm := hb.merged.rearranged (hn.symm.imp fun _ _ _ _ hab => hab.symm)
  rw [hb.productOf_eq, productOf_of_merged ho hm, hc, if_neg]
  · exact alike_finish alike_product.2 (rearranged_withConst _ _ hn)
  · exact fun hz => hb.kept (List.prod_eq_zero_iff.1 hz)

theorem productOf_alike_of_perm (ha : Factors as) (hb : Factors bs)
    (hc : (constants as).prod = (constants bs).prod)
    (hn : (nonConstants as).Perm (nonConstants bs)) : Alike (productOf as) (productOf bs) := by
  have hflat : as.flatMap factors = as := flatMap_eq_self fun f hf => factors_eq (ha.opened f hf)
  refine productOf_alike_of_opened hb ?_ ?_ ?_
  · rw [hflat]
    exact ha.opened
  · rw [hflat, hc]
  · rw [hflat]
    exact .of_perm (fun a _ => .refl a) hn

theorem productOf_productOf (h : Factors (as ++ bs)) :
    Alike (productOf [productOf as, productOf bs]) (productOf (as ++ bs)) := by
  obtain ⟨hca, hna, hoa⟩ := (h.sublist (List.sublist_append_left _ _)).opened_productOf
  obtain ⟨hcb, hnb, hob⟩ := (h.sublist (List.sublist_append_right _ _)).opened_productOf
  have hflat : [productOf as, productOf bs].flatMap factors =
      (productOf as).factors ++ (productOf bs).factors := by simp
  refine productOf_alike_of_opened h ?_ ?_ ?_
  · rw [hflat]
    exact List.forall_mem_append.2 ⟨hoa, hob⟩
  · rw [hflat, constants_append, constants_append, List.prod_append, List.prod_append, hca, hcb]
  · rw [hflat, nonConstants_append, nonConstants_append]
    exact hna.append hnb

theorem productOf_concat {e : Expr} (h : Factors (as ++ [e])) :
    Alike (productOf [productOf as, e]) (productOf (as ++ [e])) := by
  obtain ⟨hc, hn, ho⟩ := (h.sublist (List.sublist_append_left _ _)).opened_productOf
  have he := h.opened e (List.mem_append_right _ List.mem_cons_self)
  have hflat : [productOf as, e].flatMap factors = (productOf as).factors ++ [e] := by
    simp [factors_eq he]
  refine productOf_alike_of_opened h ?_ ?_ ?_
  · rw [hflat]
    exact List.forall_mem_append.2 ⟨ho, List.forall_mem_singleton.2 he⟩
  · rw [hflat, constants_append, constants_append, List.prod_append, List.prod_append, hc]
  · rw [hflat, nonConstants_append, nonConstants_append]
    exact hn.append (.of_perm (fun a _ => .refl a) (.refl _))

theorem Factors.productOf_singleton {e : Expr} (h : Factors [e]) : productOf [e] = e.copied :=
  h.productOf_eq.trans finish_product_atom

/-- The factors of a canonical expression in which nothing is left to be merged. -/
theorem factors_spec {e : Expr} (he : Canonical e) (hs : Settled e) (h0 : e ≠ const 0) :
    Factors e.factors ∧ productOf e.factors = e.copied := by
  cases e with
  | product fs =>
    have hshape := he.product_shape
    refine ⟨⟨hshape.opened, fun hz => hshape.kept 0 hz (by simp), hs⟩, ?_⟩
    exact withOperands_operands he hs
  | const c =>
    refine ⟨⟨by simp [factors, isProduct], ?_, apart_singleton _ _⟩, productOf_singleton he hs⟩
    exact fun hz => h0 (List.mem_singleton.1 (mem_constants.1 hz)).symm
  | _ =>
    refine ⟨⟨by simp [factors, isProduct], ?_, apart_singleton _ _⟩, ?_⟩
    · exact fun hz => by simpa [factors] using mem_constants.1 hz
    · exact productOf_singleton he (by trivial)

theorem Factors.cons_const {c : Rat} (h : Factors es) (hc : c ≠ 0) : Factors (const c :: es) where
  opened := List.forall_mem_cons.2 ⟨rfl, h.opened⟩
  kept hz := (List.mem_cons.1 hz).elim hc.symm h.kept
  merged := h.merged

theorem Factors.minus (h : Factors es) : Factors (const (-1) :: es) := h.cons_const (by decide)

theorem productOf_const (c : Rat) : productOf [const c] = const c :=
  productOf_singleton (.const c) trivial

theorem productOf_consts (c d : Rat) : productOf [const c, const d] = const (c * d) := by
  have hmerged : PowersMerged [const c, const d] := List.Pairwise.nil
  have hprod : (constants [const c, const d]).prod = c * d := List.prod_pair
  rw [@productOf_of_merged [const c, const d] (by simp [factors, isProduct]) hmerged]
  show (if (constants [const c, const d]).prod = 0 then _ else
    finish 1 product (withConst 1 (constants [const c, const d]).prod [])) = _
  rw [hprod]
  split
  · next h => rw [h]
  · rw [withConst]
    split
    · next h => rw [h]; rfl
    · rfl

theorem negate_productOf (h : Factors es) :
    Alike (negate (productOf es)) (productOf (const (-1) :: es)) := by
  have := @productOf_productOf [const (-1)] es h.minus
  rwa [productOf_const] at this

theorem negate_negate {e : Expr} (he : Canonical e) (hs : Settled e) (h0 : e ≠ const 0) :
    Alike (negate (negate e)) e := by
  obtain ⟨hf, heq⟩ := factors_spec he hs h0
  have hself : Alike (productOf e.factors) e := by
    rw [heq]
    exact alike_copied e
  have hone : Alike (negate e) (productOf (const (-1) :: e.factors)) := by
    have hc : Canonical (productOf e.factors) :=
      closed_canonical.product fun f hf => (he.factors f hf).1
    exact (negate_alike he hc hself.symm).trans (negate_productOf hf)
  have hc : Canonical (productOf (const (-1) :: e.factors)) :=
    closed_canonical.product (List.forall_mem_cons.2 ⟨.const _, fun f hf => (he.factors f hf).1⟩)
  have htwo : Alike (negate (negate e)) (productOf (const (-1) :: const (-1) :: e.factors)) :=
    (negate_alike (closed_canonical.negate he) hc hone).trans (negate_productOf hf.minus)
  -- the two signs cancel
  have hsigns := productOf_alike_of_perm hf.minus.minus hf
    (by simp [constants, const?]) (.refl _)
  exact (htwo.trans hsigns).trans hself

/-! Powers. -/

theorem powOf_zero {b : Expr} (hb : Canonical b) : powOf b (const 0) = const 1 := by
  refine @powOf_of_within 1 _ _ _ hb (.const 0) ?_
  simp only [powWithin, powBody, if_true]

theorem powOf_one {b : Expr} (hb : Canonical b) : powOf b (const 1) = b.copied := by
  refine @powOf_of_within 1 _ _ _ hb (.const 1) ?_
  simp only [powWithin, powBody, if_neg one_ne_zero, if_true]

/-- An integer power of a constant is folded, unless it is too high. -/
theorem powOf_const {c : Rat} (h : c ≠ 0) {k : Int} (hk : k.natAbs ≤ Rational.maxPower) :
    powOf (const c) (const k) = const (c ^ k) := by
  have hfold : foldedPower? (const c) k = some (c ^ k) := by
    have hden : ¬((k : Rat).den > Rational.maxDegree || (k : Rat).num.natAbs > Rational.maxPower) := by
      simp [Rational.maxDegree, hk]
    simp only [foldedPower?, h, decide_false, Bool.false_and, Bool.false_eq_true, if_false,
      Rational.exactPower?]
    rw [if_neg hden]
    exact congrArg (fun z : Int => some (c ^ z)) (Rat.num_intCast k)
  by_cases h0 : k = 0
  · rw [h0, Int.cast_zero, zpow_zero, powOf_zero (.const c)]
  by_cases h1 : k = 1
  · rw [h1, Int.cast_one, zpow_one, powOf_one (.const c)]
    rfl
  have h0 : (k : Rat) ≠ 0 := fun h => h0 (Rat.intCast_inj.1 h)
  have h1 : (k : Rat) ≠ 1 := fun h => h1 (Rat.intCast_inj.1 h)
  refine @powOf_of_within 1 _ _ _ (.const _) (.const _) ?_
  simp only [powWithin, powBody, hfold, if_neg h0, if_neg h1]

theorem powOf_const_neg_one {c : Rat} (h : c ≠ 0) : powOf (const c) (const (-1)) = const c⁻¹ := by
  have := powOf_const h (k := -1) (by decide)
  rwa [zpow_neg_one, Int.cast_neg, Int.cast_one] at this

/-- An integer power of a power multiplies the exponents. -/
theorem powOf_pow {b q : Expr} (h : Canonical (pow b q)) {k : Rat} (hk : k.den = 1) (h0 : k ≠ 0)
    (h1 : k ≠ 1) : powOf (pow b q) (const k) = powOf b (productOf [q, const k]) := by
  have hb := h.operands b (by simp [operands])
  have hlist := Closed.forall_pair (h.operands q (by simp [operands])) (Canonical.const k)
  obtain ⟨m, hm⟩ := exists_productWithin hlist
  obtain ⟨n, hn⟩ := exists_powWithin hb (closed_canonical.product hlist)
  have hm := productWithin_extends (Nat.le_max_left m n) _ _ hm
  have hn := powWithin_extends (Nat.le_max_right m n) _ _ _ hn
  refine @powOf_of_within (max m n + 1) _ _ _ h (.const k) ?_
  rw [powWithin, powBody, if_neg h0, if_neg h1]
  show (if k.den = 1 then productWithin _ _ >>= _ else _) = _
  rw [if_pos hk, hm]
  exact hn

theorem exists_mapM_powWithin {p : Expr} (h : ∀ e ∈ es, Canonical e) (hp : Canonical p) :
    ∃ n, ∀ m, n ≤ m → es.mapM (fun e => powWithin m e p) = some (es.map fun e => powOf e p) := by
  induction es with
  | nil => exact ⟨0, fun _ _ => rfl⟩
  | cons e es ih =>
    obtain ⟨he, hes⟩ := List.forall_mem_cons.1 h
    obtain ⟨k, hk⟩ := exists_powWithin he hp
    obtain ⟨n, hn⟩ := ih hes
    refine ⟨max k n, fun m hm => ?_⟩
    have hk : powWithin m e p = some (powOf e p) := powWithin_extends (by omega) _ _ _ hk
    simp only [List.mapM_cons, hk, hn m (by omega)]
    rfl

theorem powOf_product {fs : List Expr} (h : Canonical (product fs)) {k : Rat} (hk : k.den = 1)
    (h0 : k ≠ 0) (h1 : k ≠ 1) :
    powOf (product fs) (const k) = productOf (fs.map fun f => powOf f (const k)) := by
  have hfs : ∀ f ∈ fs, Canonical f := h.operands
  have hlist : ∀ e ∈ fs.map fun f => powOf f (const k), Canonical e :=
    List.forall_mem_map.2 fun f hf => closed_canonical.pow (hfs f hf) (.const _)
  obtain ⟨m, hm⟩ := exists_productWithin hlist
  obtain ⟨n, hn⟩ := exists_mapM_powWithin hfs (.const k)
  refine @powOf_of_within (max m n + 1) _ _ _ h (.const k) ?_
  rw [powWithin, powBody, if_neg h0, if_neg h1]
  show (if k.den = 1 then fs.mapM _ >>= _ else _) = _
  rw [if_pos hk, hn _ (Nat.le_max_right m n)]
  exact productWithin_extends (Nat.le_max_left m n) _ _ hm

/-- One constant at most, and not the unit, put to the end of the list: what the constants amount to
is that constant. -/
theorem perm_withConst {unit : Rat} {total : List Rat → Rat} (h0 : total [] = unit)
    (h1 : ∀ c, total [c] = c) (hl : (constants es).length ≤ 1) (hu : unit ∉ constants es) :
    (withConst unit (total (constants es)) (nonConstants es)).Perm es := by
  refine List.Perm.trans ?_ (perm_nonConstants_append es).symm
  rw [withConst]
  cases hc : constants es with
  | nil => simp [h0]
  | cons c cs =>
    obtain rfl : cs = [] := List.eq_nil_of_length_eq_zero (by simpa [hc] using hl)
    have hne : c ≠ unit := fun h => hu (by simp [hc, h])
    simp [h1, hne]

/-- The reciprocal of a product of factors that are not merged, nor their reciprocals. -/
theorem powOf_productOf_neg_one (hes : ∀ e ∈ es, Canonical e) (h : Factors es)
    (hi : Factors (es.map fun e => powOf e (const (-1)))) (hl : (constants es).length ≤ 1)
    (h1 : 1 ∉ constants es) :
    Alike (powOf (productOf es) (const (-1)))
      (productOf (es.map fun e => powOf e (const (-1)))) := by
  have hprod : Canonical (productOf es) := closed_canonical.product hes
  have hinv {ds : List Expr} (hds : ∀ d ∈ ds, Canonical d) :
      ∀ d ∈ ds.map fun e => powOf e (const (-1)), Canonical d :=
    List.forall_mem_map.2 fun d hd => closed_canonical.pow (hds d hd) (.const _)
  have hp := perm_withConst List.prod_nil (fun c => List.prod_singleton) hl h1
  have heq := h.productOf_eq
  generalize withConst 1 (constants es).prod (nonConstants es) = all at hp heq
  match all with
  | [] =>
    obtain rfl := hp.nil_eq
    have hone : powOf (const 1) (const (-1)) = const 1 := by
      rw [powOf_const_neg_one one_ne_zero, inv_one]
    rw [heq, hi.productOf_eq]
    exact hone ▸ .refl _
  | [e] =>
    obtain rfl := List.perm_singleton.1 hp.symm
    have hcopied : Canonical e.copied := by
      rw [heq] at hprod
      exact hprod
    have hbase : Alike (powOf e.copied (const (-1))) (powOf e (const (-1))) :=
      powOf_alike hcopied (.const _) (hes e List.mem_cons_self) (.const _) (alike_copied e)
        (.refl _)
    rw [heq, List.map_singleton, Factors.productOf_singleton hi]
    exact hbase.trans (Alike.symm (alike_copied _))
  | e :: e' :: rest =>
    have hnode : productOf es = product (sorted (e :: e' :: rest)) := heq
    have hperm : (sorted (e :: e' :: rest)).Perm es := (sorted_perm _).trans hp
    have hcan : Canonical (product (sorted (e :: e' :: rest))) := hnode ▸ hprod
    rw [hnode, powOf_product hcan rfl (by decide) (by decide)]
    exact productOf_alike (hinv hcan.operands) (hinv hes)
      (.of_perm (fun a _ => .refl a) (hperm.map _))

/-! Sums. -/

/-- Terms among which nothing is to be opened or merged. -/
structure Terms (ts : List Expr) : Prop where
  opened : ∀ t ∈ ts, Canonical t ∧ t.isSum = false
  merged : TermsMerged ts

theorem Terms.sublist (h : Terms bs) (hs : as.Sublist bs) : Terms as where
  opened t ht := h.opened t (hs.subset ht)
  merged := h.merged.sublist hs

theorem Terms.perm (h : Terms as) (hp : as.Perm bs) : Terms bs where
  opened t ht := h.opened t (hp.mem_iff.2 ht)
  merged := h.merged.perm (hp.filter _)

theorem Terms.sumOf_eq (h : Terms es) :
    sumOf es = finish 0 sum (withConst 0 (constants es).sum (nonConstants es)) := by
  have hflat : es.flatMap terms = es := flatMap_eq_self fun t ht => terms_eq (h.opened t ht).2
  rw [sumOf_of_merged (hflat.symm ▸ h.opened) (hflat.symm ▸ h.merged), hflat]

theorem Terms.opened_sumOf (h : Terms es) :
    (constants (sumOf es).terms).sum = (constants es).sum ∧
      Rearranged Alike (nonConstants (sumOf es).terms) (nonConstants es) ∧
        ∀ t ∈ (sumOf es).terms, Canonical t ∧ t.isSum = false := by
  obtain ⟨hc, hn, -⟩ := opened_finish (fun _ => rfl) (fun _ => terms_eq) isSum_alike (fun _ => rfl)
    (fun e he => ⟨isConst_of_mem_nonConstants he, (h.opened e (mem_nonConstants.1 he).1).2⟩)
    h.sumOf_eq
  refine ⟨?_, hn, (closed_canonical.sum fun t ht => (h.opened t ht).1).terms⟩
  rcases hc with hc | ⟨hc, hzero⟩
  · rw [hc, List.sum_singleton]
  · rw [hc, hzero, List.sum_nil]

/-- A sum is determined by the sum of its constants and by its other terms. -/
theorem sumOf_alike_of_opened (hb : Terms bs)
    (ho : ∀ t ∈ as.flatMap terms, Canonical t ∧ t.isSum = false)
    (hc : (constants (as.flatMap terms)).sum = (constants bs).sum)
    (hn : Rearranged Alike (nonConstants (as.flatMap terms)) (nonConstants bs)) :
    Alike (sumOf as) (sumOf bs) := by
  have hm := hb.merged.rearranged (fun t ht => (hb.opened t ht).1)
    (hn.symm.imp fun _ _ _ _ hab => hab.symm)
  rw [hb.sumOf_eq, sumOf_of_merged ho hm, hc]
  exact alike_finish alike_sum.2 (rearranged_withConst _ _ hn)

theorem sumOf_concat {t : Expr} (h : Terms (as ++ [t])) :
    Alike (sumOf [sumOf as, t]) (sumOf (as ++ [t])) := by
  obtain ⟨hc, hn, ho⟩ := (h.sublist (List.sublist_append_left _ _)).opened_sumOf
  have ht := h.opened t (List.mem_append_right _ List.mem_cons_self)
  have hflat : [sumOf as, t].flatMap terms = (sumOf as).terms ++ [t] := by simp [terms_eq ht.2]
  refine sumOf_alike_of_opened h ?_ ?_ ?_
  · rw [hflat]
    exact List.forall_mem_append.2 ⟨ho, List.forall_mem_singleton.2 ht⟩
  · rw [hflat, constants_append, constants_append, List.sum_append, List.sum_append, hc]
  · rw [hflat, nonConstants_append, nonConstants_append]
    exact hn.append (.of_perm (fun a _ => .refl a) (.refl _))

theorem Terms.sumOf_singleton {t : Expr} (h : Terms [t]) : sumOf [t] = t.copied :=
  h.sumOf_eq.trans finish_sum_atom

/-- The terms of a canonical sum in which nothing is left to be merged. -/
theorem terms_spec (he : Canonical (sum es)) (hs : Settled (sum es)) : Terms es where
  opened t ht := ⟨he.operands t ht, he.sum_shape.opened t ht⟩
  merged := hs

/-! The negative of a term with a negative coefficient. -/

theorem finish_cases (unit : Rat) (node : List Expr → Expr) (es : List Expr) :
    es = [] ∨ (∃ e, es = [e] ∧ finish unit node es = e.copied) ∨
      ∃ ds, finish unit node es = node ds ∧ ds.Perm es := by
  match es with
  | [] => exact .inl rfl
  | [e] => exact .inr (.inl ⟨e, rfl, rfl⟩)
  | e :: e' :: es => exact .inr (.inr ⟨_, rfl, sorted_perm _⟩)

/-- A product with its coefficient negated is put together from its factors and the new
coefficient. -/
theorem negate_eq_finish {c : Rat} (h : Canonical (product (const c :: es)))
    (hs : Settled (product (const c :: es))) :
    negate (product (const c :: es)) = finish 1 product (withConst 1 (-c) es) := by
  obtain ⟨-, h0, -, -, hes⟩ := ProductShape.eq_cons h.product_shape rfl
  have hf : Factors (const (-1) :: const c :: es) := (factors_spec h hs (by simp)).1.minus
  have hflat : [const (-1), product (const c :: es)].flatMap factors =
      const (-1) :: const c :: es := by simp [factors]
  have hk : constants (const (-1) :: const c :: es) = [-1, c] :=
    congrArg ([-1, c] ++ ·) (constants_eq_nil hes)
  have hn : nonConstants (const (-1) :: const c :: es) = es := nonConstants_eq_self hes
  rw [negate, productOf_of_merged (hflat ▸ hf.opened) (hflat ▸ hf.merged), hflat, hk, hn, if_neg]
  · simp
  · simpa using h0

/-- A product with its coefficient negated: its only other factor, or the product of these and of
the new coefficient. -/
theorem negate_product {c : Rat} (h : Canonical (product (const c :: es)))
    (hs : Settled (product (const c :: es))) :
    (∃ e, es = [e] ∧ negate (product (const c :: es)) = e.copied) ∨
      ∃ gs, negate (product (const c :: es)) = product gs ∧
        gs.Perm (withConst 1 (-c) es) ∧ PowersMerged gs := by
  obtain ⟨-, -, -, hne, hes⟩ := ProductShape.eq_cons h.product_shape rfl
  have hf : Factors (const c :: es) := (factors_spec h hs (by simp)).1
  have hn : nonConstants (const c :: es) = es := nonConstants_eq_self hes
  have heq := negate_eq_finish h hs
  have hkept : nonConstants (withConst 1 (-c) es) = es := by
    rw [withConst]
    split
    · exact nonConstants_eq_self hes
    · rw [nonConstants_append, nonConstants_eq_self hes]
      simp [nonConstants, isConst]
  rcases finish_cases 1 product (withConst 1 (-c) es) with hall | ⟨d, hall, hd⟩ | ⟨gs, hgs, hp⟩
  · rw [hall] at hkept
    exact absurd hkept.symm hne
  · -- the only factor left is not the constant
    rw [hall] at hkept
    have hc : d.isConst = false := by
      by_contra hc
      exact hne (hkept ▸ List.filter_eq_nil_iff.2 (by simpa using hc))
    rw [nonConstants_eq_self (List.forall_mem_singleton.2 hc)] at hkept
    exact .inl ⟨d, hkept.symm, heq.trans hd⟩
  · refine .inr ⟨gs, heq.trans hgs, hp, hf.merged.perm ?_⟩
    rw [hn, ← hkept]
    exact (hp.filter _).symm

end Symbolic.Expr
