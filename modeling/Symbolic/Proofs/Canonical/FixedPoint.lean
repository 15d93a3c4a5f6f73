import Mathlib.Algebra.BigOperators.Ring.List
import Symbolic.Proofs.Canonical.Constructible

/-!
When building an expression anew gives the same expression. For sums and products that depends on
whether like terms and like powers are left in them. The constructors merge them once, and merging
can bring forth a factor like another one: from `2 ^ x * 2 ^ x * 2 ^ (2 * x)` comes a product of two
equal factors. What is left so is merged when the expression is built again.

An expression is rebuilt to itself exactly if nothing is left to be merged in it: where nothing is
left the constructors change nothing (`withOperands_operands`), and where something is left they lose
mass (`settled_of_same`).
-/

namespace Symbolic.Expr

/-- The expression is what it becomes when it is rebuilt from its operands, and when it is put into a
sum or a product by itself. -/
def FixedPoint (e : Expr) : Prop :=
  (e.withOperands e.operands).same e = true ∧ (sumOf [e]).same e = true ∧
    (productOf [e]).same e = true

/-- No like powers are left in a product, no like terms in a sum, and no like powers in those terms
of a sum that have a coefficient. -/
def Settled : Expr → Prop
  | sum ts => TermsMerged ts
  | product fs => PowersMerged fs
  | _ => True

/-! Where nothing is merged. -/

theorem mapM_single {α : Type} {f : Group α → Option (Option Expr)} {split : Expr → Expr × α}
    {es : List Expr} (h : ∀ e ∈ es, f (single split e) = some (some e)) :
    (es.map (single split)).mapM f = some (es.map some) := by
  induction es with
  | nil => rfl
  | cons e es ih =>
    obtain ⟨he, hes⟩ := List.forall_mem_cons.1 h
    simp [List.mapM_cons, he, ih hes]

theorem filterMap_id_map_some (es : List Expr) : (es.map some).filterMap id = es := by
  rw [List.filterMap_map]
  exact List.filterMap_some

/-- The operands of a canonical node, taken apart and put together again. -/
theorem finish_shape {unit c : Rat} {node : List Expr → Expr} {nested : Expr → Bool}
    {folded : List Rat} {es : List Expr} (h : OperandsShape nested folded es)
    (hu : unit ∈ folded) (hnil : constants es = [] → c = unit)
    (hone : ∀ d, constants es = [d] → c = d) :
    finish unit node (withConst unit c (nonConstants es)) = node es := by
  have hlen := h.two_le
  have hsorted := sorted_eq_self h.ascending
  have hfinish (all : List Expr) (hl : 2 ≤ all.length) : finish unit node all = node (sorted all) := by
    match all with
    | [] => simp at hl
    | [_] => simp at hl
    | _ :: _ :: _ => rfl
  have hfirst := constants_first h.ascending
  have hshort := h.one_const
  have hkept := h.kept
  match hcs : constants es with
  | [] =>
    rw [hcs, List.map_nil, List.nil_append] at hfirst
    rw [withConst, if_pos (hnil hcs), ← hfirst, hfinish es hlen, hsorted]
  | [d] =>
    rw [hcs, List.map_singleton, List.singleton_append] at hfirst
    have hd : d ≠ unit := by
      rintro rfl
      exact hkept d (by simp [hcs]) hu
    have hasc : Ascending (nonConstants es) := h.ascending.sublist List.filter_sublist
    have hl : (nonConstants es ++ [const d]).length = es.length := by
      rw [congrArg List.length hfirst]
      simp
    rw [hone d hcs, withConst, if_neg hd, hfinish _ (by omega),
      sorted_concat_const (fun e he => isConst_of_mem_nonConstants he), sorted_eq_self hasc,
      ← hfirst]
  | _ :: _ :: _ => simp [hcs] at hshort

/-! Of the one constant, or of none, sum and product are that constant, or the unit. -/

theorem finish_sum_shape {ts : List Expr} (h : SumShape ts) :
    finish 0 sum (withConst 0 (constants ts).sum (nonConstants ts)) = sum ts := by
  refine finish_shape h (by simp) (fun h => by rw [h]; rfl) fun d hd => ?_
  rw [hd, List.sum_singleton]

theorem finish_product_shape {fs : List Expr} (h : ProductShape fs) :
    finish 1 product (withConst 1 (constants fs).prod (nonConstants fs)) = product fs := by
  refine finish_shape h (by simp) (fun h => by rw [h]; rfl) fun d hd => ?_
  rw [hd, List.prod_singleton]

theorem finish_atom {unit c : Rat} (node : List Expr → Expr) {e : Expr}
    (hnil : constants [e] = [] → c = unit) (hone : ∀ d, constants [e] = [d] → c = d) :
    finish unit node (withConst unit c (nonConstants [e])) = e.copied := by
  by_cases hc : e.isConst = true
  · obtain ⟨d, rfl⟩ := isConst_eq_true.1 hc
    obtain rfl : c = d := hone d rfl
    by_cases hu : c = unit
    · rw [withConst, if_pos hu, hu]
      rfl
    · rw [withConst, if_neg hu]
      rfl
  · have hall : ∀ d ∈ [e], d.isConst = false :=
      List.forall_mem_singleton.2 (Bool.not_eq_true _ ▸ hc)
    rw [nonConstants_eq_self hall, withConst, if_pos (hnil (constants_eq_nil hall))]
    rfl

theorem finish_sum_atom {e : Expr} :
    finish 0 sum (withConst 0 (constants [e]).sum (nonConstants [e])) = e.copied :=
  finish_atom sum (fun h => by rw [h]; rfl) fun d hd => by rw [hd, List.sum_singleton]

theorem finish_product_atom {e : Expr} :
    finish 1 product (withConst 1 (constants [e]).prod (nonConstants [e])) = e.copied :=
  finish_atom product (fun h => by rw [h]; rfl) fun d hd => by rw [hd, List.prod_singleton]

/-- A product in which nothing is merged is its factors put together. -/
theorem productBody_of_merged {sum again : List Expr → Option Expr}
    {pow : Expr → Expr → Option Expr} {fs : List Expr}
    (hopen : ∀ f ∈ fs.flatMap factors, f.isProduct = false)
    (hm : PowersMerged (fs.flatMap factors)) :
    productBody sum again pow fs =
      if (constants (fs.flatMap factors)).prod = 0 then some (const 0)
      else some (finish 1 product (withConst 1 (constants (fs.flatMap factors)).prod
        (nonConstants (fs.flatMap factors)))) := by
  generalize hfl : fs.flatMap factors = flat at hopen hm
  simp only [productBody, gather_eq_groupAll, foldr_mul, hfl]
  rw [groupAll_of_apart hm, mapM_single fun e _ => rfl, Option.bind_eq_bind, Option.bind_some,
    filterMap_id_map_some]
  rw [any_again_eq_false.2, if_neg Bool.false_ne_true]
  exact fun e he => ⟨isConst_of_mem_nonConstants he, hopen e (mem_nonConstants.1 he).1⟩

theorem likeTerm_of_merged {n : Nat} {e : Expr} (he : Canonical e) (hc : e.isConst = false)
    (hm : ∀ fs, e = .product fs → constants fs ≠ [] → PowersMerged fs) :
    likeTerm (productWithin (n + 1)) (single asMultiple e) = some (some e) := by
  obtain ⟨_, _, h0, _⟩ := asMultiple_spec he hc
  have hsum : (single asMultiple e).parts.foldr (· + ·) 0 = (asMultiple e).2 := add_zero _
  simp only [likeTerm, hsum, if_neg h0]
  by_cases h1 : (asMultiple e).2 = 1
  · rw [if_pos h1]
    exact congrArg (some ∘ some) (asMultiple_one he h1)
  · rw [if_neg h1]
    obtain ⟨rest, heq, hbase, _, _⟩ := asMultiple_ne_one he h1
    have hs : ProductShape (const (asMultiple e).2 :: rest) := (heq ▸ he).product_shape
    have hopen := hs.opened
    have hflat := factors_scaled hs hbase
    -- the term is the product of its constant and its other factors, so it is built again as it is
    have hprod : (constants (const (asMultiple e).2 :: rest)).prod ≠ 0 := by
      intro hz
      have hz := List.prod_eq_zero_iff.1 hz
      exact hs.kept 0 hz (by simp)
    have hbody : productBody (sumWithin n) (productWithin n) (powWithin n)
        [const (asMultiple e).2, (asMultiple e).1] = _ :=
      productBody_of_merged (hflat ▸ hopen) (hflat ▸ hm _ heq (by simp [constants, const?]))
    rw [hflat, if_neg hprod, finish_product_shape hs, ← heq] at hbody
    show (productBody _ _ _ [_, _]).map some = _
    rw [show (single asMultiple e).base = (asMultiple e).1 from rfl, hbody]
    rfl

theorem sumBody_of_merged {n : Nat} {again : List Expr → Option Expr} {ts : List Expr}
    (hopen : ∀ t ∈ ts.flatMap terms, Canonical t ∧ t.isSum = false)
    (hm : TermsMerged (ts.flatMap terms)) :
    sumBody (productWithin (n + 1)) again ts =
      some (finish 0 sum (withConst 0 (constants (ts.flatMap terms)).sum
        (nonConstants (ts.flatMap terms)))) := by
  generalize hfl : ts.flatMap terms = flat at hopen hm
  simp only [sumBody, gather_eq_groupAll, foldr_add, hfl]
  -- every group is of one term, and that comes out as it is
  have hlike : ∀ e ∈ nonConstants flat,
      likeTerm (productWithin (n + 1)) (single asMultiple e) = some (some e) := by
    intro e he
    obtain ⟨he, hc⟩ := mem_nonConstants.1 he
    exact likeTerm_of_merged (hopen e he).1 hc fun fs hfs => hm.2 fs (hfs ▸ he)
  rw [groupAll_of_apart hm.1, mapM_single hlike, Option.bind_eq_bind, Option.bind_some,
    filterMap_id_map_some]
  rw [any_again_eq_false.2, if_neg Bool.false_ne_true]
  exact fun e he => ⟨isConst_of_mem_nonConstants he, (hopen e (mem_nonConstants.1 he).1).2⟩

theorem sumOf_of_merged {ts : List Expr}
    (hopen : ∀ t ∈ ts.flatMap terms, Canonical t ∧ t.isSum = false)
    (hm : TermsMerged (ts.flatMap terms)) :
    sumOf ts = finish 0 sum (withConst 0 (constants (ts.flatMap terms)).sum
      (nonConstants (ts.flatMap terms))) := by
  have hw := lt_steps (weights ts)
  obtain ⟨n, hn⟩ : ∃ n, steps (weights ts) = n + 2 := ⟨steps (weights ts) - 2, by omega⟩
  rw [sumOf_eq, hn, sumWithin, sumBody_of_merged hopen hm, Option.getD_some]

theorem productOf_of_merged {fs : List Expr}
    (hopen : ∀ f ∈ fs.flatMap factors, f.isProduct = false)
    (hm : PowersMerged (fs.flatMap factors)) :
    productOf fs = if (constants (fs.flatMap factors)).prod = 0 then const 0
      else finish 1 product (withConst 1 (constants (fs.flatMap factors)).prod
        (nonConstants (fs.flatMap factors))) := by
  have hw := lt_steps (weights fs)
  obtain ⟨n, hn⟩ : ∃ n, steps (weights fs) = n + 1 := ⟨steps (weights fs) - 1, by omega⟩
  rw [productOf_eq, hn, productWithin, productBody_of_merged hopen hm]
  split
  · rfl
  · rfl

/-! What is rebuilt. -/

theorem flatMap_eq_self {f : Expr → List Expr} {es : List Expr} (h : ∀ e ∈ es, f e = [e]) :
    es.flatMap f = es := by
  rw [List.flatMap_congr h]
  exact List.flatMap_pure_eq_map _ _ |>.trans (List.map_id' es)

theorem terms_eq {e : Expr} (h : e.isSum = false) : e.terms = [e] := by
  cases e with
  | sum ts => cases h
  | _ => rfl

theorem factors_eq {e : Expr} (h : e.isProduct = false) : e.factors = [e] := by
  cases e with
  | product fs => cases h
  | _ => rfl

theorem apart_singleton {α : Type} (split : Expr → Expr × α) (e : Expr) :
    Apart split (nonConstants [e]) :=
  List.Pairwise.sublist List.filter_sublist (List.pairwise_singleton _ _)

theorem sumOf_singleton {e : Expr} (he : Canonical e) (hs : Settled e) : sumOf [e] = e.copied := by
  have hflat : [e].flatMap terms = e.terms := List.append_nil _
  have hopen : ∀ t ∈ [e].flatMap terms, Canonical t ∧ t.isSum = false := hflat ▸ he.terms
  by_cases hsum : e.isSum = true
  · obtain ⟨ts, rfl⟩ := isSum_eq_true.1 hsum
    rw [sumOf_of_merged hopen (hflat ▸ hs), hflat]
    exact finish_sum_shape he.sum_shape
  · have hone : [e].flatMap terms = [e] := hflat.trans (terms_eq (Bool.not_eq_true _ ▸ hsum))
    have hm : TermsMerged [e] := by
      refine ⟨apart_singleton _ e, fun fs hfs _ => ?_⟩
      rw [← List.mem_singleton.1 hfs] at hs
      exact hs
    rw [sumOf_of_merged hopen (by rw [hone]; exact hm), hone, finish_sum_atom]

theorem productOf_singleton {e : Expr} (he : Canonical e) (hs : Settled e) :
    productOf [e] = e.copied := by
  have hflat : [e].flatMap factors = e.factors := List.append_nil _
  have hopen : ∀ f ∈ [e].flatMap factors, f.isProduct = false :=
    fun f hf => (he.factors f (hflat ▸ hf)).2
  by_cases hprod : e.isProduct = true
  · obtain ⟨fs, rfl⟩ := isProduct_eq_true.1 hprod
    have hz : (constants fs).prod ≠ 0 := by
      intro hz
      exact he.product_shape.kept 0 (List.prod_eq_zero_iff.1 hz) (by simp)
    rw [productOf_of_merged hopen (hflat ▸ hs), hflat]
    exact (if_neg hz).trans (finish_product_shape he.product_shape)
  · have hone : [e].flatMap factors = [e] := hflat.trans (factors_eq (Bool.not_eq_true _ ▸ hprod))
    rw [productOf_of_merged hopen (by rw [hone]; exact apart_singleton _ e), hone,
      finish_product_atom]
    split
    · next hz =>
      have : (0 : Rat) ∈ constants [e] := List.prod_eq_zero_iff.1 hz
      rw [← List.mem_singleton.1 (mem_constants.1 this)]
      rfl
    · rfl

theorem powOf_eq_self {b p : Expr} (h : PowShape b p) : powOf b p = pow b p := by
  have hbare : barePow b p = pow b p := by
    unfold barePow
    split
    · next c =>
      rw [if_neg]
      rintro rfl
      exact h.base_ne_one rfl
    · rfl
  have hbody (product : List Expr → Option Expr) (again : Expr → Expr → Option Expr) :
      powBody product again b p = some (pow b p) := by
    cases p with
    | const c =>
      have h0 : c ≠ 0 := fun h0 => h.power_ne_zero (h0 ▸ rfl)
      have h1 : c ≠ 1 := fun h1 => h.power_ne_one (h1 ▸ rfl)
      have hf : foldedPower? b c = none := by
        cases b with
        | const x =>
          obtain ⟨hz, hn⟩ := h.not_folded x c rfl rfl
          rw [foldedPower?, if_neg (by simpa using hz), hn]
        | _ => rfl
      simp only [powBody, if_neg h0, if_neg h1, hf, hbare]
      split
      · next hden =>
        obtain ⟨hpow, hprod⟩ := h.not_spread c rfl hden
        cases b with
        | pow _ _ => cases hpow
        | product _ => cases hprod
        | _ => rfl
      · rfl
    | _ => exact congrArg some hbare
  have hw := lt_steps (weight b + weight p)
  obtain ⟨n, hn⟩ : ∃ n, steps (weight b + weight p) = n + 1 :=
    ⟨steps (weight b + weight p) - 1, by omega⟩
  rw [powOf_eq, hn, powWithin, hbody, Option.getD_some]

theorem applyOf_eq_self {f : Primitive} {e : Expr} (h : ApplyShape f e) :
    applyOf f e = apply f e := by
  unfold applyOf
  split
  · next c =>
    rw [if_neg]
    rintro rfl
    exact h.ln_ne rfl rfl
  · next c => exact absurd (h.sign_const rfl) (by simp [isConst])
  · next d => exact absurd rfl (h.sign_sign rfl d)
  · next c hln hsign =>
    rw [if_neg]
    rintro rfl
    refine h.zero_ne ?_ rfl
    cases f with
    | ln => exact (hln rfl).elim
    | sign => exact (hsign rfl).elim
    | sin => exact .inl rfl
    | arcsin => exact .inr (.inl rfl)
    | arctan => exact .inr (.inr rfl)
  · rfl

/-- Rebuilt from its operands, an expression in which nothing is merged is itself. -/
theorem withOperands_operands {e : Expr} (he : Canonical e) (hs : Settled e) :
    e.withOperands e.operands = e := by
  cases he with
  | const c => rfl
  | var s k => rfl
  | sum hshape hes =>
    next es =>
    have hflat : es.flatMap terms = es := flatMap_eq_self fun t ht => terms_eq (hshape.opened t ht)
    show sumOf es = sum es
    rw [sumOf_of_merged (hflat.symm ▸ fun t ht => ⟨hes t ht, hshape.opened t ht⟩)
      (hflat.symm ▸ hs), hflat]
    exact finish_sum_shape hshape
  | product hshape hes =>
    next es =>
    have hflat : es.flatMap factors = es :=
      flatMap_eq_self fun f hf => factors_eq (hshape.opened f hf)
    have hz : (constants es).prod ≠ 0 := by
      intro hz
      exact hshape.kept 0 (List.prod_eq_zero_iff.1 hz) (by simp)
    show productOf es = product es
    rw [productOf_of_merged (hflat.symm ▸ hshape.opened) (hflat.symm ▸ hs), hflat, if_neg hz]
    exact finish_product_shape hshape
  | pow hshape _ _ => exact powOf_eq_self hshape
  | apply hshape _ => exact applyOf_eq_self hshape
  | call hl _ _ => exact if_pos hl

/-- What is rebuilt to an expression equal to it has lost nothing. -/
theorem settled_of_same {e : Expr} (he : Canonical e)
    (h : (e.withOperands e.operands).same e = true) : Settled e := by
  rw [same_eq_alike] at h
  have hm := mass_alike h
  cases he with
  | sum hshape hes =>
    next es =>
    have hflat : es.flatMap terms = es := flatMap_eq_self fun t ht => terms_eq (hshape.opened t ht)
    -- what is merged loses mass, but equal expressions weigh the same
    by_contra hn
    have hlt := (sumOf_spec hes).mass_lt (hflat.symm ▸ hn)
    exact absurd hm hlt.ne
  | product hshape hes =>
    next es =>
    have hflat : es.flatMap factors = es :=
      flatMap_eq_self fun f hf => factors_eq (hshape.opened f hf)
    by_contra hn
    have hlt := (productOf_spec hes).mass_lt (hflat.symm ▸ hn)
    exact absurd hm hlt.ne
  | _ => trivial

/-- An expression is rebuilt to itself exactly if nothing is left to be merged in it. -/
theorem fixedPoint_iff {e : Expr} (h : Constructible e) : FixedPoint e ↔ Settled e := by
  have he : Canonical e := h.holds closed_canonical
  constructor
  · exact fun hf => settled_of_same he hf.1
  · intro hs
    rw [FixedPoint, withOperands_operands he hs, sumOf_singleton he hs, productOf_singleton he hs,
      same_eq_alike, same_eq_alike, alike_refl, alike_copied]
    exact ⟨rfl, rfl, rfl⟩

/-- Nothing is left to be merged in `x * y`. -/
theorem fixedPoint_xy : FixedPoint (productOf [ofName "x", ofName "y"]) := by
  have hxy : Constructible (productOf [ofName "x", ofName "y"]) :=
    .product (Closed.forall_pair (.var _ _) (.var _ _))
  refine (fixedPoint_iff hxy).2 ?_
  have : productOf [ofName "x", ofName "y"] = product [ofName "x", ofName "y"] := by decide +kernel
  rw [this]
  show Apart asPower (nonConstants [ofName "x", ofName "y"])
  decide +kernel

/-- The product `2 ^ x * 2 ^ x * 2 ^ (2 * x)`. -/
def collidingPowers : Expr :=
  productOf [powOf (const 2) (ofName "x"), powOf (const 2) (ofName "x"),
    powOf (const 2) (productOf [const 2, ofName "x"])]

theorem constructible_collidingPowers : Constructible collidingPowers := by
  have hx : Constructible (ofName "x") := .var _ _
  have h2 : Constructible (const 2) := .const 2
  refine .product fun e he => ?_
  simp only [List.mem_cons, List.not_mem_nil, or_false] at he
  rcases he with rfl | rfl | rfl
  · exact .pow h2 hx
  · exact .pow h2 hx
  · exact .pow h2 (.product (Closed.forall_pair h2 hx))

/-- Two equal factors are left in that product, so it is no fixed point. -/
theorem not_fixedPoint_collidingPowers :
    Constructible collidingPowers ∧ ¬FixedPoint collidingPowers := by
  refine ⟨constructible_collidingPowers, fun h => ?_⟩
  have : (productOf [collidingPowers]).same collidingPowers = false := by decide +kernel
  rw [h.2.2] at this
  cases this

end Symbolic.Expr
