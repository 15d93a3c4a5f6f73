import Mathlib.Algebra.Order.BigOperators.Group.List
import Symbolic.Proofs.Exact.Steps

/-!
The product keeps rational values, over sums, products and powers that do: a group of like powers has
the value of its base to the sum of the exponents. Where the base is zero no exponent is negative, so
none is lost on the way.
-/

namespace Symbolic.Expr

variable {val : Expr → Option Rat}

/-- Powers of one base are multiplied by adding up the exponents. -/
theorem zpow_list_sum {x : Rat} {ns : List Int} (h : x ≠ 0 ∨ ∀ n ∈ ns, 0 ≤ n) :
    x ^ ns.sum = (ns.map (x ^ ·)).prod := by
  induction ns with
  | nil => simp
  | cons n ns ih =>
    have hadd : x ≠ 0 ∨ n + ns.sum ≠ 0 ∨ n = 0 ∧ ns.sum = 0 := by
      refine h.imp_right fun h => ?_
      have hn := h n List.mem_cons_self
      have hs : 0 ≤ ns.sum := List.sum_nonneg fun m hm => h m (List.mem_cons_of_mem _ hm)
      omega
    have ih := ih (h.imp_right fun h m hm => h m (List.mem_cons_of_mem _ hm))
    calc x ^ (n :: ns).sum = x ^ (n + ns.sum) := by rw [List.sum_cons]
      _ = x ^ n * x ^ ns.sum := zpow_add' hadd
      _ = ((n :: ns).map (x ^ ·)).prod := by rw [ih, List.map_cons, List.prod_cons]

theorem sum_integers {cs : List Rat} (h : ∀ c ∈ cs, c.den = 1) :
    cs.sum = ((cs.map Rat.num).sum : Int) := by
  induction cs with
  | nil => rfl
  | cons c cs ih =>
    have hc : (c.num : Rat) = c := (Rat.den_eq_one_iff c).1 (h c List.mem_cons_self)
    have ih := ih fun d hd => h d (List.mem_cons_of_mem _ hd)
    calc (c :: cs).sum = c.num + ((cs.map Rat.num).sum : Int) := by rw [List.sum_cons, ih, hc]
      _ = (((c :: cs).map Rat.num).sum : Int) := by
        rw [List.map_cons, List.sum_cons, Int.cast_add]

/-- What one base can be raised to adds up to what it can be raised to. -/
theorem raisable_sum {x : Rat} {ys : List Rat} (h : ∀ y ∈ ys, Raisable x y) :
    Raisable x ys.sum ∧ x ^ ys.sum.num = (ys.map fun y => x ^ y.num).prod := by
  have hsum := sum_integers fun y hy => (h y hy).1
  -- a base that is zero has no negative exponent, so the powers can be multiplied
  have hpos : x ≠ 0 ∨ ∀ n ∈ ys.map Rat.num, 0 ≤ n := by
    refine or_iff_not_imp_left.2 fun hx n hn => ?_
    obtain ⟨y, hy, rfl⟩ := List.mem_map.1 hn
    exact (h y hy).2.resolve_left hx
  rw [Raisable, hsum, Rat.num_intCast, zpow_list_sum hpos, List.map_map]
  exact ⟨⟨Rat.den_intCast _, hpos.imp_right List.sum_nonneg⟩, rfl⟩

variable (reads : Reading val)
include reads

theorem likePower_exact {sum : List Expr → Option Expr} {pow : Expr → Expr → Option Expr}
    (hs : AddsUp val sum) (hpow : Raises val pow) {g : Group Expr} {r : Option Expr}
    (hb : DefinedBy val g.base)
    (hps : ∀ p ∈ g.parts, DefinedBy val p ∧ Raisable (amountBy val g.base) (amountBy val p))
    (hfirst : ∀ p, g.parts = [p] →
      val g.first = some (amountBy val g.base ^ (amountBy val p).num))
    (hr : likePower sum pow g = some r) :
    r.elim (some 1) (val) =
      some (g.parts.map fun p => amountBy val g.base ^ (amountBy val p).num).prod := by
  unfold likePower at hr
  split at hr
  · next p hp =>
    rw [← Option.some.inj hr, Option.elim_some, hfirst p hp, hp, List.map_singleton,
      List.prod_singleton]
  · obtain ⟨p, hp, hr⟩ := Option.bind_eq_some_iff.1 hr
    have hsum := hs _ p (fun q hq => (hps q hq).1) hp
    have hp := amountBy_of_eq hsum
    obtain ⟨hraise, hv⟩ := raisable_sum (x := amountBy val g.base)
      (List.forall_mem_map.2 fun q hq => (hps q hq).2)
    rw [← hp] at hraise hv
    rw [List.map_map] at hv
    have hdef := definedBy_of_eq hsum
    have hraised : ∀ r, (pow g.base p).map some = some r →
        r.elim (some 1) (val) =
          some (g.parts.map fun p => amountBy val g.base ^ (amountBy val p).num).prod := by
      intro r hr
      obtain ⟨e, he, rfl⟩ := Option.map_eq_some_iff.1 hr
      exact (hpow _ _ _ hb hdef hraise he).trans (congrArg some hv)
    split at hr
    · next c =>
      rw [reads.amount_const] at hv
      split at hr
      · next h0 =>
        rw [h0, Rat.num_zero, zpow_zero] at hv
        rw [← Option.some.inj hr, Option.elim_none]
        exact congrArg some hv
      split at hr
      · next h1 =>
        rw [h1, Rat.num_one, zpow_one] at hv
        rw [← Option.some.inj hr, Option.elim_some, hb]
        exact congrArg some hv
      · exact hraised r hr
    · exact hraised r hr

/-- What is left of the groups of like powers has the value of the factors. -/
theorem likePowers_exact {sum : List Expr → Option Expr} {pow : Expr → Expr → Option Expr}
    (hs : AddsUp val sum) (hpow : Raises val pow) {es : List Expr}
    (h : ∀ e ∈ es, DefinedBy val e) {merged : List (Option Expr)}
    (hm : (groupAll asPower es).mapM (likePower sum pow) = some merged) :
    (∀ e ∈ merged.filterMap id, DefinedBy val e) ∧
      ((merged.filterMap id).map (amountBy val)).prod = (es.map (amountBy val)).prod := by
  have hgr : ∀ g ∈ groupAll asPower es, ∀ r, likePower sum pow g = some r →
      r.elim (some 1) (val) =
        some (g.parts.map fun p => amountBy val g.base ^ (amountBy val p).num).prod := by
    intro g hg r hr
    obtain ⟨hf, hb, ps, hps⟩ := groupAll_first hg
    refine likePower_exact reads hs hpow (hb ▸ (amount_asPower reads (h _ hf)).1) ?_ ?_ hr
    · intro p hp
      obtain ⟨e, he, rfl, hbe⟩ := groupAll_parts hg p hp
      obtain ⟨_, hp, hr, _⟩ := amount_asPower reads (h e he)
      rw [reads.amount_alike hbe]
      exact ⟨hp, hr⟩
    · intro p hp
      rw [hps] at hp
      rw [h _ hf, (amount_asPower reads (h _ hf)).2.2.2, hb, (List.cons.inj hp).1]
  have hmerged := forall₂_of_mapM hm
  constructor
  · exact forall_mem_of_mapM hm fun g hg _ hr => definedBy_of_eq (hgr g hg _ hr)
  · have hgroup : ∀ g ∈ groupAll asPower es, ∀ r, likePower sum pow g = some r →
        (g.parts.map fun p => amountBy val g.base ^ (amountBy val p).num).prod =
          r.elim 1 (amountBy val) := by
      intro g hg r hr
      have hv := hgr g hg r hr
      cases r with
      | none => exact (Option.some.inj hv).symm
      | some e => exact (amountBy_of_eq hv).symm
    calc ((merged.filterMap id).map (amountBy val)).prod
        = (merged.map fun r => r.elim 1 (amountBy val)).prod := prod_map_filterMap_id _ _
      _ = ((groupAll asPower es).map fun g =>
            (g.parts.map fun p => amountBy val g.base ^ (amountBy val p).num).prod).prod :=
          (prod_map_eq_of_forall₂ hmerged hgroup).symm
      _ = (es.map fun e => amountBy val (asPower e).1 ^ (amountBy val (asPower e).2).num).prod :=
          prod_groupAll (fun b p => amountBy val b ^ (amountBy val p).num) es
            fun b c hbc => by rw [reads.amount_alike hbc]
      _ = (es.map (amountBy val)).prod := by
          rw [List.map_congr_left fun e he => (amount_asPower reads (h e he)).2.2.2]

theorem productBody_multiplies {sum again : List Expr → Option Expr}
    {pow : Expr → Expr → Option Expr} (hs : AddsUp val sum)
    (ha : Multiplies val again) (hpow : Raises val pow) :
    Multiplies val (productBody sum again pow) := by
  intro fs e hfs he
  have hflat : ∀ f ∈ fs.flatMap factors, DefinedBy val f := by
    intro f hf
    obtain ⟨f', hf', hff'⟩ := List.mem_flatMap.1 hf
    exact (defined_factors reads (hfs f' hf')).1 f hff'
  have hprod : ((fs.flatMap factors).map (amountBy val)).prod = (fs.map (amountBy val)).prod :=
    prod_map_flatMap fun f hf => (defined_factors reads (hfs f hf)).2
  simp only [productBody, gather_eq_groupAll, foldr_mul, Option.bind_eq_bind] at he
  split at he
  · next hz =>
    rw [← Option.some.inj he, ← hprod, prod_amount_split reads, hz, mul_zero]
    exact reads.const 0
  obtain ⟨merged, hm, he⟩ := Option.bind_eq_some_iff.1 he
  obtain ⟨hkept, hmul⟩ := likePowers_exact reads hs hpow
    (fun f hf => hflat f (mem_nonConstants.1 hf).1) hm
  obtain ⟨hall, hall'⟩ := withConst_multiplies reads hkept (constants (fs.flatMap factors)).prod
  have hv : ((withConst 1 (constants (fs.flatMap factors)).prod
      (merged.filterMap id)).map (amountBy val)).prod = (fs.map (amountBy val)).prod :=
    calc _ = ((merged.filterMap id).map (amountBy val)).prod *
            (constants (fs.flatMap factors)).prod := hall'
      _ = ((fs.flatMap factors).map (amountBy val)).prod := by rw [hmul, ← prod_amount_split reads]
      _ = (fs.map (amountBy val)).prod := hprod
  rw [← hv]
  split at he
  · exact ha _ _ hall he
  · exact Option.some.inj he ▸ finish_multiplies reads hall

end Symbolic.Expr
