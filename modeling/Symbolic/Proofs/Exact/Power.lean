import Symbolic.Proofs.Exact.Steps

/-!
Integer powers keep rational values, over products and powers that do: folded, of a power
(`nestedPow_raises reads`), of a product (`spreadPow_raises reads`), and as they stand.
-/

namespace Symbolic.Expr

variable {val : Expr → Option Rat}

/-- Where a power of a power has a value, so has the power to the product of the exponents. -/
theorem zpow_mul_defined {x : Rat} {m n : Int} (hm : x ≠ 0 ∨ 0 ≤ m) (hn : x ^ m ≠ 0 ∨ 0 ≤ n) :
    x ≠ 0 ∨ 0 ≤ m * n := by
  refine or_iff_not_imp_left.2 fun hx => ?_
  have hx : x = 0 := not_not.1 hx
  have hm : 0 ≤ m := hm.resolve_left fun h => h hx
  rcases hn with hn | hn
  · have : m = 0 := not_not.1 fun h0 => hn (by rw [hx, zero_zpow m h0])
    rw [this, zero_mul]
  · exact Int.mul_nonneg hm hn

theorem prod_zpow (xs : List Expr) (n : Int) :
    (xs.map fun x => amountBy val x ^ n).prod = (xs.map (amountBy val)).prod ^ n := by
  induction xs with
  | nil => simp
  | cons x xs ih =>
    calc ((x :: xs).map fun x => amountBy val x ^ n).prod
        = amountBy val x ^ n * (xs.map fun x => amountBy val x ^ n).prod := List.prod_cons
      _ = (amountBy val x * (xs.map (amountBy val)).prod) ^ n := by rw [ih, mul_zpow]
      _ = ((x :: xs).map (amountBy val)).prod ^ n := by rw [List.map_cons, List.prod_cons]

variable (reads : Reading val)
include reads

theorem foldedPower?_exact {b : Expr} {p c : Rat} (hp : p ≠ 0) (hden : p.den = 1)
    (h : foldedPower? b p = some c) : c = amountBy val b ^ p.num := by
  have hnum : p.num ≠ 0 := Rat.num_ne_zero.2 hp
  cases b with
  | const b =>
    simp only [foldedPower?] at h
    rw [reads.amount_const]
    split at h
    · next hz =>
      simp only [Bool.and_eq_true, decide_eq_true_eq] at hz
      rw [← Option.some.inj h, hz.1, zero_zpow _ hnum]
    · simp only [Rational.exactPower?, hden, Rational.root?, if_true, Option.map_some] at h
      split at h
      · cases h
      split at h
      · next hz =>
        rw [hz, zero_zpow _ hnum]
        split at h
        · exact (Option.some.inj h).symm
        · cases h
      · exact (Option.some.inj h).symm
  | _ => cases h

theorem barePow_raises {b p : Expr} (hb : DefinedBy val b) (hp : DefinedBy val p)
    (hr : Raisable (amountBy val b) (amountBy val p)) :
    val (barePow b p) = some (amountBy val b ^ (amountBy val p).num) := by
  have hpow : val (pow b p) = some (amountBy val b ^ (amountBy val p).num) :=
    reads.pow_eq_some.2 ⟨hb, hp, hr, rfl⟩
  cases b with
  | const b =>
    simp only [barePow]
    split
    · next h1 => rw [h1, reads.amount_const, one_zpow, reads.const]
    · exact hpow
  | _ => exact hpow

variable {product : List Expr → Option Expr} {again : Expr → Expr → Option Expr} {c : Rat}

theorem Raises.const (ha : Raises val again) {b e : Expr} (hb : DefinedBy val b)
    (hr : Raisable (amountBy val b) c) (he : again b (.const c) = some e) :
    val e = some (amountBy val b ^ c.num) := by
  rw [← reads.amount_const c] at hr ⊢
  exact ha b (.const c) e hb (reads.defined_const c) hr he

theorem nestedPow_raises (hp : Multiplies val product) (ha : Raises val again) {b q e : Expr}
    (hb : DefinedBy val (pow b q)) (hr : Raisable (amountBy val (pow b q)) c)
    (he : (product [q, const c] >>= again b) = some e) :
    val e = some (amountBy val (pow b q) ^ c.num) := by
  obtain ⟨hb', hq, ⟨hden, hd⟩, hv⟩ := reads.pow_eq_some.1 hb
  obtain ⟨e', he', he⟩ := Option.bind_eq_some_iff.1 he
  have hprod := hp [q, const c] e' (List.forall_mem_cons.2 ⟨hq, by simp [reads.defined_const]⟩) he'
  -- both exponents are integers, and so is their product
  have hmul : amountBy val e' = (((amountBy val q).num * c.num : Int) : Rat) := by
    rw [amountBy_of_eq hprod, List.map_cons, List.map_singleton, List.prod_pair, reads.amount_const,
      Int.cast_mul, (Rat.den_eq_one_iff _).1 hden, (Rat.den_eq_one_iff c).1 hr.1]
  have hnum : (amountBy val e').num = (amountBy val q).num * c.num := by rw [hmul, Rat.num_intCast]
  have hdef : Raisable (amountBy val b) (amountBy val e') := by
    refine ⟨by rw [hmul, Rat.den_intCast], hnum ▸ zpow_mul_defined hd ?_⟩
    rw [← hv]
    exact hr.2
  calc val e = some (amountBy val b ^ (amountBy val e').num) :=
        ha _ _ _ hb' (definedBy_of_eq hprod) hdef he
    _ = some (amountBy val (pow b q) ^ c.num) := by rw [hnum, zpow_mul, hv]

theorem spreadPow_raises (hp : Multiplies val product) (ha : Raises val again) {fs : List Expr}
    {e : Expr} (hb : DefinedBy val (.product fs)) (hr : Raisable (amountBy val (.product fs)) c)
    (he : (fs.mapM (fun f => again f (const c)) >>= product) = some e) :
    val e = some (amountBy val (.product fs) ^ c.num) := by
  obtain ⟨hfs, hv⟩ := reads.product_eq_some.1 hb
  obtain ⟨es, hes, he⟩ := Option.bind_eq_some_iff.1 he
  have hes := forall₂_of_mapM hes
  -- if the product is not zero, no factor is
  have hfr : ∀ f ∈ fs, Raisable (amountBy val f) c := by
    refine fun f hf => ⟨hr.1, hr.2.imp_left fun hd h0 => hd ?_⟩
    rw [amountBy_of_eq hb, hv]
    exact List.prod_eq_zero (h0 ▸ List.mem_map_of_mem hf)
  have hex : ∀ f ∈ fs, ∀ e, again f (const c) = some e →
      val e = some (amountBy val f ^ c.num) :=
    fun f hf e he => ha.const reads (hfs f hf) (hfr f hf) he
  have hval : ∀ x ∈ es, DefinedBy val x := by
    intro x hx
    obtain ⟨f, hf, hfx⟩ := exists_of_forall₂_mem hes x hx
    exact definedBy_of_eq (hex f hf x hfx)
  have hprod : (fs.map fun f => amountBy val f ^ c.num).prod = (es.map (amountBy val)).prod :=
    prod_map_eq_of_forall₂ hes fun f hf e he => (amountBy_of_eq (hex f hf e he)).symm
  calc val e = some (es.map (amountBy val)).prod := hp es e hval he
    _ = some (fs.map fun f => amountBy val f ^ c.num).prod := by rw [hprod]
    _ = some (amountBy val (.product fs) ^ c.num) := by rw [prod_zpow, hv]

theorem powBody_raises (hp : Multiplies val product) (ha : Raises val again) :
    Raises val (powBody product again) := by
  intro b p e hb hdp hr he
  unfold powBody at he
  split at he
  · next c =>
    rw [reads.amount_const] at hr ⊢
    split at he
    · next h0 =>
      rw [← Option.some.inj he, h0, Rat.num_zero, zpow_zero]
      exact reads.const 1
    next h0 =>
    split at he
    · next h1 =>
      rw [← Option.some.inj he, reads.congr (alike_copied b), hb, h1, Rat.num_one, zpow_one]
    split at he
    · next v hv =>
      rw [← Option.some.inj he, ← foldedPower?_exact reads h0 hr.1 hv]
      exact reads.const v
    rw [if_pos hr.1] at he
    split at he
    · exact nestedPow_raises reads hp ha hb hr he
    · exact spreadPow_raises reads hp ha hb hr he
    · rw [← Option.some.inj he]
      rw [← reads.amount_const c] at hr
      rw [barePow_raises reads hb (reads.defined_const c) hr, reads.amount_const]
  · rw [← Option.some.inj he]
    exact barePow_raises reads hb hdp hr

end Symbolic.Expr
