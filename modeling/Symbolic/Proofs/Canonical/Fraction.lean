import Mathlib.Algebra.Order.Ring.Int
import Symbolic.Expr.Printer
import Symbolic.Proofs.Canonical.Partial

/-!
A product is the fraction that it is printed as: what stands above the bar, divided by what stands
below it. Factor by factor, the sign, the part above the bar and the reciprocal of the part below it
put the factor together again (`pieces_const`, `pieces_of_nonconst`); as nothing is merged among
these, their product is that of the factors (`productOf_pieces`).
-/

namespace Symbolic.Expr

def inverse (e : Expr) : Expr := powOf e (const (-1))

/-- A base to a positive exponent: by itself if that is one. -/
def divisor (b : Expr) (n : Rat) : Expr := if n = 1 then b else powOf b (const n)

/-- What a part of a fraction stands for. -/
def Part.value : Part → Expr
  | .number n => const n
  | .factor e => e
  | .power b n => divisor b n

def signOf : Expr → List Expr
  | const c => if c < 0 then [const (-1)] else []
  | _ => []

/-- The signs, and what stands above the bar. -/
def numerator (fs : List Expr) : List Expr :=
  fs.flatMap signOf ++ (fs.flatMap fun f => (partsOf f).1).map Part.value

def denominator (fs : List Expr) : List Expr :=
  (fs.flatMap fun f => (partsOf f).2).map Part.value

/-- What a factor becomes in a fraction: its sign, its part above the bar, and the reciprocal of its
part below. -/
def pieces (f : Expr) : List Expr :=
  signOf f ++ (partsOf f).1.map Part.value ++ (partsOf f).2.map fun p => inverse p.value

/-! Powers that are divisions. -/

theorem reciprocal?_eq_some {e b : Expr} {n : Rat} (h : reciprocal? e = some (b, n)) :
    e = pow b (const (-n)) ∧ b.isConst = false ∧ 0 < n := by
  unfold reciprocal? at h
  split at h
  · split at h
    · next hb =>
      cases h
      rw [Bool.and_eq_true, Bool.not_eq_true', decide_eq_true_eq] at hb
      exact ⟨by rw [neg_neg], hb.1, neg_pos.2 hb.2⟩
    · cases h
  · cases h

section Reciprocal

variable {b : Expr} {n : Rat}

/-- The base of a power that is a division, to the positive exponent. -/
theorem divisor_reciprocal (h : Canonical (pow b (const (-n)))) (hb : b.isConst = false)
    (hn : 0 < n) : divisor b n = pow b (const n) ∨
      n = 1 ∧ divisor b n = b ∧ b.isPow = false ∧ b.isProduct = false := by
  have hs := h.pow_shape
  by_cases h1 : n = 1
  · obtain ⟨hpow, hprod⟩ := hs.not_spread (-n) rfl (by rw [h1]; decide)
    exact .inr ⟨h1, if_pos h1, hpow, hprod⟩
  · refine .inl ((if_neg h1).trans (powOf_eq_self ⟨?_, ?_, hs.base_ne_one, ?_, ?_⟩))
    · exact fun h => hn.ne' (const.inj h)
    · exact fun h => h1 (const.inj h)
    · rintro c hc hd
      cases hc
      exact hs.not_spread (-n) rfl (by rwa [Rat.neg_den])
    · rintro x c rfl
      cases hb

theorem canonical_divisor (hb : Canonical b) : Canonical (divisor b n) := by
  unfold divisor
  split
  · exact hb
  · exact closed_canonical.pow hb (.const n)

theorem inverse_divisor (h : Canonical (pow b (const (-n)))) (hb : b.isConst = false)
    (hn : 0 < n) : inverse (divisor b n) = pow b (const (-n)) := by
  rcases divisor_reciprocal h hb hn with heq | ⟨rfl, heq, -⟩
  · have hc : Canonical (pow b (const n)) := heq ▸ canonical_divisor (h.operands b List.mem_cons_self)
    rw [heq, inverse, powOf_pow hc rfl (by decide) (by decide), productOf_consts, mul_neg_one]
    exact powOf_eq_self h.pow_shape
  · rw [heq]
    exact powOf_eq_self h.pow_shape

theorem asPower_divisor (h : Canonical (pow b (const (-n)))) (hb : b.isConst = false)
    (hn : 0 < n) : (asPower (divisor b n)).1 = b := by
  rcases divisor_reciprocal h hb hn with heq | ⟨rfl, heq, hpow, -⟩
  · rw [heq, asPower, hb]
    rfl
  · rw [heq]
    cases b with
    | pow _ _ => cases hpow
    | _ => rfl

end Reciprocal

/-! One factor. -/

theorem inverse_const {c : Rat} (h : c ≠ 0) : inverse (const c) = const c⁻¹ := powOf_const_neg_one h

theorem partsOf_eq {f : Expr} (hc : f.isConst = false) :
    partsOf f = match reciprocal? f with
      | some (b, n) => ([], [.power b n])
      | none => ([.factor f], []) := by
  cases f with
  | const c => cases hc
  | _ => rfl

/-- The sign, the numerator and the reciprocal of the denominator of a constant. -/
theorem pieces_const {c : Rat} (h : c ≠ 0) :
    (constants (pieces (const c))).prod = c ∧ ∀ d ∈ pieces (const c), ∃ q, q ≠ 0 ∧ d = const q := by
  have hnum : (c.num.natAbs : Rat) ≠ 0 := by
    exact_mod_cast Int.natAbs_ne_zero.2 (Rat.num_ne_zero.2 h)
  have hden : (c.den : Rat) ≠ 0 := by exact_mod_cast c.den_ne_zero
  -- a part that is one is left out
  have hpart (q : Rat) (n : Nat) : (constants (if n = 1 then [] else [const q])).prod =
      if n = 1 then 1 else q := by
    split
    · rfl
    · exact List.prod_singleton
  have hpieces : pieces (const c) = (if c < 0 then [const (-1)] else []) ++
      (if c.num.natAbs = 1 then [] else [const (c.num.natAbs : Rat)]) ++
      (if c.den = 1 then [] else [const (c.den : Rat)⁻¹]) := by
    simp only [pieces, signOf, partsOf, apply_ite (List.map _), List.map_nil, List.map_cons,
      Part.value, inverse_const hden]
  have hone (n : Nat) : (if n = 1 then 1 else (n : Rat)) = n := by
    split
    · next h => rw [h, Nat.cast_one]
    · rfl
  have hsign : (if c < 0 then (-1 : Rat) else 1) * c.num.natAbs = c.num := by
    rw [Nat.cast_natAbs]
    split
    · next hneg => rw [abs_of_neg (Rat.num_neg.2 hneg), Int.cast_neg, neg_one_mul, neg_neg]
    · next hpos => rw [abs_of_nonneg (Rat.num_nonneg.2 (not_lt.1 hpos)), one_mul]
  rw [hpieces]
  constructor
  · have hfirst : (constants (if c < 0 then [const (-1)] else [])).prod =
        if c < 0 then -1 else 1 := by
      split
      · exact List.prod_singleton
      · rfl
    have hlast : (if c.den = 1 then 1 else (c.den : Rat)⁻¹) = (c.den : Rat)⁻¹ := by
      split
      · next h => rw [h, Nat.cast_one, inv_one]
      · rfl
    rw [constants_append, constants_append, List.prod_append, List.prod_append, hfirst, hpart, hpart,
      hone, hlast, hsign, ← div_eq_mul_inv, Rat.num_div_den]
  · intro d hd
    rcases List.mem_append.1 hd with hd | hd
    · rcases List.mem_append.1 hd with hd | hd
      · split at hd
        · exact ⟨-1, by decide, List.mem_singleton.1 hd⟩
        · cases hd
      · split at hd
        · cases hd
        · exact ⟨_, hnum, List.mem_singleton.1 hd⟩
    · split at hd
      · cases hd
      · exact ⟨_, inv_ne_zero hden, List.mem_singleton.1 hd⟩

theorem pieces_of_nonconst {f : Expr} (hf : Canonical f) (hc : f.isConst = false) :
    pieces f = [f] := by
  have hsign : signOf f = [] := by
    cases f with
    | const c => cases hc
    | _ => rfl
  rw [pieces, hsign, partsOf_eq hc]
  cases hr : reciprocal? f with
  | none => rfl
  | some bn =>
    obtain ⟨b, n⟩ := bn
    obtain ⟨rfl, hb, hn⟩ := reciprocal?_eq_some hr
    exact congrArg ([·]) (inverse_divisor hf hb hn)

/-- What is put below the bar for a factor: neither zero nor one, and of the same base as the
factor. -/
theorem below_spec {f : Expr} (hf : Canonical f) {p : Part} (hp : p ∈ (partsOf f).2) :
    Canonical p.value ∧ p.value.isProduct = false ∧ p.value ≠ const 0 ∧ p.value ≠ const 1 ∧
      (inverse p.value).isConst = p.value.isConst ∧
        (p.value.isConst = false → (asPower (inverse p.value)).1 = (asPower p.value).1) := by
  by_cases hc : f.isConst = true
  · obtain ⟨c, rfl⟩ := isConst_eq_true.1 hc
    simp only [partsOf] at hp
    split at hp
    · cases hp
    · next h1 =>
      obtain rfl := List.mem_singleton.1 hp
      have hden : (c.den : Rat) ≠ 0 := by exact_mod_cast c.den_ne_zero
      refine ⟨.const _, rfl, fun h => hden (const.inj h), fun h => h1 ?_, ?_, fun h => ?_⟩
      · exact_mod_cast const.inj h
      · rw [Part.value, inverse_const hden]
        rfl
      · cases h
  · rw [partsOf_eq (Bool.not_eq_true _ ▸ hc)] at hp
    cases hr : reciprocal? f with
    | none =>
      rw [hr] at hp
      cases hp
    | some bn =>
      obtain ⟨b, n⟩ := bn
      obtain ⟨rfl, hb, hn⟩ := reciprocal?_eq_some hr
      rw [hr] at hp
      obtain rfl := List.mem_singleton.1 hp
      have hcan : Canonical (divisor b n) := canonical_divisor (hf.operands b List.mem_cons_self)
      have hnot : (divisor b n).isProduct = false ∧ (divisor b n).isConst = false := by
        rcases divisor_reciprocal hf hb hn with heq | ⟨-, heq, -, hprod⟩
        · rw [heq]
          exact ⟨rfl, rfl⟩
        · rw [heq]
          exact ⟨hprod, hb⟩
      have hne (c : Rat) : divisor b n ≠ const c := fun h => by
        rw [h] at hnot
        cases hnot.2
      refine ⟨hcan, hnot.1, hne 0, hne 1, ?_, fun _ => ?_⟩
      · rw [Part.value, inverse_divisor hf hb hn, hnot.2]
        rfl
      · rw [Part.value, inverse_divisor hf hb hn, asPower_divisor hf hb hn, asPower, hb]
        rfl

/-! All factors. -/

variable {as bs ds fs : List Expr}

theorem perm_pieces (fs : List Expr) :
    (numerator fs ++ (denominator fs).map inverse).Perm (fs.flatMap pieces) := by
  have hnum : (numerator fs).Perm (fs.flatMap fun f => signOf f ++ (partsOf f).1.map Part.value) := by
    rw [numerator, List.map_flatMap]
    exact List.flatMap_append_perm _ _ _
  have hden : (denominator fs).map inverse =
      fs.flatMap fun f => (partsOf f).2.map fun p => inverse p.value := by
    rw [denominator, List.map_map, List.map_flatMap]
    rfl
  rw [hden]
  exact (hnum.append_right _).trans (List.flatMap_append_perm _ _ _)

theorem nonConstants_pieces (hfs : ∀ f ∈ fs, Canonical f) (h0 : 0 ∉ constants fs) :
    nonConstants (fs.flatMap pieces) = nonConstants fs ∧
      (constants (fs.flatMap pieces)).prod = (constants fs).prod := by
  induction fs with
  | nil => exact ⟨rfl, rfl⟩
  | cons f fs ih =>
    obtain ⟨hf, hfs⟩ := List.forall_mem_cons.1 hfs
    obtain ⟨hn, hc⟩ := ih hfs fun hz => h0 ((List.sublist_cons_self f fs).filterMap _ |>.subset hz)
    rw [List.flatMap_cons, nonConstants_append, constants_append, List.prod_append, hc, hn]
    by_cases hconst : f.isConst = true
    · obtain ⟨c, rfl⟩ := isConst_eq_true.1 hconst
      have hne : c ≠ 0 := fun h => h0 (h ▸ List.mem_cons_self)
      obtain ⟨hprod, hall⟩ := pieces_const hne
      have hnone : nonConstants (pieces (const c)) = [] := List.filter_eq_nil_iff.2 fun d hd => by
        obtain ⟨q, -, rfl⟩ := hall d hd
        simp [isConst]
      rw [hprod, hnone]
      exact ⟨rfl, List.prod_cons.symm⟩
    · rw [pieces_of_nonconst hf (Bool.not_eq_true _ ▸ hconst), ← List.prod_append,
        ← constants_append]
      exact ⟨(List.filter_append [f] fs).symm, rfl⟩

theorem Factors.pieces (hfs : ∀ f ∈ fs, Canonical f) (h : Factors fs) :
    Factors (fs.flatMap pieces) := by
  have hall : ∀ d ∈ fs.flatMap Expr.pieces, d.isProduct = false ∧ d ≠ const 0 := by
    intro d hd
    obtain ⟨f, hf, hd⟩ := List.mem_flatMap.1 hd
    by_cases hconst : f.isConst = true
    · obtain ⟨c, rfl⟩ := isConst_eq_true.1 hconst
      have hne : c ≠ 0 := fun hc => h.kept (mem_constants.2 (hc ▸ hf))
      obtain ⟨q, hq, rfl⟩ := (pieces_const hne).2 d hd
      exact ⟨rfl, fun h => hq (const.inj h)⟩
    · rw [pieces_of_nonconst (hfs f hf) (Bool.not_eq_true _ ▸ hconst)] at hd
      obtain rfl := List.mem_singleton.1 hd
      exact ⟨h.opened _ hf, fun h => hconst (h ▸ rfl)⟩
  refine ⟨fun d hd => (hall d hd).1, fun hz => (hall _ (mem_constants.1 hz)).2 rfl, ?_⟩
  rw [PowersMerged, (nonConstants_pieces hfs h.kept).1]
  exact h.merged

theorem productOf_pieces (hfs : ∀ f ∈ fs, Canonical f) (h : Factors fs) :
    Factors (numerator fs ++ (denominator fs).map inverse) ∧
      Alike (productOf (numerator fs ++ (denominator fs).map inverse)) (productOf fs) := by
  obtain ⟨hn, hc⟩ := nonConstants_pieces hfs h.kept
  have hperm := perm_pieces fs
  have hpieces : Factors (numerator fs ++ (denominator fs).map inverse) :=
    (h.pieces hfs).perm hperm.symm
  refine ⟨hpieces, productOf_alike_of_perm hpieces h ?_ (hn ▸ hperm.filter _)⟩
  rw [← hc]
  exact (hperm.filterMap _).prod_eq

theorem constants_denominator (hfs : ∀ f ∈ fs, Canonical f) :
    (constants (denominator fs)).length ≤ (constants fs).length := by
  induction fs with
  | nil => exact Nat.le_refl 0
  | cons f fs ih =>
    obtain ⟨hf, hfs⟩ := List.forall_mem_cons.1 hfs
    have hcons : denominator (f :: fs) = (partsOf f).2.map Part.value ++ denominator fs :=
      List.map_append
    have ih := ih hfs
    rw [hcons, constants_append, List.length_append]
    by_cases hconst : f.isConst = true
    · obtain ⟨c, rfl⟩ := isConst_eq_true.1 hconst
      have hone : (constants ((partsOf (const c)).2.map Part.value)).length ≤ 1 := by
        have hbelow : (partsOf (const c)).2 = if c.den = 1 then [] else [.number c.den] := rfl
        rw [hbelow]
        split
        · exact Nat.zero_le 1
        · exact Nat.le_refl 1
      have hc : constants (const c :: fs) = c :: constants fs := rfl
      rw [hc, List.length_cons]
      omega
    · have hconst : f.isConst = false := Bool.not_eq_true _ ▸ hconst
      have hnone : constants ((partsOf f).2.map Part.value) = [] := by
        refine constants_eq_nil (List.forall_mem_map.2 fun p hp => ?_)
        have hmem : inverse p.value ∈ pieces f :=
          List.mem_append_right _ (List.mem_map_of_mem hp)
        rw [pieces_of_nonconst hf hconst, List.mem_singleton] at hmem
        rw [← (below_spec hf hp).2.2.2.2.1, hmem, hconst]
      have hc : constants (f :: fs) = constants fs := by
        rw [constants, List.filterMap_cons_none]
        · rfl
        · cases f with
          | const c => cases hconst
          | _ => rfl
      rw [hnone, hc, List.length_nil, Nat.zero_add]
      exact ih

/-- What is below the bar are factors that are not merged, either, one constant at most. -/
theorem factors_denominator (hfs : ∀ f ∈ fs, Canonical f) (h : Factors fs)
    (hl : (constants fs).length ≤ 1) :
    Factors (denominator fs) ∧
      Alike (inverse (productOf (denominator fs))) (productOf ((denominator fs).map inverse)) := by
  have hall : ∀ d ∈ denominator fs, Canonical d ∧ d.isProduct = false ∧ d ≠ const 0 ∧ d ≠ const 1 ∧
      (inverse d).isConst = d.isConst ∧
        (d.isConst = false → (asPower (inverse d)).1 = (asPower d).1) := by
    intro d hd
    obtain ⟨p, hp, rfl⟩ := List.mem_map.1 hd
    obtain ⟨f, hf, hp⟩ := List.mem_flatMap.1 hp
    exact below_spec (hfs f hf) hp
  have hinv : Factors ((denominator fs).map inverse) :=
    (productOf_pieces hfs h).1.sublist (List.sublist_append_right _ _)
  have hd : Factors (denominator fs) := by
    refine ⟨fun d hd => (hall d hd).2.1, fun hz => (hall _ (mem_constants.1 hz)).2.2.1 rfl, ?_⟩
    have hn : nonConstants ((denominator fs).map inverse) =
        (nonConstants (denominator fs)).map inverse := by
      rw [nonConstants, List.filter_map]
      refine congrArg (List.map inverse) (List.filter_congr fun d hd => ?_)
      exact congrArg (!·) (hall d hd).2.2.2.2.1
    have hm : Apart asPower (nonConstants ((denominator fs).map inverse)) := hinv.merged
    rw [hn] at hm
    refine List.Pairwise.imp_of_mem (fun ha hb hab => ?_) (List.pairwise_map.1 hm)
    obtain ⟨ha, hac⟩ := mem_nonConstants.1 ha
    obtain ⟨hb, hbc⟩ := mem_nonConstants.1 hb
    rwa [(hall _ ha).2.2.2.2.2 hac, (hall _ hb).2.2.2.2.2 hbc] at hab
  refine ⟨hd, powOf_productOf_neg_one (fun d hd => (hall d hd).1) hd hinv ?_ ?_⟩
  · exact (constants_denominator hfs).trans hl
  · exact fun h1 => (hall _ (mem_constants.1 h1)).2.2.2.1 rfl

/-- A term that is subtracted, negated: a constant, the only other factor, or the product of the
others and of the new coefficient. -/
theorem negate_cases {e : Expr} (he : Canonical e) (hs : Settled e) (hsub : isSubtracted e = true) :
    (∃ c d, e = const c ∧ negate e = const d) ∨ (∃ d ∈ e.operands, negate e = d.copied) ∨
      ∃ c es gs, e = product (const c :: es) ∧ negate e = product gs ∧
        gs.Perm (withConst 1 (-c) es) ∧ PowersMerged gs := by
  unfold isSubtracted at hsub
  split at hsub
  · next c => exact .inl ⟨c, _, rfl, productOf_consts _ _⟩
  · next c es =>
    rcases negate_product he hs with ⟨d, rfl, hd⟩ | ⟨gs, heq, hp, hm⟩
    · exact .inr (.inl ⟨d, List.mem_cons_of_mem _ List.mem_cons_self, hd⟩)
    · exact .inr (.inr ⟨c, es, gs, rfl, heq, hp, hm⟩)
  · cases hsub

end Symbolic.Expr
