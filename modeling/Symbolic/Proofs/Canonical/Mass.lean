import Symbolic.Expr.Constructors
import Symbolic.Expr.Identical
import Symbolic.Proofs.Canonical.Shape
import Symbolic.Proofs.Expr.Groups

/-!
The mass of an expression: what the constructors cannot increase. A constant weighs one and anything
else at least four, and a power weighs two more than base and exponent together.

Merging two like terms or two like powers loses mass. That is why the constructors, which start over
only after they have merged something, come to an end.
-/

namespace Symbolic.Expr

mutual

/-- The mass of an expression; the arguments of functions do not count. -/
def mass : Expr → Nat
  | const _ => 1
  | var _ _ | apply _ _ | call _ _ _ _ => 4
  | sum es => masses es
  | product es => masses es
  | pow b p => mass b + mass p + 2

def masses : List Expr → Nat
  | [] => 0
  | e :: es => mass e + masses es

end

theorem mass_copied (e : Expr) : mass e.copied = mass e :=
  copied_of (P := fun d => mass d = mass e) (fun _ _ h => h) rfl

theorem masses_eq_sum (es : List Expr) : masses es = (es.map mass).sum := by
  induction es with
  | nil => rfl
  | cons e es ih => rw [masses, ih, List.map_cons, List.sum_cons]

theorem masses_append (es fs : List Expr) : masses (es ++ fs) = masses es + masses fs := by
  simp [masses_eq_sum]

theorem masses_perm {es fs : List Expr} (h : es.Perm fs) : masses es = masses fs := by
  rw [masses_eq_sum, masses_eq_sum, (h.map mass).sum_eq]

theorem masses_singleton (e : Expr) : masses [e] = mass e := rfl

theorem masses_map_const (cs : List Rat) : masses (cs.map const) = cs.length := by
  induction cs with
  | nil => rfl
  | cons c cs ih =>
    rw [List.map_cons, masses, ih, mass, List.length_cons]
    omega

theorem mass_le_masses {e : Expr} {es : List Expr} (h : e ∈ es) : mass e ≤ masses es := by
  induction es with
  | nil => cases h
  | cons d es ih =>
    rw [masses]
    rcases List.mem_cons.1 h with rfl | h
    · omega
    · have := ih h
      omega

/-- The mass of a list is that of what is not constant, and one for each constant. -/
theorem masses_split (es : List Expr) :
    masses es = masses (nonConstants es) + (constants es).length := by
  rw [masses_perm (perm_nonConstants_append es), masses_append, masses_map_const]

theorem masses_terms (ts : List Expr) : masses (ts.flatMap terms) = masses ts := by
  rw [masses_eq_sum, masses_eq_sum]
  refine sum_map_flatMap fun t _ => ?_
  cases t with
  | sum es => rw [mass, masses_eq_sum]; rfl
  | _ => simp [terms]

theorem masses_factors (fs : List Expr) : masses (fs.flatMap factors) = masses fs := by
  rw [masses_eq_sum, masses_eq_sum]
  refine sum_map_flatMap fun f _ => ?_
  cases f with
  | product es => rw [mass, masses_eq_sum]; rfl
  | _ => simp [factors]

theorem masses_of_forall₂ {as bs : List Expr} (h : List.Forall₂ (fun a b => mass a = mass b) as bs) :
    masses as = masses bs := by
  induction h with
  | nil => rfl
  | cons hab _ ih => rw [masses, masses, hab, ih]

/-- Expressions that are equal up to the order of operands have the same mass. -/
theorem mass_alike {a b : Expr} (h : alike a b = true) : mass a = mass b := by
  refine alike_induction (motive := fun a b => mass a = mass b) ?const ?var ?sum ?product ?pow
    ?apply ?call a b h
  case const => exact fun c => rfl
  case var => exact fun s k l => rfl
  case sum =>
    intro as bs cs hp hcs
    rw [mass, mass, masses_of_forall₂ hcs, masses_perm hp]
  case product =>
    intro as bs cs hp hcs
    rw [mass, mass, masses_of_forall₂ hcs, masses_perm hp]
  case pow =>
    intro b p b' p' hb hp
    rw [mass, mass, hb, hp]
  case apply => exact fun f a b _ => rfl
  case call => exact fun f ps b b' as bs _ _ => rfl

/-- The mass is bounded by what the constructors weigh. -/
theorem mass_le_weight (e : Expr) : mass e ≤ 4 * weight e ∧ 1 ≤ weight e := by
  have hlist : ∀ es : List Expr, (∀ e ∈ es, mass e ≤ 4 * weight e ∧ 1 ≤ weight e) →
      masses es ≤ 4 * weights es := by
    intro es
    induction es with
    | nil => exact fun _ => Nat.le_refl 0
    | cons e es ih =>
      intro h
      obtain ⟨he, hes⟩ := List.forall_mem_cons.1 h
      have := ih hes
      rw [masses, weights]
      omega
  induction e with
  | const c => exact ⟨show 1 ≤ 4 * 1 by omega, Nat.le_refl 1⟩
  | var s k => exact ⟨Nat.le_refl 4, Nat.le_refl 1⟩
  | sum es ih =>
    have := hlist es ih
    rw [mass, weight]
    omega
  | product es ih =>
    have := hlist es ih
    rw [mass, weight]
    omega
  | pow b p ihb ihp =>
    rw [mass, weight]
    omega
  | apply f e _ => exact ⟨Nat.le_refl 4, Nat.le_refl 1⟩
  | call f ps b es _ _ => exact ⟨Nat.le_refl 4, Nat.le_refl 1⟩

theorem masses_le_weights (es : List Expr) : masses es ≤ 4 * weights es := by
  induction es with
  | nil => exact Nat.le_refl 0
  | cons e es ih =>
    have := mass_le_weight e
    rw [masses, weights]
    omega

/-! Canonical expressions other than constants weigh four at least. -/

theorem OperandsShape.exists_nonConst {nested : Expr → Bool} {folded : List Rat} {es : List Expr}
    (h : OperandsShape nested folded es) : ∃ e ∈ es, e.isConst = false := by
  by_contra hn
  have hc : nonConstants es = [] := by
    rw [List.eq_nil_iff_forall_not_mem]
    exact fun e he => hn ⟨e, mem_nonConstants.1 he⟩
  -- there would be two constants
  have hl := (perm_nonConstants_append es).length_eq
  rw [hc, List.nil_append, List.length_map] at hl
  have := h.two_le
  have := h.one_const
  omega

theorem one_le_mass {e : Expr} (h : Canonical e) : 1 ≤ mass e ∧ (e.isConst = false → 4 ≤ mass e) := by
  have hlist : ∀ {nested folded es}, OperandsShape nested folded es →
      (∀ e ∈ es, 1 ≤ mass e ∧ (e.isConst = false → 4 ≤ mass e)) → 4 ≤ masses es := by
    intro nested folded es hs hes
    obtain ⟨e, he, hc⟩ := hs.exists_nonConst
    have := mass_le_masses he
    have := (hes e he).2 hc
    omega
  induction h with
  | const c => exact ⟨Nat.le_refl 1, by simp [isConst]⟩
  | var s k => exact ⟨show 1 ≤ 4 by omega, fun _ => Nat.le_refl 4⟩
  | sum hs _ ih =>
    have := hlist hs ih
    rw [mass]
    omega
  | product hs _ ih =>
    have := hlist hs ih
    rw [mass]
    omega
  | pow hs _ _ ihb ihp =>
    rw [mass]
    omega
  | apply _ _ _ => exact ⟨show 1 ≤ 4 by omega, fun _ => Nat.le_refl 4⟩
  | call _ _ _ _ _ => exact ⟨show 1 ≤ 4 by omega, fun _ => Nat.le_refl 4⟩

theorem Canonical.one_le_mass {e : Expr} (h : Canonical e) : 1 ≤ mass e := (Expr.one_le_mass h).1

theorem Canonical.four_le_mass {e : Expr} (h : Canonical e) (hc : e.isConst = false) :
    4 ≤ mass e := (Expr.one_le_mass h).2 hc

theorem length_le_masses {es : List Expr} (h : ∀ e ∈ es, Canonical e) : es.length ≤ masses es := by
  induction es with
  | nil => exact Nat.le_refl 0
  | cons e es ih =>
    obtain ⟨he, hes⟩ := List.forall_mem_cons.1 h
    have := he.one_le_mass
    have := ih hes
    rw [masses, List.length_cons]
    omega

/-! Like terms. -/

def termMass (b : Expr) (c : Rat) : Nat := if c = 1 then mass b else mass b + 1

/-- A product that loses its constant is canonical, if anything else is in it. -/
theorem canonical_bareProduct {rest : List Expr} (hne : rest ≠ [])
    (hc : ∀ e ∈ rest, Canonical e ∧ e.isConst = false ∧ e.isProduct = false)
    (ha : Ascending rest) : Canonical (bareProduct rest) ∧ (bareProduct rest).isConst = false ∧
      mass (bareProduct rest) = masses rest := by
  unfold bareProduct
  split
  · next e => exact ⟨(hc e List.mem_cons_self).1, (hc e List.mem_cons_self).2.1, rfl⟩
  · next hone =>
    have hnil : constants rest = [] := constants_eq_nil fun e he => (hc e he).2.1
    refine ⟨.product ⟨?_, fun e he => (hc e he).2.2, ?_, ?_, ha⟩ fun e he => (hc e he).1, rfl, rfl⟩
    · match rest with
      | [] => exact absurd rfl hne
      | [e] => exact absurd rfl (hone e)
      | _ :: _ :: _ => simp
    · simp [hnil]
    · simp [hnil]

/-- A product with a constant holds it first, and then factors that are not constant. -/
theorem ProductShape.eq_cons {fs : List Expr} (h : ProductShape fs) {c : Rat} {rest : List Expr}
    (ht : takeConst? fs = some (c, rest)) :
    fs = const c :: rest ∧ c ≠ 0 ∧ c ≠ 1 ∧ rest ≠ [] ∧ ∀ e ∈ rest, e.isConst = false := by
  -- the factors are sorted, and constants come first
  have hfirst := constants_first h.ascending
  obtain ⟨us, vs, hfs, hrest, hus⟩ := takeConst?_eq_some ht
  have hc : c ∈ constants fs := mem_constants.2 (by simp [hfs])
  have hone := h.one_const
  match hcs : constants fs with
  | [] => simp [hcs] at hc
  | _ :: _ :: _ => simp [hcs] at hone
  | [d] =>
    obtain rfl : c = d := by simpa [hcs] using hc
    rw [hcs, List.map_singleton, List.singleton_append] at hfirst
    rw [hfirst] at ht
    have hr : nonConstants fs = rest := by
      simp only [takeConst?, Option.some.injEq, Prod.mk.injEq] at ht
      exact ht.2
    have hk := h.kept c hc
    simp only [List.mem_cons, List.not_mem_nil, or_false, not_or] at hk
    refine ⟨hr ▸ hfirst, hk.1, hk.2, ?_, fun e he => (mem_nonConstants.1 (hr.symm ▸ he)).2⟩
    intro hnil
    have hl := h.two_le
    rw [hfirst, hr, hnil] at hl
    exact absurd hl (by simp)

/-- A term is split into a canonical base and a coefficient other than zero. -/
theorem asMultiple_spec {e : Expr} (h : Canonical e) (hc : e.isConst = false) :
    Canonical (asMultiple e).1 ∧ (asMultiple e).1.isConst = false ∧ (asMultiple e).2 ≠ 0 ∧
      mass e = termMass (asMultiple e).1 (asMultiple e).2 := by
  have hself : Canonical e ∧ e.isConst = false ∧ (1 : Rat) ≠ 0 ∧ mass e = termMass e 1 :=
    ⟨h, hc, by decide, by rw [termMass, if_pos rfl]⟩
  cases e with
  | product fs =>
    cases ht : takeConst? fs with
    | none => simpa [asMultiple, ht] using hself
    | some cr =>
      obtain ⟨c, rest⟩ := cr
      cases h with
      | product hs hfs =>
        obtain ⟨rfl, h0, h1, hne, hrest⟩ := ProductShape.eq_cons hs ht
        have hb := canonical_bareProduct hne
          (fun e he => ⟨hfs e (List.mem_cons_of_mem _ he), hrest e he,
            hs.opened e (List.mem_cons_of_mem _ he)⟩) (List.pairwise_cons.1 hs.ascending).2
        simp only [asMultiple, ht]
        refine ⟨hb.1, hb.2.1, h0, ?_⟩
        rw [termMass, if_neg h1, hb.2.2, mass, masses, mass]
        omega
  | _ => simpa [asMultiple] using hself

theorem asMultiple_one {e : Expr} (h : Canonical e) (h1 : (asMultiple e).2 = 1) :
    (asMultiple e).1 = e := by
  cases e with
  | product fs =>
    cases ht : takeConst? fs with
    | none => simp [asMultiple, ht]
    | some cr =>
      obtain ⟨c, rest⟩ := cr
      simp only [asMultiple, ht] at h1
      exact absurd h1 (ProductShape.eq_cons h.product_shape ht).2.2.1
  | _ => rfl

/-- A term with another coefficient is a product with that constant first. -/
theorem asMultiple_ne_one {e : Expr} (h : Canonical e) (h1 : (asMultiple e).2 ≠ 1) :
    ∃ rest, e = product (const (asMultiple e).2 :: rest) ∧ (asMultiple e).1 = bareProduct rest ∧
      rest ≠ [] ∧ ∀ d ∈ rest, d.isConst = false := by
  cases e with
  | product fs =>
    cases ht : takeConst? fs with
    | none => simp [asMultiple, ht] at h1
    | some cr =>
      obtain ⟨c, rest⟩ := cr
      obtain ⟨rfl, _, _, hne, hrest⟩ := ProductShape.eq_cons h.product_shape ht
      exact ⟨rest, by simp [asMultiple, ht], by simp [asMultiple, ht], hne, hrest⟩
  | _ => exact absurd rfl h1

/-! Like powers. -/

def factorMass (b p : Expr) : Nat := if p = const 1 then mass b else mass b + mass p + 2

/-- A factor is split into a canonical base, which is no constant, and a canonical exponent. -/
theorem asPower_spec {e : Expr} (h : Canonical e) (hc : e.isConst = false) :
    Canonical (asPower e).1 ∧ (asPower e).1.isConst = false ∧ Canonical (asPower e).2 ∧
      mass e = factorMass (asPower e).1 (asPower e).2 := by
  have hself : Canonical e ∧ e.isConst = false ∧ Canonical (const 1) ∧
      mass e = factorMass e (const 1) :=
    ⟨h, hc, .const 1, by rw [factorMass, if_pos rfl]⟩
  cases e with
  | pow b p =>
    rw [asPower]
    split
    · exact hself
    · next hb =>
      cases h with
      | pow hs hb' hp =>
        exact ⟨hb', Bool.not_eq_true _ ▸ hb, hp, by rw [factorMass, if_neg hs.power_ne_one, mass]⟩
  | _ => exact hself

theorem asPower_one {e : Expr} (h : Canonical e) (h1 : (asPower e).2 = const 1) :
    asPower e = (e, const 1) := by
  cases e with
  | pow b p =>
    rw [asPower] at h1 ⊢
    split
    · rfl
    · next hb =>
      rw [if_neg hb] at h1
      exact absurd h1 h.pow_shape.power_ne_one
  | _ => rfl

/-! Powers. -/

def IsInteger (p : Expr) : Prop := ∃ c : Rat, p = const c ∧ c.den = 1

/-- How heavy a power of the base can be, when the exponent is an integer and goes inside. -/
def spreadMass : Expr → Nat
  | product fs => 2 * masses fs + 2
  | pow b p => if b.isConst then mass (pow b p) + 3 else 2 * mass (pow b p)
  | e => mass e + 3

def spreadSteps : Expr → Nat
  | product fs => 4 * masses fs + 6
  | pow b p => 4 * mass (pow b p)
  | _ => 1

theorem spreadSteps_le (b : Expr) : 1 ≤ spreadSteps b ∧ spreadSteps b ≤ 4 * mass b + 6 := by
  cases b <;> simp only [spreadSteps, mass] <;> omega

theorem mass_le_spreadMass (b : Expr) : mass b ≤ spreadMass b := by
  unfold spreadMass
  split
  · rw [mass]
    omega
  · split
    · omega
    · omega
  · omega

theorem sum_spreadMass_le {fs : List Expr} (h : ProductShape fs) (hfs : ∀ f ∈ fs, Canonical f) :
    (fs.map spreadMass).sum ≤ 2 * masses fs + 2 := by
  have hnon : ∀ es : List Expr, (∀ e ∈ es, Canonical e ∧ e.isConst = false ∧ e.isProduct = false) →
      (es.map spreadMass).sum ≤ 2 * masses es := by
    intro es
    induction es with
    | nil => exact fun _ => Nat.le_refl 0
    | cons e es ih =>
      intro he
      obtain ⟨⟨hc, hne, hp⟩, hes⟩ := List.forall_mem_cons.1 he
      have h4 := hc.four_le_mass hne
      have := ih hes
      have hm : spreadMass e ≤ 2 * mass e := by
        unfold spreadMass
        split
        · cases hp
        · split <;> omega
        · omega
      rw [List.map_cons, List.sum_cons, masses]
      omega
  have hconst (cs : List Rat) : ((cs.map const).map spreadMass).sum = 4 * cs.length := by
    induction cs with
    | nil => rfl
    | cons c cs ih =>
      rw [List.map_cons, List.map_cons, List.sum_cons, ih, List.length_cons, spreadMass, mass]
      · omega
      · simp
      · simp
  -- of constants there is one at most, and its power weighs no more than four
  have hn := hnon (nonConstants fs) fun f hf =>
    ⟨hfs f (mem_nonConstants.1 hf).1, (mem_nonConstants.1 hf).2, h.opened f (mem_nonConstants.1 hf).1⟩
  have hone := h.one_const
  rw [((perm_nonConstants_append fs).map spreadMass).sum_eq, List.map_append, List.sum_append,
    hconst, masses_split]
  omega

end Symbolic.Expr
