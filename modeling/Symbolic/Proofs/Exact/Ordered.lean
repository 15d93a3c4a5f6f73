import Mathlib.Algebra.Order.Module.Basic
import Symbolic.Proofs.Exact.Unfolded

/-!
Rational values with magnitudes, minima and maxima: a call of `abs`, `min` or `max` has the value of
the operation, and the sign is the only primitive that has a value. It is the value of the body as
well (`ordered?_body`), so expansion keeps it through any nesting (`ordered?_atomic`).
-/

namespace Symbolic.Expr

/-- The magnitude of a number, the lesser and the greater of two. -/
def orderedValue? : Operation → List Rat → Option Rat
  | .unary .abs, [x] => some |x|
  | .binary .min, [x, y] => some (min x y)
  | .binary .max, [x, y] => some (max x y)
  | _, _ => none

mutual

/-- The value at the values `ρ` of the variables. -/
def ordered? (ρ : Symbol → Option Rat) : Expr → Option Rat
  | const c => some c
  | var s _ => ρ s
  | sum es => (ordereds? ρ es).map List.sum
  | product es => (ordereds? ρ es).map List.prod
  | pow b p =>
    (ordered? ρ p).bind fun c =>
      if c.den = 1 then (ordered? ρ b).bind (intPower? · c.num) else none
  | apply .sign e => (ordered? ρ e).map Rational.signum
  | apply _ _ => none
  | call f ps b es =>
    (Definition.operation? ⟨f, ps, b⟩ es.length).bind fun op =>
      (ordereds? ρ es).bind (orderedValue? op)

def ordereds? (ρ : Symbol → Option Rat) : List Expr → Option (List Rat)
  | [] => some []
  | e :: es => (ordered? ρ e).bind fun v => (ordereds? ρ es).map (v :: ·)

end

variable {ρ ρ' : Symbol → Option Rat}

theorem ordereds?_eq_mapM (es : List Expr) : ordereds? ρ es = es.mapM (ordered? ρ) := by
  induction es with
  | nil => rfl
  | cons e es ih =>
    rw [ordereds?, ih, List.mapM_cons]
    cases ordered? ρ e <;> cases es.mapM (ordered? ρ) <;> rfl

theorem ordered?_sum (es : List Expr) :
    ordered? ρ (sum es) = (es.mapM (ordered? ρ)).map List.sum := by
  rw [ordered?, ordereds?_eq_mapM]

theorem ordered?_product (es : List Expr) :
    ordered? ρ (product es) = (es.mapM (ordered? ρ)).map List.prod := by
  rw [ordered?, ordereds?_eq_mapM]

theorem ordered?_call (f : String) (ps : List Symbol) (b : Expr) (es : List Expr) :
    ordered? ρ (call f ps b es) = (Definition.operation? ⟨f, ps, b⟩ es.length).bind fun op =>
      (es.mapM (ordered? ρ)).bind (orderedValue? op) := by
  rw [ordered?, ordereds?_eq_mapM]

theorem ordered?_apply_eq_some {f : Primitive} {e : Expr} {v : Rat} :
    ordered? ρ (apply f e) = some v ↔
      f = .sign ∧ ∃ x, ordered? ρ e = some x ∧ Rational.signum x = v := by
  cases f <;> simp [ordered?]

theorem ordered?_call_eq_some {f : String} {ps : List Symbol} {b : Expr} {es : List Expr} {v : Rat} :
    ordered? ρ (call f ps b es) = some v ↔
      ∃ op, Definition.operation? ⟨f, ps, b⟩ es.length = some op ∧
        (∀ e ∈ es, DefinedBy (ordered? ρ) e) ∧
          orderedValue? op (es.map (amountBy (ordered? ρ))) = some v := by
  rw [ordered?_call, Option.bind_eq_some_iff]
  refine exists_congr fun op => and_congr_right fun _ => ?_
  rw [Option.bind_eq_some_iff]
  constructor
  · rintro ⟨xs, hxs, hv⟩
    obtain ⟨hes, rfl⟩ := mapM_eq_some.1 hxs
    exact ⟨hes, hv⟩
  · rintro ⟨hes, hv⟩
    exact ⟨_, mapM_eq_some.2 ⟨hes, rfl⟩, hv⟩

/-! Equal expressions have the same value. -/

theorem operation?_alike {b b' : Expr} (h : Alike b b') (f : String) (ps : List Symbol) (n : Nat) :
    Definition.operation? ⟨f, ps, b⟩ n = Definition.operation? ⟨f, ps, b'⟩ n := by
  have hsame (g : Definition) : g.same ⟨f, ps, b⟩ = g.same ⟨f, ps, b'⟩ := by
    have hbody : Alike g.body b ↔ Alike g.body b' := ⟨(Alike.trans · h), (Alike.trans · h.symm)⟩
    rw [Definition.same_eq, Definition.same_eq]
    exact congrArg (_ && ·) (Bool.eq_iff_iff.2 hbody)
  simp only [Definition.operation?, Builtin.ofDefinition?, hsame]

theorem ordered?_alike {a b : Expr} (h : Alike a b) : ordered? ρ a = ordered? ρ b := by
  have hlist {as bs : List Expr} (ih : ∀ a ∈ as, ∀ {b}, Alike a b → ordered? ρ a = ordered? ρ b)
      (h : Rearranged Alike as bs) :
      (as.mapM (ordered? ρ)).map List.sum = (bs.mapM (ordered? ρ)).map List.sum ∧
        (as.mapM (ordered? ρ)).map List.prod = (bs.mapM (ordered? ρ)).map List.prod := by
    obtain ⟨cs, hcs, hp⟩ := h
    rw [mapM_congr (forall₂_imp_of_mem hcs fun a ha c _ hac => ih a ha hac)]
    exact mapM_perm hp
  induction a generalizing b with
  | const c => rw [h.eq_const]
  | var s k =>
    obtain ⟨l, rfl⟩ := h.eq_var
    rfl
  | sum as ih =>
    obtain ⟨bs, rfl, has⟩ := h.eq_sum
    rw [ordered?_sum, ordered?_sum, (hlist ih has).1]
  | product as ih =>
    obtain ⟨bs, rfl, has⟩ := h.eq_product
    rw [ordered?_product, ordered?_product, (hlist ih has).2]
  | pow b p ihb ihp =>
    obtain ⟨b', p', rfl, hb, hp⟩ := h.eq_pow
    rw [ordered?, ordered?, ihb hb, ihp hp]
  | apply f a ih =>
    obtain ⟨b, rfl, hab⟩ := h.eq_apply
    ext v
    rw [ordered?_apply_eq_some, ordered?_apply_eq_some, ih hab]
  | call f ps d as _ ih =>
    obtain ⟨d', bs, rfl, hd, has⟩ := h.eq_call
    rw [ordered?_call, ordered?_call, operation?_alike hd, has.length_eq,
      mapM_congr (forall₂_imp_of_mem has fun a ha b _ hab => ih a ha hab)]

theorem reading_ordered (ρ : Symbol → Option Rat) : Reading (ordered? ρ) where
  const _ := rfl
  sum := ordered?_sum
  product := ordered?_product
  pow _ _ := rfl
  congr := ordered?_alike

theorem ordered?_congr {e : Expr} (h : ∀ s ∈ occurrences e, ρ s = ρ' s) :
    ordered? ρ e = ordered? ρ' e := by
  have hlist {es : List Expr}
      (ih : ∀ e ∈ es, (∀ s ∈ occurrences e, ρ s = ρ' s) → ordered? ρ e = ordered? ρ' e)
      (h : ∀ s ∈ occurrencesAll es, ρ s = ρ' s) : es.mapM (ordered? ρ) = es.mapM (ordered? ρ') := by
    refine mapM_congr (List.forall₂_same.2 fun e he => ih e he fun s hs => h s ?_)
    exact mem_occurrencesAll.2 ⟨e, he, hs⟩
  induction e with
  | const c => rfl
  | var s k => exact h s List.mem_cons_self
  | sum es ih => rw [ordered?_sum, ordered?_sum, hlist ih h]
  | product es ih => rw [ordered?_product, ordered?_product, hlist ih h]
  | pow b p ihb ihp =>
    rw [ordered?, ordered?, ihb fun s hs => h s (List.mem_append_left _ hs),
      ihp fun s hs => h s (List.mem_append_right _ hs)]
  | apply f e ih =>
    ext v
    rw [ordered?_apply_eq_some, ordered?_apply_eq_some, ih h]
  | call f ps b es _ ih => rw [ordered?_call, ordered?_call, hlist ih h]

/-! What is put together. -/

section Reading

variable {val : Expr → Option Rat} (reads : Reading val) {es : List Expr} {xs : List Rat}
include reads

theorem Reading.sumOf_values (h : List.Forall₂ (fun e x => val e = some x) es xs) :
    val (Expr.sumOf es) = some xs.sum := by
  obtain ⟨hes, hmap⟩ := defined_of_forall₂ (g := id) h
  rw [reads.sumOf hes, hmap, List.map_id]

theorem Reading.productOf_values (h : List.Forall₂ (fun e x => val e = some x) es xs) :
    val (Expr.productOf es) = some xs.prod := by
  obtain ⟨hes, hmap⟩ := defined_of_forall₂ (g := id) h
  rw [reads.productOf hes, hmap, List.map_id]

theorem Reading.subtract {a b : Expr} {x y : Rat} (ha : val a = some x) (hb : val b = some y) :
    val (Expr.subtract a b) = some (x - y) := by
  have hneg := reads.productOf_values (.cons (reads.const (-1)) (.cons hb .nil))
  have hsum := reads.sumOf_values (.cons ha (.cons hneg .nil))
  rw [List.prod_pair, List.sum_pair, neg_one_mul, ← sub_eq_add_neg] at hsum
  exact hsum

theorem Reading.half : val half = some 2⁻¹ := by
  rw [Symbolic.half, reads.powOf (reads.defined_const 2) (reads.defined_const (-1)),
    reads.amount_const, reads.amount_const]
  · rfl
  · rw [reads.amount_const, reads.amount_const]
    exact ⟨rfl, .inl two_ne_zero⟩

end Reading

theorem mul_signum (x : Rat) : x * Rational.signum x = |x| := by
  rw [signum_eq]
  rcases lt_trichotomy x 0 with h | h | h
  · rw [if_neg h.not_gt, if_pos h, abs_of_neg h, mul_neg_one]
  · simp [h]
  · rw [if_pos h, abs_of_pos h, mul_one]

theorem ordered?_applyOf {f : Primitive} {e : Expr} {x : Rat} (hf : f = .sign)
    (h : ordered? ρ e = some x) : ordered? ρ (applyOf f e) = some (Rational.signum x) := by
  subst hf
  have happly : ordered? ρ (apply .sign e) = some (Rational.signum x) :=
    ordered?_apply_eq_some.2 ⟨rfl, x, h, rfl⟩
  unfold applyOf
  split
  · next hf => cases hf
  · cases h
    rfl
  · obtain ⟨-, y, hy, rfl⟩ := ordered?_apply_eq_some.1 h
    rw [signum_signum]
    exact ordered?_apply_eq_some.2 ⟨rfl, y, hy, rfl⟩
  · next _ hf => exact absurd rfl hf
  · exact happly

/-! The bodies of the three functions. -/

theorem ordered?_magnitudeBody {e : Expr} {x : Rat} (h : ordered? ρ e = some x) :
    ordered? ρ (magnitudeBody e) = some |x| := by
  have hprod := (reading_ordered ρ).productOf_values (.cons h (.cons (ordered?_applyOf rfl h) .nil))
  rwa [List.prod_pair, mul_signum] at hprod

section Spread

variable {x y : Rat} (hx : ordered? ρ (ofName "x") = some x)
  (hy : ordered? ρ (ofName "y") = some y)
include hx hy

theorem ordered?_spread : ordered? ρ spread = some |x - y| :=
  ordered?_magnitudeBody ((reading_ordered ρ).subtract hx hy)

theorem ordered?_minimum : ordered? ρ minimum.body = some (min x y) := by
  have reads := reading_ordered ρ
  have hvalue : 2⁻¹ * (x + y - |x - y|) = min x y := by
    rw [abs_sub_comm]
    exact (inf_eq_half_smul_add_sub_abs_sub' Rat x y).symm
  have hsum := reads.sumOf_values (.cons hx (.cons hy .nil))
  have hdiff := reads.subtract hsum (ordered?_spread hx hy)
  have hbody := reads.productOf_values (.cons reads.half (.cons hdiff .nil))
  rwa [List.prod_pair, List.sum_pair, hvalue] at hbody

theorem ordered?_maximum : ordered? ρ maximum.body = some (max x y) := by
  have reads := reading_ordered ρ
  have hvalue : 2⁻¹ * (x + (y + |x - y|)) = max x y := by
    rw [← add_assoc, abs_sub_comm]
    exact (sup_eq_half_smul_add_add_abs_sub' Rat x y).symm
  have hsum := reads.sumOf_values (.cons hx (.cons hy (.cons (ordered?_spread hx hy) .nil)))
  have hbody := reads.productOf_values (.cons reads.half (.cons hsum .nil))
  rwa [List.prod_pair, List.sum_cons, List.sum_pair, hvalue] at hbody

end Spread

/-- Where the parameters have the values of the operands, the body has the value of the operation. -/
theorem ordered?_body {f : Definition} {op : Operation} {xs : List Rat} {v : Rat}
    (hop : f.operation? xs.length = some op) (hv : orderedValue? op xs = some v)
    (hρ : ∀ s x, lookupLast s (f.params.zip xs) = some x → ρ s = some x) :
    ordered? ρ f.body = some v := by
  obtain ⟨name, ps, b⟩ := f
  have harity := (arity_of_operation hop).symm
  rw [Definition.operation?, Option.filter_eq_some_iff, Option.map_eq_some_iff] at hop
  obtain ⟨⟨β, hβ, rfl⟩, -⟩ := hop
  have hsame := (Option.filter_eq_some_iff.1 hβ).2
  simp only [Definition.same_eq, Bool.and_eq_true, beq_iff_eq] at hsame
  obtain ⟨⟨-, rfl⟩, hbody⟩ := hsame
  rw [← ordered?_alike hbody]
  cases β with
  | abs =>
    obtain ⟨x, rfl⟩ := List.length_eq_one_iff.1 harity
    cases hv
    exact ordered?_magnitudeBody (e := ofName "x") (hρ (.ofName "x") x rfl)
  | min =>
    obtain ⟨x, y, rfl⟩ := List.length_eq_two.1 harity
    cases hv
    exact ordered?_minimum (hρ (.ofName "x") x rfl) (hρ (.ofName "y") y rfl)
  | max =>
    obtain ⟨x, y, rfl⟩ := List.length_eq_two.1 harity
    cases hv
    exact ordered?_maximum (hρ (.ofName "x") x rfl) (hρ (.ofName "y") y rfl)
  | cos | tan | sqrt | log | arccos => cases hv

theorem operation?_definition (f : Builtin) :
    f.definition.operation? f.operation.arity = some f.operation := by
  cases f <;> decide +kernel

/-- A call of a function that is defined from the start has the value of the operation. -/
theorem ordered?_on (f : Builtin) {es : List Expr} {xs : List Rat} {v : Rat}
    (hn : es.length = f.operation.arity)
    (hes : List.Forall₂ (fun e x => ordered? ρ e = some x) es xs)
    (hv : orderedValue? f.operation xs = some v) : ordered? ρ (f.on es) = some v := by
  obtain ⟨hall, hmap⟩ := defined_of_forall₂ (g := id) hes
  rw [List.map_id] at hmap
  exact ordered?_call_eq_some.2 ⟨f.operation, hn ▸ operation?_definition f, hall, hmap.symm ▸ hv⟩

/-! Replacement and expansion. -/

theorem ordered?_substitute {σ : Symbol → Option Expr} {e : Expr} :
    ∀ v, ordered? (fun s => (σ s).elim (ρ s) (ordered? ρ)) e = some v →
      ordered? ρ (substitute σ e) = some v := by
  have reads' := reading_ordered ρ
  have reads := reading_ordered fun s => (σ s).elim (ρ s) (ordered? ρ)
  induction e with
  | const c => exact fun v h => h
  | var s k =>
    intro v h
    rw [substitute_var]
    rw [ordered?] at h
    cases hs : σ s with
    | none => rwa [hs] at h
    | some d => rwa [hs] at h
  | sum es ih => exact fun v => reads.substitute_sum reads' ih
  | product es ih => exact fun v => reads.substitute_product reads' ih
  | pow b p ihb ihp => exact fun v => reads.substitute_pow reads' ihb ihp
  | apply f e ih =>
    intro v h
    obtain ⟨hf, x, hx, rfl⟩ := ordered?_apply_eq_some.1 h
    have he := ih x hx
    rcases substitute_apply f e (σ := σ) with ⟨hs, hstay⟩ | hs
    · rw [hs]
      rw [hstay] at he
      exact ordered?_apply_eq_some.2 ⟨hf, x, he, rfl⟩
    · rw [hs]
      exact ordered?_applyOf hf he
  | call f ps b es _ ih =>
    intro v h
    obtain ⟨op, hop, hes, hv⟩ := ordered?_call_eq_some.1 h
    obtain ⟨hall, hmap⟩ := defined_map ih hes
    rw [substitute_call, ordered?_call_eq_some, List.length_map, hmap]
    exact ⟨op, hop, hall, hv⟩

theorem ordered?_expandWithin {k : Nat} {e : Expr} (hk : callDepth e ≤ k) :
    ∀ v, ordered? ρ e = some v → ordered? ρ (expandWithin k e) = some v := by
  induction k generalizing e with
  | zero => exact fun v h => h
  | succ k ih =>
    refine (reading_ordered ρ).expandWith (P := fun e => callDepth e ≤ k + 1) ?_ ?_ ?_ hk
    · exact fun h d hd => (callDepth_operand hd).trans h
    · intro f e d v hd h
      obtain ⟨hf, x, hx, rfl⟩ := ordered?_apply_eq_some.1 h
      exact ordered?_applyOf hf (hd x hx)
    · intro f ps b es v hk ihs h
      obtain ⟨op, hop, hes, hv⟩ := ordered?_call_eq_some.1 h
      obtain ⟨hall, hmap⟩ := defined_map ihs hes
      refine ih (callDepth_inlined_expandWith hk) v (ordered?_substitute v ?_)
      rw [← hmap] at hv
      refine ordered?_body (f := ⟨f, ps, b⟩) ?_ hv fun s x hx => ?_
      · rwa [List.length_map, List.length_map]
      · rw [elim_lookupLast_zip hall, hx, Option.some_or]

theorem ordered?_atomic {e : Expr} {v : Rat} (h : ordered? ρ e = some v) :
    ordered? ρ e.atomic = some v := by
  rw [atomic_eq_expandWithin]
  exact ordered?_expandWithin (Nat.le_refl _) v h

end Symbolic.Expr
