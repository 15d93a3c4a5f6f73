import Symbolic.Proofs.Canonical.Expansion
import Symbolic.Proofs.Exact.Substitution
import Symbolic.Proofs.Expr.Depth
import Symbolic.Proofs.Expr.Scope
import Symbolic.Proofs.Numeric.Evaluate

/-!
Rational values with calls. A call has the value of the body of its function, where the parameters have
the values of the arguments and all other variables keep theirs, as the evaluator has it. Only the
variables that are read matter (`unfolded?_congr`). On scoped expressions substitution keeps these
values, as variables that bodies read are not among those that are replaced
(`unfolded?_substitute`); so expansion does (`unfolded?_expandWithin`).
-/

namespace Symbolic.Expr

/-- The values of variables after those of the pairs are set. -/
def bound (ρ : Symbol → Option Rat) (pairs : List (Symbol × Rat)) (s : Symbol) : Option Rat :=
  (lookupLast s pairs).or (ρ s)

mutual

/-- The value at the values `ρ` of the variables, calls being read by the bodies. Primitives have
none. -/
def unfolded? (ρ : Symbol → Option Rat) : Expr → Option Rat
  | const c => some c
  | var s _ => ρ s
  | sum es => (unfoldeds? ρ es).map List.sum
  | product es => (unfoldeds? ρ es).map List.prod
  | pow b p =>
    (unfolded? ρ p).bind fun c =>
      if c.den = 1 then (unfolded? ρ b).bind (intPower? · c.num) else none
  | apply _ _ => none
  | call _ ps b es => (unfoldeds? ρ es).bind fun xs => unfolded? (bound ρ (ps.zip xs)) b

def unfoldeds? (ρ : Symbol → Option Rat) : List Expr → Option (List Rat)
  | [] => some []
  | e :: es => (unfolded? ρ e).bind fun v => (unfoldeds? ρ es).map (v :: ·)

end

variable {ρ ρ' : Symbol → Option Rat}

theorem unfoldeds?_eq_mapM (es : List Expr) : unfoldeds? ρ es = es.mapM (unfolded? ρ) := by
  induction es with
  | nil => rfl
  | cons e es ih =>
    rw [unfoldeds?, ih, List.mapM_cons]
    cases unfolded? ρ e <;> cases es.mapM (unfolded? ρ) <;> rfl

theorem unfolded?_sum (es : List Expr) :
    unfolded? ρ (sum es) = (es.mapM (unfolded? ρ)).map List.sum := by
  rw [unfolded?, unfoldeds?_eq_mapM]

theorem unfolded?_product (es : List Expr) :
    unfolded? ρ (product es) = (es.mapM (unfolded? ρ)).map List.prod := by
  rw [unfolded?, unfoldeds?_eq_mapM]

theorem unfolded?_call (f : String) (ps : List Symbol) (b : Expr) (es : List Expr) :
    unfolded? ρ (call f ps b es) =
      (es.mapM (unfolded? ρ)).bind fun xs => unfolded? (bound ρ (ps.zip xs)) b := by
  rw [unfolded?, unfoldeds?_eq_mapM]

theorem unfolded?_call_eq_some {f : String} {ps : List Symbol} {b : Expr} {es : List Expr} {v : Rat} :
    unfolded? ρ (call f ps b es) = some v ↔ (∀ e ∈ es, DefinedBy (unfolded? ρ) e) ∧
      unfolded? (bound ρ (ps.zip (es.map (amountBy (unfolded? ρ))))) b = some v := by
  rw [unfolded?_call, Option.bind_eq_some_iff]
  constructor
  · rintro ⟨xs, hxs, hb⟩
    obtain ⟨hes, rfl⟩ := mapM_eq_some.1 hxs
    exact ⟨hes, hb⟩
  · rintro ⟨hes, hb⟩
    exact ⟨_, mapM_eq_some.2 ⟨hes, rfl⟩, hb⟩

/-- Expressions that are equal up to the order of operands have the same value. -/
theorem unfolded?_alike {a b : Expr} (h : alike a b = true) : unfolded? ρ a = unfolded? ρ b := by
  refine alike_induction (motive := fun a b => ∀ ρ, unfolded? ρ a = unfolded? ρ b)
    ?const ?var ?sum ?product ?pow ?apply ?call a b h ρ
  case const => exact fun c ρ => rfl
  case var => exact fun s k l ρ => rfl
  case sum =>
    intro as bs cs hp hcs ρ
    rw [unfolded?_sum, unfolded?_sum, mapM_congr (hcs.imp fun _ _ h => h ρ), (mapM_perm hp).1]
  case product =>
    intro as bs cs hp hcs ρ
    rw [unfolded?_product, unfolded?_product, mapM_congr (hcs.imp fun _ _ h => h ρ),
      (mapM_perm hp).2]
  case pow =>
    intro b p b' p' hb hp ρ
    rw [unfolded?, unfolded?, hb, hp]
  case apply => exact fun f a b _ ρ => rfl
  case call =>
    intro f ps b b' as bs hb has ρ
    rw [unfolded?_call, unfolded?_call, mapM_congr (has.imp fun _ _ h => h ρ)]
    exact congrArg _ (funext fun xs => hb _)

theorem reading_unfolded (ρ : Symbol → Option Rat) : Reading (unfolded? ρ) where
  const _ := rfl
  sum := unfolded?_sum
  product := unfolded?_product
  pow _ _ := rfl
  congr := unfolded?_alike

/-! Which variables matter. -/

/-- Where there is an argument for each parameter, other variables alone are looked up outside. -/
theorem bound_congr {ps : List Symbol} {xs : List Rat} {s : Symbol} (hl : xs.length = ps.length)
    (h : s ∉ ps → ρ s = ρ' s) : bound ρ (ps.zip xs) s = bound ρ' (ps.zip xs) s := by
  rw [bound, bound]
  by_cases hs : s ∈ ps
  · have hmem : s ∈ (ps.zip xs).map Prod.fst := by rwa [List.map_fst_zip hl.ge]
    obtain ⟨x, hx⟩ := exists_lookupLast hmem
    rw [hx, Option.some_or, Option.some_or]
  · rw [h hs]

/-- The value is a matter of the variables that are read, in bodies too. -/
theorem unfolded?_congr {e : Expr} (he : OwnCalls e) :
    ∀ {ρ ρ'}, (∀ s ∈ needs e, ρ s = ρ' s) → unfolded? ρ e = unfolded? ρ' e := by
  have hlist {es : List Expr} {ρ ρ' : Symbol → Option Rat}
      (ih : ∀ e ∈ es, ∀ {ρ ρ'}, (∀ s ∈ needs e, ρ s = ρ' s) → unfolded? ρ e = unfolded? ρ' e)
      (h : ∀ e ∈ es, ∀ s ∈ needs e, ρ s = ρ' s) :
      es.mapM (unfolded? ρ) = es.mapM (unfolded? ρ') :=
    mapM_congr (List.forall₂_same.2 fun e he => ih e he (h e he))
  induction he with
  | const c => exact fun _ => rfl
  | var s k => exact fun h => h s List.mem_cons_self
  | sum _ ih =>
    intro ρ ρ' h
    rw [unfolded?_sum, unfolded?_sum, hlist ih fun e he s hs => h s (mem_needsAll.2 ⟨e, he, hs⟩)]
  | product _ ih =>
    intro ρ ρ' h
    rw [unfolded?_product, unfolded?_product,
      hlist ih fun e he s hs => h s (mem_needsAll.2 ⟨e, he, hs⟩)]
  | pow _ _ ihb ihp =>
    intro ρ ρ' h
    rw [unfolded?, unfolded?, ihb fun s hs => h s (mem_needs_pow.2 (.inl hs)),
      ihp fun s hs => h s (mem_needs_pow.2 (.inr hs))]
  | apply _ _ => exact fun _ => rfl
  | call _ hl _ _ ihb ih =>
    intro ρ ρ' h
    ext v
    rw [unfolded?_call, unfolded?_call,
      hlist ih fun e he s hs => h s (mem_needs_call.2 (.inr ⟨e, he, hs⟩)),
      Option.bind_eq_some_iff, Option.bind_eq_some_iff]
    refine exists_congr fun xs => and_congr_right fun hxs => ?_
    rw [(mapM_eq_some.1 hxs).2, ihb fun s hs => bound_congr (by rw [List.length_map, hl])
      fun hp => h s (mem_needs_call.2 (.inl ⟨hs, hp⟩))]

/-! Replacement. -/

/-- The values of the variables, those that are replaced having the values of what replaces them. -/
def after (ρ : Symbol → Option Rat) (σ : Symbol → Option Expr) (s : Symbol) : Option Rat :=
  (σ s).elim (ρ s) (unfolded? ρ)

theorem elim_lookupLast_zip {val : Expr → Option Rat} {ds : List Expr}
    (hds : ∀ d ∈ ds, DefinedBy val d) (ps : List Symbol) (s : Symbol) (y : Option Rat) :
    (lookupLast s (ps.zip ds)).elim y val =
      (lookupLast s (ps.zip (ds.map (amountBy val)))).or y := by
  have hzip : ps.zip (ds.map (amountBy val)) =
      (ps.zip ds).map fun p => (p.1, amountBy val p.2) := by
    rw [List.zip_map_right]
    rfl
  rw [hzip, lookupLast_map]
  cases hs : lookupLast s (ps.zip ds) with
  | none => rfl
  | some d => exact hds d (List.of_mem_zip (Kept.mem_of_lookupLast hs)).2

theorem after_zip {ds : List Expr} (hds : ∀ d ∈ ds, DefinedBy (unfolded? ρ) d) (ps : List Symbol) :
    after ρ (fun s => lookupLast s (ps.zip ds)) =
      bound ρ (ps.zip (ds.map (amountBy (unfolded? ρ)))) :=
  funext fun s => elim_lookupLast_zip hds ps s (ρ s)

/-- Replacement keeps values, if it replaces nothing that a body reads beyond its parameters. -/
theorem unfolded?_substitute {σ : Symbol → Option Expr} {e : Expr} (he : OwnCalls e)
    (hσ : ∀ s ∈ loose e, σ s = none) :
    ∀ v, unfolded? (after ρ σ) e = some v → unfolded? ρ (substitute σ e) = some v := by
  have reads := reading_unfolded (after ρ σ)
  have reads' := reading_unfolded ρ
  induction he with
  | const c => exact fun v h => h
  | var s k =>
    intro v h
    rw [substitute_var]
    rw [unfolded?, after] at h
    cases hs : σ s with
    | none => rwa [hs] at h
    | some d => rwa [hs] at h
  | sum _ ih =>
    intro v
    refine reads.substitute_sum reads' fun e he => ih e he fun s hs => hσ s ?_
    exact mem_looseAll.2 ⟨_, he, hs⟩
  | product _ ih =>
    intro v
    refine reads.substitute_product reads' fun e he => ih e he fun s hs => hσ s ?_
    exact mem_looseAll.2 ⟨_, he, hs⟩
  | pow _ _ ihb ihp =>
    intro v
    refine reads.substitute_pow reads' (ihb fun s hs => hσ s ?_) (ihp fun s hs => hσ s ?_)
    · exact List.mem_append_left _ hs
    · exact List.mem_append_right _ hs
  | apply _ _ => intro v h; cases h
  | @call f ps b es _ hl hb _ _ ih =>
    intro v h
    obtain ⟨hes, hv⟩ := unfolded?_call_eq_some.1 h
    obtain ⟨hall, hmap⟩ := defined_map
      (fun e he => ih e he fun s hs => hσ s (mem_loose_call.2 (.inr ⟨e, he, hs⟩))) hes
    rw [substitute_call, unfolded?_call_eq_some]
    refine ⟨hall, ?_⟩
    -- outside the parameters the body reads loose variables alone, which are not replaced
    rw [hmap, ← hv]
    refine unfolded?_congr hb fun s hs => bound_congr (by rw [List.length_map, hl]) fun hp => ?_
    rw [after, hσ s (mem_loose_call.2 (.inl ⟨hs, hp⟩)), Option.elim_none]

/-! Expansion. -/

/-- Expanded, an expression has the value that it had, if applications have it over operands that have
theirs, and bodies over arguments that have theirs. -/
theorem Reading.expandWith {val : Expr → Option Rat} (reads : Reading val) {again : Expr → Expr}
    {P : Expr → Prop} (hP : ∀ {e}, P e → ∀ d ∈ e.operands, P d)
    (happly : ∀ {f e d v}, (∀ x, val e = some x → val d = some x) → val (apply f e) = some v →
      val (applyOf f d) = some v)
    (hcall : ∀ {f ps b es v}, P (call f ps b es) →
      (∀ e ∈ es, ∀ x, val e = some x → val (expandWith again e) = some x) →
      val (call f ps b es) = some v →
      val (again (substitutePairs (ps.zip (es.map (expandWith again))) b)) = some v)
    {e : Expr} (he : P e) : ∀ v, val e = some v → val (expandWith again e) = some v := by
  induction e with
  | const c => exact fun v h => h
  | var s k => exact fun v h => h
  | sum es ih =>
    intro v h
    rw [Expr.expandWith, expandListWith_eq_map]
    split
    · exact h
    · exact (reads.sum_map reads (fun e hmem => ih e hmem (hP he e hmem)) h).2
  | product es ih =>
    intro v h
    rw [Expr.expandWith, expandListWith_eq_map]
    split
    · exact h
    · exact (reads.product_map reads (fun e hmem => ih e hmem (hP he e hmem)) h).2
  | pow b p ihb ihp =>
    intro v h
    have hb := ihb (hP he b List.mem_cons_self)
    have hp := ihp (hP he p (List.mem_cons_of_mem _ List.mem_cons_self))
    rw [Expr.expandWith]
    split
    · exact h
    · exact (reads.pow_map reads hb hp h).2
  | apply f e ih =>
    intro v h
    rw [Expr.expandWith]
    split
    · exact h
    · exact happly (ih (hP he e List.mem_cons_self)) h
  | call f ps b es _ ih =>
    intro v h
    rw [Expr.expandWith, expandListWith_eq_map]
    exact (reads.congr (alike_copied _)).trans (hcall he (fun e hmem => ih e hmem (hP he e hmem)) h)

theorem unfolded?_expandWithin (k : Nat) {e : Expr} (he : Scoped e) (hk : callDepth e ≤ k) :
    ∀ v, unfolded? ρ e = some v → unfolded? ρ (expandWithin k e) = some v := by
  have reads := reading_unfolded ρ
  induction k generalizing e with
  | zero => exact fun v h => h
  | succ k ih =>
    refine reads.expandWith (P := fun e => Scoped e ∧ callDepth e ≤ k + 1) ?_ ?_ ?_ ⟨he, hk⟩
    · exact fun h d hd => ⟨kept_scoped.operands h.1 d hd, (callDepth_operand hd).trans h.2⟩
    · intro f e d v _ h
      cases h
    · rintro f ps b es v ⟨he, hk⟩ ihs h
      obtain ⟨hes, hv⟩ := unfolded?_call_eq_some.1 h
      obtain ⟨-, -, hs, hb, hscoped⟩ := scoped_call.1 he
      obtain ⟨hall, hmap⟩ := defined_map ihs hes
      refine ih (kept_scoped.substitutePairs ?_ hb) ?_ v (unfolded?_substitute hb.calls ?_ v ?_)
      · intro p hp
        obtain ⟨e, he, hep⟩ := List.mem_map.1 (List.of_mem_zip hp).2
        rw [← hep]
        exact kept_scoped.expandWithin (k + 1) (hscoped e he)
      · exact callDepth_inlined_expandWith hk
      · refine fun s hl => Option.eq_none_iff_forall_ne_some.2 fun d hd => hs s hl ?_
        exact (List.of_mem_zip (Kept.mem_of_lookupLast hd)).1
      · rw [after_zip hall, hmap]
        exact hv

end Symbolic.Expr
