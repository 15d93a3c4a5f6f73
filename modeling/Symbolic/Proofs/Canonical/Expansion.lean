import Symbolic.Proofs.Canonical.Steady
import Symbolic.Proofs.Expr.Nodewise

/-!
Expansion and equality. Where all functions that are called have steady bodies, equal expressions
have equal atomic forms (`atomic_alike`). The operations keep to the functions that are called
already, so they keep that (`kept_stable`).
-/

namespace Symbolic.Expr

/-- Every function that is called, in the bodies of functions too, has a steady body. -/
inductive SteadyCalls : Expr → Prop where
  | const (c : Rat) : SteadyCalls (const c)
  | var (s : Symbol) (k : Site) : SteadyCalls (var s k)
  | sum {es : List Expr} : (∀ e ∈ es, SteadyCalls e) → SteadyCalls (sum es)
  | product {es : List Expr} : (∀ e ∈ es, SteadyCalls e) → SteadyCalls (product es)
  | pow {b p : Expr} : SteadyCalls b → SteadyCalls p → SteadyCalls (pow b p)
  | apply {f : Primitive} {e : Expr} : SteadyCalls e → SteadyCalls (apply f e)
  | call {f : String} {ps : List Symbol} {b : Expr} {es : List Expr} : Steady b → SteadyCalls b →
      (∀ e ∈ es, SteadyCalls e) → SteadyCalls (call f ps b es)

theorem nodewise_steadyCalls : Nodewise SteadyCalls where
  const := .const
  site _ := .var _ _
  sum := ⟨fun h => by cases h; assumption, .sum⟩
  product := ⟨fun h => by cases h; assumption, .product⟩
  pow := ⟨fun h => by cases h; exact ⟨by assumption, by assumption⟩, fun h => .pow h.1 h.2⟩
  apply := ⟨fun h => by cases h; assumption, .apply⟩

theorem SteadyCalls.operands {e : Expr} (h : SteadyCalls e) : ∀ d ∈ e.operands, SteadyCalls d := by
  cases h with
  | const c => intro d hd; cases hd
  | var s k => intro d hd; cases hd
  | sum hes => exact hes
  | product hes => exact hes
  | pow hb hp => exact Closed.forall_pair hb hp
  | apply he => exact List.forall_mem_singleton.2 he
  | call _ _ hes => exact hes

/-- Canonical, and all functions that are called have steady bodies. -/
structure Stable (e : Expr) : Prop where
  canonical : Canonical e
  calls : SteadyCalls e

theorem kept_stable : Kept Stable where
  const c := ⟨.const c, .const c⟩
  var s k := ⟨.var s k, .var s k⟩
  sum h := ⟨closed_canonical.sum fun e he => (h e he).canonical,
    nodewise_steadyCalls.sumOf fun e he => (h e he).calls⟩
  product h := ⟨closed_canonical.product fun e he => (h e he).canonical,
    nodewise_steadyCalls.productOf fun e he => (h e he).calls⟩
  pow hb hp := ⟨closed_canonical.pow hb.canonical hp.canonical,
    nodewise_steadyCalls.powOf hb.calls hp.calls⟩
  apply f _ h := ⟨canonical_applyOf f h.canonical, nodewise_steadyCalls.applyOf f h.calls⟩
  callAgain h hl hes := by
    refine ⟨closed_canonical.callAgain h.canonical hl fun e he => (hes e he).canonical, ?_⟩
    cases h.calls with
    | call hs hb _ => exact .call hs hb fun e he => (hes e he).calls
  operands h d hd := ⟨h.canonical.operands d hd, h.calls.operands d hd⟩
  body h := by
    obtain ⟨hl, hb⟩ := closed_canonical.body h.canonical
    cases h.calls with
    | call _ hc _ => exact ⟨hl, hb, hc⟩

/-! Calls that are expanded. -/

theorem allAtomic_eq_all (es : List Expr) : allAtomic es = es.all isAtomic := by
  induction es with
  | nil => rfl
  | cons e es ih => rw [allAtomic, ih, List.all_cons]

theorem isAtomic_alike {a b : Expr} (h : Alike a b) : isAtomic a = isAtomic b := by
  have hlist {as bs cs : List Expr} (hp : cs.Perm bs)
      (h : List.Forall₂ (fun a b => isAtomic a = isAtomic b) as cs) :
      allAtomic as = allAtomic bs := by
    rw [allAtomic_eq_all, allAtomic_eq_all, Bool.eq_iff_iff, List.all_eq_true, List.all_eq_true]
    have hall : Rearranged (fun a b => isAtomic a = isAtomic b) as bs := ⟨cs, h, hp⟩
    constructor
    · intro ha b hb
      obtain ⟨a, haa, hab⟩ := hall.exists_right b hb
      exact hab ▸ ha a haa
    · intro hb a ha
      obtain ⟨b, hbb, hab⟩ := hall.exists_left a ha
      exact hab ▸ hb b hbb
  refine alike_induction (motive := fun a b => isAtomic a = isAtomic b) ?const ?var ?sum ?product
    ?pow ?apply ?call a b h
  case const => exact fun _ => rfl
  case var => exact fun _ _ _ => rfl
  case sum => exact fun as bs cs hp h => hlist hp h
  case product => exact fun as bs cs hp h => hlist hp h
  case pow => exact fun b p b' p' hb hp => by rw [isAtomic, isAtomic, hb, hp]
  case apply => exact fun _ _ _ h => h
  case call => exact fun _ _ _ _ _ _ _ _ => rfl

theorem expandListWith_eq_map (again : Expr → Expr) (es : List Expr) :
    expandListWith again es = es.map (expandWith again) := by
  induction es with
  | nil => rfl
  | cons e es ih => rw [expandListWith, ih, List.map_cons]

theorem rel_lookupLast {ps : List Symbol} {as bs : List Expr} (h : List.Forall₂ Alike as bs)
    (s : Symbol) : Option.Rel Alike (lookupLast s (ps.zip as)) (lookupLast s (ps.zip bs)) := by
  induction h generalizing ps with
  | nil =>
    rw [List.zip_nil_right]
    exact .none
  | cons hab _ ih =>
    cases ps with
    | nil => exact .none
    | cons p ps =>
      rw [List.zip_cons_cons, List.zip_cons_cons, lookupLast, lookupLast]
      have hrest := @ih ps
      revert hrest
      generalize lookupLast s (ps.zip _) = x
      generalize lookupLast s (ps.zip _) = y
      intro hrest
      cases hrest with
      | some h => exact .some h
      | none =>
        simp only
        split
        · exact .some hab
        · exact .none

variable {again : Expr → Expr}

/-- Expanding bodies leads from stable expressions to stable ones, and from equal ones to equal
ones. -/
structure ExpandsAlike (again : Expr → Expr) : Prop where
  stable : ∀ {e}, Stable e → Stable (again e)
  alike : ∀ {e e'}, Stable e → Stable e' → Alike e e' → Alike (again e) (again e')

/-- The bodies of equal calls, expanded with equal arguments in place. -/
theorem ExpandsAlike.inlined (ha : ExpandsAlike again) {f : String} {ps : List Symbol} {b b' : Expr}
    {es es' as as' : List Expr} (he : Stable (call f ps b es)) (he' : Stable (call f ps b' es'))
    (hbb : Alike b b') (has : ∀ a ∈ as, Stable a) (has' : ∀ a ∈ as', Stable a)
    (h : List.Forall₂ Alike as as') :
    Alike (again (b.substitutePairs (ps.zip as))) (again (b'.substitutePairs (ps.zip as'))) := by
  have hb := (kept_stable.body he).2
  have hb' := (kept_stable.body he').2
  have hvalue {as : List Expr} (has : ∀ a ∈ as, Stable a) :
      ∀ s r, lookupLast s (ps.zip as) = some r → Stable r :=
    fun s r hr => has r (List.of_mem_zip (Kept.mem_of_lookupLast hr)).2
  refine ha.alike (kept_stable.substitute (hvalue has) hb)
    (kept_stable.substitute (hvalue has') hb') ?_
  cases he.calls with
  | call hsb _ _ =>
    cases he'.calls with
    | call hsb' _ _ =>
      exact hsb.substitute_alike hsb' hb.canonical hb'.canonical hbb
        (fun s r hr => (hvalue has s r hr).canonical)
        (fun s r hr => (hvalue has' s r hr).canonical) (rel_lookupLast h)

theorem expandWith_alike (ha : ExpandsAlike again) {e e' : Expr} (he : Stable e)
    (he' : Stable e') (h : Alike e e') : Alike (expandWith again e) (expandWith again e') := by
  have hs {e : Expr} (he : Stable e) : Stable (expandWith again e) :=
    kept_stable.expandWith (fun _ => ha.stable) he
  have hlist {es : List Expr} (hes : ∀ e ∈ es, Stable e) :
      ∀ d ∈ es.map (expandWith again), Canonical d :=
    List.forall_mem_map.2 fun e h => (hs (hes e h)).canonical
  induction e generalizing e' with
  | const c =>
    rw [h.eq_const]
    exact .refl _
  | var s k =>
    obtain ⟨l, rfl⟩ := h.eq_var
    exact h
  | sum es ih =>
    obtain ⟨es', rfl, hes⟩ := h.eq_sum
    have hd := kept_stable.operands he
    have hd' := kept_stable.operands he'
    have hatomic := isAtomic_alike h
    rw [isAtomic, isAtomic] at hatomic
    rw [expandWith, expandWith, hatomic]
    split
    · exact h
    · rw [expandListWith_eq_map, expandListWith_eq_map]
      exact sumOf_alike (hlist hd) (hlist hd')
        (hes.map fun e hm e' hm' hee => ih e hm (hd e hm) (hd' e' hm') hee)
  | product es ih =>
    obtain ⟨es', rfl, hes⟩ := h.eq_product
    have hd := kept_stable.operands he
    have hd' := kept_stable.operands he'
    have hatomic := isAtomic_alike h
    rw [isAtomic, isAtomic] at hatomic
    rw [expandWith, expandWith, hatomic]
    split
    · exact h
    · rw [expandListWith_eq_map, expandListWith_eq_map]
      exact productOf_alike (hlist hd) (hlist hd')
        (hes.map fun e hm e' hm' hee => ih e hm (hd e hm) (hd' e' hm') hee)
  | pow b p ihb ihp =>
    obtain ⟨b', p', rfl, hbb, hpp⟩ := h.eq_pow
    have hd := kept_stable.operands he
    have hd' := kept_stable.operands he'
    have hb := hd b (by simp [operands])
    have hp := hd p (by simp [operands])
    have hb' := hd' b' (by simp [operands])
    have hp' := hd' p' (by simp [operands])
    rw [expandWith, expandWith, isAtomic_alike hbb, isAtomic_alike hpp]
    split
    · exact h
    · exact powOf_alike (hs hb).canonical (hs hp).canonical (hs hb').canonical (hs hp').canonical
        (ihb hb hb' hbb) (ihp hp hp' hpp)
  | apply f e ih =>
    obtain ⟨e', rfl, hee⟩ := h.eq_apply
    rw [expandWith, expandWith, isAtomic_alike hee]
    split
    · exact h
    · exact applyOf_alike f (ih (kept_stable.operands he e List.mem_cons_self)
        (kept_stable.operands he' e' List.mem_cons_self) hee)
  | call f ps b es _ ih =>
    obtain ⟨b', es', rfl, hbb, hes⟩ := h.eq_call
    have hd := kept_stable.operands he
    have hd' := kept_stable.operands he'
    -- the expanded arguments are equal, and the bodies are, so what is left to expand is
    have hargs : List.Forall₂ Alike (es.map (expandWith again)) (es'.map (expandWith again)) := by
      rw [List.forall₂_map_left_iff, List.forall₂_map_right_iff]
      exact forall₂_imp_of_mem hes fun e hm e' hm' hee => ih e hm (hd e hm) (hd' e' hm') hee
    rw [expandWith, expandWith, expandListWith_eq_map, expandListWith_eq_map]
    exact Alike.copied (ha.inlined he he' hbb (List.forall_mem_map.2 fun e hm => hs (hd e hm))
      (List.forall_mem_map.2 fun e hm => hs (hd' e hm)) hargs)

theorem expandsAlike_expandWithin (n : Nat) : ExpandsAlike (expandWithin n) := by
  induction n with
  | zero => exact ⟨id, fun _ _ h => h⟩
  | succ n ih =>
    exact ⟨fun he => kept_stable.expandWith (fun _ => ih.stable) he,
      fun he he' h => expandWith_alike ih he he' h⟩

theorem atomic_alike {e e' : Expr} (he : Stable e) (he' : Stable e') (h : Alike e e') :
    Alike e.atomic e'.atomic := by
  rw [atomic_eq_expandWithin, atomic_eq_expandWithin, callDepth_eq_of_alike e e' h]
  exact (expandsAlike_expandWithin _).alike he he' h

end Symbolic.Expr
