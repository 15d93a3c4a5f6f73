import Symbolic.Proofs.Canonical.Expansion
import Symbolic.Proofs.Pattern.Complete

/-!
Rules and equality. A rule with a steady replacement leads from equal expressions to equal ones
(`Rule.results_alike`): it matches them alike, at the root, among the operands and inside one of
them. The results are compared with the expression itself and with each other before they are put
out, so there one of them may be missing for an equal one (`Rule.apply_alike`).
-/

namespace Symbolic

open Symbolic.Expr

/-- The pattern is canonical, and the replacement is steady; so are the functions it calls. -/
structure Rule.Regular (r : Rule) : Prop where
  pattern : Canonical r.pattern.expr
  replacement : Stable r.replacement
  steady : Steady r.replacement

namespace Rule

variable {r : Rule} {e e' d : Expr} {es es' : List Expr} {rebuild : List Expr → Expr}

theorem atRoot_alike (hr : r.Regular) (he : Canonical e) (he' : Canonical e') (h : Alike e e')
    (hd : d ∈ r.atRoot e) : ∃ d' ∈ r.atRoot e', Alike d d' := by
  obtain ⟨a, ha, rfl⟩ := List.mem_map.1 hd
  obtain ⟨a', ha', haa⟩ := Pattern.matches?_alike hr.pattern he he' h ha
  refine ⟨_, List.mem_map.2 ⟨a', ha', rfl⟩, ?_⟩
  have hc := hr.replacement.canonical
  refine hr.steady.substitute_alike hr.steady hc hc (.refl _) ?_ ?_ haa
  · exact fun _ _ => (closed_canonical.matched r.pattern he a ha).get?
  · exact fun _ _ => (closed_canonical.matched r.pattern he' a' ha').get?

/-! Among the operands. -/

/-- Every way to deal out a list in two is a cut, up to the order of the parts. -/
theorem exists_mem_splits {α : Type} {xs us vs : List α} (h : xs.Perm (us ++ vs)) :
    ∃ s ∈ Blocks.splits xs, s.1.Perm us ∧ s.2.Perm vs := by
  induction xs generalizing us vs with
  | nil =>
    obtain ⟨rfl, rfl⟩ := List.append_eq_nil_iff.1 h.nil_eq.symm
    exact ⟨([], []), List.mem_singleton.2 rfl, .refl _, .refl _⟩
  | cons x xs ih =>
    rcases List.mem_append.1 (h.mem_iff.1 List.mem_cons_self) with hx | hx
    · obtain ⟨ps, qs, rfl⟩ := List.append_of_mem hx
      rw [List.append_assoc, List.cons_append] at h
      obtain ⟨s, hs, hin, hout⟩ := @ih (ps ++ qs) vs
        (List.append_assoc .. ▸ (h.trans List.perm_middle).cons_inv)
      refine ⟨(x :: s.1, s.2), List.mem_flatMap.2 ⟨s, hs, by simp⟩, ?_, hout⟩
      exact (hin.cons x).trans List.perm_middle.symm
    · obtain ⟨ps, qs, rfl⟩ := List.append_of_mem hx
      rw [← List.append_assoc] at h
      obtain ⟨s, hs, hin, hout⟩ := @ih us (ps ++ qs)
        (List.append_assoc .. ▸ (h.trans List.perm_middle).cons_inv)
      refine ⟨(s.1, x :: s.2), List.mem_flatMap.2 ⟨s, hs, by simp⟩, hin, ?_⟩
      exact (hout.cons x).trans List.perm_middle.symm

theorem exists_mem_splits_of_rearranged (h : Rearranged Alike es es') {s : List Expr × List Expr}
    (hs : s ∈ Blocks.splits es) :
    ∃ s' ∈ Blocks.splits es', Rearranged Alike s.1 s'.1 ∧ Rearranged Alike s.2 s'.2 := by
  obtain ⟨us, vs, hperm, hus, hvs⟩ := (h.perm_left (Kept.perm_of_mem_splits s hs)).exists_append
  obtain ⟨s', hs', hin, hout⟩ := exists_mem_splits hperm
  exact ⟨s', hs', hus.perm_right hin.symm, hvs.perm_right hout.symm⟩

theorem amongOperands_alike (hr : r.Regular) (hb : Commutes rebuild) (hes : ∀ e ∈ es, Canonical e)
    (hes' : ∀ e ∈ es', Canonical e) (h : Rearranged Alike es es')
    (hd : d ∈ r.amongOperands rebuild es) : ∃ d' ∈ r.amongOperands rebuild es', Alike d d' := by
  rw [amongOperands] at hd
  split at hd
  · cases hd
  next hlen =>
  obtain ⟨⟨inside, outside⟩, hs, hd⟩ := List.mem_flatMap.1 hd
  obtain ⟨⟨inside', outside'⟩, hs', hin, hout⟩ := exists_mem_splits_of_rearranged h hs
  have hc {x : Expr} (hx : x ∈ inside ++ outside) : Canonical x :=
    hes x ((Kept.perm_of_mem_splits _ hs).mem_iff.1 hx)
  have hc' {x : Expr} (hx : x ∈ inside' ++ outside') : Canonical x :=
    hes' x ((Kept.perm_of_mem_splits _ hs').mem_iff.1 hx)
  have hcin : ∀ x ∈ inside, Canonical x := fun x hx => hc (List.mem_append_left _ hx)
  have hcin' : ∀ x ∈ inside', Canonical x := fun x hx => hc' (List.mem_append_left _ hx)
  simp only at hin hout hd
  split at hd
  · cases hd
  next hparts =>
  obtain ⟨x, hx, rfl⟩ := List.mem_map.1 hd
  -- the part that is rewritten gives equal results, and the others are equal as they are
  obtain ⟨x', hx', hxx⟩ := atRoot_alike hr (hb.canonical hcin) (hb.canonical hcin')
    (hb.alike hcin hcin' hin) hx
  have hcx := closed_canonical.atRoot hr.replacement.canonical (hb.canonical hcin) x hx
  have hcx' := closed_canonical.atRoot hr.replacement.canonical (hb.canonical hcin') x' hx'
  have hparts' : ¬(decide (inside'.length < 2) || outside'.isEmpty) = true := by
    rw [← hin.length_eq]
    rwa [show outside'.isEmpty = outside.isEmpty by
      rw [Bool.eq_iff_iff, List.isEmpty_iff_length_eq_zero, List.isEmpty_iff_length_eq_zero,
        hout.length_eq]]
  refine ⟨rebuild (outside' ++ [x']), ?_, hb.alike ?_ ?_ (hout.append (.singleton hxx))⟩
  · rw [amongOperands, ← h.length_eq, if_neg hlen]
    refine List.mem_flatMap.2 ⟨(inside', outside'), hs', ?_⟩
    simp only
    rw [if_neg hparts']
    exact List.mem_map.2 ⟨x', hx', rfl⟩
  · intro y hy
    rcases List.mem_append.1 hy with hy | hy
    · exact hc (List.mem_append_right _ hy)
    · exact List.mem_singleton.1 hy ▸ hcx
  · intro y hy
    rcases List.mem_append.1 hy with hy | hy
    · exact hc' (List.mem_append_right _ hy)
    · exact List.mem_singleton.1 hy ▸ hcx'

theorem atOperands_alike (hr : r.Regular) (he : Canonical e) (he' : Canonical e') (h : Alike e e')
    (hd : d ∈ r.atOperands e) : ∃ d' ∈ r.atOperands e', Alike d d' := by
  cases e with
  | sum es =>
    obtain ⟨es', rfl, hes⟩ := h.eq_sum
    rw [atOperands] at hd ⊢
    split at hd
    · rw [if_pos ‹_›]
      exact amongOperands_alike hr commutes_sumOf he.operands he'.operands hes hd
    · cases hd
  | product es =>
    obtain ⟨es', rfl, hes⟩ := h.eq_product
    rw [atOperands] at hd ⊢
    split at hd
    · rw [if_pos ‹_›]
      exact amongOperands_alike hr commutes_productOf he.operands he'.operands hes hd
    · cases hd
  | _ => cases hd

end Rule

/-! Inside an operand. -/

theorem exists_forall₂_replaced {us vs ys : List Expr} {x : Expr}
    (h : List.Forall₂ Alike (us ++ x :: vs) ys) :
    ∃ us' y vs', ys = us' ++ y :: vs' ∧ Alike x y ∧
      ∀ {x' y'}, Alike x' y' → List.Forall₂ Alike (us ++ x' :: vs) (us' ++ y' :: vs') := by
  induction us generalizing ys with
  | nil =>
    obtain ⟨y, vs', hxy, hvs, rfl⟩ := List.forall₂_cons_left_iff.1 h
    exact ⟨[], y, vs', rfl, hxy, fun hxy' => .cons hxy' hvs⟩
  | cons u us ih =>
    obtain ⟨u', ys, huu, hys, rfl⟩ := List.forall₂_cons_left_iff.1 h
    obtain ⟨us', y, vs', rfl, hxy, hrest⟩ := ih hys
    exact ⟨u' :: us', y, vs', rfl, hxy, fun hxy' => .cons huu (hrest hxy')⟩

/-- Equal expressions have equal operands in places where equal ones may be put. -/
theorem Expr.Frame.alike {c : Expr → Expr} {x e e' : Expr} (hf : Frame c x e) (he : Canonical e)
    (he' : Canonical e') (h : Alike e e') :
    ∃ c' x', Frame c' x' e' ∧ Alike x x' ∧
      ∀ {y y'}, Canonical y → Canonical y' → Alike y y' → Alike (c y) (c' y') := by
  have hes := he.operands
  have hes' := he'.operands
  cases hf with
  | sum us x vs =>
    obtain ⟨_, rfl, hall⟩ := h.eq_sum
    obtain ⟨us', x', vs', rfl, hx, hrest⟩ := hall.exists_replaced
    refine ⟨_, x', .sum us' x' vs', hx, fun hy hy' hyy => ?_⟩
    exact sumOf_alike (forall_mem_replaced hes hy) (forall_mem_replaced hes' hy') (hrest hyy)
  | product us x vs =>
    obtain ⟨_, rfl, hall⟩ := h.eq_product
    obtain ⟨us', x', vs', rfl, hx, hrest⟩ := hall.exists_replaced
    refine ⟨_, x', .product us' x' vs', hx, fun hy hy' hyy => ?_⟩
    exact productOf_alike (forall_mem_replaced hes hy) (forall_mem_replaced hes' hy') (hrest hyy)
  | base b p =>
    obtain ⟨b', p', rfl, hbb, hpp⟩ := h.eq_pow
    refine ⟨_, b', .base b' p', hbb, fun hy hy' hyy => ?_⟩
    exact powOf_alike hy (hes p (by simp [operands])) hy' (hes' p' (by simp [operands])) hyy hpp
  | power b p =>
    obtain ⟨b', p', rfl, hbb, hpp⟩ := h.eq_pow
    refine ⟨_, p', .power b' p', hpp, fun hy hy' hyy => ?_⟩
    exact powOf_alike (hes b (by simp [operands])) hy (hes' b' (by simp [operands])) hy' hbb hyy
  | apply f x =>
    obtain ⟨x', rfl, hx⟩ := h.eq_apply
    exact ⟨_, x', .apply f x', hx, fun _ _ hyy => applyOf_alike f hyy⟩
  | call f ps b us x vs =>
    obtain ⟨b', _, rfl, hbb, hall⟩ := h.eq_call
    obtain ⟨us', x', vs', rfl, hx, hrest⟩ := exists_forall₂_replaced hall
    refine ⟨_, x', .call f ps b' us' x' vs', hx, fun _ _ hyy => ?_⟩
    exact alike_call.2 ⟨rfl, rfl, hbb, hrest hyy⟩

namespace Rule

variable {r : Rule} {e e' d : Expr}

/-- Equal expressions have equal results: what is said of all operands below. -/
def ResultsAlike (r : Rule) (e : Expr) : Prop :=
  ∀ {e'}, Canonical e → Canonical e' → Alike e e' → ∀ d ∈ r.results e, ∃ d' ∈ r.results e', Alike d d'

/-- A regular rule leads from equal expressions to equal ones: at the root, among the operands and
inside of one. -/
theorem results_alike (hr : r.Regular) (e : Expr) : r.ResultsAlike e := by
  have hc {e : Expr} (he : Canonical e) : ∀ d ∈ r.results e, Canonical d :=
    closed_canonical.results hr.replacement.canonical he
  induction e using operand_induction with
  | h e ih =>
    intro e' he he' h d hd
    obtain hd | hd | ⟨c, x, hf, y, hy, rfl⟩ := mem_results.1 hd
    · obtain ⟨d', hd', hdd⟩ := atRoot_alike hr he he' h hd
      exact ⟨d', mem_results.2 (.inl hd'), hdd⟩
    · obtain ⟨d', hd', hdd⟩ := atOperands_alike hr he he' h hd
      exact ⟨d', mem_results.2 (.inr (.inl hd')), hdd⟩
    · obtain ⟨c', x', hf', hxx, hcc⟩ := hf.alike he he' h
      have hx := he.operands x hf.mem_operands
      have hx' := he'.operands x' hf'.mem_operands
      obtain ⟨y', hy', hyy⟩ := ih x hf.mem_operands hx hx' hxx y hy
      exact ⟨c' y', mem_results.2 (.inr (.inr ⟨c', x', hf', y', hy', rfl⟩)),
        hcc (hc hx y hy) (hc hx' y' hy') hyy⟩

/-- What a regular rule leads to from an expression is equal to what it leads to from an equal one,
or to that one itself. -/
theorem apply_alike (hr : r.Regular) (he : Canonical e) (he' : Canonical e') (h : Alike e e')
    (hd : d ∈ r.apply e) : Alike d e' ∨ ∃ d' ∈ r.apply e', Alike d d' := by
  obtain ⟨d', hd', hdd⟩ := results_alike hr e he he' h d (mem_of_mem_distinctFrom d hd)
  have hfrom : ((Buckets.empty.push e'.fingerprint e').find? d'.fingerprint d'.same).isSome = true ∨
      ∃ x ∈ r.apply e', d'.same x = true :=
    exists_mem_distinctFrom (fun x => same_iff.2 (.refl x)) d' hd'
  rcases hfrom with hseen | ⟨x, hx, hdx⟩
  · rw [Buckets.find?_push, Buckets.find?_empty] at hseen
    split at hseen
    · next hsame =>
      exact .inl (hdd.trans (same_iff.1 (Bool.and_eq_true _ _ ▸ hsame).2))
    · cases hseen
  · exact .inr ⟨x, hx, hdd.trans (same_iff.1 hdx)⟩

end Rule

end Symbolic
