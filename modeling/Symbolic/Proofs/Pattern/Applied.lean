import Symbolic.Proofs.Canonical.Regroup
import Symbolic.Proofs.Pattern.Complete

/-!
What is matched can be built again. The values of a match, put into the pattern, make the target, if
the target is steady (`Fits.substitute_alike`): a node of the pattern is rebuilt over what its operands
have become, and these open to the operands of the target that they were matched with.
-/

namespace Symbolic

open Symbolic.Expr Symbolic.Matcher

variable {free : List Symbol} {a : Assignment} {p e : Expr} {ps es : List Expr}

/-- The values in the pattern make the target: what is said of all operands of a pattern below. -/
def Makes (free : List Symbol) (a : Assignment) (p : Expr) : Prop :=
  ∀ {e}, Canonical p → Canonical e → Steady e → Fits free a p e → Alike (p.substitute a.get?) e

namespace Expr.Regroups

variable {node rebuild : List Expr → Expr} {opened : Expr → List Expr}

/-- Each operand of the pattern makes the group that it was matched with. -/
theorem exists_groups (h : Regroups node rebuild opened) (ih : ∀ p ∈ ps, Makes free a p)
    (hps : ∀ p ∈ ps, Canonical p) (he : Canonical (node es)) (hs : Steady (node es))
    (hf : FitsGroups free a rebuild ps es) :
    ∃ gs : List (List Expr), es.Perm gs.flatten ∧
      List.Forall₂ (fun p g => Alike (p.substitute a.get?) (groupExpr rebuild g) ∧
        (opened (groupExpr rebuild g)).Perm g ∧ Canonical (groupExpr rebuild g)) ps gs := by
  obtain ⟨gs, hgs, hne, hperm⟩ := exists_groups_of_fitsGroups hf
  refine ⟨gs, hperm, forall₂_imp_of_mem hgs fun p hp g hg hfit => ?_⟩
  -- the group with the operands that are not in it
  obtain ⟨us, vs, rfl⟩ := List.append_of_mem hg
  have hpart : es.Perm (g ++ (us.flatten ++ vs.flatten)) := by
    rw [List.flatten_append, List.flatten_cons] at hperm
    exact hperm.trans (List.perm_append_comm_assoc us.flatten g vs.flatten)
  have hcan : ∀ e ∈ g, Canonical e := by
    intro e hmem
    refine he.operands e ?_
    rw [h.operands_node]
    exact hpart.mem_iff.2 (List.mem_append_left _ hmem)
  obtain ⟨hsteady, hopen⟩ := h.group_spec he hs hpart (hne g hg)
  have hc := canonical_groupExpr h.commutes hcan
  exact ⟨ih p hp (hps p hp) hc hsteady hfit, hopen, hc⟩

/-- The pattern's node makes the target's: either nothing in it has been replaced, or it is rebuilt. -/
theorem substitute_alike (h : Regroups node rebuild opened) (ih : ∀ p ∈ ps, Makes free a p)
    (hp : Canonical (node ps)) (he : Canonical (node es)) (hs : Steady (node es))
    (ha : ∀ s d, a.get? s = some d → Canonical d)
    (hsub : (node ps).substitute a.get? = node ps ∧ ps.map (substitute a.get?) = ps ∨
      (node ps).substitute a.get? = rebuild (ps.map (substitute a.get?)))
    (hf : FitsGroups free a rebuild ps es) : Alike ((node ps).substitute a.get?) (node es) := by
  have hps : ∀ p ∈ ps, Canonical p := fun p hmem => hp.operands p (by rwa [h.operands_node])
  obtain ⟨gs, hperm, hgs⟩ := h.exists_groups ih hps he hs hf
  rcases hsub with ⟨hself, hmap⟩ | hrebuilt
  · -- no operand of a node opens, so each group has one member only
    rw [hself]
    refine h.node_alike (Rearranged.perm_right ?_ hperm.symm)
    have hopened : (ps.map (substitute a.get?)).flatMap opened = ps := by
      rw [hmap]
      exact flatMap_eq_self (h.opened_operand hp)
    rw [← hopened, List.flatMap_def]
    refine .flatten ?_
    rw [List.forall₂_map_left_iff, List.forall₂_map_left_iff]
    exact hgs.imp fun _ _ hpg => (h.opened_alike hpg.1).perm_right hpg.2.1
  · have hcan : ∀ d ∈ ps.map (substitute a.get?), Canonical d :=
      List.forall_mem_map.2 fun p hmem => closed_canonical.substitute ha (hps p hmem)
    have hcang : ∀ d ∈ gs.map (groupExpr rebuild), Canonical d := by
      refine List.forall_mem_map.2 fun g hg => ?_
      obtain ⟨_, -, -, -, hc⟩ := exists_of_forall₂_mem hgs g hg
      exact hc
    have hopen : ((gs.map (groupExpr rebuild)).flatMap opened).Perm gs.flatten := by
      rw [List.flatMap_def]
      refine List.Perm.flatten_congr ?_
      rw [List.forall₂_map_left_iff, List.forall₂_map_left_iff, List.forall₂_same]
      intro g hg
      obtain ⟨_, -, -, hopen, -⟩ := exists_of_forall₂_mem hgs g hg
      exact hopen
    rw [hrebuilt]
    refine (h.commutes.alike hcan hcang (.of_forall₂ ?_)).trans (h.whole he hs (hopen.trans hperm.symm))
    rw [List.forall₂_map_left_iff, List.forall₂_map_right_iff]
    exact hgs.imp fun _ _ hpg => hpg.1

end Expr.Regroups

/-- The values of a match, put into the pattern, make a steady target. -/
theorem Fits.substitute_alike (hfree : ∀ s d, a.get? s = some d → s ∈ free)
    (ha : ∀ s d, a.get? s = some d → Canonical d) (p : Expr) : Makes free a p := by
  induction p with
  | const c =>
    intro e _ _ _ h
    rw [Fits] at h
    rw [h, substitute_const]
    exact .refl _
  | var s k =>
    intro e _ _ _ h
    rw [Fits] at h
    rw [substitute_var]
    split at h
    · obtain ⟨d, hd, hde⟩ := h
      rw [hd]
      exact hde
    · next hs =>
      obtain ⟨l, rfl⟩ := h
      have hnone : a.get? s = none := Option.eq_none_iff_forall_ne_some.2 fun d hd => hs (hfree s d hd)
      rw [hnone, Option.getD_none, Alike]
      simp [Expr.alike]
  | sum ps ih =>
    intro e hp he hs h
    rw [Fits] at h
    obtain ⟨es, rfl, h⟩ := h
    exact regroups_sum.substitute_alike (fun p hmem => ih p hmem) hp he hs ha (substitute_sum ps) h
  | product ps ih =>
    intro e hp he hs h
    rw [Fits] at h
    obtain ⟨es, rfl, h⟩ := h
    exact regroups_product.substitute_alike (fun p hmem => ih p hmem) hp he hs ha
      (substitute_product ps) h
  | pow b q ihb ihq =>
    intro e hp he hs h
    rw [Fits] at h
    obtain ⟨b', q', rfl, hb, hq⟩ := h
    have hmem (b q : Expr) : b ∈ (pow b q).operands ∧ q ∈ (pow b q).operands := by
      simp [operands]
    have hpb := hp.operands b (hmem b q).1
    have hpq := hp.operands q (hmem b q).2
    have heb := he.operands b' (hmem b' q').1
    have heq := he.operands q' (hmem b' q').2
    have hb := ihb hpb heb (hs.operands b' (hmem b' q').1) hb
    have hq := ihq hpq heq (hs.operands q' (hmem b' q').2) hq
    rcases substitute_pow (σ := a.get?) b q with ⟨hself, hb', hq'⟩ | hrebuilt
    · rw [hself]
      rw [hb'] at hb
      rw [hq'] at hq
      exact alike_pow.2 ⟨hb, hq⟩
    · rw [hrebuilt]
      exact (powOf_alike (closed_canonical.substitute ha hpb) (closed_canonical.substitute ha hpq)
        heb heq hb hq).trans hs.rebuilt
  | apply f q ih =>
    intro e hp he hs h
    rw [Fits] at h
    obtain ⟨d, rfl, h⟩ := h
    have hd := ih (hp.operands q List.mem_cons_self) (he.operands d List.mem_cons_self)
      (hs.operands d List.mem_cons_self) h
    rcases substitute_apply (σ := a.get?) f q with ⟨hself, hq⟩ | hrebuilt
    · rw [hself]
      rw [hq] at hd
      exact alike_apply.2 ⟨rfl, hd⟩
    · rw [hrebuilt]
      exact (applyOf_alike f hd).trans hs.rebuilt
  | call f ss b ps _ ih =>
    intro e hp he hs h
    rw [Fits] at h
    obtain ⟨b', es, rfl, hb, h⟩ := h
    have hl : ps.length = es.length := by
      cases hp with
      | call hl _ _ =>
        cases he with
        | call hl' _ _ => exact hl.trans hl'.symm
    rw [substitute_call]
    refine alike_call.2 ⟨rfl, rfl, hb.symm, ?_⟩
    rw [List.forall₂_map_left_iff]
    exact forall₂_imp_of_mem (forall₂_of_fitsEach hl h) fun p hp' e he' hfit =>
      ih p hp' (hp.operands p hp') (he.operands e he') (hs.operands e he') hfit

/-- What a pattern finds in a target makes the target when it is put into the pattern, if every
subtree of the target is what it becomes when it is rebuilt from its operands. -/
theorem Pattern.matching_sound {p : Pattern} (hp : Constructible p.expr) (he : Constructible e)
    (hs : Steady e) (ha : a ∈ (p.matches? e).results) : (a.apply p.expr).same e = true := by
  have hp := hp.holds closed_canonical
  have he := he.holds closed_canonical
  have hm := matcher_finds p.free p.expr e a ha
  have hvalues := closed_canonical.matched p he a ha
  exact same_iff.2 (Fits.substitute_alike (fun s d hd => (hm.bound s d hd).1) (fun _ _ => hvalues.get?)
    p.expr hp he hs hm.fits)

/-- In `x * y * (z + 1)` the pattern `a * (b + 1)` finds `x * y` for `a`. -/
theorem Pattern.matching_sound_product :
    let p := Pattern.ofExpr (productOf [ofName "a", sumOf [ofName "b", const 1]])
    let e := productOf [ofName "x", ofName "y", sumOf [ofName "z", const 1]]
    Steady e ∧ (p.matches? e).isNone = false ∧
      ∀ a ∈ (p.matches? e).results, (a.apply p.expr).same e = true := by
  have hvar (s : String) : Constructible (ofName s) := .var _ _
  have hone (s : String) : Constructible (sumOf [ofName s, const 1]) :=
    .sum (Closed.forall_pair (hvar s) (.const 1))
  have hsteady : Steady (productOf [ofName "x", ofName "y", sumOf [ofName "z", const 1]]) := by
    decide +kernel
  refine ⟨hsteady, by decide +kernel, fun a ha => ?_⟩
  refine Pattern.matching_sound (.product (Closed.forall_pair (hvar "a") (hone "b"))) ?_ hsteady ha
  exact .product (List.forall_mem_cons.2 ⟨hvar "x", Closed.forall_pair (hvar "y") (hone "z")⟩)

end Symbolic
