import Mathlib.Data.List.Sort
import Symbolic.Proofs.Canonical.Congruence
import Symbolic.Proofs.Expr.Variables
import Symbolic.Proofs.Pattern.Exhaustive
import Symbolic.Proofs.Pattern.Fits

/-!
Matching leaves nothing out. Whatever fits a canonical target includes one of the assignments that
are found (`exists_mem_matcher`); what fits a target fits an equal one (`Fits.alike`), and as a
pattern is matched down to its variables (`Fits.leaves`), all the assignments that are found bind the
same symbols (`Fits.binds`). So a pattern finds the same in equal targets, up to equality of the values
(`Pattern.matches?_alike`).
-/

namespace Symbolic

open Symbolic.Expr Symbolic.Matcher

variable {free : List Symbol} {a d : Assignment} {rebuild : List Expr → Expr}

/-! What fits a target fits an equal one. -/

theorem canonical_groupExpr (hr : Commutes rebuild) {es : List Expr} (h : ∀ e ∈ es, Canonical e) :
    Canonical (groupExpr rebuild es) := by
  unfold groupExpr
  split
  · exact h _ List.mem_cons_self
  · exact hr.canonical h

theorem groupExpr_alike (hr : Commutes rebuild) {es fs : List Expr} (he : ∀ e ∈ es, Canonical e)
    (hf : ∀ f ∈ fs, Canonical f) (h : Rearranged Alike es fs) :
    Alike (groupExpr rebuild es) (groupExpr rebuild fs) := by
  refine h.induction_length (motive := fun es fs => (∀ e ∈ es, Canonical e) → (∀ f ∈ fs, Canonical f) →
    Alike (groupExpr rebuild es) (groupExpr rebuild fs)) ?nil ?one ?more he hf
  case nil => exact fun _ _ => .refl _
  case one => exact fun hxy _ _ => hxy
  case more => exact fun h he hf => hr.alike he hf h

/-- Patterns fit equal targets alike: what is said of all operands of a pattern below. -/
def FitsAlike (free : List Symbol) (a : Assignment) (p : Expr) : Prop :=
  ∀ {e e'}, Canonical e → Canonical e' → Alike e e' → Fits free a p e → Fits free a p e'

theorem fitsGroups_alike (hr : Commutes rebuild) {ps es es' : List Expr}
    (ih : ∀ p ∈ ps, FitsAlike free a p) (hes : ∀ e ∈ es, Canonical e) (hes' : ∀ e ∈ es', Canonical e)
    (h : Rearranged Alike es es') (hf : FitsGroups free a rebuild ps es) :
    FitsGroups free a rebuild ps es' := by
  induction ps generalizing es es' with
  | nil =>
    rw [FitsGroups] at hf ⊢
    exact Rearranged.nil_left.1 (hf ▸ h)
  | cons p ps ihps =>
    rw [FitsGroups] at hf ⊢
    obtain ⟨hp, hps⟩ := List.forall_mem_cons.1 ih
    obtain ⟨g, rest, hne, hperm, hpg, hf⟩ := hf
    -- the group has partners in the other list, and what is left of that fits the other patterns
    obtain ⟨g', rest', hperm', hg, hrest⟩ := (h.perm_left hperm.symm).exists_append
    have hc {d : Expr} (hd : d ∈ g ++ rest) : Canonical d := hes d (hperm.mem_iff.2 hd)
    have hc' {d : Expr} (hd : d ∈ g' ++ rest') : Canonical d := hes' d (hperm'.mem_iff.2 hd)
    have hcg : ∀ d ∈ g, Canonical d := fun d hd => hc (List.mem_append_left _ hd)
    have hcg' : ∀ d ∈ g', Canonical d := fun d hd => hc' (List.mem_append_left _ hd)
    refine ⟨g', rest', ?_, hperm', ?_, ?_⟩
    · rintro rfl
      exact hne (List.eq_nil_of_length_eq_zero hg.length_eq)
    · exact hp (canonical_groupExpr hr hcg) (canonical_groupExpr hr hcg')
        (groupExpr_alike hr hcg hcg' hg) hpg
    · exact ihps hps (fun d hd => hc (List.mem_append_right _ hd))
        (fun d hd => hc' (List.mem_append_right _ hd)) hrest hf

theorem fitsEach_alike {ps es es' : List Expr} (ih : ∀ p ∈ ps, FitsAlike free a p)
    (hes : ∀ e ∈ es, Canonical e) (hes' : ∀ e ∈ es', Canonical e) (h : List.Forall₂ Alike es es')
    (hf : FitsEach free a ps es) : FitsEach free a ps es' := by
  induction h generalizing ps with
  | nil => exact hf
  | cons hee _ ihes =>
    cases ps with
    | nil => simp only [FitsEach]
    | cons p ps =>
      rw [FitsEach] at hf ⊢
      obtain ⟨hp, hps⟩ := List.forall_mem_cons.1 ih
      obtain ⟨he, hes⟩ := List.forall_mem_cons.1 hes
      obtain ⟨he', hes'⟩ := List.forall_mem_cons.1 hes'
      exact ⟨hp he he' hee hf.1, ihes hps hes hes' hf.2⟩

/-- What fits a target fits an equal one. -/
theorem Fits.alike {p : Expr} : FitsAlike free a p := by
  induction p with
  | const c =>
    intro e e' _ _ h hf
    rw [Fits] at hf ⊢
    exact (hf ▸ h).eq_const
  | var s k =>
    intro e e' _ _ h hf
    rw [Fits] at hf ⊢
    split at hf
    · next hs =>
      rw [if_pos hs]
      obtain ⟨d, hd, hde⟩ := hf
      exact ⟨d, hd, hde.trans h⟩
    · next hs =>
      rw [if_neg hs]
      obtain ⟨l, rfl⟩ := hf
      exact h.eq_var
  | sum ps ih =>
    intro e e' he he' h hf
    rw [Fits] at hf ⊢
    obtain ⟨es, rfl, hf⟩ := hf
    obtain ⟨es', rfl, hes⟩ := h.eq_sum
    exact ⟨es', rfl, fitsGroups_alike commutes_sumOf (fun _ hp => ih _ hp) he.operands he'.operands
      hes hf⟩
  | product ps ih =>
    intro e e' he he' h hf
    rw [Fits] at hf ⊢
    obtain ⟨es, rfl, hf⟩ := hf
    obtain ⟨es', rfl, hes⟩ := h.eq_product
    exact ⟨es', rfl, fitsGroups_alike commutes_productOf (fun _ hp => ih _ hp) he.operands
      he'.operands hes hf⟩
  | pow b p ihb ihp =>
    intro e e' he he' h hf
    rw [Fits] at hf ⊢
    obtain ⟨c, q, rfl, hc, hq⟩ := hf
    obtain ⟨c', q', rfl, hcc, hqq⟩ := h.eq_pow
    have hec := he.operands
    have hec' := he'.operands
    exact ⟨c', q', rfl, ihb (hec c (by simp [operands])) (hec' c' (by simp [operands])) hcc hc,
      ihp (hec q (by simp [operands])) (hec' q' (by simp [operands])) hqq hq⟩
  | apply f p ih =>
    intro e e' he he' h hf
    rw [Fits] at hf ⊢
    obtain ⟨c, rfl, hc⟩ := hf
    obtain ⟨c', rfl, hcc⟩ := h.eq_apply
    exact ⟨c', rfl, ih (he.operands c List.mem_cons_self) (he'.operands c' List.mem_cons_self)
      hcc hc⟩
  | call f ss b ps _ ih =>
    intro e e' he he' h hf
    rw [Fits] at hf ⊢
    obtain ⟨b', es, rfl, hb, hf⟩ := hf
    obtain ⟨b'', es', rfl, hbb, hes⟩ := h.eq_call
    exact ⟨b'', es', rfl, hbb.symm.trans hb, fitsEach_alike (fun _ hp => ih _ hp) he.operands
      he'.operands hes hf⟩

/-! Groups of operands are groups of positions. -/

theorem membersAt_of_forall₂ {es g : List Expr} {is : List Nat}
    (h : List.Forall₂ (fun e i => es[i]? = some e) g is) : membersAt es is = g := by
  induction h with
  | nil => rfl
  | cons hi _ ih => rw [membersAt, List.filterMap_cons_some hi, ← membersAt, ih]

/-- Elements of a list that stand at given positions, each at one of them, in groups: each group
stands at ascending positions. -/
theorem exists_positions {es : List Expr} {gs : List (List Expr)} {js : List Nat} (hjs : js.Nodup)
    (h : Rearranged (fun e i => es[i]? = some e) gs.flatten js) :
    ∃ is : List (List Nat), is.flatten.Perm js ∧
      List.Forall₂ (fun g i => i.Pairwise (· < ·) ∧ g.Perm (membersAt es i)) gs is := by
  induction gs generalizing js with
  | nil => exact ⟨[], .of_eq (Rearranged.nil_left.1 h).symm, .nil⟩
  | cons g gs ih =>
    obtain ⟨us, vs, hperm, ⟨ws, hws, hp⟩, hvs⟩ := h.exists_append
    have hnodup := List.nodup_append.1 (hperm.nodup hjs)
    obtain ⟨is, his, hgs⟩ := ih hnodup.2.1 hvs
    have hsort := List.mergeSort_perm us (· ≤ ·)
    refine ⟨us.mergeSort (· ≤ ·) :: is, (hsort.append his).trans hperm.symm, .cons ⟨?_, ?_⟩ hgs⟩
    · -- the positions differ, so in order they ascend
      have hle : (us.mergeSort (· ≤ ·)).Pairwise fun i j => decide (i ≤ j) = true :=
        List.pairwise_mergeSort
          (fun _ _ _ h h' => decide_eq_true ((of_decide_eq_true h).trans (of_decide_eq_true h')))
          (fun i j => by simpa using Nat.le_total i j) us
      have hne : (us.mergeSort (· ≤ ·)).Nodup := hsort.symm.nodup hnodup.1
      exact hle.imp₂ (fun i j hij hne => Nat.lt_of_le_of_ne (of_decide_eq_true hij) hne) hne
    · rw [← membersAt_of_forall₂ hws]
      exact (hp.trans hsort.symm).filterMap _

/-- However the elements of a list are grouped, their positions are shared out. -/
theorem exists_shares {es : List Expr} {gs : List (List Expr)} (h : es.Perm gs.flatten)
    (hne : ∀ g ∈ gs, g ≠ []) :
    ∃ is : List (List Nat), Blocks.Shares es.length is ∧
      List.Forall₂ (fun g i => g.Perm (membersAt es i)) gs is := by
  have hrange : List.Forall₂ (fun e i => es[i]? = some e) es (List.range es.length) :=
    List.forall₂_iff_get.2 ⟨List.length_range.symm, fun i hi _ => by simp [hi]⟩
  obtain ⟨is, hperm, his⟩ := exists_positions List.nodup_range
    ((Rearranged.of_forall₂ hrange).perm_left h.symm)
  refine ⟨is, ⟨hperm, fun i hi => ?_⟩, his.imp fun _ _ h => h.2⟩
  obtain ⟨g, hg, hasc, hgi⟩ := exists_of_forall₂_mem his i hi
  refine ⟨?_, hasc⟩
  rintro rfl
  exact hne g hg hgi.eq_nil

/-! Matching finds whatever fits. -/

theorem groupCode_add_pow_le {g : List Nat} {i n : Nat} (hin : i ≤ n) (hg : g.Pairwise (· < ·))
    (h : ∀ j ∈ g, i ≤ j ∧ j < n) : groupCode g + 2 ^ i ≤ 2 ^ n := by
  induction g generalizing i with
  | nil => exact (Nat.zero_add _).le.trans (Nat.pow_le_pow_right (by decide) hin)
  | cons j g ih =>
    obtain ⟨hj, hg⟩ := List.pairwise_cons.1 hg
    obtain ⟨⟨hij, hjn⟩, h⟩ := List.forall_mem_cons.1 h
    have hrest := ih hjn hg fun k hk => ⟨hj k hk, (h k hk).2⟩
    have hpow : 2 ^ i ≤ 2 ^ j := Nat.pow_le_pow_right (by decide) hij
    rw [Nat.pow_succ] at hrest
    rw [groupCode_cons]
    omega

theorem exists_groupTable (rebuild : List Expr → Expr) (m : Matcher) {es : List Expr}
    {g : List Nat} (hg : g.Pairwise (· < ·)) (hlt : ∀ i ∈ g, i < es.length) :
    ∃ found, (groupTable rebuild es m)[groupCode g]? = some found ∧
      found.get = m (groupExpr rebuild (membersAt es g)) := by
  have hcode : groupCode g < 1 <<< es.length := by
    have := groupCode_add_pow_le (Nat.zero_le _) hg fun i hi => ⟨Nat.zero_le i, hlt i hi⟩
    rw [Nat.one_shiftLeft]
    omega
  obtain ⟨found, hf⟩ : ∃ found, (groupTable rebuild es m)[groupCode g]? = some found := by
    rw [groupTable, Array.getElem?_ofFn, dif_pos hcode]
    exact ⟨_, rfl⟩
  exact ⟨found, hf, get_groupTable m hg hlt hf⟩

/-- The matcher finds something wherever an assignment fits, and the assignment includes it. -/
def FindsAll (free : List Symbol) (d : Assignment) (p : Expr) : Prop :=
  ∀ {e}, Canonical e → Fits free d p e → ∃ a ∈ (Expr.matcher free p e).results, d.Includes a

theorem matcher_single (p e : Expr) : (Expr.matcher free p e).Single :=
  fun a ha => (matcher_finds free p e a ha).single

variable {ps es : List Expr} {acc : AssignmentSet}

/-- One more operand finds something, too, and it can be joined to what has been found. -/
theorem FindsAll.exists_mem_inter {p e : Expr} (h : FindsAll free d p) (he : Canonical e)
    (hp : Fits free d p e) (ha : a ∈ acc.results) (hda : d.Includes a) :
    ∃ c ∈ (acc.inter (Expr.matcher free p e)).results, d.Includes c := by
  obtain ⟨b, hb, hdb⟩ := h he hp
  obtain ⟨c, hc, -, hdc⟩ := AssignmentSet.exists_mem_inter (matcher_single p e) ha hb hda hdb
  exact ⟨c, hc, hdc⟩

theorem isNone_eq_false (ha : a ∈ acc.results) : ¬ acc.isNone = true :=
  fun h => List.ne_nil_of_mem ha (AssignmentSet.isNone_eq_true.1 h)

theorem exists_mem_inOrder (h : ∀ p ∈ ps, FindsAll free d p) (hes : ∀ e ∈ es, Canonical e)
    (hfit : FitsEach free d ps es) (ha : a ∈ acc.results) (hda : d.Includes a) :
    ∃ c ∈ (inOrder (Expr.matchers free ps) es acc).results, d.Includes c := by
  induction ps generalizing es acc a with
  | nil => exact ⟨a, ha, hda⟩
  | cons p ps ih =>
    cases es with
    | nil => exact ⟨a, ha, hda⟩
    | cons e es =>
      obtain ⟨hp, hps⟩ := List.forall_mem_cons.1 h
      obtain ⟨he, hes⟩ := List.forall_mem_cons.1 hes
      rw [FitsEach] at hfit
      obtain ⟨c, hc, hdc⟩ := hp.exists_mem_inter he hfit.1 ha hda
      rw [Expr.matchers, inOrder, if_neg (isNone_eq_false ha)]
      exact ih hps hes hfit.2 hc hdc

theorem exists_mem_groupsInOrder (hr : Commutes rebuild) (h : ∀ p ∈ ps, FindsAll free d p)
    (hes : ∀ e ∈ es, Canonical e) {gs : List (List Nat)}
    (hgs : ∀ g ∈ gs, g.Pairwise (· < ·) ∧ ∀ i ∈ g, i < es.length)
    (hfit : List.Forall₂ (fun p g => Fits free d p (groupExpr rebuild (membersAt es g))) ps gs)
    (ha : a ∈ acc.results) (hda : d.Includes a) :
    ∃ c ∈ (groupsInOrder ((Expr.matchers free ps).map (groupTable rebuild es)) gs acc).results,
      d.Includes c := by
  induction hfit generalizing acc a with
  | nil => exact ⟨a, ha, hda⟩
  | @cons p g ps gs hpg _ ih =>
    obtain ⟨hp, hps⟩ := List.forall_mem_cons.1 h
    obtain ⟨hg, hgs⟩ := List.forall_mem_cons.1 hgs
    obtain ⟨found, hf, hget⟩ := exists_groupTable rebuild (fun e => Expr.matcher free p e) hg.1 hg.2
    have hcg : Canonical (groupExpr rebuild (membersAt es g)) := by
      refine canonical_groupExpr hr fun e he => ?_
      obtain ⟨i, -, hi⟩ := List.mem_filterMap.1 he
      exact hes e (List.mem_of_getElem? hi)
    obtain ⟨c, hc, hdc⟩ := hp.exists_mem_inter hcg hpg ha hda
    rw [Expr.matchers, List.map_cons, groupsInOrder, if_neg (isNone_eq_false ha), hf]
    simp only [hget]
    exact ih hps hgs hc hdc

theorem empty_mem_all : Assignment.empty ∈ AssignmentSet.all.results := List.mem_singleton.2 rfl

theorem le_of_mem_ordered {n k : Nat} {gs : List (List Nat)} (h : gs ∈ Blocks.ordered n k) :
    k ≤ n := by
  obtain ⟨bs, hbs, -⟩ := List.mem_flatMap.1 h
  rw [Blocks.partitions] at hbs
  split at hbs
  · cases hbs
  · next hn =>
    rw [Bool.or_eq_true, decide_eq_true_eq, decide_eq_true_eq] at hn
    omega

theorem exists_mem_commutative (hr : Commutes rebuild) (h : ∀ p ∈ ps, FindsAll free d p)
    (hes : ∀ e ∈ es, Canonical e) (hne : es ≠ []) (hfit : FitsGroups free d rebuild ps es) :
    ∃ a ∈ (commutative rebuild (Expr.matchers free ps) es).results, d.Includes a := by
  obtain ⟨gs, hgs, hgne, hperm⟩ := exists_groups_of_fitsGroups hfit
  obtain ⟨is, hshares, his⟩ := exists_shares hperm hgne
  have hps : 0 < ps.length := by
    refine List.length_pos_iff.2 ?_
    rintro rfl
    rw [FitsGroups] at hfit
    exact hne hfit
  have hlen : is.length = ps.length := his.length_eq.symm.trans hgs.length_eq.symm
  have hmem := Blocks.mem_ordered hshares hlen hps
  -- what fits a group fits the members at its positions, which are the same in another order
  have hfits : List.Forall₂ (fun p i => Fits free d p (groupExpr rebuild (membersAt es i))) ps is := by
    have hcg : ∀ g ∈ gs, ∀ e ∈ g, Canonical e := fun g hg e he =>
      hes e (hperm.mem_iff.2 (List.mem_flatten_of_mem hg he))
    clear hperm hgne hshares hmem hlen hps hfit h
    induction hgs generalizing is with
    | nil =>
      cases his
      exact .nil
    | cons hpg _ ih =>
      cases his with
      | cons hgi his =>
        obtain ⟨hg, hcg⟩ := List.forall_mem_cons.1 hcg
        have hi : ∀ e ∈ membersAt es _, Canonical e := fun e he => hg e (hgi.mem_iff.2 he)
        refine .cons ?_ (ih _ his hcg)
        exact Fits.alike (canonical_groupExpr hr hg) (canonical_groupExpr hr hi)
          (groupExpr_alike hr hg hi (.of_perm (fun e _ => .refl e) hgi)) hpg
  obtain ⟨c, hc, hdc⟩ := exists_mem_groupsInOrder hr h hes
    (fun g hg => ⟨(hshares.ascending g hg).2, hshares.lt hg⟩) hfits empty_mem_all
    (Assignment.includes_empty d)
  have hall : c ∈ (Blocks.ordered es.length ps.length).flatMap fun gs =>
      (groupsInOrder ((Expr.matchers free ps).map (groupTable rebuild es)) gs .all).results :=
    List.mem_flatMap.2 ⟨is, hmem, hc⟩
  obtain ⟨c', hc', hcc', -⟩ := AssignmentSet.exists_mem_ofList hall
  rw [commutative, length_matchers, if_neg (Nat.not_lt.2 (le_of_mem_ordered hmem))]
  exact ⟨c', hc', hdc.trans hcc'⟩

theorem operands_ne_nil {nested : Expr → Bool} {folded : List Rat} {es : List Expr}
    (h : OperandsShape nested folded es) : es ≠ [] :=
  List.ne_nil_of_length_pos (Nat.lt_of_lt_of_le (by decide) h.two_le)

theorem exists_mem_all (d : Assignment) : ∃ a ∈ AssignmentSet.all.results, d.Includes a :=
  ⟨.empty, empty_mem_all, Assignment.includes_empty d⟩

/-- Whatever fits a canonical target includes something that matching finds. -/
theorem exists_mem_matcher (p : Expr) : FindsAll free d p := by
  induction p with
  | const c =>
    intro e _ hf
    rw [Fits] at hf
    subst hf
    rw [Expr.matcher, if_pos rfl]
    exact exists_mem_all d
  | var s k =>
    intro e _ hf
    rw [Fits] at hf
    unfold Expr.matcher
    split at hf
    · next hs =>
      obtain ⟨f, hf, hfe⟩ := hf
      rw [if_pos (List.contains_iff_mem.2 hs)]
      refine ⟨.single s e, List.mem_singleton.2 rfl, fun t c hc => ?_⟩
      rw [Assignment.get?_single] at hc
      split at hc
      · next hst =>
        cases hc
        exact ⟨f, hst ▸ hf, hfe⟩
      · cases hc
    · next hs =>
      obtain ⟨l, rfl⟩ := hf
      rw [if_neg fun h => hs (List.contains_iff_mem.1 h)]
      simp only [if_pos]
      exact exists_mem_all d
  | sum ps ih =>
    intro e he hf
    rw [Fits] at hf
    obtain ⟨es, rfl, hf⟩ := hf
    exact exists_mem_commutative commutes_sumOf (fun _ hp => ih _ hp) he.operands
      (operands_ne_nil he.sum_shape) hf
  | product ps ih =>
    intro e he hf
    rw [Fits] at hf
    obtain ⟨es, rfl, hf⟩ := hf
    exact exists_mem_commutative commutes_productOf (fun _ hp => ih _ hp) he.operands
      (operands_ne_nil he.product_shape) hf
  | pow b p ihb ihp =>
    intro e he hf
    rw [Fits] at hf
    obtain ⟨b', p', rfl, hb, hp⟩ := hf
    obtain ⟨a, ha, hda⟩ := ihb (he.operands b' (by simp [operands])) hb
    rw [Expr.matcher, if_neg (isNone_eq_false ha)]
    exact FindsAll.exists_mem_inter ihp (he.operands p' (by simp [operands])) hp ha hda
  | apply f p ih =>
    intro e he hf
    rw [Fits] at hf
    obtain ⟨c, rfl, hc⟩ := hf
    rw [Expr.matcher, if_pos rfl]
    exact ih (he.operands c List.mem_cons_self) hc
  | call f ss b ps _ ih =>
    intro e he hf
    rw [Fits] at hf
    obtain ⟨b', es, rfl, hb, hf⟩ := hf
    have hsame : Definition.same ⟨f, ss, b'⟩ ⟨f, ss, b⟩ = true := by
      rw [Definition.same_eq, beq_self_eq_true, beq_self_eq_true]
      exact hb
    rw [Expr.matcher, if_pos hsame]
    exact exists_mem_inOrder (fun _ hp => ih _ hp) he.operands hf empty_mem_all
      (Assignment.includes_empty d)

/-! The variables of a pattern. -/

/-- Each variable of the pattern is matched with something in the target. -/
def LeavesFit (free : List Symbol) (a : Assignment) (p : Expr) : Prop :=
  ∀ {e}, Canonical e → Fits free a p e →
    ∀ s ∈ p.occurrences, ∃ k d, Fits free a (.var s k) d ∧ Within e.occurrences d

theorem within_groupExpr {ss : List Symbol} {es : List Expr}
    (hr : ∀ {es}, (∀ e ∈ es, Within ss e) → Within ss (rebuild es)) (h : ∀ e ∈ es, Within ss e) :
    Within ss (groupExpr rebuild es) := by
  unfold groupExpr
  split
  · exact h _ List.mem_cons_self
  · exact hr h

theorem leavesFit_groups (hr : Commutes rebuild) {ss : List Symbol}
    (hw : ∀ {es}, (∀ e ∈ es, Within ss e) → Within ss (rebuild es)) {ps es : List Expr}
    (h : ∀ p ∈ ps, LeavesFit free a p) (hes : ∀ e ∈ es, Canonical e) (hss : ∀ e ∈ es, Within ss e)
    (hf : FitsGroups free a rebuild ps es) :
    ∀ s ∈ occurrencesAll ps, ∃ k d, Fits free a (.var s k) d ∧ Within ss d := by
  obtain ⟨gs, hgs, -, hperm⟩ := exists_groups_of_fitsGroups hf
  intro s hs
  obtain ⟨p, hp, hs⟩ := mem_occurrencesAll.1 hs
  obtain ⟨g, hg, hfit⟩ := exists_of_forall₂_mem hgs.flip p hp
  have hmem : ∀ e ∈ g, e ∈ es := fun e he => hperm.mem_iff.2 (List.mem_flatten_of_mem hg he)
  have hc := canonical_groupExpr hr fun e he => hes e (hmem e he)
  obtain ⟨k, d, hd, hwithin⟩ := h p hp hc hfit s hs
  exact ⟨k, d, hd, hwithin.mono (within_groupExpr hw fun e he => hss e (hmem e he))⟩

theorem leavesFit_each {ss : List Symbol} {ps es : List Expr} (h : ∀ p ∈ ps, LeavesFit free a p)
    (hes : ∀ e ∈ es, Canonical e) (hss : ∀ e ∈ es, Within ss e) (hl : ps.length = es.length)
    (hf : FitsEach free a ps es) :
    ∀ s ∈ occurrencesAll ps, ∃ k d, Fits free a (.var s k) d ∧ Within ss d := by
  intro s hs
  obtain ⟨p, hp, hs⟩ := mem_occurrencesAll.1 hs
  obtain ⟨e, he, hfit⟩ := exists_of_forall₂_mem (forall₂_of_fitsEach hl hf).flip p hp
  obtain ⟨k, d, hd, hwithin⟩ := h p hp (hes e he) hfit s hs
  exact ⟨k, d, hd, hwithin.mono (hss e he)⟩

/-- A canonical pattern is matched down to its variables: its calls have as many arguments as those
of the target. -/
theorem Fits.leaves {p : Expr} (hp : Canonical p) : LeavesFit free a p := by
  induction p with
  | const c => intro e _ _ s hs; cases hs
  | var t k =>
    intro e _ hf s hs
    obtain rfl := List.mem_singleton.1 hs
    exact ⟨k, e, hf, .refl e⟩
  | sum ps ih =>
    intro e he hf
    rw [Fits] at hf
    obtain ⟨es, rfl, hf⟩ := hf
    exact leavesFit_groups commutes_sumOf (nodewise_within _).sumOf
      (fun p h => ih p h (hp.operands p h)) he.operands (Within.refl _).operands hf
  | product ps ih =>
    intro e he hf
    rw [Fits] at hf
    obtain ⟨es, rfl, hf⟩ := hf
    exact leavesFit_groups commutes_productOf (nodewise_within _).productOf
      (fun p h => ih p h (hp.operands p h)) he.operands (Within.refl _).operands hf
  | pow b q ihb ihq =>
    intro e he hf s hs
    rw [Fits] at hf
    obtain ⟨b', q', rfl, hb, hq⟩ := hf
    rcases List.mem_append.1 hs with hs | hs
    · obtain ⟨k, d, hd, hw⟩ := ihb (hp.operands b (by simp [operands]))
        (he.operands b' (by simp [operands])) hb s hs
      exact ⟨k, d, hd, hw.mono fun t => List.mem_append_left _⟩
    · obtain ⟨k, d, hd, hw⟩ := ihq (hp.operands q (by simp [operands]))
        (he.operands q' (by simp [operands])) hq s hs
      exact ⟨k, d, hd, hw.mono fun t => List.mem_append_right _⟩
  | apply f q ih =>
    intro e he hf s hs
    rw [Fits] at hf
    obtain ⟨c, rfl, hc⟩ := hf
    exact ih (hp.operands q List.mem_cons_self) (he.operands c List.mem_cons_self) hc s hs
  | call f ss b ps _ ih =>
    intro e he hf
    rw [Fits] at hf
    obtain ⟨b', es, rfl, -, hf⟩ := hf
    have hl : ps.length = es.length := by
      cases hp with
      | call hl _ _ =>
        cases he with
        | call hl' _ _ => exact hl.trans hl'.symm
    exact leavesFit_each (fun p h => ih p h (hp.operands p h)) he.operands (Within.refl _).operands
      hl hf

variable {p e : Expr} {s : Symbol}

/-- All matches bind the same symbols: the free variables that occur. -/
theorem Fits.binds (h : Fits free a p e) (hp : Canonical p) (he : Canonical e) (hs : s ∈ free)
    (hocc : s ∈ p.occurrences) : ∃ d, a.get? s = some d := by
  obtain ⟨k, d, hd, -⟩ := Fits.leaves hp he h s hocc
  rw [Fits, if_pos hs] at hd
  exact hd.imp fun _ h => h.1

/-- Other variables of the pattern occur in the target. -/
theorem Fits.occurs (h : Fits free a p e) (hp : Canonical p) (he : Canonical e) (hs : s ∉ free)
    (hocc : s ∈ p.occurrences) : s ∈ e.occurrences := by
  obtain ⟨k, d, hd, hw⟩ := Fits.leaves hp he h s hocc
  rw [Fits, if_neg hs] at hd
  obtain ⟨l, rfl⟩ := hd
  exact hw s (List.mem_singleton_self s)

/-- In equal targets a pattern finds the same, up to equality. -/
theorem Pattern.matches?_alike {p : Pattern} (hp : Canonical p.expr) {e e' : Expr}
    (he : Canonical e) (he' : Canonical e') (h : Alike e e') (ha : a ∈ (p.matches? e).results) :
    ∃ a' ∈ (p.matches? e').results, ∀ s, Option.Rel Alike (a.get? s) (a'.get? s) := by
  have hm := matcher_finds p.free p.expr e a ha
  obtain ⟨a', ha', haa'⟩ := exists_mem_matcher p.expr he' (hm.fits.alike he he' h)
  have hm' := matcher_finds p.free p.expr e' a' ha'
  refine ⟨a', ha', fun s => ?_⟩
  cases hs' : a'.get? s with
  | some d' =>
    obtain ⟨d, hd, hdd⟩ := haa' s d' hs'
    rw [hd]
    exact .some hdd
  | none =>
    cases hs : a.get? s with
    | none => exact .none
    | some d =>
      -- what one of them binds is bound by the other
      obtain ⟨hfree, hocc⟩ := hm.bound s d hs
      obtain ⟨d', hd'⟩ := hm'.fits.binds hp he' hfree hocc
      rw [hs'] at hd'
      cases hd'

end Symbolic
