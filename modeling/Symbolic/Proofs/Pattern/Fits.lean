import Symbolic.Proofs.Pattern.Assignments
import Symbolic.Proofs.Pattern.Blocks

/-!
What a match says. `Fits free a p e` says, without searching, that the pattern `p` is the target `e`
once its free variables stand for what the assignment `a` gives them: the operands of a sum or
product are shared out among those of the pattern, in groups that stand for one expression each.
What a pattern finds in a target fits (`matcher_finds`).
-/

namespace Symbolic

open Symbolic.Expr Symbolic.Matcher

mutual

/-- The pattern is the target, with the values of the assignment for the free variables. -/
def Fits (free : List Symbol) (a : Assignment) : Expr → Expr → Prop
  | .var s _, e =>
    if s ∈ free then ∃ d, a.get? s = some d ∧ Alike d e else ∃ k, e = .var s k
  | .const c, e => e = .const c
  | .sum ps, e => ∃ es, e = .sum es ∧ FitsGroups free a .sumOf ps es
  | .product ps, e => ∃ es, e = .product es ∧ FitsGroups free a .productOf ps es
  | .pow b p, e => ∃ b' p', e = .pow b' p' ∧ Fits free a b b' ∧ Fits free a p p'
  | .apply f p, e => ∃ d, e = .apply f d ∧ Fits free a p d
  | .call f ss b ps, e => ∃ b' es, e = .call f ss b' es ∧ Alike b' b ∧ FitsEach free a ps es

/-- The targets are shared out in groups among the patterns. -/
def FitsGroups (free : List Symbol) (a : Assignment) (rebuild : List Expr → Expr) :
    List Expr → List Expr → Prop
  | [], es => es = []
  | p :: ps, es => ∃ g rest, g ≠ [] ∧ es.Perm (g ++ rest) ∧
      Fits free a p (groupExpr rebuild g) ∧ FitsGroups free a rebuild ps rest

/-- Patterns and targets belong together place by place, as far as there are both. -/
def FitsEach (free : List Symbol) (a : Assignment) : List Expr → List Expr → Prop
  | [], _ => True
  | _ :: _, [] => True
  | p :: ps, e :: es => Fits free a p e ∧ FitsEach free a ps es

end

variable {free : List Symbol} {a b : Assignment} {rebuild : List Expr → Expr}

theorem fitsGroups_of_forall₂ {ps : List Expr} {gs : List (List Expr)} {es : List Expr}
    (h : List.Forall₂ (fun p g => Fits free a p (groupExpr rebuild g)) ps gs)
    (hne : ∀ g ∈ gs, g ≠ []) (hes : es.Perm gs.flatten) : FitsGroups free a rebuild ps es := by
  induction h generalizing es with
  | nil => exact hes.eq_nil
  | @cons p g ps gs hpg _ ih =>
    obtain ⟨hg, hne⟩ := List.forall_mem_cons.1 hne
    rw [FitsGroups]
    exact ⟨g, gs.flatten, hg, hes, hpg, ih hne (.refl _)⟩

theorem exists_groups_of_fitsGroups {ps es : List Expr} (h : FitsGroups free a rebuild ps es) :
    ∃ gs : List (List Expr), List.Forall₂ (fun p g => Fits free a p (groupExpr rebuild g)) ps gs ∧
      (∀ g ∈ gs, g ≠ []) ∧ es.Perm gs.flatten := by
  induction ps generalizing es with
  | nil =>
    rw [FitsGroups] at h
    exact ⟨[], .nil, List.forall_mem_nil _, by rw [h]; exact .refl _⟩
  | cons p ps ih =>
    rw [FitsGroups] at h
    obtain ⟨g, rest, hg, hes, hpg, h⟩ := h
    obtain ⟨gs, hgs, hne, hrest⟩ := ih h
    exact ⟨g :: gs, .cons hpg hgs, List.forall_mem_cons.2 ⟨hg, hne⟩, hes.trans (hrest.append_left g)⟩

/-- Patterns and targets that are as many belong together one by one. -/
theorem forall₂_of_fitsEach {ps es : List Expr} (hl : ps.length = es.length)
    (h : FitsEach free a ps es) :
    List.Forall₂ (Fits free a) ps es := by
  induction ps generalizing es with
  | nil => rw [List.length_eq_zero_iff.1 hl.symm]; exact .nil
  | cons p ps ih =>
    cases es with
    | nil => cases hl
    | cons e es =>
      rw [FitsEach] at h
      exact .cons h.1 (ih (Nat.succ.inj hl) h.2)

theorem Fits.mono (hab : b.Includes a) {p : Expr} : ∀ {e}, Fits free a p e → Fits free b p e := by
  have hgroups {ps : List Expr} {rebuild : List Expr → Expr}
      (ih : ∀ p ∈ ps, ∀ {e}, Fits free a p e → Fits free b p e) {es : List Expr} :
      FitsGroups free a rebuild ps es → FitsGroups free b rebuild ps es := by
    induction ps generalizing es with
    | nil => exact fun h => by rwa [FitsGroups] at h ⊢
    | cons p ps ihp =>
      obtain ⟨hp, hps⟩ := List.forall_mem_cons.1 ih
      intro h
      rw [FitsGroups] at h ⊢
      obtain ⟨g, rest, hg, hes, hpg, h⟩ := h
      exact ⟨g, rest, hg, hes, hp hpg, ihp hps h⟩
  induction p with
  | const c => exact fun h => by rwa [Fits] at h ⊢
  | var s k =>
    intro e h
    rw [Fits] at h ⊢
    split at h
    · next hs =>
      rw [if_pos hs]
      obtain ⟨d, hd, hde⟩ := h
      obtain ⟨f, hf, hfd⟩ := hab s d hd
      exact ⟨f, hf, hfd.trans hde⟩
    · next hs => rwa [if_neg hs]
  | sum ps ih =>
    intro e h
    rw [Fits] at h ⊢
    exact h.imp fun es h => ⟨h.1, hgroups ih h.2⟩
  | product ps ih =>
    intro e h
    rw [Fits] at h ⊢
    exact h.imp fun es h => ⟨h.1, hgroups ih h.2⟩
  | pow b' p ihb ihp =>
    intro e h
    rw [Fits] at h ⊢
    obtain ⟨c, q, he, hb, hp⟩ := h
    exact ⟨c, q, he, ihb hb, ihp hp⟩
  | apply f p ih =>
    intro e h
    rw [Fits] at h ⊢
    exact h.imp fun d h => ⟨h.1, ih h.2⟩
  | call f ss c ps _ ih =>
    intro e h
    rw [Fits] at h ⊢
    obtain ⟨c', es, he, hc, h⟩ := h
    refine ⟨c', es, he, hc, ?_⟩
    clear he
    induction ps generalizing es with
    | nil => simp only [FitsEach]
    | cons p ps ihps =>
      obtain ⟨hp, hps⟩ := List.forall_mem_cons.1 ih
      cases es with
      | nil => simp only [FitsEach]
      | cons e es =>
        rw [FitsEach] at h ⊢
        exact ⟨hp h.1, ihps hps es h.2⟩

/-! The members of a group. -/

theorem groupCode_cons (i : Nat) (g : List Nat) : groupCode (i :: g) = 2 ^ i + groupCode g := by
  rw [groupCode, List.foldr_cons, Nat.one_shiftLeft]
  rfl

theorem groupCode_map_succ (g : List Nat) : groupCode (g.map (· + 1)) = 2 * groupCode g := by
  induction g with
  | nil => rfl
  | cons i g ih =>
    rw [List.map_cons, groupCode_cons, ih, groupCode_cons, Nat.pow_succ]
    omega

theorem exists_map_succ {g : List Nat} (hg : ∀ i ∈ g, 0 < i) : ∃ g' : List Nat, g = g'.map (· + 1) := by
  refine ⟨g.map (· - 1), ?_⟩
  rw [List.map_map]
  refine (List.map_id' g).symm.trans (List.map_congr_left fun i hi => ?_)
  have := hg i hi
  simp only [Function.comp_apply]
  omega

/-- The code of an ascending group finds its members. -/
theorem groupMembers_groupCode {es : List Expr} {g : List Nat} (hg : g.Pairwise (· < ·))
    (hlt : ∀ i ∈ g, i < es.length) : groupMembers es (groupCode g) = g.filterMap (es[·]?) := by
  induction es generalizing g with
  | nil =>
    obtain rfl : g = [] := List.eq_nil_iff_forall_not_mem.2 fun i hi => by simpa using hlt i hi
    rfl
  | cons e es ih =>
    -- what is left of the group once its positions are counted from the next operand
    have htail {g' : List Nat} (hg : (g'.map (· + 1)).Pairwise (· < ·))
        (hlt : ∀ i ∈ g'.map (· + 1), i < (e :: es).length) :
        groupMembers es (groupCode g') = (g'.map (· + 1)).filterMap ((e :: es)[·]?) := by
      rw [List.filterMap_map, ih]
      · rfl
      · exact (List.pairwise_map.1 hg).imp (fun h => by omega)
      · intro i hi
        have := hlt (i + 1) (List.mem_map_of_mem hi)
        rw [List.length_cons] at this
        omega
    by_cases h0 : ∀ i ∈ g, 0 < i
    · obtain ⟨g', rfl⟩ := exists_map_succ h0
      rw [groupMembers, groupCode_map_succ, if_neg (by omega), Nat.mul_div_cancel_left _ (by decide)]
      exact htail hg hlt
    · cases g with
      | nil => exact absurd (List.forall_mem_nil _) h0
      | cons i g =>
        obtain ⟨hi, hrest⟩ := List.pairwise_cons.1 hg
        have hbelow : ∀ j ∈ g, j < (e :: es).length := fun j hj => hlt j (List.mem_cons_of_mem _ hj)
        obtain ⟨g', rfl⟩ := exists_map_succ fun j hj => Nat.zero_lt_of_lt (hi j hj)
        obtain rfl : i = 0 := by
          refine Nat.eq_zero_of_not_pos fun hpos => h0 ?_
          exact List.forall_mem_cons.2 ⟨hpos, fun j hj => Nat.lt_trans hpos (hi j hj)⟩
        rw [groupCode_cons, groupCode_map_succ, groupMembers, if_pos (by omega)]
        rw [show (2 ^ 0 + 2 * groupCode g') / 2 = groupCode g' by omega]
        exact congrArg (e :: ·) (htail hrest hbelow)

/-! What a matcher finds. -/

/-- The assignment is a match, and it binds nothing but free variables of the pattern. -/
structure Assignment.Matches (free : List Symbol) (p e : Expr) (a : Assignment) : Prop where
  fits : Fits free a p e
  bound : ∀ s d, a.get? s = some d → s ∈ free ∧ s ∈ p.occurrences
  single : a.Single

/-- What the matcher finds are matches of the pattern. -/
def Finds (free : List Symbol) (p : Expr) (m : Matcher) : Prop :=
  ∀ e, ∀ a ∈ (m e).results, a.Matches free p e

variable {ps es : List Expr} {acc : AssignmentSet}

theorem joined_of_mem_inter {p e : Expr} {m : AssignmentSet}
    (hm : ∀ a ∈ m.results, a.Matches free p e) {c : Assignment} (hc : c ∈ (acc.inter m).results) :
    Fits free c p e ∧ ∃ a ∈ acc.results, c.Includes a ∧
      ∀ s d, c.get? s = some d → (∃ d, a.get? s = some d) ∨ s ∈ free ∧ s ∈ p.occurrences := by
  obtain ⟨a, ha, b, hb, hj⟩ := AssignmentSet.joins_of_mem_inter (fun b hb => (hm b hb).single) hc
  refine ⟨(hm b hb).fits.mono hj.right, a, ha, hj.left, fun s d hd => ?_⟩
  exact (hj.bound s d hd).imp_right fun ⟨d, hd⟩ => (hm b hb).bound s d hd

theorem inOrder_finds (h : ∀ p ∈ ps, Finds free p fun e => Expr.matcher free p e)
    (hacc : acc.Single) {c : Assignment}
    (hc : c ∈ (inOrder (Expr.matchers free ps) es acc).results) :
    FitsEach free c ps es ∧ c.Single ∧ ∃ a ∈ acc.results, c.Includes a ∧
      ∀ s d, c.get? s = some d → (∃ d, a.get? s = some d) ∨ s ∈ free ∧ s ∈ occurrencesAll ps := by
  induction ps generalizing es acc with
  | nil =>
    simp only [FitsEach]
    exact ⟨trivial, hacc c hc, c, hc, .refl c, fun s d hd => .inl ⟨d, hd⟩⟩
  | cons p ps ih =>
    cases es with
    | nil =>
      simp only [FitsEach]
      exact ⟨trivial, hacc c hc, c, hc, .refl c, fun s d hd => .inl ⟨d, hd⟩⟩
    | cons e es =>
      obtain ⟨hp, hps⟩ := List.forall_mem_cons.1 h
      rw [Expr.matchers, inOrder] at hc
      split at hc
      · next hn =>
        rw [AssignmentSet.isNone_eq_true.1 hn] at hc
        cases hc
      have hnext := hacc.inter fun a ha => (hp e a ha).single
      obtain ⟨heach, hs, a, ha, hca, hbound⟩ := ih hps hnext hc
      obtain ⟨hfit, a', ha', haa', hbound'⟩ := joined_of_mem_inter (hp e) ha
      rw [FitsEach]
      refine ⟨⟨hfit.mono hca, heach⟩, hs, a', ha', hca.trans haa', fun s d hd => ?_⟩
      rw [occurrencesAll, List.mem_append]
      rcases hbound s d hd with ⟨d, hd⟩ | h
      · exact (hbound' s d hd).imp_right fun h => ⟨h.1, .inl h.2⟩
      · exact .inr ⟨h.1, .inr h.2⟩

/-- The members of a group of positions. -/
def membersAt (es : List Expr) (g : List Nat) : List Expr := g.filterMap (es[·]?)

/-- The table of an operand holds what it matches to for each group. -/
theorem get_groupTable (m : Matcher) {g : List Nat} (hg : g.Pairwise (· < ·))
    (hlt : ∀ i ∈ g, i < es.length) {found : Thunk AssignmentSet}
    (hf : (groupTable rebuild es m)[groupCode g]? = some found) :
    found.get = m (groupExpr rebuild (membersAt es g)) := by
  rw [groupTable, Array.getElem?_ofFn] at hf
  split at hf
  · cases hf
    rw [membersAt, ← groupMembers_groupCode hg hlt]
    rfl
  · cases hf

theorem groupsInOrder_finds (h : ∀ p ∈ ps, Finds free p fun e => Expr.matcher free p e)
    {gs : List (List Nat)} (hl : gs.length = ps.length)
    (hgs : ∀ g ∈ gs, g.Pairwise (· < ·) ∧ ∀ i ∈ g, i < es.length) (hacc : acc.Single)
    {c : Assignment}
    (hc : c ∈ (groupsInOrder ((Expr.matchers free ps).map (groupTable rebuild es)) gs acc).results) :
    List.Forall₂ (fun p g => Fits free c p (groupExpr rebuild g)) ps (gs.map (membersAt es)) ∧
      c.Single ∧ ∃ a ∈ acc.results, c.Includes a ∧
        ∀ s d, c.get? s = some d → (∃ d, a.get? s = some d) ∨ s ∈ free ∧ s ∈ occurrencesAll ps := by
  induction ps generalizing gs acc with
  | nil =>
    rw [List.length_nil, List.length_eq_zero_iff] at hl
    subst hl
    exact ⟨.nil, hacc c hc, c, hc, .refl c, fun s d hd => .inl ⟨d, hd⟩⟩
  | cons p ps ih =>
    cases gs with
    | nil => cases hl
    | cons g gs =>
      obtain ⟨hp, hps⟩ := List.forall_mem_cons.1 h
      obtain ⟨hg, hgs⟩ := List.forall_mem_cons.1 hgs
      rw [Expr.matchers, List.map_cons, groupsInOrder] at hc
      split at hc
      · next hn =>
        rw [AssignmentSet.isNone_eq_true.1 hn] at hc
        cases hc
      split at hc
      · next found hf =>
        rw [get_groupTable _ hg.1 hg.2 hf] at hc
        have hnext := hacc.inter fun a ha => (hp (groupExpr rebuild (membersAt es g)) a ha).single
        obtain ⟨hall, hs, a, ha, hca, hbound⟩ := ih hps (Nat.succ.inj hl) hgs hnext hc
        obtain ⟨hfit, a', ha', haa', hbound'⟩ := joined_of_mem_inter (hp _) ha
        refine ⟨.cons (hfit.mono hca) hall, hs, a', ha', hca.trans haa', fun s d hd => ?_⟩
        rw [occurrencesAll, List.mem_append]
        rcases hbound s d hd with ⟨d, hd⟩ | h
        · exact (hbound' s d hd).imp_right fun h => ⟨h.1, .inl h.2⟩
        · exact .inr ⟨h.1, .inr h.2⟩
      · cases hc

theorem membersAt_range (es : List Expr) : membersAt es (List.range es.length) = es := by
  rw [membersAt]
  induction es with
  | nil => rfl
  | cons e es ih =>
    rw [List.length_cons, List.range_succ_eq_map, List.filterMap_cons, List.filterMap_map]
    exact congrArg (e :: ·) ih

theorem perm_flatten_membersAt {gs : List (List Nat)} (h : Blocks.Shares es.length gs) :
    es.Perm (gs.map (membersAt es)).flatten := by
  have hp : (membersAt es gs.flatten).Perm (membersAt es (List.range es.length)) :=
    h.perm.filterMap (es[·]?)
  rw [membersAt_range] at hp
  refine hp.symm.trans (.of_eq ?_)
  rw [membersAt, List.filterMap_flatten]
  rfl

theorem membersAt_ne_nil {g : List Nat} (hg : g ≠ []) (hlt : ∀ i ∈ g, i < es.length) :
    membersAt es g ≠ [] := by
  obtain ⟨i, hi⟩ := List.exists_mem_of_ne_nil g hg
  have hmem : es.get ⟨i, hlt i hi⟩ ∈ membersAt es g :=
    List.mem_filterMap.2 ⟨i, hi, List.getElem?_eq_getElem _⟩
  exact List.ne_nil_of_mem hmem

theorem length_matchers (ps : List Expr) : (Expr.matchers free ps).length = ps.length := by
  induction ps with
  | nil => rfl
  | cons p ps ih => exact congrArg (· + 1) ih

theorem single_all : AssignmentSet.all.Single := by
  intro a ha p hp
  rw [List.mem_singleton.1 ha] at hp
  cases hp

theorem commutative_finds (h : ∀ p ∈ ps, Finds free p fun e => Expr.matcher free p e)
    {c : Assignment} (hc : c ∈ (commutative rebuild (Expr.matchers free ps) es).results) :
    FitsGroups free c rebuild ps es ∧ c.Single ∧
      ∀ s d, c.get? s = some d → s ∈ free ∧ s ∈ occurrencesAll ps := by
  rw [commutative] at hc
  split at hc
  · cases hc
  obtain ⟨gs, hgs, hc⟩ := List.mem_flatMap.1 (mem_of_mem_distinctFrom c hc)
  obtain ⟨hl, hshares⟩ := Blocks.shares_of_mem_ordered gs hgs
  obtain ⟨hfits, hs, a, ha, -, hbound⟩ := groupsInOrder_finds h (hl.trans (length_matchers ps))
    (fun g hg => ⟨(hshares.ascending g hg).2, hshares.lt hg⟩) single_all hc
  refine ⟨fitsGroups_of_forall₂ hfits ?_ (perm_flatten_membersAt hshares), hs, fun s d hd => ?_⟩
  · refine List.forall_mem_map.2 fun g hg => ?_
    exact membersAt_ne_nil (hshares.ascending g hg).1 (hshares.lt hg)
  · refine (hbound s d hd).resolve_left fun hs => ?_
    obtain ⟨d, hd⟩ := hs
    rw [List.mem_singleton.1 ha] at hd
    cases hd

theorem matches_of_mem_all {p e : Expr} (h : Fits free .empty p e) {a : Assignment}
    (ha : a ∈ AssignmentSet.all.results) : a.Matches free p e := by
  obtain rfl := List.mem_singleton.1 ha
  exact ⟨h, fun s d hd => (Option.some_ne_none d hd.symm).elim, single_all _ ha⟩

/-- What a pattern finds in a target are matches. -/
theorem matcher_finds (free : List Symbol) (p : Expr) :
    Finds free p fun e => Expr.matcher free p e := by
  refine Kept.matcher_recursion (Q := fun p e s => ∀ a ∈ s.results, a.Matches free p e) ?none ?const
    ?free_var ?other_var ?sum ?product ?pow ?apply ?call p
  case none => exact fun p e => List.forall_mem_nil _
  case const => exact fun c a ha => matches_of_mem_all (by rw [Fits]) ha
  case free_var =>
    intro s k e hs a ha
    obtain rfl := List.mem_singleton.1 ha
    refine ⟨?_, fun t d hd => ?_, fun p hp => ?_⟩
    · rw [Fits, if_pos hs]
      exact ⟨e, by rw [Assignment.get?_single, if_pos rfl], .refl e⟩
    · rw [Assignment.get?_single] at hd
      split at hd
      · next hst => exact hst ▸ ⟨hs, by simp [occurrences]⟩
      · cases hd
    · rw [List.mem_singleton.1 hp, Assignment.get?_single, if_pos rfl]
  case other_var =>
    intro s k l hs a ha
    exact matches_of_mem_all (by rw [Fits, if_neg hs]; exact ⟨l, rfl⟩) ha
  case sum =>
    intro ps es ih a ha
    obtain ⟨hfits, hs, hbound⟩ := commutative_finds ih ha
    exact ⟨by rw [Fits]; exact ⟨es, rfl, hfits⟩, hbound, hs⟩
  case product =>
    intro ps es ih a ha
    obtain ⟨hfits, hs, hbound⟩ := commutative_finds ih ha
    exact ⟨by rw [Fits]; exact ⟨es, rfl, hfits⟩, hbound, hs⟩
  case pow =>
    intro b p b' p' found found' hb hp c hc
    obtain ⟨hfit, a, ha, hca, hbound⟩ := joined_of_mem_inter hp hc
    have hs := AssignmentSet.Single.inter (fun a ha => (hb a ha).single)
      (fun a ha => (hp a ha).single) c hc
    refine ⟨?_, fun s d hd => ?_, hs⟩
    · rw [Fits]
      exact ⟨b', p', rfl, (hb a ha).fits.mono hca, hfit⟩
    · rw [occurrences, List.mem_append]
      rcases hbound s d hd with ⟨d, hd⟩ | h
      · exact ((hb a ha).bound s d hd).imp_right .inl
      · exact h.imp_right .inr
  case apply =>
    intro f p d found h a ha
    exact ⟨by rw [Fits]; exact ⟨d, rfl, (h a ha).fits⟩, (h a ha).bound, (h a ha).single⟩
  case call =>
    intro f ss b g ts b' ps es hsame ih a ha
    rw [Definition.same_eq, Bool.and_eq_true, Bool.and_eq_true, beq_iff_eq, beq_iff_eq] at hsame
    obtain ⟨⟨rfl, rfl⟩, hb⟩ := hsame
    obtain ⟨hfits, hs, c, hc, -, hbound⟩ := inOrder_finds ih single_all ha
    refine ⟨by rw [Fits]; exact ⟨b', es, rfl, hb, hfits⟩, fun s d hd => ?_, hs⟩
    -- at the start nothing is bound
    refine (hbound s d hd).resolve_left fun hs => ?_
    obtain ⟨d, hd⟩ := hs
    rw [List.mem_singleton.1 hc] at hd
    cases hd

end Symbolic
