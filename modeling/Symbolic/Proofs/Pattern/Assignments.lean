import Symbolic.Proofs.Expr.Alike
import Symbolic.Proofs.Pattern.Closed

/-!
What merged assignments bind. `Includes c a` says that `c` gives to every symbol that `a` binds an
equal value. The assignments in which two others are merged include both and bind nothing else
(`Joins`); where some assignment includes both, so does one that they are merged in
(`AssignmentSet.exists_mem_inter`).
-/

namespace Symbolic

open Symbolic.Expr

namespace Assignment

variable {a b c d : Assignment} {s t : Symbol} {e : Expr}

/-- The first assignment binds what the second one does, to equal values. -/
def Includes (c a : Assignment) : Prop :=
  ∀ s e, a.get? s = some e → ∃ d, c.get? s = some d ∧ Alike d e

theorem Includes.refl (a : Assignment) : a.Includes a := fun _ e h => ⟨e, h, .refl e⟩

theorem Includes.trans (h : c.Includes b) (h' : b.Includes a) : c.Includes a := by
  intro s e he
  obtain ⟨d, hd, hde⟩ := h' s e he
  obtain ⟨f, hf, hfd⟩ := h s d hd
  exact ⟨f, hf, hfd.trans hde⟩

theorem includes_empty (a : Assignment) : a.Includes empty := fun s e h => by cases h

theorem get?_single : (single s e).get? t = if s = t then some e else none := by
  rw [single, get?, List.find?_singleton]
  by_cases h : s = t <;> simp [h]

theorem get?_cons {p : Symbol × Expr} {bs : List (Symbol × Expr)} :
    (⟨p :: bs⟩ : Assignment).get? s = if p.1 = s then some p.2 else get? ⟨bs⟩ s := by
  rw [get?, List.find?_cons, get?]
  by_cases h : p.1 = s <;> simp [h]

theorem find?_insertSorted {bs : List (Symbol × Expr)} (h : bs.find? (·.1 = s) = none) :
    (insertSorted s e bs).find? (·.1 = t) =
      if s = t then some (s, e) else bs.find? (·.1 = t) := by
  induction bs with
  | nil =>
    rw [insertSorted, List.find?_singleton]
    by_cases hst : s = t <;> simp [hst]
  | cons b bs ih =>
    rw [List.find?_cons] at h
    split at h
    · cases h
    next hb =>
    have ih := ih h
    rw [insertSorted]
    split
    · rw [List.find?_cons]
      by_cases hst : s = t <;> simp [hst]
    · rw [List.find?_cons, ih, List.find?_cons]
      by_cases hst : s = t
      · subst hst
        simp [hb]
      · simp [hst]

theorem bind?_cases (h : a.bind? s e = some c) :
    (∃ f, a.get? s = some f ∧ Alike f e ∧ c = a) ∨
      a.get? s = none ∧ (∀ t, c.get? t = if s = t then some e else a.get? t) ∧
        ∀ p ∈ c.bindings, p = (s, e) ∨ p ∈ a.bindings := by
  rw [bind?] at h
  split at h
  · next f hf =>
    split at h
    · next hs =>
      cases h
      exact .inl ⟨f, hf, same_iff.1 hs, rfl⟩
    · cases h
  · next hn =>
    cases h
    refine .inr ⟨hn, fun t => ?_, mem_insertSorted⟩
    rw [get?, get?, find?_insertSorted (Option.map_eq_none_iff.1 hn)]
    split <;> rfl

theorem get?_of_bind? (h : a.bind? s e = some c) : ∃ f, c.get? s = some f ∧ Alike f e := by
  rcases bind?_cases h with ⟨f, hf, hfe, rfl⟩ | ⟨-, hget, -⟩
  · exact ⟨f, hf, hfe⟩
  · exact ⟨e, by rw [hget, if_pos rfl], .refl e⟩

theorem includes_of_bind? (h : a.bind? s e = some c) : c.Includes a := by
  intro t f hf
  rcases bind?_cases h with ⟨-, -, -, rfl⟩ | ⟨hn, hget, -⟩
  · exact ⟨f, hf, .refl f⟩
  · have hst : s ≠ t := by
      rintro rfl
      rw [hn] at hf
      cases hf
    exact ⟨f, by rw [hget, if_neg hst, hf], .refl f⟩

/-- What an assignment includes can be bound, and stays included. -/
theorem exists_bind? (hd : d.Includes a) {f : Expr} (hf : d.get? s = some f) (hfe : Alike f e) :
    ∃ c, a.bind? s e = some c ∧ d.Includes c := by
  rw [bind?]
  split
  · next g hg =>
    obtain ⟨f', hf', hfg⟩ := hd s g hg
    obtain rfl := Option.some.inj (hf.symm.trans hf')
    exact ⟨a, if_pos (same_iff.2 (hfg.symm.trans hfe)), hd⟩
  · next hn =>
    refine ⟨_, rfl, fun t g hg => ?_⟩
    rw [get?, find?_insertSorted (Option.map_eq_none_iff.1 hn)] at hg
    split at hg
    · next hst =>
      subst hst
      cases hg
      exact ⟨f, hf, hfe⟩
    · exact hd t g hg

def Single (a : Assignment) : Prop := ∀ p ∈ a.bindings, a.get? p.1 = some p.2

theorem Single.bind? (ha : a.Single) (h : a.bind? s e = some c) : c.Single := by
  rcases bind?_cases h with ⟨-, -, -, rfl⟩ | ⟨hn, hget, hmem⟩
  · exact ha
  · intro p hp
    rw [hget]
    rcases hmem p hp with rfl | hp
    · exact if_pos rfl
    · have hps : s ≠ p.1 := by
        rintro rfl
        rw [ha p hp] at hn
        cases hn
      rw [if_neg hps, ha p hp]

theorem Single.bindAll? {bs : List (Symbol × Expr)} (ha : a.Single)
    (h : a.bindAll? bs = some c) : c.Single := by
  induction bs generalizing a with
  | nil => exact Option.some.inj h ▸ ha
  | cons p bs ih =>
    obtain ⟨b, hb, h⟩ := Option.bind_eq_some_iff.1 h
    exact ih (ha.bind? hb) h

theorem exists_mem_of_get? (h : a.get? s = some e) : (s, e) ∈ a.bindings := by
  obtain ⟨p, hp, rfl⟩ := Option.map_eq_some_iff.1 h
  obtain rfl : p.1 = s := by simpa using List.find?_some hp
  exact List.mem_of_find?_eq_some hp

/-- The third assignment binds what the first two do, to equal values, and nothing else. -/
structure Joins (a b c : Assignment) : Prop where
  left : c.Includes a
  right : c.Includes b
  bound : ∀ s e, c.get? s = some e → (∃ d, a.get? s = some d) ∨ ∃ d, b.get? s = some d

theorem bindAll?_spec {bs : List (Symbol × Expr)} (h : a.bindAll? bs = some c) :
    c.Includes a ∧ (∀ p ∈ bs, ∃ f, c.get? p.1 = some f ∧ Alike f p.2) ∧
      ∀ s e, c.get? s = some e → (∃ d, a.get? s = some d) ∨ ∃ d, (s, d) ∈ bs := by
  induction bs generalizing a with
  | nil =>
    obtain rfl := Option.some.inj h
    exact ⟨.refl a, List.forall_mem_nil _, fun s e he => .inl ⟨e, he⟩⟩
  | cons p bs ih =>
    obtain ⟨b, hb, h⟩ := Option.bind_eq_some_iff.1 h
    obtain ⟨hcb, hbs, hbound⟩ := ih h
    refine ⟨hcb.trans (includes_of_bind? hb), List.forall_mem_cons.2 ⟨?_, hbs⟩, ?_⟩
    · obtain ⟨f, hf, hfe⟩ := get?_of_bind? hb
      obtain ⟨g, hg, hgf⟩ := hcb p.1 f hf
      exact ⟨g, hg, hgf.trans hfe⟩
    · intro s e he
      rcases hbound s e he with ⟨d, hd⟩ | ⟨d, hd⟩
      · rcases bind?_cases hb with ⟨-, -, -, rfl⟩ | ⟨-, hget, -⟩
        · exact .inl ⟨d, hd⟩
        · rw [hget] at hd
          split at hd
          · next hps => exact .inr ⟨p.2, by rw [← hps]; exact List.mem_cons_self⟩
          · exact .inl ⟨d, hd⟩
      · exact .inr ⟨d, List.mem_cons_of_mem _ hd⟩

theorem joins_of_merge? (hb : b.Single) (h : a.merge? b = some c) : Joins a b c := by
  obtain ⟨hleft, hright, hbound⟩ := bindAll?_spec h
  refine ⟨hleft, fun s e he => hright (s, e) (exists_mem_of_get? he), fun s e he => ?_⟩
  exact (hbound s e he).imp_right fun ⟨d, hd⟩ => ⟨d, hb (s, d) hd⟩

theorem Joins.of_includes (h : Joins a b c) (hcd : c.Includes d) (hdc : d.Includes c) :
    Joins a b d where
  left := hdc.trans h.left
  right := hdc.trans h.right
  bound s e he := by
    obtain ⟨f, hf, -⟩ := hcd s e he
    exact h.bound s f hf

/-- What an assignment includes can be merged, and stays included. -/
theorem exists_merge? (hb : b.Single) (hda : d.Includes a) (hdb : d.Includes b) :
    ∃ c, a.merge? b = some c ∧ d.Includes c := by
  have hbs : ∀ p ∈ b.bindings, ∃ f, d.get? p.1 = some f ∧ Alike f p.2 :=
    fun p hp => hdb p.1 p.2 (hb p hp)
  rw [merge?]
  generalize b.bindings = bs at hbs ⊢
  clear hb hdb
  induction bs generalizing a with
  | nil => exact ⟨a, rfl, hda⟩
  | cons p bs ih =>
    obtain ⟨⟨f, hf, hfe⟩, hbs⟩ := List.forall_mem_cons.1 hbs
    obtain ⟨c, hc, hdc⟩ := exists_bind? hda hf hfe
    obtain ⟨c', hc', hdc'⟩ := ih hdc hbs
    exact ⟨c', by rw [bindAll?, hc]; exact hc', hdc'⟩

theorem includes_of_same (h : a.same b = true) : a.Includes b ∧ b.Includes a := by
  rw [same, Bool.and_eq_true, beq_iff_eq, sameAll_eq_allAlike, allAlike_iff] at h
  obtain ⟨hkeys, hvals⟩ := h
  obtain ⟨as⟩ := a
  obtain ⟨bs⟩ := b
  simp only at hkeys hvals
  induction as generalizing bs with
  | nil =>
    rw [List.map_nil, eq_comm, List.map_eq_nil_iff] at hkeys
    subst hkeys
    exact ⟨.refl _, .refl _⟩
  | cons p as ih =>
    cases bs with
    | nil => cases hkeys
    | cons q bs =>
      simp only [List.map_cons, List.cons.injEq, List.forall₂_cons] at hkeys hvals
      obtain ⟨hab, hba⟩ := ih bs hkeys.2 hvals.2
      constructor
      · intro s e he
        rw [get?_cons] at he ⊢
        rw [hkeys.1]
        split at he
        · next hs =>
          cases he
          exact ⟨p.2, if_pos hs, hvals.1⟩
        · next hs =>
          rw [if_neg hs]
          exact hab s e he
      · intro s e he
        rw [get?_cons] at he ⊢
        rw [← hkeys.1]
        split at he
        · next hs =>
          cases he
          exact ⟨q.2, if_pos hs, hvals.1.symm⟩
        · next hs =>
          rw [if_neg hs]
          exact hba s e he

end Assignment

namespace AssignmentSet

open Assignment

variable {s t : AssignmentSet} {a b c d : Assignment}

/-- Every symbol has one value in each assignment. -/
def Single (s : AssignmentSet) : Prop := ∀ a ∈ s.results, a.Single

theorem isNone_eq_true : s.isNone = true ↔ s.results = [] := List.isEmpty_iff

theorem isAll_eq_true (h : s.isAll = true) : s.results = [.empty] := by
  rw [isAll] at h
  split at h
  · next a ha =>
    rw [ha, List.cons.injEq]
    exact ⟨congrArg Assignment.mk (List.isEmpty_iff.1 h), rfl⟩
  · cases h

theorem exists_mem_ofList {as : List Assignment} (ha : a ∈ as) :
    ∃ b ∈ (ofList as).results, a.Includes b ∧ b.Includes a := by
  have hrefl (a : Assignment) : a.same a = true := by
    rw [Assignment.same, Bool.and_eq_true, beq_self_eq_true, sameAll_eq_allAlike]
    exact ⟨rfl, allAlike_refl _⟩
  obtain ⟨b, hb, hab⟩ : ∃ b ∈ (ofList as).results, a.same b = true := exists_mem_distinct hrefl ha
  exact ⟨b, hb, includes_of_same hab⟩

theorem joins_empty_left (b : Assignment) : Joins .empty b b :=
  ⟨includes_empty b, .refl b, fun _ e he => .inr ⟨e, he⟩⟩

theorem joins_empty_right (a : Assignment) : Joins a .empty a :=
  ⟨.refl a, includes_empty a, fun _ e he => .inl ⟨e, he⟩⟩

theorem joins_of_mem_inter (ht : t.Single) (hc : c ∈ (s.inter t).results) :
    ∃ a ∈ s.results, ∃ b ∈ t.results, Joins a b c := by
  rw [inter] at hc
  split at hc
  · cases hc
  split at hc
  · next hs =>
    refine ⟨.empty, ?_, c, hc, joins_empty_left c⟩
    rw [isAll_eq_true hs]
    exact List.mem_cons_self
  split at hc
  · next ht =>
    refine ⟨c, hc, .empty, ?_, joins_empty_right c⟩
    rw [isAll_eq_true ht]
    exact List.mem_cons_self
  · obtain ⟨a, ha, hc⟩ := List.mem_flatMap.1 (mem_of_mem_distinctFrom c hc)
    obtain ⟨b, hb, hc⟩ := List.mem_filterMap.1 hc
    exact ⟨a, ha, b, hb, joins_of_merge? (ht b hb) hc⟩

theorem Single.inter (hs : s.Single) (ht : t.Single) : (s.inter t).Single := by
  intro c hc
  rw [AssignmentSet.inter] at hc
  split at hc
  · cases hc
  split at hc
  · exact ht c hc
  split at hc
  · exact hs c hc
  · obtain ⟨a, ha, hc⟩ := List.mem_flatMap.1 (mem_of_mem_distinctFrom c hc)
    obtain ⟨b, -, hc⟩ := List.mem_filterMap.1 hc
    exact (hs a ha).bindAll? hc

/-- Where an assignment includes one of each set, it includes one that they are joined in. -/
theorem exists_mem_inter (ht : t.Single) (ha : a ∈ s.results) (hb : b ∈ t.results)
    (hda : d.Includes a) (hdb : d.Includes b) :
    ∃ c ∈ (s.inter t).results, Joins a b c ∧ d.Includes c := by
  rw [inter]
  split
  · next h =>
    rw [Bool.or_eq_true, isNone_eq_true, isNone_eq_true] at h
    rcases h with h | h
    · rw [h] at ha
      cases ha
    · rw [h] at hb
      cases hb
  split
  · next hs =>
    rw [isAll_eq_true hs, List.mem_singleton] at ha
    subst ha
    exact ⟨b, hb, joins_empty_left b, hdb⟩
  split
  · next htall =>
    rw [isAll_eq_true htall, List.mem_singleton] at hb
    subst hb
    exact ⟨a, ha, joins_empty_right a, hda⟩
  · obtain ⟨c, hc, hdc⟩ := exists_merge? (ht b hb) hda hdb
    have hmem : c ∈ s.results.flatMap fun a => t.results.filterMap a.merge? :=
      List.mem_flatMap.2 ⟨a, ha, List.mem_filterMap.2 ⟨b, hb, hc⟩⟩
    obtain ⟨c', hc', hcc', hc'c⟩ := exists_mem_ofList hmem
    exact ⟨c', hc', (joins_of_merge? (ht b hb) hc).of_includes hcc' hc'c, hdc.trans hcc'⟩

end AssignmentSet

end Symbolic
