import Mathlib.Algebra.BigOperators.Group.List.Lemmas
import Mathlib.Algebra.Group.TypeTags.Basic
import Mathlib.Tactic.Abel
import Symbolic.Expr.Gather

/-!
What the groups of a list hold. `groupAll` adds the elements one after another, so what holds of a
new group and stays when a group takes one more element holds of all groups (`forall_groupAll`).

A group starts with its first element and takes the elements of an equal base
(`groupAll_first`, `groupAll_parts`). Nothing is lost on the way: whatever is added up over the
elements is added up over the groups (`sum_groupAll`). The elements stand alone in their groups
exactly if no two of them have equal bases (`apart_iff`).
-/

namespace Symbolic.Expr

variable {α : Type} {split : Expr → Expr × α}

def single (split : Expr → Expr × α) (e : Expr) : Group α := ⟨(split e).1, e, [(split e).2]⟩

theorem Group.insert_cases (e base : Expr) (part : α) (gs : List (Group α)) :
    (∃ us g vs, gs = us ++ g :: vs ∧ g.base.alike base = true ∧
        insert e base part gs = us ++ g.add part :: vs) ∨
      (∀ g ∈ gs, g.base.alike base = false) ∧ insert e base part gs = gs ++ [⟨base, e, [part]⟩] := by
  induction gs with
  | nil => exact .inr ⟨by simp, rfl⟩
  | cons g gs ih =>
    rw [insert, same_eq_alike]
    by_cases hg : g.base.alike base = true
    · rw [if_pos hg]
      exact .inl ⟨[], g, gs, rfl, hg, rfl⟩
    · rw [if_neg hg]
      rcases ih with ⟨us, g', vs, rfl, hb, h⟩ | ⟨hn, h⟩
      · exact .inl ⟨g :: us, g', vs, rfl, hb, by rw [h, List.cons_append]⟩
      · refine .inr ⟨?_, by rw [h, List.cons_append]⟩
        intro g' hg'
        rcases List.mem_cons.1 hg' with rfl | hg'
        · exact Bool.not_eq_true _ ▸ hg
        · exact hn g' hg'

theorem groupAll_concat (es : List Expr) (e : Expr) :
    groupAll split (es ++ [e]) = Group.insert e (split e).1 (split e).2 (groupAll split es) := by
  rw [groupAll, List.foldl_concat]
  rfl

/-- What holds of every new group, and stays when a group takes an element of its base, holds of
all groups. -/
theorem forall_groupAll {P : Group α → Prop} {es : List Expr} (hnew : ∀ e ∈ es, P (single split e))
    (hadd : ∀ g, ∀ e ∈ es, P g → g.base.alike (split e).1 = true → P (g.add (split e).2)) :
    ∀ g ∈ groupAll split es, P g := by
  induction es using List.reverseRecOn with
  | nil => intro g hg; cases hg
  | append_singleton es e ih =>
    have he : e ∈ es ++ [e] := by simp
    have hes : ∀ g ∈ groupAll split es, P g :=
      ih (fun x hx => hnew x (List.mem_append_left _ hx))
        (fun g x hx => hadd g x (List.mem_append_left _ hx))
    -- the last element went to a group that was there, or opened one
    rw [groupAll_concat]
    rcases Group.insert_cases e (split e).1 (split e).2 (groupAll split es) with
      ⟨us, g, vs, hgs, hb, h⟩ | ⟨_, h⟩
    · rw [h]
      rw [hgs] at hes
      intro g' hg'
      simp only [List.mem_append, List.mem_cons] at hes hg'
      rcases hg' with hu | rfl | hv
      · exact hes g' (.inl hu)
      · exact hadd g e he (hes g (.inr (.inl rfl))) hb
      · exact hes g' (.inr (.inr hv))
    · rw [h]
      intro g' hg'
      rcases List.mem_append.1 hg' with hg' | hg'
      · exact hes g' hg'
      · rw [List.mem_singleton.1 hg']
        exact hnew e he

/-- A group starts with its first element and has the base of that. -/
theorem groupAll_first {es : List Expr} {g : Group α} (hg : g ∈ groupAll split es) :
    g.first ∈ es ∧ g.base = (split g.first).1 ∧ ∃ ps, g.parts = (split g.first).2 :: ps := by
  refine forall_groupAll (P := fun g => g.first ∈ es ∧ g.base = (split g.first).1 ∧
    ∃ ps, g.parts = (split g.first).2 :: ps) ?_ ?_ g hg
  · intro e he
    exact ⟨he, rfl, [], rfl⟩
  · rintro g e - ⟨hf, hb, ps, hps⟩ -
    exact ⟨hf, hb, ps ++ [(split e).2], by rw [Group.add, hps]; rfl⟩

theorem groupAll_parts {es : List Expr} {g : Group α} (hg : g ∈ groupAll split es) :
    ∀ p ∈ g.parts, ∃ e ∈ es, p = (split e).2 ∧ g.base.alike (split e).1 = true := by
  refine forall_groupAll (P := fun g => ∀ p ∈ g.parts, ∃ e ∈ es, p = (split e).2 ∧
    g.base.alike (split e).1 = true) ?_ ?_ g hg
  · intro e he p hp
    exact ⟨e, he, List.mem_singleton.1 hp, alike_refl _⟩
  · intro g e he ih hb p hp
    rcases List.mem_append.1 hp with hp | hp
    · exact ih p hp
    · exact ⟨e, he, List.mem_singleton.1 hp, hb⟩

/-- What is added up over the elements is added up over the groups. -/
theorem sum_groupAll {M : Type} [AddCommMonoid M] (F : Expr → α → M) (es : List Expr)
    (hF : ∀ b c, b.alike c = true → F b = F c) :
    ((groupAll split es).map fun g => (g.parts.map (F g.base)).sum).sum =
      (es.map fun e => F (split e).1 (split e).2).sum := by
  induction es using List.reverseRecOn with
  | nil => rfl
  | append_singleton es e ih =>
    rw [groupAll_concat, List.map_append, List.sum_append, ← ih]
    rcases Group.insert_cases e (split e).1 (split e).2 (groupAll split es) with
      ⟨us, g, vs, hgs, hb, h⟩ | ⟨_, h⟩
    · rw [h, hgs]
      -- the bases are equal, so the part counts in the group what it counts alone
      simp only [List.map_append, List.map_cons, List.sum_append, List.sum_cons, Group.add,
        List.map_nil, List.sum_nil, add_zero, hF _ _ hb]
      abel
    · rw [h]
      simp

/-- What is multiplied over the elements is multiplied over the groups. -/
theorem prod_groupAll {M : Type} [CommMonoid M] (F : Expr → α → M) (es : List Expr)
    (hF : ∀ b c, b.alike c = true → F b = F c) :
    ((groupAll split es).map fun g => (g.parts.map (F g.base)).prod).prod =
      (es.map fun e => F (split e).1 (split e).2).prod :=
  sum_groupAll (M := Additive M) F es hF

/-- No two elements have equal bases. -/
def Apart (split : Expr → Expr × α) (es : List Expr) : Prop :=
  es.Pairwise fun a b => (split a).1.alike (split b).1 = false

instance (split : Expr → Expr × α) (es : List Expr) : Decidable (Apart split es) :=
  inferInstanceAs (Decidable (List.Pairwise _ _))

theorem groupAll_of_apart {es : List Expr} (h : Apart split es) :
    groupAll split es = es.map (single split) := by
  induction es using List.reverseRecOn with
  | nil => rfl
  | append_singleton es e ih =>
    obtain ⟨hes, -, he⟩ := List.pairwise_append.1 h
    rw [groupAll_concat, List.map_append, ih hes]
    rcases Group.insert_cases e (split e).1 (split e).2 (es.map (single split)) with
      ⟨us, g, vs, hgs, hb, _⟩ | ⟨_, h⟩
    -- no group has a base equal to that of `e`
    · have hg : g ∈ es.map (single split) := by simp [hgs]
      obtain ⟨x, hx, rfl⟩ := List.mem_map.1 hg
      have := he x hx e (by simp)
      exact absurd hb (by simpa [single] using this)
    · rw [h]
      rfl

/-- No two elements have equal bases exactly if each stands alone in its group. -/
theorem apart_iff (es : List Expr) :
    Apart split es ↔ ∀ g ∈ groupAll split es, g.parts.length = 1 := by
  constructor
  · intro h g hg
    rw [groupAll_of_apart h] at hg
    obtain ⟨e, _, rfl⟩ := List.mem_map.1 hg
    rfl
  induction es using List.reverseRecOn with
  | nil => exact fun _ => List.Pairwise.nil
  | append_singleton es e ih =>
    rw [groupAll_concat]
    rcases Group.insert_cases e (split e).1 (split e).2 (groupAll split es) with
      ⟨us, g, vs, hgs, _, h⟩ | ⟨hn, h⟩
    · -- the group that took `e` had an element before
      intro hl
      have hg : g ∈ groupAll split es := by simp [hgs]
      obtain ⟨ps, hps⟩ := (groupAll_first hg).2.2
      have := hl (g.add (split e).2) (by simp [h])
      simp [Group.add, hps] at this
    · intro hl
      have hes : Apart split es := ih fun g hg => hl g (by simp [h, hg])
      refine List.pairwise_append.2 ⟨hes, List.pairwise_singleton _ _, ?_⟩
      intro x hx y hy
      rw [List.mem_singleton.1 hy]
      refine hn (single split x) ?_
      rw [groupAll_of_apart hes]
      exact List.mem_map_of_mem hx

end Symbolic.Expr
