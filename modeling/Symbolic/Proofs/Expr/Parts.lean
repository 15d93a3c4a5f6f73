import Mathlib.Algebra.BigOperators.Group.List.Lemmas
import Mathlib.Algebra.Field.Rat
import Mathlib.Algebra.Group.TypeTags.Basic
import Mathlib.Algebra.GroupWithZero.Nat
import Mathlib.Data.List.Forall2
import Symbolic.Expr.Canonical

/-!
What the constructors take apart, and what they put together again: the constants of a list and the
rest of it, the first constant of a product, the results of the groups, the constant at the end.
-/

namespace Symbolic

theorem forall₂_of_mapM {α β : Type} {f : α → Option β} {xs : List α} {ys : List β}
    (h : xs.mapM f = some ys) : List.Forall₂ (fun x y => f x = some y) xs ys := by
  induction xs generalizing ys with
  | nil =>
    simp only [List.mapM_nil, Option.pure_def, Option.some.injEq] at h
    exact h ▸ .nil
  | cons x xs ih =>
    simp only [List.mapM_cons, Option.bind_eq_bind, Option.bind_eq_some_iff, Option.pure_def,
      Option.some.injEq] at h
    obtain ⟨y, hy, ys, hys, rfl⟩ := h
    exact .cons hy (ih hys)

theorem exists_mapM {α β : Type} {f : α → Option β} {R : α → β → Prop} {xs : List α}
    (h : ∀ x ∈ xs, ∃ y, f x = some y ∧ R x y) :
    ∃ ys, xs.mapM f = some ys ∧ List.Forall₂ R xs ys := by
  induction xs with
  | nil => exact ⟨[], rfl, .nil⟩
  | cons x xs ih =>
    obtain ⟨y, hy, hxy⟩ := h x List.mem_cons_self
    obtain ⟨ys, hys, hr⟩ := ih fun z hz => h z (List.mem_cons_of_mem _ hz)
    exact ⟨y :: ys, by simp [List.mapM_cons, hy, hys], .cons hxy hr⟩

theorem exists_cons_cons_of_two_le {α : Type} {xs : List α} (h : 2 ≤ xs.length) :
    ∃ x y ys, xs = x :: y :: ys := by
  obtain ⟨x, rest, rfl⟩ := List.exists_cons_of_length_pos (by omega : 0 < xs.length)
  have hrest : 0 < rest.length := by
    rw [List.length_cons] at h
    omega
  obtain ⟨y, ys, rfl⟩ := List.exists_cons_of_length_pos hrest
  exact ⟨x, y, ys, rfl⟩

/-- Sums over lists that belong together agree if they do place by place. -/
theorem sum_map_eq_of_forall₂ {α β M : Type} [AddCommMonoid M] {R : α → β → Prop} {f : α → M}
    {g : β → M} {xs : List α} {ys : List β} (h : List.Forall₂ R xs ys)
    (hfg : ∀ x ∈ xs, ∀ y, R x y → f x = g y) : (xs.map f).sum = (ys.map g).sum := by
  induction h with
  | nil => rfl
  | cons hxy _ ih =>
    rw [List.map_cons, List.map_cons, List.sum_cons, List.sum_cons,
      hfg _ List.mem_cons_self _ hxy, ih fun x hx => hfg x (List.mem_cons_of_mem _ hx)]

theorem prod_map_eq_of_forall₂ {α β M : Type} [CommMonoid M] {R : α → β → Prop} {f : α → M}
    {g : β → M} {xs : List α} {ys : List β} (h : List.Forall₂ R xs ys)
    (hfg : ∀ x ∈ xs, ∀ y, R x y → f x = g y) : (xs.map f).prod = (ys.map g).prod :=
  sum_map_eq_of_forall₂ (M := Additive M) h hfg

theorem sum_le_of_forall₂ {α β : Type} {R : α → β → Prop} {f : α → Nat} {g : β → Nat}
    {xs : List α} {ys : List β} (h : List.Forall₂ R xs ys) (hle : ∀ x y, R x y → g y ≤ f x) :
    (ys.map g).sum ≤ (xs.map f).sum := by
  induction h with
  | nil => exact Nat.le_refl 0
  | cons hxy _ ih =>
    have := hle _ _ hxy
    simp only [List.map_cons, List.sum_cons]
    omega

/-- What is smaller place by place and not smaller together is equal at every place. -/
theorem forall₂_eq_of_sum_le {α β : Type} {R : α → β → Prop} {f : α → Nat} {g : β → Nat}
    {xs : List α} {ys : List β} (h : List.Forall₂ R xs ys) (hle : ∀ x y, R x y → g y ≤ f x)
    (hs : (xs.map f).sum ≤ (ys.map g).sum) :
    List.Forall₂ (fun x y => R x y ∧ g y = f x) xs ys := by
  induction h with
  | nil => exact .nil
  | cons hxy ht ih =>
    have hx := hle _ _ hxy
    have hrest := sum_le_of_forall₂ ht hle
    simp only [List.map_cons, List.sum_cons] at hs
    exact .cons ⟨hxy, by omega⟩ (ih (by omega))

theorem exists_of_forall₂_mem {α β : Type} {R : α → β → Prop} {xs : List α} {ys : List β}
    (h : List.Forall₂ R xs ys) : ∀ y ∈ ys, ∃ x ∈ xs, R x y := by
  induction h with
  | nil => intro y hy; cases hy
  | cons hxy _ ih =>
    intro y hy
    rcases List.mem_cons.1 hy with rfl | hy
    · exact ⟨_, List.mem_cons_self, hxy⟩
    · obtain ⟨x, hx, hr⟩ := ih y hy
      exact ⟨x, List.mem_cons_of_mem _ hx, hr⟩

/-- Where the elements of a list give way to something, that is what is left of them. -/
theorem forall_mem_of_mapM {α β : Type} {f : α → Option (Option β)} {P : β → Prop} {xs : List α}
    {rs : List (Option β)} (h : xs.mapM f = some rs)
    (hf : ∀ x ∈ xs, ∀ {d}, f x = some (some d) → P d) : ∀ d ∈ rs.filterMap id, P d := by
  intro d hd
  obtain ⟨r, hr, rfl⟩ := List.mem_filterMap.1 hd
  obtain ⟨x, hx, hxr⟩ := exists_of_forall₂_mem (forall₂_of_mapM h) _ hr
  exact hf x hx hxr

theorem sum_map_filterMap_id {β M : Type} [AddCommMonoid M] (f : β → M) (rs : List (Option β)) :
    ((rs.filterMap id).map f).sum = (rs.map fun r => r.elim 0 f).sum := by
  induction rs with
  | nil => rfl
  | cons r rs ih =>
    cases r with
    | none => simpa using ih
    | some b => simpa using congrArg (f b + ·) ih

theorem prod_map_filterMap_id {β M : Type} [CommMonoid M] (f : β → M) (rs : List (Option β)) :
    ((rs.filterMap id).map f).prod = (rs.map fun r => r.elim 1 f).prod :=
  sum_map_filterMap_id (M := Additive M) f rs

/-- Adding up over the pieces of each element is adding up over the elements. -/
theorem sum_map_flatMap {α β M : Type} [AddCommMonoid M] {f : α → List β} {F : β → M} {G : α → M}
    {xs : List α} (h : ∀ x ∈ xs, ((f x).map F).sum = G x) :
    ((xs.flatMap f).map F).sum = (xs.map G).sum := by
  induction xs with
  | nil => rfl
  | cons x xs ih =>
    have hx := h x List.mem_cons_self
    have ih := ih fun y hy => h y (List.mem_cons_of_mem _ hy)
    calc (((x :: xs).flatMap f).map F).sum = ((f x).map F).sum + ((xs.flatMap f).map F).sum := by
          rw [List.flatMap_cons, List.map_append, List.sum_append]
      _ = ((x :: xs).map G).sum := by rw [hx, ih, List.map_cons, List.sum_cons]

theorem prod_map_flatMap {α β M : Type} [CommMonoid M] {f : α → List β} {F : β → M} {G : α → M}
    {xs : List α} (h : ∀ x ∈ xs, ((f x).map F).prod = G x) :
    ((xs.flatMap f).map F).prod = (xs.map G).prod :=
  sum_map_flatMap (M := Additive M) h

namespace Expr

theorem foldr_add (cs : List Rat) : cs.foldr (· + ·) 0 = cs.sum := List.sum_eq_foldr.symm

theorem foldr_mul (cs : List Rat) : cs.foldr (· * ·) 1 = cs.prod := List.prod_eq_foldr.symm

theorem const?_eq_some {e : Expr} {c : Rat} : e.const? = some c ↔ e = const c := by
  cases e <;> simp [const?]

theorem isConst_eq_true {e : Expr} : e.isConst = true ↔ ∃ c, e = const c := by
  cases e <;> simp [isConst]

theorem isSum_eq_true {e : Expr} : e.isSum = true ↔ ∃ ts, e = sum ts := by
  cases e <;> simp [isSum]

theorem isProduct_eq_true {e : Expr} : e.isProduct = true ↔ ∃ fs, e = product fs := by
  cases e <;> simp [isProduct]

theorem mem_constants {c : Rat} {es : List Expr} : c ∈ constants es ↔ const c ∈ es := by
  simp only [constants, List.mem_filterMap]
  constructor
  · rintro ⟨e, he, hc⟩
    cases e <;> simp only [const?, Option.some.injEq, reduceCtorEq] at hc
    exact hc ▸ he
  · exact fun h => ⟨_, h, rfl⟩

theorem mem_nonConstants {e : Expr} {es : List Expr} :
    e ∈ nonConstants es ↔ e ∈ es ∧ e.isConst = false := by
  simp [nonConstants]

theorem constants_append (es fs : List Expr) : constants (es ++ fs) = constants es ++ constants fs :=
  List.filterMap_append

theorem nonConstants_append (es fs : List Expr) :
    nonConstants (es ++ fs) = nonConstants es ++ nonConstants fs := List.filter_append es fs

theorem constants_eq_nil {es : List Expr} (h : ∀ e ∈ es, e.isConst = false) : constants es = [] := by
  rw [List.eq_nil_iff_forall_not_mem]
  intro c hc
  simpa [isConst] using h _ (mem_constants.1 hc)

theorem nonConstants_eq_self {es : List Expr} (h : ∀ e ∈ es, e.isConst = false) :
    nonConstants es = es := by
  simpa [nonConstants] using h

theorem constants_map_const (cs : List Rat) : constants (cs.map const) = cs := by
  induction cs with
  | nil => rfl
  | cons c cs ih => exact congrArg (c :: ·) ih

theorem nonConstants_map_const (cs : List Rat) : nonConstants (cs.map const) = [] := by
  simp [nonConstants, isConst]

theorem perm_nonConstants_append (es : List Expr) :
    es.Perm (nonConstants es ++ (constants es).map const) := by
  induction es with
  | nil => exact .nil
  | cons e es ih =>
    cases e with
    | const c =>
      refine (ih.cons _).trans ?_
      exact List.perm_middle.symm
    | _ => exact ih.cons _

theorem takeConst?_eq_some {es : List Expr} {c : Rat} {rest : List Expr}
    (h : takeConst? es = some (c, rest)) : ∃ us vs, es = us ++ const c :: vs ∧ rest = us ++ vs ∧
      ∀ u ∈ us, u.isConst = false := by
  induction es generalizing rest with
  | nil => cases h
  | cons e es ih =>
    cases e with
    | const d =>
      cases h
      exact ⟨[], es, rfl, rfl, by simp⟩
    | _ =>
      obtain ⟨⟨d, r⟩, hr, hd⟩ := Option.map_eq_some_iff.1 h
      cases hd
      obtain ⟨us, vs, rfl, rfl, hus⟩ := ih hr
      exact ⟨_ :: us, vs, rfl, rfl, by simpa [isConst] using hus⟩

theorem takeConst?_eq_none {es : List Expr} (h : takeConst? es = none) :
    ∀ e ∈ es, e.isConst = false := by
  induction es with
  | nil => intro e he; cases he
  | cons e es ih =>
    cases e with
    | const d => cases h
    | _ =>
      intro x hx
      rcases List.mem_cons.1 hx with rfl | hx
      · rfl
      · exact ih (Option.map_eq_none_iff.1 h) x hx

theorem perm_of_takeConst? {es : List Expr} {c : Rat} {rest : List Expr}
    (h : takeConst? es = some (c, rest)) : es.Perm (const c :: rest) := by
  obtain ⟨us, vs, rfl, rfl, _⟩ := takeConst?_eq_some h
  exact List.perm_middle

theorem forall_withConst {P : Expr → Prop} {unit c : Rat} {es : List Expr} (h : ∀ e ∈ es, P e)
    (hc : P (const c)) : ∀ e ∈ withConst unit c es, P e := by
  intro e he
  rw [withConst] at he
  split at he
  · exact h e he
  · rcases List.mem_append.1 he with he | he
    · exact h e he
    · rw [List.mem_singleton.1 he]
      exact hc

end Expr

end Symbolic
