import Mathlib.Data.List.Perm.Basic
import Symbolic.Proofs.Expr.Parts

/-!
Lists that belong together up to their order. `Rearranged R xs ys` says that each element of `xs` has
a partner in `ys` by `R`, and each of `ys` one in `xs`. Lists whose elements differ by more than `R`
and that have partners for each other are rearranged (`rearranged_of_apart`).
-/

namespace Symbolic

variable {α β γ δ : Type}

/-- What `xs` is related to, place by place, is `ys` in some order. -/
def Rearranged (R : α → β → Prop) (xs : List α) (ys : List β) : Prop :=
  ∃ zs, List.Forall₂ R xs zs ∧ zs.Perm ys

namespace Rearranged

variable {R : α → β → Prop} {S : β → γ → Prop} {xs : List α} {ys : List β} {zs : List γ}

theorem of_forall₂ (h : List.Forall₂ R xs ys) : Rearranged R xs ys := ⟨ys, h, .refl _⟩

theorem of_perm {R : α → α → Prop} {xs ys : List α} (hR : ∀ x ∈ xs, R x x) (h : xs.Perm ys) :
    Rearranged R xs ys :=
  ⟨xs, List.forall₂_same.2 hR, h⟩

theorem nil : Rearranged R [] [] := .of_forall₂ .nil

theorem singleton {x : α} {y : β} (h : R x y) : Rearranged R [x] [y] := .of_forall₂ (.cons h .nil)

theorem cons {x : α} {y : β} (hxy : R x y) (h : Rearranged R xs ys) :
    Rearranged R (x :: xs) (y :: ys) := by
  obtain ⟨ws, hw, hp⟩ := h
  exact ⟨y :: ws, .cons hxy hw, hp.cons y⟩

theorem perm_right {ys' : List β} (h : Rearranged R xs ys) (hp : ys.Perm ys') :
    Rearranged R xs ys' := by
  obtain ⟨ws, hw, hws⟩ := h
  exact ⟨ws, hw, hws.trans hp⟩

theorem perm_left {xs' : List α} (h : Rearranged R xs ys) (hp : xs'.Perm xs) :
    Rearranged R xs' ys := by
  obtain ⟨ws, hw, hws⟩ := h
  obtain ⟨vs, hv, hvw⟩ := List.perm_comp_forall₂ hp hw
  exact ⟨vs, hv, hvw.trans hws⟩

theorem nil_left : Rearranged R [] ys ↔ ys = [] := by
  constructor
  · rintro ⟨ws, hw, hp⟩
    cases hw
    exact hp.nil_eq.symm
  · rintro rfl
    exact nil

/-- The partner of the first element is taken out of the other list. -/
theorem cons_left {x : α} :
    Rearranged R (x :: xs) ys ↔
      ∃ us y vs, ys = us ++ y :: vs ∧ R x y ∧ Rearranged R xs (us ++ vs) := by
  constructor
  · rintro ⟨_, hw, hp⟩
    cases hw with
    | @cons _ y _ ws hxy hw =>
      obtain ⟨us, vs, rfl⟩ := List.append_of_mem (hp.mem_iff.1 List.mem_cons_self)
      exact ⟨us, y, vs, rfl, hxy, ws, hw, (hp.trans List.perm_middle).cons_inv⟩
  · rintro ⟨us, y, vs, rfl, hxy, h⟩
    exact (h.cons hxy).perm_right List.perm_middle.symm

/-- A partner that stands somewhere, and what may stand in the two places. -/
theorem exists_replaced {x : α} {us vs : List α} (h : Rearranged R (us ++ x :: vs) ys) :
    ∃ us' y vs', ys = us' ++ y :: vs' ∧ R x y ∧
      ∀ {x' y'}, R x' y' → Rearranged R (us ++ x' :: vs) (us' ++ y' :: vs') := by
  obtain ⟨us', y, vs', rfl, hxy, hrest⟩ := cons_left.1 (h.perm_left List.perm_middle.symm)
  refine ⟨us', y, vs', rfl, hxy, fun hxy' => ?_⟩
  exact ((hrest.cons hxy').perm_left List.perm_middle).perm_right List.perm_middle.symm

theorem symm (h : Rearranged R xs ys) : Rearranged (fun y x => R x y) ys xs := by
  obtain ⟨ws, hw, hp⟩ := h
  exact perm_left (.of_forall₂ hw.flip) hp.symm

/-- Any partner of the first element can be taken out, if elements that share a partner share all. -/
theorem of_cons {x : α} {us vs : List β} {y : β} (h : Rearranged R (x :: xs) (us ++ y :: vs))
    (hR : ∀ x' ∈ xs, ∀ y', R x y' → R x' y → R x' y') : Rearranged R xs (us ++ vs) := by
  -- the partner of `y` is `x`, or some other element that takes over the partner of `x`
  have hy := (h.perm_right List.perm_middle).symm
  obtain ⟨ps, p, qs, hps, hpy, hrest⟩ := cons_left.1 hy
  cases ps with
  | nil =>
    cases hps
    exact hrest.symm
  | cons x' ps =>
    obtain ⟨rfl, rfl⟩ := List.cons.inj hps
    obtain ⟨us', y', vs', heq, hxy', hrest⟩ := cons_left.1 hrest.symm
    have hpy' : R p y' := hR p (by simp) y' hxy' hpy
    exact (cons_left.2 ⟨us', y', vs', heq, hpy', hrest⟩).perm_left List.perm_middle

theorem trans (h : Rearranged R xs ys) (h' : Rearranged S ys zs) :
    Rearranged (fun x z => ∃ y ∈ ys, R x y ∧ S y z) xs zs := by
  obtain ⟨ws, hw, hp⟩ := h
  obtain ⟨vs, hv, hq⟩ := h'.perm_left hp
  have hmem : ∀ y ∈ ws, y ∈ ys := fun y hy => hp.mem_iff.1 hy
  refine ⟨vs, ?_, hq⟩
  clear hp hq
  induction hw generalizing vs with
  | nil =>
    cases hv
    exact .nil
  | cons hxy _ ih =>
    obtain ⟨hy, hmem⟩ := List.forall_mem_cons.1 hmem
    cases hv with
    | cons hyz hv => exact .cons ⟨_, hy, hxy, hyz⟩ (ih _ hv hmem)

theorem length_eq (h : Rearranged R xs ys) : xs.length = ys.length := by
  obtain ⟨ws, hw, hp⟩ := h
  rw [hw.length_eq, hp.length_eq]

/-- Both lists are empty, or they have one element each, or more. -/
theorem induction_length {motive : List α → List β → Prop} (nil : motive [] [])
    (one : ∀ {x y}, R x y → motive [x] [y])
    (more : ∀ {x x' y y' xs ys}, Rearranged R (x :: x' :: xs) (y :: y' :: ys) →
      motive (x :: x' :: xs) (y :: y' :: ys))
    (h : Rearranged R xs ys) : motive xs ys := by
  match xs, ys, h.length_eq, h with
  | [], [], _, _ => exact nil
  | [x], [y], _, ⟨_, hxy, hp⟩ =>
    cases List.perm_singleton.1 hp
    exact one (List.forall₂_cons.1 hxy).1
  | _ :: _ :: _, _ :: _ :: _, _, h => exact more h

theorem singleton_right {y : β} (h : Rearranged R xs [y]) : ∃ x, xs = [x] ∧ R x y := by
  obtain ⟨zs, hz, hp⟩ := h
  rw [List.perm_singleton.1 hp] at hz
  cases hz with
  | cons hxy hnil =>
    cases hnil
    exact ⟨_, rfl, hxy⟩

theorem exists_right (h : Rearranged R xs ys) : ∀ y ∈ ys, ∃ x ∈ xs, R x y := by
  obtain ⟨ws, hw, hp⟩ := h
  exact fun y hy => exists_of_forall₂_mem hw y (hp.mem_iff.2 hy)

theorem exists_left (h : Rearranged R xs ys) : ∀ x ∈ xs, ∃ y ∈ ys, R x y := h.symm.exists_right

theorem imp {T : α → β → Prop} (h : Rearranged R xs ys)
    (hRT : ∀ x ∈ xs, ∀ y ∈ ys, R x y → T x y) : Rearranged T xs ys := by
  obtain ⟨ws, hw, hp⟩ := h
  have hmem : ∀ y ∈ ws, y ∈ ys := fun y hy => hp.mem_iff.1 hy
  refine ⟨ws, ?_, hp⟩
  clear hp
  induction hw with
  | nil => exact .nil
  | cons hxy _ ih =>
    refine .cons (hRT _ List.mem_cons_self _ (hmem _ List.mem_cons_self) hxy) (ih ?_ ?_)
    · exact fun x hx y hy => hRT x (List.mem_cons_of_mem _ hx) y hy
    · exact fun y hy => hmem y (List.mem_cons_of_mem _ hy)

theorem append {xs' : List α} {ys' : List β} (h : Rearranged R xs ys)
    (h' : Rearranged R xs' ys') : Rearranged R (xs ++ xs') (ys ++ ys') := by
  obtain ⟨ws, hw, hp⟩ := h
  obtain ⟨vs, hv, hq⟩ := h'
  exact ⟨ws ++ vs, List.rel_append hw hv, hp.append hq⟩

theorem flatten {xss : List (List α)} {yss : List (List β)}
    (h : List.Forall₂ (Rearranged R) xss yss) : Rearranged R xss.flatten yss.flatten := by
  induction h with
  | nil => exact nil
  | cons hxy _ ih => exact hxy.append ih

theorem flatMap {T : γ → δ → Prop} {f : α → List γ} {g : β → List δ} (h : Rearranged R xs ys)
    (hfg : ∀ x ∈ xs, ∀ y ∈ ys, R x y → Rearranged T (f x) (g y)) :
    Rearranged T (xs.flatMap f) (ys.flatMap g) := by
  obtain ⟨ws, hw, hp⟩ := h.imp hfg
  refine perm_right ?_ (hp.flatMap_right g)
  rw [List.flatMap_def, List.flatMap_def]
  refine flatten ?_
  rwa [List.forall₂_map_left_iff, List.forall₂_map_right_iff]

theorem map {T : γ → δ → Prop} {f : α → γ} {g : β → δ} (h : Rearranged R xs ys)
    (hfg : ∀ x ∈ xs, ∀ y ∈ ys, R x y → T (f x) (g y)) : Rearranged T (xs.map f) (ys.map g) := by
  rw [List.map_eq_flatMap, List.map_eq_flatMap]
  exact h.flatMap fun x hx y hy hxy => singleton (hfg x hx y hy hxy)

theorem filter {p : α → Bool} {q : β → Bool} (h : Rearranged R xs ys)
    (hpq : ∀ x ∈ xs, ∀ y ∈ ys, R x y → p x = q y) :
    Rearranged R (xs.filter p) (ys.filter q) := by
  obtain ⟨ws, hw, hp⟩ := h.imp (T := fun x y => R x y ∧ p x = q y)
    fun x hx y hy hxy => ⟨hxy, hpq x hx y hy hxy⟩
  refine ⟨ws.filter q, ?_, hp.filter q⟩
  exact (List.rel_filter (fun x y hxy => Bool.eq_iff_iff.1 hxy.2) hw).imp fun _ _ hxy => hxy.1

theorem perm_map {f : α → γ} {g : β → γ} (h : Rearranged R xs ys)
    (hfg : ∀ x ∈ xs, ∀ y ∈ ys, R x y → f x = g y) : (xs.map f).Perm (ys.map g) := by
  obtain ⟨ws, hw, hp⟩ := h.map hfg
  rw [List.forall₂_eq_eq_eq] at hw
  rwa [hw]

theorem any_eq {p : α → Bool} {q : β → Bool} (h : Rearranged R xs ys)
    (hpq : ∀ x ∈ xs, ∀ y ∈ ys, R x y → p x = q y) : xs.any p = ys.any q := by
  have hp := (h.perm_map hpq).any_eq (f := id)
  rwa [List.any_map, List.any_map] at hp

/-- Where the elements of one list have results, so have their partners in the other. -/
theorem mapM {T : γ → δ → Prop} {f : α → Option γ} {g : β → Option δ} {us : List γ}
    (h : Rearranged R xs ys)
    (hfg : ∀ x ∈ xs, ∀ y ∈ ys, R x y → ∀ u, f x = some u → ∃ v, g y = some v ∧ T u v)
    (hm : xs.mapM f = some us) : ∃ vs, ys.mapM g = some vs ∧ Rearranged T us vs := by
  have hu : Rearranged (fun u y => ∃ v, g y = some v ∧ T u v) us ys := by
    refine ((of_forall₂ (forall₂_of_mapM hm)).symm.trans h).imp ?_
    rintro u - y hy ⟨x, hx, hxu, hxy⟩
    exact hfg x hx y hy hxy u hxu
  obtain ⟨vs, hvs, hv⟩ := exists_mapM (R := fun _ _ => True) (f := g) fun y hy => by
    obtain ⟨u, -, v, hv, -⟩ := hu.exists_right y hy
    exact ⟨v, hv, trivial⟩
  refine ⟨vs, hvs, (hu.trans (of_forall₂ (forall₂_of_mapM hvs))).imp ?_⟩
  rintro u - v - ⟨y, -, ⟨v', hv', huv⟩, hyv⟩
  rw [hv', Option.some.injEq] at hyv
  exact hyv ▸ huv

theorem filterMap_id {us : List (Option α)} {vs : List (Option β)}
    (h : Rearranged (Option.Rel R) us vs) :
    Rearranged R (us.filterMap id) (vs.filterMap id) := by
  rw [List.filterMap_eq_flatMap_toList, List.filterMap_eq_flatMap_toList]
  refine h.flatMap fun u _ v _ huv => ?_
  cases huv with
  | none => exact nil
  | some hxy => exact singleton hxy

/-- The partners of the first elements, and the partners of the others. -/
theorem exists_append {xs' : List α} (h : Rearranged R (xs ++ xs') ys) :
    ∃ us vs, ys.Perm (us ++ vs) ∧ Rearranged R xs us ∧ Rearranged R xs' vs := by
  obtain ⟨zs, hz, hp⟩ := h
  have htake := (List.forall₂_take_append zs xs xs' hz.flip).flip
  have hdrop := (List.forall₂_drop_append zs xs xs' hz.flip).flip
  refine ⟨_, _, ?_, of_forall₂ htake, of_forall₂ hdrop⟩
  rw [List.take_append_drop]
  exact hp.symm

end Rearranged

/-- Lists whose elements have partners in each other, and no two of them the same one. -/
theorem rearranged_of_apart {R : α → β → Prop} {xs : List α} {ys : List β}
    (hxs : xs.Pairwise fun x x' => ∀ y, R x y → ¬ R x' y)
    (hys : ys.Pairwise fun y y' => ∀ x, R x y → ¬ R x y')
    (hl : ∀ x ∈ xs, ∃ y ∈ ys, R x y) (hr : ∀ y ∈ ys, ∃ x ∈ xs, R x y) : Rearranged R xs ys := by
  induction xs generalizing ys with
  | nil =>
    cases ys with
    | nil => exact .nil
    | cons y ys =>
      obtain ⟨x, hx, -⟩ := hr y List.mem_cons_self
      cases hx
  | cons x xs ih =>
    obtain ⟨hx, hxs⟩ := List.pairwise_cons.1 hxs
    obtain ⟨y, hy, hxy⟩ := hl x List.mem_cons_self
    obtain ⟨us, vs, rfl⟩ := List.append_of_mem hy
    refine Rearranged.cons_left.2 ⟨us, y, vs, rfl, hxy, ih hxs ?_ ?_ ?_⟩
    · exact hys.sublist ((List.sublist_cons_self y vs).append_left us)
    · intro x' hx'
      obtain ⟨y', hy', hxy'⟩ := hl x' (List.mem_cons_of_mem _ hx')
      rcases List.mem_append.1 hy' with hy' | hy'
      · exact ⟨y', List.mem_append_left _ hy', hxy'⟩
      rcases List.mem_cons.1 hy' with rfl | hy'
      · exact absurd hxy' (hx x' hx' _ hxy)
      · exact ⟨y', List.mem_append_right _ hy', hxy'⟩
    · intro y' hy'
      have hmem : y' ∈ us ++ y :: vs :=
        ((List.sublist_cons_self y vs).append_left us).subset hy'
      obtain ⟨x', hx', hxy'⟩ := hr y' hmem
      rcases List.mem_cons.1 hx' with rfl | hx'
      · -- `y` and `y'` are different places of the list, so they cannot both be partners of `x`
        exfalso
        have hpair := List.pairwise_append.1 hys
        rcases List.mem_append.1 hy' with hu | hv
        · exact hpair.2.2 y' hu y List.mem_cons_self _ hxy' hxy
        · exact (List.pairwise_cons.1 hpair.2.1).1 y' hv _ hxy hxy'
      · exact ⟨x', hx', hxy'⟩

end Symbolic
