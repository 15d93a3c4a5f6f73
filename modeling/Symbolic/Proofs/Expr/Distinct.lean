import Symbolic.Buckets

/-!
The distinct elements of a list: elements of it, none equal to another, and one equal to each.
-/

namespace Symbolic

variable {α : Type} {key : α → UInt64} {eq : α → α → Bool} {seen : Buckets α} {xs : List α}

theorem mem_of_mem_distinctFrom : ∀ x ∈ distinctFrom key eq seen xs, x ∈ xs := by
  induction xs generalizing seen with
  | nil => intro x hx; cases hx
  | cons y ys ih =>
    intro x hx
    rw [distinctFrom] at hx
    split at hx
    · exact List.mem_cons_of_mem _ (ih x hx)
    · rcases List.mem_cons.1 hx with rfl | hx
      · exact List.mem_cons_self
      · exact List.mem_cons_of_mem _ (ih x hx)

/-- What has not been seen is equal to one of the distinct elements. -/
theorem exists_mem_distinctFrom (hrefl : ∀ x, eq x x = true) :
    ∀ x ∈ xs, (seen.find? (key x) (eq x)).isSome = true ∨
      ∃ y ∈ distinctFrom key eq seen xs, eq x y = true := by
  induction xs generalizing seen with
  | nil => intro x hx; cases hx
  | cons y ys ih =>
    intro x hx
    rw [distinctFrom]
    split
    · next hy =>
      rcases List.mem_cons.1 hx with rfl | hx
      · exact .inl hy
      · exact ih x hx
    · rcases List.mem_cons.1 hx with rfl | hx
      · exact .inr ⟨x, List.mem_cons_self, hrefl x⟩
      · rcases @ih (seen.push (key y) y) x hx with h | ⟨z, hz, hxz⟩
        · -- it is equal to what has just been put out, or to what was seen before
          rw [Buckets.find?_push] at h
          split at h
          · next hxy => exact .inr ⟨y, List.mem_cons_self, (Bool.and_eq_true _ _ ▸ hxy).2⟩
          · exact .inl h
        · exact .inr ⟨z, List.mem_cons_of_mem _ hz, hxz⟩

theorem exists_mem_distinct (hrefl : ∀ x, eq x x = true) {x : α} (hx : x ∈ xs) :
    ∃ y ∈ distinct key eq xs, eq x y = true := by
  have hfrom : (Buckets.empty.find? (key x) (eq x)).isSome = true ∨
      ∃ y ∈ distinctFrom key eq .empty xs, eq x y = true := exists_mem_distinctFrom hrefl x hx
  rcases hfrom with h | h
  · rw [Buckets.find?_empty] at h
    cases h
  · exact h

/-- None of the distinct elements is equal to one that was seen before, nor to an earlier one. -/
theorem distinctFrom_apart (hkey : ∀ x y, eq x y = true → key x = key y) :
    (∀ x ∈ distinctFrom key eq seen xs, (seen.find? (key x) (eq x)).isSome = false) ∧
      (distinctFrom key eq seen xs).Pairwise fun x y => eq y x = false := by
  induction xs generalizing seen with
  | nil => exact ⟨List.forall_mem_nil _, .nil⟩
  | cons y ys ih =>
    rw [distinctFrom]
    split
    · exact ih
    next hy =>
    obtain ⟨hunseen, happart⟩ := @ih (seen.push (key y) y)
    -- what comes later has not been seen, and it is not equal to what is put out first
    have hlater : ∀ x ∈ distinctFrom key eq (seen.push (key y) y) ys,
        (seen.find? (key x) (eq x)).isSome = false ∧ eq x y = false := by
      intro x hx
      have h := hunseen x hx
      rw [Buckets.find?_push] at h
      split at h
      · cases h
      next hxy =>
      refine ⟨h, Bool.not_eq_true _ ▸ fun hsame => hxy ?_⟩
      rw [Bool.and_eq_true, decide_eq_true_eq]
      exact ⟨(hkey x y hsame).symm, hsame⟩
    refine ⟨List.forall_mem_cons.2 ⟨Bool.not_eq_true _ ▸ hy, fun x hx => (hlater x hx).1⟩, ?_⟩
    exact List.pairwise_cons.2 ⟨fun x hx => (hlater x hx).2, happart⟩

end Symbolic
